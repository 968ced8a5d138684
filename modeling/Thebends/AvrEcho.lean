import Thebends.AvrRing
import Thebends.LibRun

/-! The serial echo program, with its interrupt handlers between the steps of `dump_buffer`, and what becomes of the
bytes it receives. An index has eight bits, so that each access to one is a step by itself. -/

namespace Thebends.Avr

open LibRun

/-- Where `dump_buffer` is, and `writec` within it. -/
inductive Pc
  /-- The condition of the loop; also between two calls. -/
  | loop
  /-- `receive[receive_head]` is read. -/
  | read
  /-- `writec`, where it looks at `TXCIE`. -/
  | writec (data : UInt8)
  /-- `writec` tests whether the buffer is full. -/
  | full (data : UInt8)
  | store (data : UInt8)
  /-- `ADVANCE(transmit_tail)`. -/
  | stored
  /-- `UDR = data`. -/
  | send (data : UInt8)
  /-- `TXCIE` is set. -/
  | enable
  /-- `ADVANCE(receive_head)`. -/
  | advance
  deriving DecidableEq, Repr

/-- The buffers, the flag of the transmitter's interrupt, what was written to `UDR`, and what the receiver's interrupt
has stored and `dump_buffer` has taken so far. -/
structure Echo where
  receive : Ring
  transmit : Ring
  txcie : Bool
  sent : List UInt8
  pc : Pc
  stored : List UInt8
  taken : List UInt8

inductive Event
  /-- `SIG_UART_RECV`, with what is in `UDR`. -/
  | received (udr : UInt8)
  /-- `SIG_UART_TRANS`. -/
  | transmitted
  /-- A step of `dump_buffer`. -/
  | dump
  deriving DecidableEq, Repr

namespace Echo

def init : Echo := ⟨.new, .new, false, [], .loop, [], []⟩

/-- `SIG_UART_RECV`. -/
def sigUartRecv (s : Echo) (udr : UInt8) : Echo :=
  if s.receive.Full then s
  else { s with receive := (s.receive.store udr).advanceTail, stored := s.stored ++ [udr] }

/-- `SIG_UART_TRANS`. -/
def sigUartTrans (s : Echo) : Echo :=
  if s.transmit.head ≠ s.transmit.tail then
    { s with sent := s.sent ++ [s.transmit.get], transmit := s.transmit.advanceHead }
  else { s with txcie := false }

/-- A step of `dump_buffer`, or of the `writec` that it calls. -/
def dumpBuffer (s : Echo) : Echo :=
  match s.pc with
  | .loop => if s.receive.head ≠ s.receive.tail then { s with pc := .read } else s
  | .read => { s with pc := .writec s.receive.get, taken := s.taken ++ [s.receive.get] }
  | .writec data => { s with pc := if s.txcie then .full data else .send data }
  | .full data => { s with pc := if s.transmit.Full then .advance else .store data }
  | .store data => { s with pc := .stored, transmit := s.transmit.store data }
  | .stored => { s with pc := .advance, transmit := s.transmit.advanceTail }
  | .send data => { s with pc := .enable, sent := s.sent ++ [data] }
  | .enable => { s with pc := .advance, txcie := true }
  | .advance => { s with pc := .loop, receive := s.receive.advanceHead }

/-- The transmitter's interrupt comes only where it is enabled. -/
def step (s : Echo) : Event → Echo
  | .received udr => s.sigUartRecv udr
  | .transmitted => if s.txcie then s.sigUartTrans else s
  | .dump => s.dumpBuffer

def Step (s : Echo) (event : Event) (s' : Echo) : Prop := s' = s.step event

/-- What is in the receive buffer and `dump_buffer` has not taken yet; once it has looked at the condition of its loop
it takes the byte at the head, whatever the handler does. -/
def waitingAt (receive : Ring) : Pc → List UInt8
  | .loop => receive.contents
  | .read => receive.get :: receive.advanceHead.contents
  | _ => receive.advanceHead.contents

def waiting (s : Echo) : List UInt8 := waitingAt s.receive s.pc

/-- Nothing that was stored is lost. -/
def Accounted (s : Echo) : Prop := s.stored = s.taken ++ s.waiting

/-- The receive buffer is full, and the handler does not see it. -/
def Crowded (s : Echo) : Prop :=
  if s.pc = .loop then s.receive.tail = 254 ∧ s.receive.head = 0 else s.receive.head = s.receive.tail

/-- No byte comes into a buffer that is full unseen. -/
def Safe (s : Echo) (event : Event) : Prop := ∀ udr, event = .received udr → ¬s.Crowded

/-! ### What is waiting -/

theorem waitingAt_of_ne (receive : Ring) {pc : Pc} (hloop : pc ≠ .loop) (hread : pc ≠ .read) :
    waitingAt receive pc = receive.advanceHead.contents := by
  cases pc with
  | loop => exact absurd rfl hloop
  | read => exact absurd rfl hread
  | _ => rfl

/-- A step of `dump_buffer` takes what was waiting first, or nothing. -/
theorem dumpBuffer_waiting (s : Echo) :
    s.dumpBuffer.stored = s.stored ∧ s.dumpBuffer.taken ++ s.dumpBuffer.waiting = s.taken ++ s.waiting := by
  obtain ⟨receive, transmit, txcie, sent, pc, stored, taken⟩ := s
  cases pc with
  | loop =>
      by_cases h : receive.head ≠ receive.tail
      · rw [dumpBuffer, if_pos h]
        exact ⟨rfl, congrArg _ (receive.contents_eq_cons h).symm⟩
      · rw [dumpBuffer, if_neg h]
        exact ⟨rfl, rfl⟩
  | read => exact ⟨rfl, List.append_assoc taken [receive.get] receive.advanceHead.contents⟩
  | writec data => cases txcie <;> exact ⟨rfl, rfl⟩
  | full data =>
      dsimp only [dumpBuffer]
      split_ifs <;> exact ⟨rfl, rfl⟩
  | store data => exact ⟨rfl, rfl⟩
  | stored => exact ⟨rfl, rfl⟩
  | send data => exact ⟨rfl, rfl⟩
  | enable => exact ⟨rfl, rfl⟩
  | advance => exact ⟨rfl, rfl⟩

theorem sigUartTrans_account (s : Echo) :
    s.sigUartTrans.stored = s.stored ∧ s.sigUartTrans.taken = s.taken ∧ s.sigUartTrans.waiting = s.waiting := by
  rw [sigUartTrans]
  split_ifs
  · exact ⟨rfl, rfl, rfl⟩
  · exact ⟨rfl, rfl, rfl⟩

section Received

variable {s : Echo} (udr : UInt8)

theorem sigUartRecv_of_not_full (h : ¬s.receive.Full) :
    s.sigUartRecv udr = { s with receive := (s.receive.store udr).advanceTail, stored := s.stored ++ [udr] } := if_neg h

theorem not_crowded_of_full (h : s.receive.Full) : ¬s.Crowded := by
  have hfull : s.receive.tail.toNat + 1 = s.receive.head.toNat := h
  rw [Crowded]
  split_ifs
  · rintro ⟨htail, hhead⟩
    rw [htail, hhead] at hfull
    cases hfull
  · intro heq
    rw [heq] at hfull
    omega

theorem waiting_of_not_full (h : ¬s.receive.Full) :
    (s.sigUartRecv udr).waiting = waitingAt (s.receive.store udr).advanceTail s.pc := by
  rw [sigUartRecv_of_not_full udr h, waiting]

/-- What is stored waits behind all the rest. -/
theorem waiting_received (hfull : ¬s.receive.Full) (hroom : ¬s.Crowded) :
    (s.sigUartRecv udr).waiting = s.waiting ++ [udr] := by
  rw [waiting_of_not_full udr hfull, waiting]
  rw [Crowded] at hroom
  generalize s.receive = receive at hfull hroom ⊢
  generalize s.pc = pc at hroom ⊢
  by_cases hloop : pc = .loop
  · subst hloop
    rw [if_pos rfl, ← receive.size_eq_iff hfull] at hroom
    have hsize := receive.size_lt
    exact receive.contents_push udr (by omega)
  · rw [if_neg hloop] at hroom
    have hsize := receive.advanceHead.size_lt
    have hne : receive.advanceHead.size ≠ 254 := fun heq => hroom (receive.size_advanceHead_eq_iff.mp heq)
    have hbehind := receive.advanceHead.contents_push udr (by omega)
    by_cases hread : pc = .read
    · subst hread
      exact congrArg₂ List.cons (receive.get_push udr hroom) hbehind
    · rw [waitingAt_of_ne _ hloop hread, waitingAt_of_ne _ hloop hread]
      exact hbehind

/-- A byte that comes into a full buffer makes the buffer look empty. -/
theorem length_waiting_crowded (hfull : ¬s.receive.Full) (hcrowded : s.Crowded) :
    (s.sigUartRecv udr).waiting.length < s.waiting.length := by
  rw [waiting_of_not_full udr hfull, waiting]
  rw [Crowded] at hcrowded
  generalize s.receive = receive at hfull hcrowded ⊢
  generalize s.pc = pc at hcrowded ⊢
  by_cases hloop : pc = .loop
  · subst hloop
    rw [if_pos rfl, ← receive.size_eq_iff hfull] at hcrowded
    rw [waitingAt, waitingAt, receive.contents_push_last udr hcrowded, receive.length_contents, hcrowded]
    decide
  · rw [if_neg hloop, ← receive.size_advanceHead_eq_iff] at hcrowded
    have hlast := receive.advanceHead.contents_push_last udr hcrowded
    have hlength := receive.advanceHead.length_contents.trans hcrowded
    by_cases hread : pc = .read
    · subst hread
      rw [waitingAt, waitingAt, receive.advanceHead_push, hlast, List.length_cons, List.length_cons, hlength]
      decide
    · rw [waitingAt_of_ne _ hloop hread, waitingAt_of_ne _ hloop hread, receive.advanceHead_push, hlast, hlength]
      decide

end Received

/-- What one event does to the account. -/
theorem step_accounted_iff {s : Echo} (hs : s.Accounted) (event : Event) : (s.step event).Accounted ↔ s.Safe event := by
  cases event with
  | dump =>
      obtain ⟨hstored, htaken⟩ := s.dumpBuffer_waiting
      refine iff_of_true ?_ fun udr h => nomatch h
      exact hstored.trans (hs.trans htaken.symm)
  | transmitted =>
      refine iff_of_true ?_ fun udr h => nomatch h
      rw [step]
      split
      · obtain ⟨hstored, htaken, hwaiting⟩ := s.sigUartTrans_account
        rw [Accounted, hstored, htaken, hwaiting]
        exact hs
      · exact hs
  | received udr =>
      have hsafe : s.Safe (.received udr) ↔ ¬s.Crowded := ⟨fun h => h udr rfl, fun h _ _ => h⟩
      rw [hsafe]
      by_cases hfull : s.receive.Full
      · refine iff_of_true ?_ (not_crowded_of_full hfull)
        rw [step, sigUartRecv, if_pos hfull]
        exact hs
      · have hstored : (s.sigUartRecv udr).stored = s.stored ++ [udr] := by rw [sigUartRecv_of_not_full udr hfull]
        have htaken : (s.sigUartRecv udr).taken = s.taken := by rw [sigUartRecv_of_not_full udr hfull]
        constructor
        · intro haccounted hcrowded
          have hshort := length_waiting_crowded udr hfull hcrowded
          have hbefore := congrArg List.length hs
          have hafter := congrArg List.length haccounted
          rw [step, hstored, htaken] at hafter
          rw [List.length_append] at hbefore hafter
          rw [List.length_append, List.length_singleton] at hafter
          omega
        · intro hroom
          rw [Accounted, step, hstored, htaken, waiting_received udr hfull hroom, ← List.append_assoc]
          exact congrArg (· ++ [udr]) hs

/-! ### `dump_buffer` by itself -/

/-- How far it is to the next look at the condition of the loop, or to the next byte. -/
def rank : Pc → Nat
  | .read => 0
  | .loop => 1
  | .advance => 2
  | .enable => 3
  | .stored => 3
  | .send _ => 4
  | .store _ => 4
  | .full _ => 5
  | .writec _ => 6

/-- The steps that are left. -/
def left (s : Echo) : Nat := 8 * s.waiting.length + rank s.pc

theorem left_dumpBuffer (s : Echo) (h : ¬(s.pc = .loop ∧ s.receive.head = s.receive.tail)) :
    s.dumpBuffer.left < s.left := by
  obtain ⟨receive, transmit, txcie, sent, pc, stored, taken⟩ := s
  cases pc with
  | loop =>
      have hne : receive.head ≠ receive.tail := fun heq => h ⟨rfl, heq⟩
      rw [dumpBuffer, if_pos hne, left, left, waiting, waiting, waitingAt, waitingAt, receive.contents_eq_cons hne]
      exact Nat.lt_succ_self _
  | read =>
      have hlength : 8 * (receive.advanceHead.contents.length + 1) = 8 * receive.advanceHead.contents.length + 8 :=
        Nat.mul_succ 8 _
      calc
        _ = 8 * receive.advanceHead.contents.length + 6 := rfl
        _ < 8 * receive.advanceHead.contents.length + 8 := Nat.lt_succ_of_lt (Nat.lt_succ_self _)
        _ = _ := hlength.symm
  | writec data =>
      cases txcie with
      | false => exact Nat.add_lt_add_left (show 4 < 6 by decide) _
      | true => exact Nat.add_lt_add_left (show 5 < 6 by decide) _
  | full data =>
      dsimp only [dumpBuffer]
      split_ifs
      · exact Nat.add_lt_add_left (show 2 < 5 by decide) _
      · exact Nat.add_lt_add_left (show 4 < 5 by decide) _
  | store data => exact Nat.lt_succ_self _
  | stored => exact Nat.lt_succ_self _
  | send data => exact Nat.lt_succ_self _
  | enable => exact Nat.lt_succ_self _
  | advance => exact Nat.lt_succ_self _

/-- **What waits is what `dump_buffer` takes.** Left alone it comes to an empty buffer, and has taken just what was
waiting. -/
theorem dumpBuffer_drains (s : Echo) : ∃ count, ∃ s', dumpBuffer^[count] s = s' ∧ s'.pc = .loop ∧
    s'.receive.head = s'.receive.tail ∧ s'.stored = s.stored ∧ s'.taken = s.taken ++ s.waiting := by
  by_cases h : s.pc = .loop ∧ s.receive.head = s.receive.tail
  · have hempty : s.waiting = [] := by
      rw [waiting, h.1, waitingAt, ← List.length_eq_zero_iff, Ring.length_contents]
      exact s.receive.size_eq_zero_iff.mpr h.2
    refine ⟨0, s, rfl, h.1, h.2, rfl, ?_⟩
    rw [hempty, List.append_nil]
  · have hless := left_dumpBuffer s h
    obtain ⟨hstored, htaken⟩ := s.dumpBuffer_waiting
    obtain ⟨count, s', hcount, hpc, hhead, hstored', htaken'⟩ := dumpBuffer_drains s.dumpBuffer
    exact ⟨count + 1, s', hcount, hpc, hhead, hstored'.trans hstored, htaken'.trans htaken⟩
termination_by s.left

end Echo

/-- **When no byte is lost**: just where none comes while the buffer is full and the test does not see it, which is
where the tail is at the last cell, or where the byte at the head is about to be passed. -/
theorem accounted_iff_safe (events : List Event) (finish : Echo) (h : Run Echo.Step Echo.init events finish) :
    (∀ before s, before <+: events → Run Echo.Step Echo.init before s → s.Accounted) ↔
      Run (Restrict Echo.Step Echo.Safe) Echo.init events finish := by
  have hfun : ∀ before label after other, Echo.Step before label after → Echo.Step before label other →
      after = other := fun _ _ _ _ h h' => h.trans h'.symm
  have hstep : ∀ before label after, True → before.Accounted → Echo.Step before label after →
      (after.Accounted ↔ before.Safe label) ∧ (after.Accounted → True) := by
    rintro before label after - hs rfl
    exact ⟨Echo.step_accounted_iff hs label, fun _ => trivial⟩
  exact Run.forall_iff_restrict hfun hstep trivial rfl h

/-- A byte comes and is taken. -/
theorem accounted_iff_safe_one : ∃ finish,
    Run Echo.Step Echo.init [.received 65, .dump, .dump] finish ∧ finish.taken = [65] ∧ finish.Accounted := by
  have hroom : ¬Echo.init.Crowded := fun h => nomatch ((if_pos rfl).mp h).1
  have hrun : Run (Restrict Echo.Step Echo.Safe) Echo.init [.received 65, .dump, .dump] _ :=
    .cons ⟨fun _ _ => hroom, rfl⟩ (.cons ⟨(fun _ h => nomatch h), rfl⟩ (.single ⟨(fun _ h => nomatch h), rfl⟩))
  exact ⟨_, hrun.forget, rfl, (accounted_iff_safe _ _ hrun.forget).mpr hrun _ _ List.prefix_rfl hrun.forget⟩

/-- Bytes that come before `dump_buffer` does. -/
theorem run_received {n : Nat} (h : n < bufsiz) : ∃ s, Run Echo.Step Echo.init (List.replicate n (.received 7)) s ∧
    s.Accounted ∧ s.pc = .loop ∧ s.receive.head = 0 ∧ s.receive.tail.toNat = n := by
  induction n with
  | zero => exact ⟨Echo.init, .nil _, rfl, rfl, rfl, rfl⟩
  | succ n ih =>
      obtain ⟨s, hrun, hs, hpc, hhead, htail⟩ := ih (Nat.lt_of_succ_lt h)
      have hlt : n + 1 < 255 := h
      have hfull : ¬s.receive.Full := by
        rw [Ring.Full, hhead]
        exact Nat.succ_ne_zero _
      have hroom : ¬s.Crowded := by
        rw [Echo.Crowded, if_pos hpc]
        rintro ⟨hlast, -⟩
        rw [hlast] at htail
        have hlast' : 254 = n := htail
        omega
      have hstep : s.step (.received 7) = { s with
          receive := (s.receive.store 7).advanceTail, stored := s.stored ++ [7] } := Echo.sigUartRecv_of_not_full 7 hfull
      have haccounted := (Echo.step_accounted_iff hs (.received 7)).mpr fun _ _ => hroom
      have htail' : (advance s.receive.tail).toNat = n + 1 := by
        rw [advance_toNat, htail]
        exact Nat.mod_eq_of_lt hlt
      rw [List.replicate_succ']
      rw [hstep] at haccounted
      exact ⟨_, hrun.snoc hstep.symm, haccounted, hpc, hhead, htail'⟩

/-- 255 bytes, and then `dump_buffer` finds none. -/
theorem buffer_lost : ∃ s, Run Echo.Step Echo.init (List.replicate 255 (.received 7)) s ∧ ¬s.Accounted := by
  obtain ⟨s, hrun, hs, hpc, hhead, htail⟩ := run_received (Nat.lt_succ_self 254)
  have hcrowded : s.Crowded := (if_pos hpc).mpr ⟨UInt8.toNat_inj.mp htail, hhead⟩
  rw [List.replicate_succ']
  exact ⟨_, hrun.snoc rfl, fun haccounted => (Echo.step_accounted_iff hs _).mp haccounted 7 rfl hcrowded⟩

end Thebends.Avr
