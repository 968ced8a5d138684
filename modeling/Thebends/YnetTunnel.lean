import Thebends.LibSockets
import Thebends.YnetBufferedWriter

/-! The forwarding of connections (`tunnel.cpp`, with `tcp_server.cpp`): the callbacks of the server and of the
tunnel, in whatever order the select loop executes them. What the system calls answer is an input. The process can end
in the middle of a callback, and then the sockets are left as they are. -/

namespace Thebends.Ynet

open LibSockets

/-- `TcpTunnel`, with the `Select` it points to, its server's `sock_` (if that is not -1) and the sockets of the
process. -/
structure TcpTunnel where
  select : Select
  sockets : Sockets
  sock : Option Fd
  pairs : Fd → Option Fd

/-- What the system calls of one callback answer: `accept` and `socket` return a descriptor, `connect` succeeds, `read`
returns some bytes (none at the end of the stream), and `write` answers each time it is tried. -/
structure Answers where
  accept : Option Fd
  socket : Option Fd
  connect : Bool
  read : Option Bytes
  write : List Outcome

namespace TcpTunnel

/-- How the process ended, and what it left. -/
abbrev Halt := Fault × TcpTunnel

/-- The callback that is made in `TCPServer::Start`. -/
def acceptCallback : Callback := 0

/-- The callbacks that are made in `SetForward`. -/
def readCallback : Callback := 1

def addReadFd (t : TcpTunnel) (fd : Fd) (cb : Callback) : Except Halt TcpTunnel :=
  match t.select.addReadFd fd cb with
  | .error message => .error (.exit message, t)
  | .ok select => .ok { t with select := select }

def removeReadFd (t : TcpTunnel) (fd : Fd) : Except Halt TcpTunnel :=
  match t.select.removeReadFd fd with
  | .error message => .error (.exit message, t)
  | .ok select => .ok { t with select := select }

/-- `Start`, where one of the calls after `socket` may fail. -/
def start (t : TcpTunnel) (socket : Option Fd) (failed : Option String) : Except Halt TcpTunnel :=
  match socket with
  | none => .error (.exit "socket()", t)
  | some fd =>
      let t := { t with sockets := t.sockets.make fd .listening, sock := some fd }
      match failed with
      | some message => .error (.exit message, t)
      | none => t.addReadFd fd acceptCallback

/-- `Stop`. -/
def stop (t : TcpTunnel) : Except Halt TcpTunnel :=
  match t.sock with
  | none => .ok t
  | some fd => do
      let t ← t.removeReadFd fd
      return { t with sockets := t.sockets.close fd, sock := none }

/-- `SetForward`. -/
def setForward (t : TcpTunnel) (sock : Fd) : Except Halt TcpTunnel := t.addReadFd sock readCallback

/-- `ClientConnected`. -/
def clientConnected (t : TcpTunnel) (client : Fd) (answers : Answers) : Except Halt TcpTunnel :=
  if (t.pairs client).isSome then .error (.assertion, t)
  else
    match answers.socket with
    | none => .error (.exit "socket()", { t with sockets := t.sockets.close client })
    | some remote =>
        let t := { t with sockets := t.sockets.make remote .connected }
        if !answers.connect then .error (.exit "connect()", t)
        else do
          let t ← t.setForward client
          let t ← t.setForward remote
          return { t with pairs := Function.update (Function.update t.pairs remote (some client)) client (some remote) }

/-- `TCPServer::Accept`. -/
def accept (t : TcpTunnel) (sock : Fd) (answers : Answers) : Except Halt TcpTunnel :=
  if t.sock ≠ some sock then .error (.assertion, t)
  else
    match answers.accept with
    | none => .error (.exit "accept", t)
    | some client => clientConnected { t with sockets := t.sockets.make client .accepted } client answers

/-- `Close`. -/
def close (t : TcpTunnel) (sock : Fd) : Except Halt TcpTunnel := do
  let t ← t.removeReadFd sock
  return { t with sockets := t.sockets.close sock, pairs := Function.update t.pairs sock none }

/-- `Read` from `tryagain` on. -/
def tryAgain (t : TcpTunnel) (sock sockPair : Fd) (buf : Bytes) : List Outcome → Except Halt TcpTunnel
  | [] => .error (.endless, t)
  | .eagain :: answers => t.tryAgain sock sockPair buf answers
  | .failed :: _ => .error (.exit s!"write() ({sockPair})", t)
  | .wrote count :: _ =>
      let t := { t with sockets := t.sockets.send sockPair (buf.take count) }
      if min count buf.length = 0 then do
        let t ← t.close sock
        t.close sockPair
      else if min count buf.length = buf.length then .ok t
      else .error (.assertion, t)

/-- `Read`. -/
def read (t : TcpTunnel) (sock : Fd) (answers : Answers) : Except Halt TcpTunnel :=
  match t.pairs sock with
  | none => .error (.assertion, t)
  | some sockPair =>
      match answers.read with
      | none => .error (.exit s!"read() ({sock})", t)
      | some [] => do
          let t ← t.close sock
          t.close sockPair
      | some buf => tryAgain { t with sockets := t.sockets.receive sock buf } sock sockPair buf answers.write

/-- What happens: the tunnel is started or stopped, and the loop comes to a descriptor that was ready when it asked. -/
inductive Happening
  | start (socket : Option Fd) (failed : Option String)
  | stop
  | ready (fd : Fd) (answers : Answers)

/-- The loop executes the callback that is registered by now, if there is one. -/
def perform (t : TcpTunnel) : Happening → Except Halt TcpTunnel
  | .start socket failed => t.start socket failed
  | .stop => t.stop
  | .ready fd answers =>
      match t.select.read.callbacks.lookup fd with
      | none => .ok t
      | some cb => if cb = acceptCallback then t.accept fd answers else t.read fd answers

/-- The system returns free descriptors, and nobody starts the tunnel while it is started. -/
def Possible (t : TcpTunnel) : Happening → Prop
  | .start socket _ => t.sock = none ∧ ∀ fd, socket = some fd → t.sockets.table fd = none
  | .stop => True
  | .ready _ answers =>
      (∀ client, answers.accept = some client → t.sockets.table client = none) ∧
        ∀ remote, answers.socket = some remote → t.sockets.table remote = none ∧ answers.accept ≠ some remote

def Step (t : TcpTunnel) (happening : Happening) (t' : TcpTunnel) : Prop :=
  t.Possible happening ∧ t.perform happening = .ok t'

/-- A new tunnel. -/
def new : TcpTunnel := ⟨Select.new, Sockets.empty, none, fun _ => none⟩

/-! ### Pairs of sockets -/

/-- One socket was accepted, and the other one connected right after it. -/
def Opened (s : Sockets) (client remote : Nat) : Prop :=
  (s.socket client).origin = .accepted ∧ (s.socket remote).origin = .connected ∧ remote = client + 1

/-- The two sockets of one connection through the tunnel. -/
def Partners (s : Sockets) (i j : Nat) : Prop := i < s.next ∧ j < s.next ∧ (Opened s i j ∨ Opened s j i)

theorem Partners.symm {s : Sockets} {i j : Nat} (h : Partners s i j) : Partners s j i := ⟨h.2.1, h.1, h.2.2.symm⟩

theorem Partners.unique {s : Sockets} {i j k : Nat} (h : Partners s i j) (h' : Partners s i k) : j = k := by
  obtain ⟨-, -, ⟨hi, hj, hnext⟩ | ⟨hj, hi, hnext⟩⟩ := h
  · obtain ⟨-, -, ⟨-, -, hnext'⟩ | ⟨-, hi', -⟩⟩ := h'
    · exact hnext.trans hnext'.symm
    · rw [hi] at hi'
      cases hi'
  · obtain ⟨-, -, ⟨hi', -, -⟩ | ⟨-, -, hnext'⟩⟩ := h'
    · rw [hi] at hi'
      cases hi'
    · omega

theorem Partners.ne {s : Sockets} {i j : Nat} (h : Partners s i j) : i ≠ j := by
  obtain ⟨-, -, ⟨-, -, hnext⟩ | ⟨-, -, hnext⟩⟩ := h
  · omega
  · omega

theorem Partners.not_listening {s : Sockets} {i j : Nat} (h : Partners s i j) : (s.socket i).origin ≠ .listening := by
  obtain ⟨-, -, ⟨hi, -, -⟩ | ⟨-, hi, -⟩⟩ := h
  · rw [hi]
    exact Origin.noConfusion
  · rw [hi]
    exact Origin.noConfusion

/-- Who is a partner depends on how the sockets were made. -/
theorem partners_congr {s s' : Sockets} (hnext : s'.next = s.next)
    (horigin : ∀ i, (s'.socket i).origin = (s.socket i).origin) (i j : Nat) : Partners s' i j ↔ Partners s i j := by
  rw [Partners, Partners, Opened, Opened, Opened, Opened, hnext, horigin, horigin]

/-- The descriptors of the tunnel, its map and the loop say the same. -/
structure Paired (t : TcpTunnel) : Prop where
  wellFormed : t.sockets.WellFormed
  watched : ∀ fd, t.select.read.callbacks.lookup fd =
    if t.sock = some fd then some acceptCallback else if (t.pairs fd).isSome then some readCallback else none
  listening : ∀ fd, t.sock = some fd → ∃ i, t.sockets.table fd = some i ∧ (t.sockets.socket i).origin = .listening
  pairs : ∀ fd other, t.pairs fd = some other ↔
    ∃ i j, Partners t.sockets i j ∧ t.sockets.table fd = some i ∧ t.sockets.table other = some j
  together : ∀ i j, Partners t.sockets i j → t.sockets.IsOpen i → t.sockets.IsOpen j
  accepted : ∀ i < t.sockets.next, (t.sockets.socket i).origin = .accepted →
    i + 1 < t.sockets.next ∧ (t.sockets.socket (i + 1)).origin = .connected
  connected : ∀ i < t.sockets.next, (t.sockets.socket i).origin = .connected →
    ∃ j, i = j + 1 ∧ (t.sockets.socket j).origin = .accepted

theorem paired_new : new.Paired where
  wellFormed := Sockets.wellFormed_empty
  watched _ := rfl
  listening _ h := by cases h
  pairs fd other := by
    refine iff_of_false (by rintro ⟨⟩) ?_
    rintro ⟨i, j, -, htable, -⟩
    cases htable
  together i j h := absurd h.1 (Nat.not_lt_zero i)
  accepted i h := absurd h (Nat.not_lt_zero i)
  connected i h := absurd h (Nat.not_lt_zero i)

section

variable {t : TcpTunnel}

theorem addReadFd_ok {fd : Fd} (h : t.select.read.callbacks.lookup fd = none) (cb : Callback) :
    ∃ select, t.addReadFd fd cb = .ok { t with select := select } ∧
      ∀ other, select.read.callbacks.lookup other = if other = fd then some cb else t.select.read.callbacks.lookup other := by
  obtain ⟨select, hadd, hlookup⟩ := Select.addReadFd_fresh h cb
  refine ⟨select, ?_, hlookup⟩
  rw [addReadFd, hadd]

theorem removeReadFd_ok {fd : Fd} {cb : Callback} (h : t.select.read.callbacks.lookup fd = some cb) :
    ∃ select, t.removeReadFd fd = .ok { t with select := select } ∧
      ∀ other, select.read.callbacks.lookup other = if other = fd then none else t.select.read.callbacks.lookup other := by
  obtain ⟨select, hremove, hlookup⟩ := Select.removeReadFd_registered h
  refine ⟨select, ?_, hlookup⟩
  rw [removeReadFd, hremove]

theorem close_ok {fd : Fd} {cb : Callback} (h : t.select.read.callbacks.lookup fd = some cb) :
    ∃ select, t.close fd =
        .ok { t with select := select, sockets := t.sockets.close fd, pairs := Function.update t.pairs fd none } ∧
      ∀ other, select.read.callbacks.lookup other = if other = fd then none else t.select.read.callbacks.lookup other := by
  obtain ⟨select, hremove, hlookup⟩ := removeReadFd_ok h
  refine ⟨select, ?_, hlookup⟩
  rw [close, hremove]
  rfl

namespace Paired

theorem partner (h : t.Paired) {fd other : Fd} (hpair : t.pairs fd = some other) : t.pairs other = some fd := by
  obtain ⟨i, j, hpartners, hi, hj⟩ := (h.pairs fd other).mp hpair
  exact (h.pairs other fd).mpr ⟨j, i, hpartners.symm, hj, hi⟩

theorem not_server (h : t.Paired) {fd other : Fd} (hpair : t.pairs fd = some other) : t.sock ≠ some fd := by
  intro hsock
  obtain ⟨i, j, hpartners, hi, -⟩ := (h.pairs fd other).mp hpair
  obtain ⟨k, hk, hlistening⟩ := h.listening fd hsock
  rw [hi, Option.some.injEq] at hk
  subst hk
  exact hpartners.not_listening hlistening

theorem lookup (h : t.Paired) {fd other : Fd} (hpair : t.pairs fd = some other) :
    t.select.read.callbacks.lookup fd = some readCallback := by
  rw [h.watched, if_neg (h.not_server hpair), hpair, Option.isSome_some, if_pos rfl]

/-- Only the bytes of sockets were changed. -/
theorem of_moved (h : t.Paired) {sockets : Sockets} (hnext : sockets.next = t.sockets.next)
    (htable : sockets.table = t.sockets.table) (horigin : ∀ i, (sockets.socket i).origin = (t.sockets.socket i).origin) :
    Paired { t with sockets := sockets } := by
  have hpartners := partners_congr hnext horigin
  have hopen : ∀ i, sockets.IsOpen i ↔ t.sockets.IsOpen i := fun i => by rw [Sockets.IsOpen, htable]; rfl
  constructor
  · exact ⟨by rw [htable, hnext]; exact h.wellFormed.made, by rw [htable]; exact h.wellFormed.unique⟩
  · exact h.watched
  · intro fd hfd
    obtain ⟨i, hi, hlistening⟩ := h.listening fd hfd
    exact ⟨i, by rw [htable]; exact hi, by rw [horigin]; exact hlistening⟩
  · intro fd other
    simp only [hpartners, htable]
    exact h.pairs fd other
  · intro i j hij hi
    rw [hopen] at hi ⊢
    exact h.together i j ((hpartners i j).mp hij) hi
  · intro i hi hi'
    rw [hnext] at hi ⊢
    rw [horigin] at hi' ⊢
    exact h.accepted i hi hi'
  · intro i hi hi'
    rw [hnext] at hi
    rw [horigin] at hi'
    obtain ⟨j, hj, haccepted⟩ := h.connected i hi hi'
    exact ⟨j, hj, by rw [horigin]; exact haccepted⟩

/-- `Read` closes both sockets of a connection, and the process goes on. -/
theorem close_both (h : t.Paired) {fd other : Fd} (hpair : t.pairs fd = some other) {i j : Nat}
    (hij : Partners t.sockets i j) (hi : t.sockets.table fd = some i) (hj : t.sockets.table other = some j) :
    ∃ t', (t.close fd >>= fun t => t.close other) = .ok t' ∧ t'.Paired ∧ t'.sockets.socket = t.sockets.socket ∧
      t'.sockets.next = t.sockets.next ∧ ∀ k, t'.sockets.IsOpen k ↔ k ≠ j ∧ k ≠ i ∧ t.sockets.IsOpen k := by
  have hne : other ≠ fd := by
    rintro rfl
    rw [hi, Option.some.injEq] at hj
    exact hij.ne hj
  obtain ⟨select, hclose, hlookup⟩ := close_ok (h.lookup hpair)
  have hother : select.read.callbacks.lookup other = some readCallback := by
    rw [hlookup, if_neg hne, h.lookup (h.partner hpair)]
  obtain ⟨select', hclose', hlookup'⟩ := close_ok (t :=
    { t with select := select, sockets := t.sockets.close fd, pairs := Function.update t.pairs fd none }) hother
  have htable : ∀ f, ((t.sockets.close fd).close other).table f =
      if f = other then none else if f = fd then none else t.sockets.table f := by
    intro f
    rw [Sockets.table_close, Sockets.table_close]
  have hpairs : ∀ f, Function.update (Function.update t.pairs fd none) other none f =
      if f = other then none else if f = fd then none else t.pairs f := by
    intro f
    rw [Function.update_apply, Function.update_apply]
  have hopen : ∀ k, ((t.sockets.close fd).close other).IsOpen k ↔ k ≠ j ∧ k ≠ i ∧ t.sockets.IsOpen k := by
    intro k
    have hj' : (t.sockets.close fd).table other = some j := by rw [Sockets.table_close, if_neg hne, hj]
    rw [Sockets.isOpen_close (h.wellFormed.close fd) hj', Sockets.isOpen_close h.wellFormed hi]
  refine ⟨_, LibExcept.bind_ok hclose hclose', ?_, rfl, rfl, hopen⟩
  constructor
  · exact (h.wellFormed.close fd).close other
  · intro f
    simp only [hlookup', hlookup, hpairs]
    by_cases hf : f = other
    · subst hf
      rw [if_pos rfl, if_pos rfl, if_neg (h.not_server (h.partner hpair))]
      rfl
    · rw [if_neg hf, if_neg hf]
      by_cases hf' : f = fd
      · subst hf'
        rw [if_pos rfl, if_pos rfl, if_neg (h.not_server hpair)]
        rfl
      · rw [if_neg hf', if_neg hf']
        exact h.watched f
  · intro f hf
    obtain ⟨k, hk, hlistening⟩ := h.listening f hf
    refine ⟨k, ?_, hlistening⟩
    have hf₁ : f ≠ other := fun heq => h.not_server (h.partner hpair) (heq ▸ hf)
    have hf₂ : f ≠ fd := fun heq => h.not_server hpair (heq ▸ hf)
    rw [htable, if_neg hf₁, if_neg hf₂, hk]
  · intro f g
    simp only [hpairs, htable]
    by_cases hf : f = other
    · subst hf
      simp
    · by_cases hf' : f = fd
      · subst hf'
        simp
      · rw [if_neg hf, if_neg hf', if_neg hf, if_neg hf']
        constructor
        · intro hfg
          have hg : g ≠ other := by
            rintro rfl
            have := h.partner hfg
            rw [h.partner hpair, Option.some.injEq] at this
            exact hf' this.symm
          have hg' : g ≠ fd := by
            rintro rfl
            have := h.partner hfg
            rw [hpair, Option.some.injEq] at this
            exact hf this.symm
          rw [if_neg hg, if_neg hg']
          exact (h.pairs f g).mp hfg
        · rintro ⟨k, l, hkl, hk, hl⟩
          refine (h.pairs f g).mpr ⟨k, l, hkl, hk, ?_⟩
          by_contra hnot
          split at hl
          · cases hl
          · split at hl
            · cases hl
            · exact hnot hl
  · intro k l hkl hk
    obtain ⟨hkj, hki, hk⟩ := (hopen k).mp hk
    refine (hopen l).mpr ⟨?_, ?_, h.together k l hkl hk⟩
    · rintro rfl
      exact hki (Partners.unique (Partners.symm hkl) hij.symm)
    · rintro rfl
      exact hkj (Partners.unique (Partners.symm hkl) hij)
  · exact h.accepted
  · exact h.connected

end Paired

/-! ### New sockets -/

theorem partners_make {s : Sockets} (h : ∀ i < s.next, (s.socket i).origin = .accepted → i + 1 < s.next) (fd : Fd)
    (origin : Origin) (i j : Nat) : Partners (s.make fd origin) i j ↔ Partners s i j := by
  have hopened : ∀ client remote, client < s.next + 1 → remote < s.next + 1 →
      (Opened (s.make fd origin) client remote ↔ client < s.next ∧ remote < s.next ∧ Opened s client remote) := by
    intro client remote hclient hremote
    simp only [Opened, Sockets.socket_make]
    constructor
    · rintro ⟨hone, htwo, rfl⟩
      have hlt : client < s.next := by omega
      rw [if_neg (by omega)] at hone
      have hlt' := h client hlt hone
      rw [if_neg (by omega)] at htwo
      exact ⟨hlt, hlt', hone, htwo, rfl⟩
    · rintro ⟨hlt, hlt', hone, htwo, rfl⟩
      rw [if_neg (by omega), if_neg (by omega)]
      exact ⟨hone, htwo, rfl⟩
  constructor
  · rintro ⟨hi, hj, hij | hji⟩
    · obtain ⟨hi', hj', hij⟩ := (hopened i j hi hj).mp hij
      exact ⟨hi', hj', Or.inl hij⟩
    · obtain ⟨hj', hi', hji⟩ := (hopened j i hj hi).mp hji
      exact ⟨hi', hj', Or.inr hji⟩
  · rintro ⟨hi, hj, hij⟩
    have hi' := Nat.lt_succ_of_lt hi
    have hj' := Nat.lt_succ_of_lt hj
    refine ⟨hi', hj', hij.imp (fun hij => ?_) fun hji => ?_⟩
    · exact (hopened i j hi' hj').mpr ⟨hi, hj, hij⟩
    · exact (hopened j i hj' hi').mpr ⟨hj, hi, hji⟩

theorem partners_make_both {s : Sockets} (client remote : Fd) (i j : Nat) :
    Partners ((s.make client .accepted).make remote .connected) i j ↔
      Partners s i j ∨ (i = s.next ∧ j = s.next + 1) ∨ (j = s.next ∧ i = s.next + 1) := by
  have hsocket : ∀ k, (((s.make client .accepted).make remote .connected).socket k).origin =
      if k = s.next + 1 then .connected else if k = s.next then .accepted else (s.socket k).origin := by
    intro k
    rw [Sockets.socket_make, show (s.make client .accepted).next = s.next + 1 from rfl]
    split
    · rfl
    · rw [Sockets.socket_make]
      split
      · rfl
      · rfl
  have hopened : ∀ i j, i < s.next + 2 → j < s.next + 2 →
      (Opened ((s.make client .accepted).make remote .connected) i j ↔
        (i < s.next ∧ j < s.next ∧ Opened s i j) ∨ (i = s.next ∧ j = s.next + 1)) := by
    intro i j hi hj
    rw [Opened, hsocket, hsocket]
    constructor
    · rintro ⟨hone, htwo, rfl⟩
      by_cases hlast : i = s.next
      · exact Or.inr ⟨hlast, by rw [hlast]⟩
      · rw [if_neg (by omega), if_neg hlast] at hone
        rw [if_neg (by omega)] at htwo
        by_cases hnext : i + 1 = s.next
        · rw [if_pos hnext] at htwo
          cases htwo
        · rw [if_neg hnext] at htwo
          exact Or.inl ⟨by omega, by omega, hone, htwo, rfl⟩
    · rintro (⟨hi', hj', hone, htwo, rfl⟩ | ⟨rfl, rfl⟩)
      · rw [if_neg (by omega), if_neg (by omega), if_neg (by omega), if_neg (by omega)]
        exact ⟨hone, htwo, rfl⟩
      · rw [if_neg (by omega), if_pos rfl, if_pos rfl]
        exact ⟨rfl, rfl, rfl⟩
  constructor
  · rintro ⟨hi, hj, hij | hji⟩
    · rcases (hopened i j hi hj).mp hij with ⟨hi', hj', hij⟩ | hnew
      · exact Or.inl ⟨hi', hj', Or.inl hij⟩
      · exact Or.inr (Or.inl hnew)
    · rcases (hopened j i hj hi).mp hji with ⟨hj', hi', hji⟩ | hnew
      · exact Or.inl ⟨hi', hj', Or.inr hji⟩
      · exact Or.inr (Or.inr hnew)
  · have hlast : Opened ((s.make client .accepted).make remote .connected) s.next (s.next + 1) :=
      (hopened _ _ (by omega) (by omega)).mpr (Or.inr ⟨rfl, rfl⟩)
    rintro (⟨hi, hj, hij⟩ | ⟨rfl, rfl⟩ | ⟨rfl, rfl⟩)
    · refine ⟨show i < s.next + 2 by omega, show j < s.next + 2 by omega, hij.imp (fun hij => ?_) fun hji => ?_⟩
      · exact (hopened i j (by omega) (by omega)).mpr (Or.inl ⟨hi, hj, hij⟩)
      · exact (hopened j i (by omega) (by omega)).mpr (Or.inl ⟨hj, hi, hji⟩)
    · exact ⟨show s.next < s.next + 2 by omega, show s.next + 1 < s.next + 2 by omega, Or.inl hlast⟩
    · exact ⟨show s.next + 1 < s.next + 2 by omega, show s.next < s.next + 2 by omega, Or.inr hlast⟩

namespace Paired

theorem next_accepted (h : t.Paired) : ∀ i < t.sockets.next, (t.sockets.socket i).origin = .accepted →
    i + 1 < t.sockets.next := fun i hi haccepted => (h.accepted i hi haccepted).1

/-- A free descriptor is not used by the tunnel. -/
theorem free (h : t.Paired) {fd : Fd} (hfree : t.sockets.table fd = none) : t.sock ≠ some fd ∧ t.pairs fd = none ∧
    (∀ other, t.pairs other ≠ some fd) ∧ t.select.read.callbacks.lookup fd = none := by
  have hsock : t.sock ≠ some fd := by
    intro hsock
    obtain ⟨i, hi, -⟩ := h.listening fd hsock
    rw [hfree] at hi
    cases hi
  have hother : ∀ other, t.pairs other ≠ some fd := by
    intro other hpair
    obtain ⟨i, j, -, -, hj⟩ := (h.pairs other fd).mp hpair
    rw [hfree] at hj
    cases hj
  have hnone : t.pairs fd = none := by
    cases hpair : t.pairs fd with
    | none => rfl
    | some other => exact absurd (h.partner hpair) (hother other)
  refine ⟨hsock, hnone, hother, ?_⟩
  rw [h.watched, if_neg hsock, hnone]
  rfl

/-- The server starts to listen. -/
theorem started (h : t.Paired) (hsock : t.sock = none) {fd : Fd} (hfree : t.sockets.table fd = none) {select : Select}
    (hlookup : ∀ other, select.read.callbacks.lookup other =
      if other = fd then some acceptCallback else t.select.read.callbacks.lookup other) :
    Paired { t with select := select, sockets := t.sockets.make fd .listening, sock := some fd } := by
  obtain ⟨-, hnone, -, -⟩ := h.free hfree
  have hpartners := partners_make h.next_accepted fd .listening
  constructor
  · exact h.wellFormed.make fd .listening
  · intro other
    rw [hlookup, h.watched, hsock]
    by_cases hother : other = fd
    · rw [if_pos hother, if_pos (by rw [hother])]
    · rw [if_neg hother, if_neg (Option.some_ne_none other).symm, if_neg fun heq => hother (Option.some.inj heq).symm]
  · rintro other ⟨⟩
    refine ⟨t.sockets.next, by rw [Sockets.table_make, if_pos rfl], by rw [Sockets.socket_make, if_pos rfl]⟩
  · intro f g
    simp only [hpartners, Sockets.table_make]
    rw [h.pairs]
    constructor
    · rintro ⟨i, j, hij, hi, hj⟩
      refine ⟨i, j, hij, ?_, ?_⟩
      · rw [if_neg, hi]
        rintro rfl
        rw [hfree] at hi
        cases hi
      · rw [if_neg, hj]
        rintro rfl
        rw [hfree] at hj
        cases hj
    · rintro ⟨i, j, hij, hi, hj⟩
      have hne : ∀ {k l : Nat}, Partners t.sockets k l → some t.sockets.next ≠ some k := by
        rintro k l hkl ⟨⟩
        exact absurd hkl.1 (Nat.lt_irrefl _)
      refine ⟨i, j, hij, ?_, ?_⟩
      · split at hi
        · exact absurd hi (hne hij)
        · exact hi
      · split at hj
        · exact absurd hj (hne hij.symm)
        · exact hj
  · intro i j hij hi
    rw [hpartners] at hij
    rw [Sockets.isOpen_make hfree] at hi ⊢
    rcases hi with rfl | hi
    · exact absurd hij.1 (Nat.lt_irrefl _)
    · exact Or.inr (h.together i j hij hi)
  · intro i hi haccepted
    rw [Sockets.socket_make] at haccepted ⊢
    split at haccepted
    · cases haccepted
    · obtain ⟨hnext, hconnected⟩ := h.accepted i (Nat.lt_of_le_of_ne (Nat.le_of_lt_succ hi) ‹_›) haccepted
      rw [if_neg (by omega)]
      exact ⟨Nat.lt_succ_of_lt hnext, hconnected⟩
  · intro i hi hconnected
    rw [Sockets.socket_make] at hconnected
    split at hconnected
    · cases hconnected
    · have hlt : i < t.sockets.next := Nat.lt_of_le_of_ne (Nat.le_of_lt_succ hi) ‹_›
      obtain ⟨j, hj, haccepted⟩ := h.connected i hlt hconnected
      refine ⟨j, hj, ?_⟩
      rw [Sockets.socket_make, if_neg (by omega)]
      exact haccepted

/-- The server stops to listen. -/
theorem stopped (h : t.Paired) {fd : Fd} (hsock : t.sock = some fd) {select : Select}
    (hlookup : ∀ other, select.read.callbacks.lookup other =
      if other = fd then none else t.select.read.callbacks.lookup other) :
    Paired { t with select := select, sockets := t.sockets.close fd, sock := none } := by
  obtain ⟨server, hserver, hlistening⟩ := h.listening fd hsock
  have hnone : t.pairs fd = none := by
    cases hpair : t.pairs fd with
    | none => rfl
    | some other => exact absurd hsock (h.not_server hpair)
  have hne : ∀ {f i j}, Partners t.sockets i j → t.sockets.table f = some i → f ≠ fd := by
    rintro f i j hij hi rfl
    rw [hserver, Option.some.injEq] at hi
    subst hi
    exact hij.not_listening hlistening
  constructor
  · exact h.wellFormed.close fd
  · intro other
    rw [hlookup, h.watched, hsock]
    by_cases hother : other = fd
    · subst hother
      rw [if_pos rfl, if_neg (Option.some_ne_none other).symm, hnone]
      rfl
    · rw [if_neg hother, if_neg fun heq => hother (Option.some.inj heq).symm, if_neg (Option.some_ne_none other).symm]
  · intro other hother
    cases hother
  · intro f g
    simp only [Sockets.table_close]
    rw [h.pairs]
    constructor
    · rintro ⟨i, j, hij, hi, hj⟩
      exact ⟨i, j, hij, by rw [if_neg (hne hij hi), hi], by rw [if_neg (hne hij.symm hj), hj]⟩
    · rintro ⟨i, j, hij, hi, hj⟩
      split at hi
      · cases hi
      · split at hj
        · cases hj
        · exact ⟨i, j, hij, hi, hj⟩
  · intro i j hij hi
    rw [Sockets.isOpen_close h.wellFormed hserver] at hi ⊢
    refine ⟨?_, h.together i j hij hi.2⟩
    rintro rfl
    exact (Partners.symm hij).not_listening hlistening
  · exact h.accepted
  · exact h.connected

/-- A client was accepted, and its connection to the remote address was made. -/
theorem made (h : t.Paired) {client remote : Fd} (hclient : t.sockets.table client = none)
    (hremote : t.sockets.table remote = none) (hne : client ≠ remote) {select : Select}
    (hlookup : ∀ other, select.read.callbacks.lookup other =
      if other = remote then some readCallback
      else if other = client then some readCallback else t.select.read.callbacks.lookup other) :
    Paired
      { t with
        select := select, sockets := (t.sockets.make client .accepted).make remote .connected,
        pairs := Function.update (Function.update t.pairs remote (some client)) client (some remote) } := by
  obtain ⟨hsock, -, hnone, -⟩ := h.free hclient
  obtain ⟨hsock', -, hnone', -⟩ := h.free hremote
  have hfree : (t.sockets.make client .accepted).table remote = none := by
    rw [Sockets.table_make, if_neg (Ne.symm hne), hremote]
  have hpairs : ∀ f, Function.update (Function.update t.pairs remote (some client)) client (some remote) f =
      if f = client then some remote else if f = remote then some client else t.pairs f := by
    intro f
    rw [Function.update_apply, Function.update_apply]
  have htable : ∀ f, ((t.sockets.make client .accepted).make remote .connected).table f =
      if f = remote then some (t.sockets.next + 1) else if f = client then some t.sockets.next else t.sockets.table f := by
    intro f
    rw [Sockets.table_make, Sockets.table_make]
    rfl
  have hopen : ∀ i, ((t.sockets.make client .accepted).make remote .connected).IsOpen i ↔
      i = t.sockets.next + 1 ∨ i = t.sockets.next ∨ t.sockets.IsOpen i := by
    intro i
    rw [Sockets.isOpen_make hfree, Sockets.isOpen_make hclient]
    rfl
  have hmade : ∀ f k, t.sockets.table f = some k → k < t.sockets.next := h.wellFormed.made
  -- which descriptors stand for the new sockets, and for the old ones
  have hnew : ((t.sockets.make client .accepted).make remote .connected).table client = some t.sockets.next := by
    rw [htable, if_neg hne, if_pos rfl]
  have hnew' : ((t.sockets.make client .accepted).make remote .connected).table remote = some (t.sockets.next + 1) := by
    rw [htable, if_pos rfl]
  have hwell := (h.wellFormed.make client .accepted).make remote .connected
  have hfirst : ∀ f, ((t.sockets.make client .accepted).make remote .connected).table f = some t.sockets.next ↔ f = client :=
    fun f => ⟨fun hf => hwell.unique f client _ hf hnew, fun hf => hf ▸ hnew⟩
  have hlast : ∀ f, ((t.sockets.make client .accepted).make remote .connected).table f = some (t.sockets.next + 1) ↔
      f = remote := fun f => ⟨fun hf => hwell.unique f remote _ hf hnew', fun hf => hf ▸ hnew'⟩
  have hold : ∀ k < t.sockets.next, ∀ {f}, (((t.sockets.make client .accepted).make remote .connected).table f = some k) =
      (t.sockets.table f = some k) := by
    intro k hk f
    rw [htable]
    split
    case isTrue hf =>
      rw [hf, hremote]
      simp only [Option.some.injEq, reduceCtorEq, eq_iff_iff, iff_false]
      omega
    case isFalse =>
      split
      case isTrue hf =>
        rw [hf, hclient]
        simp only [Option.some.injEq, reduceCtorEq, eq_iff_iff, iff_false]
        omega
      case isFalse => rfl
  have horigin : ∀ k, (((t.sockets.make client .accepted).make remote .connected).socket k).origin =
      if k = t.sockets.next + 1 then .connected
      else if k = t.sockets.next then .accepted else (t.sockets.socket k).origin := by
    intro k
    rw [Sockets.socket_make, show (t.sockets.make client .accepted).next = t.sockets.next + 1 from rfl]
    split
    · rfl
    · rw [Sockets.socket_make]
      split
      · rfl
      · rfl
  constructor
  · exact hwell
  · intro f
    simp only [hlookup, hpairs, h.watched f]
    by_cases hf : f = client
    · subst hf
      simp [hsock, hne]
    · by_cases hf' : f = remote
      · subst hf'
        simp [hsock', Ne.symm hne]
      · simp [hf, hf']
  · intro f hf
    obtain ⟨k, hk, hlistening⟩ := h.listening f hf
    have hf₁ : f ≠ client := fun heq => hsock (heq ▸ hf)
    have hf₂ : f ≠ remote := fun heq => hsock' (heq ▸ hf)
    have hlt := hmade f k hk
    exact ⟨k, by rw [htable, if_neg hf₂, if_neg hf₁, hk], by rw [horigin, if_neg (by omega), if_neg (by omega), hlistening]⟩
  · intro f g
    simp only [partners_make_both, hpairs]
    by_cases hf : f = client
    · rw [if_pos hf, hf, hnew]
      constructor
      · rintro ⟨⟩
        exact ⟨_, _, Or.inr (Or.inl ⟨rfl, rfl⟩), rfl, hnew'⟩
      · rintro ⟨i, j, hij | ⟨-, rfl⟩ | ⟨-, rfl⟩, hi, hj⟩
        · cases hi
          exact absurd hij.1 (Nat.lt_irrefl _)
        · rw [(hlast g).mp hj]
        · exact absurd (Option.some.inj hi) (by omega)
    · by_cases hf' : f = remote
      · rw [if_neg hf, if_pos hf', hf', hnew']
        constructor
        · rintro ⟨⟩
          exact ⟨_, _, Or.inr (Or.inr ⟨rfl, rfl⟩), rfl, hnew⟩
        · rintro ⟨i, j, hij | ⟨rfl, -⟩ | ⟨rfl, -⟩, hi, hj⟩
          · cases hi
            exact absurd hij.1 (by omega)
          · exact absurd (Option.some.inj hi) (by omega)
          · rw [(hfirst g).mp hj]
      · rw [if_neg hf, if_neg hf', h.pairs]
        constructor
        · rintro ⟨i, j, hij, hi, hj⟩
          exact ⟨i, j, Or.inl hij, by rw [hold i hij.1, hi], by rw [hold j hij.2.1, hj]⟩
        · rintro ⟨i, j, hij | ⟨rfl, -⟩ | ⟨-, rfl⟩, hi, hj⟩
          · exact ⟨i, j, hij, by rwa [hold i hij.1] at hi, by rwa [hold j hij.2.1] at hj⟩
          · exact absurd ((hfirst f).mp hi) hf
          · exact absurd ((hlast f).mp hi) hf'
  · intro i j hij hi
    rw [hopen] at hi ⊢
    rcases (partners_make_both client remote i j).mp hij with hij | ⟨-, rfl⟩ | ⟨rfl, -⟩
    · rcases hi with rfl | rfl | hi
      · exact absurd hij.1 (by omega)
      · exact absurd hij.1 (by omega)
      · exact Or.inr (Or.inr (h.together i j hij hi))
    · exact Or.inl rfl
    · exact Or.inr (Or.inl rfl)
  · intro i hi haccepted
    rw [horigin] at haccepted ⊢
    change i < t.sockets.next + 2 at hi
    change i + 1 < t.sockets.next + 2 ∧ _
    split at haccepted
    · cases haccepted
    · split at haccepted
      · rw [if_pos (by omega)]
        exact ⟨by omega, rfl⟩
      · obtain ⟨hnext, hconnected⟩ := h.accepted i (by omega) haccepted
        rw [if_neg (by omega), if_neg (by omega)]
        exact ⟨by omega, hconnected⟩
  · intro i hi hconnected
    change i < t.sockets.next + 2 at hi
    rw [horigin] at hconnected
    split at hconnected
    · exact ⟨t.sockets.next, ‹_›, by rw [horigin, if_neg (by omega), if_pos rfl]⟩
    · split at hconnected
      · cases hconnected
      · obtain ⟨j, hj, haccepted⟩ := h.connected i (by omega) hconnected
        exact ⟨j, hj, by rw [horigin, if_neg (by omega), if_neg (by omega), haccepted]⟩

end Paired

end

end TcpTunnel

end Thebends.Ynet
