import Thebends.LibRun
import Thebends.YhttpServer
import Thebends.YpeerPeers
import Thebends.YpeerResponse

/-! The conversation with a tracker (`PeersImpl` in `peers.cpp`). A round of the thread tests `shutdown_`, builds a
request, and takes what comes of it; whoever has the object may set the callback or destroy it between any two of
these. From the second round on the thread tests `shutdown_` without the lock, and unlocks a mutex that it does not
hold. -/

namespace Thebends.Ypeer

open LibAscii LibDecimal LibExcept LibMap LibRun LibScan LibSorted Yhttp

attribute [local instance] byteOrder

/-! ### What comes back -/

/-- What a stream has in a turn of the loop in `ReadStream`. -/
inductive StreamTurn
  | atEnd
  | notOpen
  | failed
  | got (bytes : Bytes)

/-- `ReadStream`: what it returns, and the data. There is nothing yet while it blocks. -/
def readStream : List StreamTurn → Bytes → Option (Bool × Bytes)
  | [], _ => none
  | .atEnd :: _, data => some (true, data)
  | .notOpen :: _, data => some (false, data)
  | .failed :: _, data => some (false, data)
  | .got bytes :: turns, data => if bytes = [] then some (true, data) else readStream turns (data ++ bytes)

/-- What comes of a request. -/
structure Exchange where
  opened : Bool
  turns : List StreamTurn
  /-- Whether the header is complete, and the status. -/
  header : Option (Bool × Int)

/-- What a round makes of it: the text for `SetError`, or the message. -/
def Exchange.outcome (turns : Nat) (e : Exchange) : Except Fault (Option (Except Bytes ResponseMessage)) :=
  if !e.opened then return some (.error (ascii "Unable to open HTTP stream"))
  else match readStream e.turns [] with
  | none => return none
  | some (false, _) => return some (.error (ascii "Error while reading stream"))
  | some (true, body) =>
      match e.header with
      | none => return some (.error (ascii "Error obtaining HTTP response"))
      | some (complete, status) =>
          if !complete then return some (.error (ascii "HTTP Header incomplete"))
          else if status ≠ 200 then return some (.error (ascii "Unexpected HTTP response status"))
          else do
            let (ok, result) ← parseResponseMessage turns body .new
            if !ok then return some (.error (ascii "Failed to parse tracker response"))
            else if result.failureReason ≠ [] then return some (.error (ascii "Failure from tracker"))
            else return some (.ok result)

/-! ### The parameters -/

/-- `GeneratePeerId`, of the numbers that `random` gives. -/
def generatePeerId (random : Nat → Nat) : Bytes := ascii "-YP-" ++ (List.range 16).map fun i => digit (random i % 10)

/-- The parameters of the first request. -/
def firstParams (infoHash peerId : Bytes) (localPort : Int) : Params :=
  let params := set (ascii "info_hash") infoHash []
  let params := set (ascii "peer_id") peerId params
  let params := set (ascii "port") (decimal localPort) params
  let params := set (ascii "uploaded") (ascii "0") params
  let params := set (ascii "downloaded") (ascii "100") params
  let params := set (ascii "left") (ascii "100") params
  let params := set (ascii "compact") (ascii "1") params
  let params := set (ascii "numwant") (ascii "50") params
  set (ascii "event") (ascii "start") params

/-- The parameters for the next request. -/
def nextParams (params : Params) (result : ResponseMessage) : Params :=
  remove (ascii "event") (set (ascii "trackerid") result.trackerId params)

/-! ### The thread -/

/-- Where the thread is. -/
inductive Phase
  /-- Before the test of `shutdown_`. -/
  | atTest
  | building
  | waiting
  /-- The peers are stored, and the lock is given back. -/
  | stored (result : ResponseMessage) (callback : Option Nat)
  | returned

/-- `PeersImpl`, with what its thread has done so far. -/
structure PeersImpl where
  phase : Phase
  params : Params
  /-- Whether `base_url_` is released. -/
  released : Bool
  peers : List Peer
  shutdown : Bool
  error : Bool
  errorString : Bytes
  connected : Bool
  callback : Option Nat
  /-- The queries that were appended to the URL. -/
  queries : List Bytes
  /-- The messages that the tracker has answered with. -/
  answers : List ResponseMessage
  /-- The callbacks that were executed. -/
  executed : List Nat
  /-- What `sleep` was called with. -/
  slept : List UInt32
  /-- How often a request was built from the released URL. -/
  late : Nat

def PeersImpl.new (infoHash peerId : Bytes) (localPort : Int) : PeersImpl where
  phase := .atTest
  params := firstParams infoHash peerId localPort
  released := false
  peers := []
  shutdown := false
  error := false
  errorString := []
  connected := false
  callback := none
  queries := []
  answers := []
  executed := []
  slept := []
  late := 0

/-- `GetPeers`. -/
def PeersImpl.getPeers (s : PeersImpl) : Option (List Peer) := if s.error then none else some s.peers

/-- What happens next. -/
inductive Event
  | test
  | build
  | receive (turns : Nat) (exchange : Exchange)
  | finish
  | setCallback (callback : Option Nat)
  /-- The destructor sets `shutdown_`. -/
  | destroy
  /-- The destructor releases `base_url_`. -/
  | release

/-- `SetError`, after which the thread returns. -/
def PeersImpl.setError (s : PeersImpl) (text : Bytes) : PeersImpl :=
  { s with phase := .returned, error := true, errorString := text }

/-- What a good answer changes under the lock. -/
def PeersImpl.update (s : PeersImpl) (result : ResponseMessage) : PeersImpl :=
  { s with
    phase := .stored result s.callback
    error := false
    errorString := []
    connected := true
    peers := result.peers
    answers := s.answers ++ [result] }

/-- The rest of a round. -/
def PeersImpl.finish (s : PeersImpl) (result : ResponseMessage) (callback : Option Nat) : PeersImpl :=
  { s with
    phase := .atTest
    params := nextParams s.params result
    executed := s.executed ++ callback.toList
    slept := s.slept ++ [.ofInt result.interval] }

/-- A step of the thread, or of the one who has the object. -/
def Step (s : PeersImpl) (event : Event) (s' : PeersImpl) : Prop :=
  match event with
  | .test => s.phase = .atTest ∧ s' = { s with phase := if s.shutdown then .returned else .building }
  | .build =>
      s.phase = .building ∧ s' = { s with
        phase := .waiting
        queries := s.queries ++ [buildQuery s.params []]
        late := if s.released then s.late + 1 else s.late }
  | .receive turns exchange =>
      s.phase = .waiting ∧ ∃ outcome, exchange.outcome turns = .ok (some outcome) ∧
        s' = match outcome with
          | .error text => s.setError text
          | .ok result => s.update result
  | .finish => ∃ result callback, s.phase = .stored result callback ∧ s' = s.finish result callback
  | .setCallback callback => s.shutdown = false ∧ s' = { s with callback }
  | .destroy => s.shutdown = false ∧ s' = { s with shutdown := true }
  | .release => s.shutdown = true ∧ s.released = false ∧ s' = { s with released := true }

/-! ### The parameters of a round -/

/-- The answer that a request follows. -/
def previous (answers : List ResponseMessage) : Nat → Option ResponseMessage
  | 0 => none
  | i + 1 => answers[i]?

/-- The parameters of a request, by the answer before it. -/
def paramsAfter (base : Params) : Option ResponseMessage → Params
  | none => base
  | some result => nextParams base result

theorem firstParams_eq (infoHash peerId : Bytes) (localPort : Int) : firstParams infoHash peerId localPort =
    [(ascii "compact", ascii "1"), (ascii "downloaded", ascii "100"), (ascii "event", ascii "start"),
      (ascii "info_hash", infoHash), (ascii "left", ascii "100"), (ascii "numwant", ascii "50"),
      (ascii "peer_id", peerId), (ascii "port", decimal localPort), (ascii "uploaded", ascii "0")] := rfl

theorem nextParams_firstParams (infoHash peerId : Bytes) (localPort : Int) (result : ResponseMessage) :
    nextParams (firstParams infoHash peerId localPort) result =
    [(ascii "compact", ascii "1"), (ascii "downloaded", ascii "100"), (ascii "info_hash", infoHash),
      (ascii "left", ascii "100"), (ascii "numwant", ascii "50"), (ascii "peer_id", peerId),
      (ascii "port", decimal localPort), (ascii "trackerid", result.trackerId), (ascii "uploaded", ascii "0")] := rfl

/-- Only the last answer counts. -/
theorem nextParams_paramsAfter (infoHash peerId : Bytes) (localPort : Int) (before : Option ResponseMessage)
    (result : ResponseMessage) :
    nextParams (paramsAfter (firstParams infoHash peerId localPort) before) result =
      nextParams (firstParams infoHash peerId localPort) result := by
  cases before with
  | none => rfl
  | some before => rfl

theorem previous_append {answers : List ResponseMessage} {i : Nat} (h : i ≤ answers.length) (more : List ResponseMessage) :
    previous (answers ++ more) i = previous answers i := by
  cases i with
  | zero => rfl
  | succ i => exact List.getElem?_append_left h

/-! ### The invariant -/

/-- How far the lists are, in each phase. -/
def Rounds (s : PeersImpl) : Phase → Prop
  | .atTest => s.answers.length = s.slept.length ∧ s.queries.length = s.answers.length ∧ s.error = false
  | .building => s.answers.length = s.slept.length ∧ s.queries.length = s.answers.length ∧ s.error = false ∧ s.late = 0
  | .waiting => s.answers.length = s.slept.length ∧ s.queries.length = s.answers.length + 1 ∧ s.error = false
  | .stored result _ => s.answers.length = s.slept.length + 1 ∧ s.answers.getLast? = some result ∧
      s.queries.length = s.answers.length ∧ s.error = false
  | .returned => s.answers.length = s.slept.length ∧ s.queries.length = s.answers.length + s.error.toNat

/-- What holds between any two steps. -/
structure Inv (base : Params) (s : PeersImpl) : Prop where
  rounds : Rounds s s.phase
  params : s.params = paramsAfter base (previous s.answers s.slept.length)
  queries : s.queries = (List.range s.queries.length).map fun i => buildQuery (paramsAfter base (previous s.answers i)) []
  slept : s.slept = (s.answers.take s.slept.length).map fun answer => .ofInt answer.interval
  peers : s.peers = ((s.answers.getLast?).map ResponseMessage.peers).getD []
  connected : s.connected = true ↔ s.answers ≠ []
  answers : ∀ answer ∈ s.answers, answer.trackerId.length ≤ kMaxLength
  released : s.released = true → s.shutdown = true
  late : s.late ≤ 1 ∧ (s.late ≠ 0 → s.released = true)

/-! ### The tracker's identifier -/

theorem length_of_text? {n : BeNode} {s : Chars} (h : n.text? = .ok (some s)) : s.length ≤ kMaxLength := by
  have htext : ∃ str : BeStr, s = str.text := by
    cases n with
    | str str =>
        cases str with
        | none => cases h
        | some str => exact ⟨str, (Option.some.inj (Except.ok.inj h)).symm⟩
    | int i => cases h
    | list l => cases h
    | dict d => cases h
  obtain ⟨str, rfl⟩ := htext
  exact (List.takeWhile_prefix _).length_le.trans str.short

/-- A turn that stores no identifier leaves it. -/
theorem messageEntry_trackerId {entry : BeStr × BeNode} {response response' : ResponseMessage} {ret : Option Bool}
    (hshort : response.trackerId.length ≤ kMaxLength) (h : messageEntry entry response = .ok (ret, response')) :
    response'.trackerId.length ≤ kMaxLength := by
  have hstore {α : Type} (value : Option α) (set : α → ResponseMessage)
      (hset : ∀ a, value = some a → (set a).trackerId.length ≤ kMaxLength) :
      (store response value set).2.trackerId.length ≤ kMaxLength := by
    cases value with
    | none => exact hshort
    | some a => exact hset a rfl
  have htext (set : Chars → ResponseMessage)
      (hturn : (do return store response (← entry.2.text?) set) = Except.ok (ret, response'))
      (hset : ∀ s, s.length ≤ kMaxLength → (set s).trackerId.length ≤ kMaxLength) :
      response'.trackerId.length ≤ kMaxLength := by
    obtain ⟨value, hvalue, hturn⟩ := bind_eq_ok hturn
    have hsnd : (store response value set).2 = response' := congrArg Prod.snd (Except.ok.inj hturn)
    rw [← hsnd]
    apply hstore
    rintro s rfl
    exact hset s (length_of_text? hvalue)
  have hint (set : Int → ResponseMessage)
      (hturn : (Except.ok (store response entry.2.int? set) : Except Fault _) = Except.ok (ret, response'))
      (hset : ∀ i, (set i).trackerId = response.trackerId) : response'.trackerId.length ≤ kMaxLength := by
    have hsnd : (store response entry.2.int? set).2 = response' := congrArg Prod.snd (Except.ok.inj hturn)
    rw [← hsnd]
    apply hstore
    intro i _
    rw [hset]
    exact hshort
  rw [messageEntry] at h
  dsimp only at h
  split at h
  · obtain ⟨value, -, hturn⟩ := bind_eq_ok h
    cases value with
    | none =>
        obtain ⟨-, rfl⟩ := Prod.mk.inj (Except.ok.inj hturn)
        exact hshort
    | some s =>
        obtain ⟨-, rfl⟩ := Prod.mk.inj (Except.ok.inj hturn)
        exact hshort
  split at h
  · exact htext _ h fun _ _ => hshort
  split at h
  · exact hint _ h fun _ => rfl
  split at h
  · exact hint _ h fun _ => rfl
  split at h
  · exact htext _ h fun _ hs => hs
  split at h
  · exact hint _ h fun _ => rfl
  split at h
  · exact hint _ h fun _ => rfl
  split at h
  · obtain ⟨⟨ok, peers⟩, -, hturn⟩ := bind_eq_ok h
    obtain ⟨-, rfl⟩ := Prod.mk.inj (Except.ok.inj hturn)
    exact hshort
  · obtain ⟨-, rfl⟩ := Prod.mk.inj (Except.ok.inj h)
    exact hshort

/-- The identifier is no longer than a string that the decoder makes. -/
theorem trackerId_short {turns : Nat} {message : Chars} {ok : Bool} {result : ResponseMessage}
    (h : parseResponseMessage turns message .new = .ok (ok, result)) : result.trackerId.length ≤ kMaxLength := by
  have hnew : ResponseMessage.new.trackerId.length ≤ kMaxLength := Nat.zero_le _
  obtain ⟨⟨node, rest⟩, -, h⟩ := bind_eq_ok h
  dsimp only at h
  cases node with
  | none =>
      obtain ⟨-, rfl⟩ := Prod.mk.inj (Except.ok.inj h)
      exact hnew
  | some node =>
      cases node with
      | dict dict =>
          obtain ⟨⟨judged, response⟩, hscan, h⟩ := bind_eq_ok h
          obtain ⟨-, -, h⟩ := bind_eq_ok h
          obtain ⟨-, rfl⟩ := Prod.mk.inj (Except.ok.inj h)
          exact scan_keeps (P := fun r => r.trackerId.length ≤ kMaxLength)
            (fun _ _ _ _ hshort hturn => messageEntry_trackerId hshort hturn) hnew hscan
      | str s =>
          obtain ⟨-, -, h⟩ := bind_eq_ok h
          obtain ⟨-, rfl⟩ := Prod.mk.inj (Except.ok.inj h)
          exact hnew
      | int i =>
          obtain ⟨-, -, h⟩ := bind_eq_ok h
          obtain ⟨-, rfl⟩ := Prod.mk.inj (Except.ok.inj h)
          exact hnew
      | list l =>
          obtain ⟨-, -, h⟩ := bind_eq_ok h
          obtain ⟨-, rfl⟩ := Prod.mk.inj (Except.ok.inj h)
          exact hnew

/-- What a round takes for an answer. -/
theorem outcome_ok {turns : Nat} {e : Exchange} {result : ResponseMessage}
    (h : e.outcome turns = .ok (some (.ok result))) : result.trackerId.length ≤ kMaxLength := by
  rw [Exchange.outcome] at h
  split at h
  · cases h
  cases hread : readStream e.turns [] with
  | none =>
      rw [hread] at h
      cases h
  | some read =>
      obtain ⟨ok, body⟩ := read
      rw [hread] at h
      cases ok with
      | false => cases h
      | true =>
          cases hheader : e.header with
          | none =>
              rw [hheader] at h
              cases h
          | some header =>
              rw [hheader] at h
              dsimp only at h
              split at h
              · cases h
              split at h
              · cases h
              obtain ⟨⟨parsed, message⟩, hparse, h⟩ := bind_eq_ok h
              dsimp only at h
              split at h
              · cases h
              split at h
              · cases h
              obtain rfl := Except.ok.inj (Option.some.inj (Except.ok.inj h))
              exact trackerId_short hparse

/-! ### The steps -/

section Steps

variable {base : Params} {s : PeersImpl}

theorem Inv.test (h : Inv base s) (hphase : s.phase = .atTest) :
    Inv base { s with phase := if s.shutdown then .returned else .building } := by
  obtain ⟨hslept, hqueries, herror⟩ : Rounds s .atTest := hphase ▸ h.rounds
  refine { h with rounds := ?_ }
  cases hshutdown : s.shutdown with
  | true =>
      refine ⟨hslept, ?_⟩
      dsimp only
      rw [herror]
      exact hqueries
  | false =>
      refine ⟨hslept, hqueries, herror, ?_⟩
      by_contra hlate
      have hreleased := h.released (h.late.2 hlate)
      rw [hshutdown] at hreleased
      cases hreleased

theorem Inv.build (h : Inv base s) (hphase : s.phase = .building) :
    Inv base { s with
      phase := .waiting
      queries := s.queries ++ [buildQuery s.params []]
      late := if s.released then s.late + 1 else s.late } := by
  obtain ⟨hslept, hqueries, herror, hlate⟩ : Rounds s .building := hphase ▸ h.rounds
  refine { h with rounds := ⟨hslept, ?_, herror⟩, queries := ?_, late := ?_ }
  · dsimp only
    rw [List.length_append, hqueries, List.length_singleton]
  · dsimp only
    rw [List.length_append, List.length_singleton, List.range_succ, List.map_append, ← h.queries, List.map_singleton,
      h.params, hqueries, hslept]
  · dsimp only
    rw [hlate]
    split
    case isTrue hreleased => exact ⟨le_rfl, fun _ => hreleased⟩
    case isFalse => exact ⟨Nat.zero_le _, fun h => absurd rfl h⟩

theorem Inv.setError (h : Inv base s) (hphase : s.phase = .waiting) (text : Bytes) : Inv base (s.setError text) := by
  obtain ⟨hslept, hqueries, -⟩ : Rounds s .waiting := hphase ▸ h.rounds
  exact { h with rounds := ⟨hslept, hqueries⟩ }

theorem Inv.update (h : Inv base s) (hphase : s.phase = .waiting) {result : ResponseMessage}
    (hshort : result.trackerId.length ≤ kMaxLength) : Inv base (s.update result) := by
  obtain ⟨hslept, hqueries, -⟩ : Rounds s .waiting := hphase ▸ h.rounds
  exact {
    rounds := by
      refine ⟨?_, List.getLast?_concat, ?_, rfl⟩
      · dsimp only [PeersImpl.update]
        rw [List.length_append, hslept, List.length_singleton]
      · dsimp only [PeersImpl.update]
        rw [List.length_append, hqueries, List.length_singleton]
    params := by
      dsimp only [PeersImpl.update]
      rw [previous_append hslept.ge, h.params]
    queries := by
      dsimp only [PeersImpl.update]
      rw [h.queries, List.length_map, List.length_range]
      apply List.map_congr_left
      intro i hi
      have hlt := List.mem_range.mp hi
      rw [previous_append (by omega)]
    slept := by
      dsimp only [PeersImpl.update]
      rw [List.take_append_of_le_length hslept.ge, ← h.slept]
    peers := by
      dsimp only [PeersImpl.update]
      rw [List.getLast?_concat]
      rfl
    connected := iff_of_true rfl (List.append_ne_nil_of_right_ne_nil _ (List.cons_ne_nil _ _))
    answers := by
      intro answer hanswer
      rcases List.mem_append.mp hanswer with hanswer | hanswer
      · exact h.answers answer hanswer
      · rw [List.mem_singleton.mp hanswer]
        exact hshort
    released := h.released
    late := h.late }

theorem Inv.finish (hbase : ∀ before result, nextParams (paramsAfter base before) result = nextParams base result)
    (h : Inv base s) {result : ResponseMessage} {callback : Option Nat} (hphase : s.phase = .stored result callback) :
    Inv base (s.finish result callback) := by
  obtain ⟨hslept, hlast, hqueries, herror⟩ : Rounds s (.stored result callback) := hphase ▸ h.rounds
  obtain ⟨before, hanswers⟩ := List.getLast?_eq_some_iff.mp hlast
  have hbefore : before.length = s.slept.length := by
    rw [hanswers, List.length_append, List.length_singleton] at hslept
    omega
  have hlength : (s.slept ++ [UInt32.ofInt result.interval]).length = s.answers.length := by
    rw [List.length_append, List.length_singleton, hslept]
  refine { h with rounds := ⟨hlength.symm, hqueries, herror⟩, params := ?_, slept := ?_ }
  · dsimp only [PeersImpl.finish]
    rw [hlength, hanswers, List.length_append, List.length_singleton, previous, List.getElem?_concat_length, h.params,
      hbase]
    rfl
  · dsimp only [PeersImpl.finish]
    rw [hlength, List.take_length, hanswers, List.map_append, List.map_singleton, h.slept, hanswers, ← hbefore,
      List.take_left]

end Steps

/-- What one step keeps. -/
theorem Inv.step {base : Params}
    (hbase : ∀ before result, nextParams (paramsAfter base before) result = nextParams base result)
    {s s' : PeersImpl} {event : Event} (h : Inv base s) (hstep : Step s event s') : Inv base s' := by
  cases event with
  | test =>
      obtain ⟨hphase, rfl⟩ := hstep
      exact h.test hphase
  | build =>
      obtain ⟨hphase, rfl⟩ := hstep
      exact h.build hphase
  | receive turns exchange =>
      obtain ⟨hphase, outcome, houtcome, rfl⟩ := hstep
      cases outcome with
      | error text => exact h.setError hphase text
      | ok result => exact h.update hphase (outcome_ok houtcome)
  | finish =>
      obtain ⟨result, callback, hphase, rfl⟩ := hstep
      exact h.finish hbase hphase
  | setCallback callback =>
      obtain ⟨-, rfl⟩ := hstep
      exact { h with rounds := by cases hphase : s.phase <;> exact hphase ▸ h.rounds }
  | destroy =>
      obtain ⟨-, rfl⟩ := hstep
      exact { h with
        rounds := by cases hphase : s.phase <;> exact hphase ▸ h.rounds
        released := fun _ => rfl }
  | release =>
      obtain ⟨hshutdown, -, rfl⟩ := hstep
      exact { h with
        rounds := by cases hphase : s.phase <;> exact hphase ▸ h.rounds
        released := fun _ => hshutdown
        late := ⟨h.late.1, fun _ => rfl⟩ }

/-- How many requests there are for the answers. -/
theorem Inv.asked {base : Params} {s : PeersImpl} (h : Inv base s) :
    (s.queries.length = s.answers.length ∨ s.queries.length = s.answers.length + 1) ∧
      (s.error = true → s.phase = .returned ∧ s.queries.length = s.answers.length + 1) := by
  have hrounds := h.rounds
  cases hphase : s.phase with
  | atTest =>
      obtain ⟨-, hqueries, herror⟩ : Rounds s .atTest := hphase ▸ hrounds
      exact ⟨Or.inl hqueries, fun htrue => absurd (htrue.symm.trans herror) Bool.true_eq_false.mp⟩
  | building =>
      obtain ⟨-, hqueries, herror, -⟩ : Rounds s .building := hphase ▸ hrounds
      exact ⟨Or.inl hqueries, fun htrue => absurd (htrue.symm.trans herror) Bool.true_eq_false.mp⟩
  | waiting =>
      obtain ⟨-, hqueries, herror⟩ : Rounds s .waiting := hphase ▸ hrounds
      exact ⟨Or.inr hqueries, fun htrue => absurd (htrue.symm.trans herror) Bool.true_eq_false.mp⟩
  | stored result callback =>
      obtain ⟨-, -, hqueries, herror⟩ : Rounds s (.stored result callback) := hphase ▸ hrounds
      exact ⟨Or.inl hqueries, fun htrue => absurd (htrue.symm.trans herror) Bool.true_eq_false.mp⟩
  | returned =>
      obtain ⟨-, hqueries⟩ : Rounds s .returned := hphase ▸ hrounds
      cases herror : s.error with
      | false =>
          rw [herror] at hqueries
          exact ⟨Or.inl hqueries, fun htrue => absurd htrue Bool.false_ne_true⟩
      | true =>
          rw [herror] at hqueries
          exact ⟨Or.inr hqueries, fun _ => ⟨rfl, hqueries⟩⟩

theorem inv_new (infoHash peerId : Bytes) (localPort : Int) :
    Inv (firstParams infoHash peerId localPort) (.new infoHash peerId localPort) where
  rounds := ⟨rfl, rfl, rfl⟩
  params := rfl
  queries := rfl
  slept := rfl
  peers := rfl
  connected := iff_of_false Bool.false_ne_true (not_not_intro rfl)
  answers := fun _ hanswer => absurd hanswer List.not_mem_nil
  released := fun h => absurd h Bool.false_ne_true
  late := ⟨Nat.zero_le _, fun h => absurd rfl h⟩

theorem inv_run {infoHash peerId : Bytes} {localPort : Int} {events : List Event} {s : PeersImpl}
    (hrun : Run Step (.new infoHash peerId localPort) events s) : Inv (firstParams infoHash peerId localPort) s :=
  hrun.invariant (fun _ => Inv (firstParams infoHash peerId localPort)) (inv_new infoHash peerId localPort)
    fun _ _ _ _ _ h hstep => h.step (nextParams_paramsAfter infoHash peerId localPort) hstep

/-- A round with a good answer. -/
theorem round {s : PeersImpl} (hphase : s.phase = .atTest) (hshutdown : s.shutdown = false) {turns : Nat}
    {exchange : Exchange} {result : ResponseMessage} (h : exchange.outcome turns = .ok (some (.ok result))) :
    ∃ s', Run Step s ([.test] ++ [.build] ++ [.receive turns exchange] ++ [.finish]) s' ∧ s'.phase = .atTest ∧
      s'.shutdown = false ∧ s'.queries.length = s.queries.length + 1 ∧ s'.answers = s.answers ++ [result] := by
  obtain ⟨s₁, h₁, hphase₁, hkept₁⟩ : ∃ s₁, Step s .test s₁ ∧ s₁.phase = .building ∧
      s₁.shutdown = false ∧ s₁.queries = s.queries ∧ s₁.answers = s.answers := by
    refine ⟨_, ⟨hphase, rfl⟩, ?_, hshutdown, rfl, rfl⟩
    dsimp only
    rw [hshutdown]
    rfl
  obtain ⟨hshutdown₁, hqueries₁, hanswers₁⟩ := hkept₁
  obtain ⟨s₂, h₂, hphase₂, hshutdown₂, hqueries₂, hanswers₂⟩ : ∃ s₂, Step s₁ .build s₂ ∧ s₂.phase = .waiting ∧
      s₂.shutdown = false ∧ s₂.queries.length = s₁.queries.length + 1 ∧ s₂.answers = s₁.answers :=
    ⟨_, ⟨hphase₁, rfl⟩, rfl, hshutdown₁, List.length_append, rfl⟩
  obtain ⟨s₃, h₃, hphase₃, hshutdown₃, hqueries₃, hanswers₃⟩ : ∃ s₃, Step s₂ (.receive turns exchange) s₃ ∧
      s₃.phase = .stored result s₂.callback ∧ s₃.shutdown = false ∧ s₃.queries = s₂.queries ∧
      s₃.answers = s₂.answers ++ [result] :=
    ⟨s₂.update result, ⟨hphase₂, _, h, rfl⟩, rfl, hshutdown₂, rfl, rfl⟩
  have h₄ : Step s₃ .finish (s₃.finish result s₂.callback) := ⟨result, s₂.callback, hphase₃, rfl⟩
  refine ⟨s₃.finish result s₂.callback, (((Run.single h₁).snoc h₂).snoc h₃).snoc h₄, rfl, hshutdown₃, ?_, ?_⟩
  · dsimp only [PeersImpl.finish]
    rw [hqueries₃, hqueries₂, hqueries₁]
  · dsimp only [PeersImpl.finish]
    rw [hanswers₃, hanswers₂, hanswers₁]

/-! ### What the tracker hears -/

theorem generatePeerId_length (random : Nat → Nat) : (generatePeerId random).length = 20 := by
  rw [generatePeerId, List.length_append, List.length_map, List.length_range]
  rfl

theorem tilde_not_mem_generatePeerId (random : Nat → Nat) : byte '~' ∉ generatePeerId random := by
  intro h
  rcases List.mem_append.mp h with h | h
  · exact absurd h (by decide)
  · obtain ⟨i, -, heq⟩ := List.mem_map.mp h
    have hdigit := isDigit_digit (Nat.mod_lt (random i) (y := 10) (by decide))
    rw [heq] at hdigit
    exact absurd hdigit (by decide)

theorem tilde_not_mem_decimal (n : Int) : byte '~' ∉ decimal n := by
  have hnumeral : byte '~' ∉ numeral n.natAbs := fun h => absurd (isDigit_of_mem_numeral h) (by decide)
  rw [decimal]
  split
  · rw [List.mem_cons, not_or]
    exact ⟨by decide, hnumeral⟩
  · exact hnumeral

theorem decimal_length (n : Int16) : (decimal n.toInt).length < 2 ^ 31 := by
  have hnumeral : (numeral n.toInt.natAbs).length ≤ 5 := by
    rw [numeral]
    split
    · decide
    · rw [List.length_map, List.length_reverse]
      have hlow := n.le_toInt
      have hhigh := n.toInt_lt
      apply (Nat.digits_length_le_iff (by decide) _).mpr
      omega
  rw [decimal]
  split
  · rw [List.length_cons]
    omega
  · omega

section Params

variable {infoHash peerId : Bytes} {localPort : Int16} {before : Option ResponseMessage}

/-- What holds of the values that vary holds of all parameters. -/
theorem forall_paramsAfter {P : Bytes × Bytes → Prop}
    (hconst : ∀ param ∈ [("compact", "1"), ("downloaded", "100"), ("event", "start"), ("left", "100"), ("numwant", "50"),
      ("uploaded", "0")], P (ascii param.1, ascii param.2))
    (hinfo : P (ascii "info_hash", infoHash)) (hpeer : P (ascii "peer_id", peerId))
    (hport : P (ascii "port", decimal localPort.toInt))
    (hbefore : ∀ result ∈ before, P (ascii "trackerid", result.trackerId)) :
    ∀ param ∈ paramsAfter (firstParams infoHash peerId localPort.toInt) before, P param := by
  simp only [List.forall_mem_cons] at hconst
  obtain ⟨hcompact, hdownloaded, hevent, hleft, hnumwant, huploaded, -⟩ := hconst
  cases before with
  | none =>
      rw [paramsAfter, firstParams_eq]
      simp only [List.forall_mem_cons]
      exact ⟨hcompact, hdownloaded, hevent, hinfo, hleft, hnumwant, hpeer, hport, huploaded,
        fun _ h => absurd h List.not_mem_nil⟩
  | some result =>
      rw [paramsAfter, nextParams_firstParams]
      simp only [List.forall_mem_cons]
      exact ⟨hcompact, hdownloaded, hinfo, hleft, hnumwant, hpeer, hport, hbefore result rfl, huploaded,
        fun _ h => absurd h List.not_mem_nil⟩

theorem sorted_paramsAfter : Sorted (paramsAfter (firstParams infoHash peerId localPort.toInt) before) := by
  have hfirst : Sorted (firstParams infoHash peerId localPort.toInt) := by
    repeat apply sorted_set
    exact List.Pairwise.nil
  cases before with
  | none => exact hfirst
  | some result => exact sorted_remove _ (sorted_set _ _ hfirst)

theorem noTilde_paramsAfter (hpeer : byte '~' ∉ peerId) :
    NoTilde (paramsAfter (firstParams infoHash peerId localPort.toInt) before) ↔
      byte '~' ∉ infoHash ∧ ∀ result ∈ before, byte '~' ∉ result.trackerId := by
  constructor
  · intro h
    have hvalue (key : Bytes) {value : Bytes}
        (hmem : (key, value) ∈ paramsAfter (firstParams infoHash peerId localPort.toInt) before) : byte '~' ∉ value :=
      (h _ hmem).2
    cases before with
    | none =>
        rw [paramsAfter, firstParams_eq] at hvalue
        exact ⟨hvalue (ascii "info_hash") (by simp), fun _ h => by cases h⟩
    | some result =>
        rw [paramsAfter, nextParams_firstParams] at hvalue
        refine ⟨hvalue (ascii "info_hash") (by simp), ?_⟩
        rintro _ ⟨⟩
        exact hvalue (ascii "trackerid") (by simp)
  · rintro ⟨hinfo, hbefore⟩
    have hname : ∀ name ∈ ["info_hash", "peer_id", "port", "trackerid"], byte '~' ∉ ascii name := by decide
    simp only [List.forall_mem_cons] at hname
    obtain ⟨hinfoName, hpeerName, hportName, htrackerName, -⟩ := hname
    exact forall_paramsAfter (by decide) ⟨hinfoName, hinfo⟩ ⟨hpeerName, hpeer⟩ ⟨hportName, tilde_not_mem_decimal _⟩
      fun result hresult => ⟨htrackerName, hbefore result hresult⟩

theorem short_paramsAfter (hinfo : infoHash.length = 20) (hpeer : peerId.length = 20)
    (hbefore : ∀ result ∈ before, result.trackerId.length ≤ kMaxLength) :
    Short (paramsAfter (firstParams infoHash peerId localPort.toInt) before) := by
  have hname : ∀ name ∈ ["info_hash", "peer_id", "port", "trackerid"], (ascii name).length < 2 ^ 31 := by decide
  simp only [List.forall_mem_cons] at hname
  obtain ⟨hinfoName, hpeerName, hportName, htrackerName, -⟩ := hname
  refine forall_paramsAfter (by decide) ⟨hinfoName, ?_⟩ ⟨hpeerName, ?_⟩ ⟨hportName, decimal_length localPort⟩
    fun result hresult => ⟨htrackerName, ?_⟩
  · dsimp only
    omega
  · dsimp only
    omega
  · have hlength := hbefore result hresult
    rw [kMaxLength] at hlength
    dsimp only
    omega

theorem keys_paramsAfter :
    ∀ param ∈ paramsAfter (firstParams infoHash peerId localPort.toInt) before, param.1 ≠ [] :=
  forall_paramsAfter (by decide) (List.cons_ne_nil _ _) (List.cons_ne_nil _ _) (List.cons_ne_nil _ _)
    fun _ _ => List.cons_ne_nil _ _

theorem paramsAfter_ne_nil : paramsAfter (firstParams infoHash peerId localPort.toInt) before ≠ [] := by
  cases before with
  | none => exact List.cons_ne_nil _ _
  | some result => exact List.cons_ne_nil _ _

/-- What the parameters of a request answer to. -/
theorem lookup_paramsAfter (name : Bytes) :
    (paramsAfter (firstParams infoHash peerId localPort.toInt) before).lookup name =
      if name = ascii "event" then (if before.isNone then some (ascii "start") else none)
      else if name = ascii "trackerid" then before.map ResponseMessage.trackerId
      else (firstParams infoHash peerId localPort.toInt).lookup name := by
  have hevent : (firstParams infoHash peerId localPort.toInt).lookup (ascii "event") = some (ascii "start") := rfl
  have htracker : (firstParams infoHash peerId localPort.toInt).lookup (ascii "trackerid") = none := rfl
  cases before with
  | none =>
      rw [paramsAfter]
      split
      case isTrue heq => exact heq ▸ hevent
      case isFalse =>
          split
          case isTrue heq => exact heq ▸ htracker
          case isFalse => rfl
  | some result =>
      rw [paramsAfter, nextParams, lookup_remove, lookup_set]
      by_cases hname : name = ascii "event"
      · rw [if_pos hname, if_pos hname]
        rfl
      · rw [if_neg hname, if_neg hname]
        by_cases hname' : name = ascii "trackerid"
        · rw [if_pos hname', if_pos hname']
          rfl
        · rw [if_neg hname', if_neg hname']

end Params

/-- What a web server reads in a request that follows an answer, or none. -/
structure Hears (infoHash peerId : Bytes) (localPort : Int16) (before : Option ResponseMessage) (u : URL) : Prop where
  valid_iff : u.valid = true ↔ byte '~' ∉ infoHash ∧ ∀ result ∈ before, byte '~' ∉ result.trackerId
  event : u.valid = true → u.params.lookup (ascii "event") = if before.isNone then some (ascii "start") else none
  trackerId : u.valid = true → u.params.lookup (ascii "trackerid") = before.map ResponseMessage.trackerId
  others : u.valid = true → ∀ name, name ≠ ascii "event" → name ≠ ascii "trackerid" →
    u.params.lookup (escaped name) = (firstParams infoHash peerId localPort.toInt).lookup name

/-- How the conversation stands. -/
structure Conversation (infoHash peerId : Bytes) (localPort : Int16) (s : PeersImpl) : Prop where
  heard : ∀ i query, s.queries[i]? = some query → i ≤ s.answers.length ∧
    ∀ path, PlainPath path → ∀ port, Hears infoHash peerId localPort (previous s.answers i)
      (URL.new port (ascii "http://localhost" ++ byte '/' :: (path ++ query)))
  asked : s.queries.length = s.answers.length ∨ s.queries.length = s.answers.length + 1
  failed : s.error = true → s.phase = .returned ∧ s.queries.length = s.answers.length + 1
  peers : s.getPeers = if s.error then none else some (((s.answers.getLast?).map ResponseMessage.peers).getD [])
  connected : s.connected = true ↔ s.answers ≠ []
  slept : s.slept <+: s.answers.map fun answer => .ofInt answer.interval
  late : s.late ≤ 1

theorem hears_query {infoHash peerId : Bytes} {localPort : Int16} {before : Option ResponseMessage} {path : Bytes}
    (hinfo : infoHash.length = 20) (hpeer : peerId.length = 20) (htilde : byte '~' ∉ peerId)
    (hbefore : ∀ result ∈ before, result.trackerId.length ≤ kMaxLength) (hpath : PlainPath path) (port : UInt32) :
    Hears infoHash peerId localPort before (URL.new port (ascii "http://localhost" ++ byte '/' ::
      (path ++ buildQuery (paramsAfter (firstParams infoHash peerId localPort.toInt) before) []))) := by
  have hshort : Short (paramsAfter (firstParams infoHash peerId localPort.toInt) before) :=
    short_paramsAfter hinfo hpeer hbefore
  have hback := readBack_of hpath sorted_paramsAfter hshort keys_paramsAfter paramsAfter_ne_nil port
  rw [buildQuery_eq paramsAfter_ne_nil hshort, ← List.nil_append (byte '?' :: _),
    ← buildQuery_eq paramsAfter_ne_nil hshort] at hback
  exact {
    valid_iff := hback.valid_iff.trans (noTilde_paramsAfter htilde)
    event := fun hvalid => (hback.lookup hvalid (ascii "event")).trans (lookup_paramsAfter _)
    trackerId := fun hvalid => (hback.lookup hvalid (ascii "trackerid")).trans (lookup_paramsAfter _)
    others := by
      intro hvalid name hevent htracker
      rw [hback.lookup hvalid name, lookup_paramsAfter, if_neg hevent, if_neg htracker] }

/-- **The conversation with a tracker.** In every run, whatever comes of the requests and whenever the callback is set
or the object is destroyed: the first request says that the event is a start, each later one has the identifier of the
answer before it and no event, and all else is as at first; the peers are those of the last answer, until an error
ends the thread for good; and at most one request is built from the URL that the destructor has released. -/
theorem conversation {infoHash : Bytes} (hinfo : infoHash.length = 20) (random : Nat → Nat) (localPort : Int16)
    {events : List Event} {s : PeersImpl}
    (hrun : Run Step (.new infoHash (generatePeerId random) localPort.toInt) events s) :
    Conversation infoHash (generatePeerId random) localPort s := by
  have h := inv_run hrun
  obtain ⟨hasked, hfailed⟩ := h.asked
  exact {
    heard := by
      intro i query hquery
      obtain ⟨hi, -⟩ := List.getElem?_eq_some_iff.mp hquery
      have hle : i ≤ s.answers.length := by omega
      rw [h.queries, List.getElem?_map, List.getElem?_range hi] at hquery
      obtain rfl := Option.some.inj hquery
      refine ⟨hle, fun path hpath port => ?_⟩
      apply hears_query hinfo (generatePeerId_length random) (tilde_not_mem_generatePeerId random) _ hpath
      intro result hresult
      cases i with
      | zero => cases hresult
      | succ i => exact h.answers result (List.mem_of_getElem? hresult)
    asked := hasked
    failed := hfailed
    peers := by rw [PeersImpl.getPeers, h.peers]
    connected := h.connected
    slept := by
      rw [h.slept]
      exact (List.take_prefix _ _).map _
    late := h.late.1 }

/-- Two rounds with an empty answer. -/
theorem conversation_twoRounds : ∃ s : PeersImpl, s.queries.length = 2 ∧ s.answers.length = 2 ∧
    Conversation (List.replicate 20 0) (generatePeerId id) 6881 s := by
  have hdecode : beDecode 2 (ascii "de" ++ [0]) = .ok (some (.dict []), [0]) :=
    beDecode_dict (beDecodeEntries_end 0 [] [0])
  have hparse : parseResponseMessage 2 (ascii "de") .new = .ok (true, .new) := by
    rw [parseResponseMessage, hdecode]
    rfl
  obtain ⟨exchange, hexchange⟩ : ∃ exchange : Exchange, exchange.outcome 2 = .ok (some (.ok .new)) := by
    refine ⟨⟨true, [.got (ascii "de"), .atEnd], some (true, 200)⟩, ?_⟩
    have hread : readStream [.got (ascii "de"), .atEnd] [] = some (true, ascii "de") := rfl
    rw [Exchange.outcome]
    dsimp only
    rw [hread]
    dsimp only
    rw [hparse]
    rfl
  have hstart : ∃ start, start = PeersImpl.new (List.replicate 20 0) (generatePeerId id) (6881 : Int16).toInt := ⟨_, rfl⟩
  obtain ⟨start, hstart⟩ := hstart
  have hphase : start.phase = .atTest := hstart ▸ rfl
  have hshutdown : start.shutdown = false := hstart ▸ rfl
  have hqueries : start.queries = [] := hstart ▸ rfl
  have hanswers : start.answers = [] := hstart ▸ rfl
  obtain ⟨s₁, hrun₁, hphase₁, hshutdown₁, hqueries₁, hanswers₁⟩ := round hphase hshutdown hexchange
  obtain ⟨s₂, hrun₂, -, -, hqueries₂, hanswers₂⟩ := round hphase₁ hshutdown₁ hexchange
  have hrun := hrun₁.trans hrun₂
  rw [hstart] at hrun
  refine ⟨s₂, ?_, ?_, conversation List.length_replicate id 6881 hrun⟩
  · rw [hqueries₂, hqueries₁, hqueries, List.length_nil]
  · rw [hanswers₂, hanswers₁, hanswers]
    rfl

end Thebends.Ypeer
