import Mathlib.Data.Finset.Basic
import Thebends.BtunnelCore
import Thebends.LibExcept
import Thebends.LibRun

/-! The three maps of a service of btunnel as `exported_service.cpp` and `local_service.cpp` update them by
hand: when a client connects, when a request needs a connection of its own, and when a connection is closed,
by a read, by a write that fails or by the destructor. What the system and the peer answer is part of an
event. A failed assertion and an exit leave no state behind. -/

namespace Thebends.Btunnel

open LibExcept LibMap LibRun Ynet

/-- The members of an `ExportedService` or a `LocalService`, the descriptors it watches in the select loop,
and the descriptors that are open. -/
structure ServiceState where
  serviceId : Int32
  sessionToSocket : Map Int32 Nat
  socketToSession : Map Nat Int32
  socketWriters : Map Nat Bytes
  readFds : Finset Nat
  opened : Finset Nat

namespace ServiceState

def new (serviceId : Int32) : ServiceState := ⟨serviceId, ∅, ∅, ∅, ∅, ∅⟩

/-- `AddReadFd`. -/
def addReadFd (s : ServiceState) (sock : Nat) : Except Fault ServiceState :=
  if sock ∈ s.readFds then .error (.exit "Got duplicate read request for fd")
  else .ok { s with readFds := insert sock s.readFds }

/-- `RemoveReadFd`. -/
def removeReadFd (s : ServiceState) (sock : Nat) : Except Fault ServiceState :=
  if sock ∈ s.readFds then .ok { s with readFds := s.readFds.erase sock }
  else .error (.exit "Removed fd that was not being read")

/-- `Close`. -/
def close (s : ServiceState) (sock : Nat) : Except Fault ServiceState := do
  check (s.socketToSession.lookup sock).isSome
  let s ← s.removeReadFd sock
  let s := { s with opened := s.opened.erase sock }
  let session : Int32 := (s.socketToSession.lookup sock).getD 0
  check (session > 0)
  return { s with
    socketToSession := s.socketToSession.erase sock
    sessionToSocket := s.sessionToSocket.erase session
    socketWriters := s.socketWriters.erase sock }

/-- A connection is entered in the three maps, with a new writer, and watched. -/
def enter (s : ServiceState) (sock : Nat) (session : Int32) : Except Fault ServiceState :=
  addReadFd { s with
    socketToSession := s.socketToSession.insert sock session
    sessionToSocket := s.sessionToSocket.insert session sock
    socketWriters := s.socketWriters.insert sock [] } sock

/-- `Read`, after `read` returned some bytes, and whether the peer takes the request. -/
def read (s : ServiceState) (sock : Nat) (data : Bytes) (taken : Bool) :
    Except Fault (List ForwardRequest × ServiceState) := do
  check (s.socketToSession.lookup sock).isSome
  if data.length = 0 then
    let s ← s.close sock
    return ([], s)
  else
    let request : ForwardRequest := ⟨s.serviceId, (s.socketToSession.lookup sock).getD 0, data⟩
    if !taken then
      let s ← s.close sock
      return ([request], s)
    else return ([request], s)

/-- The end of `Forward`: `Write` on the writer of a connection, which is closed when that fails. A missing
writer is a null pointer. -/
def send (s : ServiceState) (sock : Nat) (data : Bytes) (written : Bool) : Except Fault (Bool × ServiceState) :=
  match s.socketWriters.lookup sock with
  | none => .error .outOfBounds
  | some content => do
      check (data.length > 0)
      if !written then
        let s ← s.close sock
        return (false, s)
      else return (true, { s with socketWriters := s.socketWriters.insert sock (content ++ data) })

/-- The loop of a destructor over its open connections, the least descriptor first. -/
def closeAll : Nat → ServiceState → Except Fault ServiceState
  | 0, s => if s.socketToSession.keys = [] then .ok s else .error .endless
  | fuel + 1, s =>
      match s.socketToSession.keys.min? with
      | none => .ok s
      | some sock => do
          let s ← s.close sock
          closeAll fuel s

end ServiceState

/-! ### Exported services -/

/-- What can happen to an exported service: a client connects, with the numbers that `random` then returns; a
client's socket can be read; the peer sends a request; it is destroyed. -/
inductive ExportedEvent
  | connect (sock : Nat) (draws : List Nat)
  | read (sock : Nat) (data : Bytes) (taken : Bool)
  | forward (request : ForwardRequest) (written : Bool)
  | destroy

namespace ExportedEvent

/-- The loop that draws a session id. -/
def drawSession (s : ServiceState) (draws : List Nat) : Option Int32 :=
  (draws.map fun draw => Int32.ofInt (draw % kMaxServiceId)).find? fun session =>
    (s.sessionToSocket.lookup session).isNone

/-- `ExportedService::Connect`. -/
def connected (s : ServiceState) (sock : Nat) (draws : List Nat) : Except Fault ServiceState := do
  check (s.socketToSession.lookup sock).isNone
  match drawSession s draws with
  | none => .error .endless
  | some session => s.enter sock session

/-- `ExportedService::Forward`. -/
def forwarded (s : ServiceState) (request : ForwardRequest) (written : Bool) :
    Except Fault (Bool × ServiceState) := do
  check (request.serviceId = s.serviceId)
  match s.sessionToSocket.lookup request.sessionId with
  | none => return (false, s)
  | some sock => s.send sock request.buffer written

/-- `~ExportedService`. -/
def destroyed (s : ServiceState) : Except Fault ServiceState := do
  let s ← ServiceState.closeAll s.socketToSession.keys.length s
  check (s.socketToSession.keys.length = 0)
  check (s.socketWriters.keys.length = 0)
  check (s.sessionToSocket.keys.length = 0)
  return s

def handle (s : ServiceState) : ExportedEvent → Except Fault ServiceState
  | .connect sock draws => connected { s with opened := insert sock s.opened } sock draws
  | .read sock data taken => (s.read sock data taken).map Prod.snd
  | .forward request written => (forwarded s request written).map Prod.snd
  | .destroy => destroyed s

/-- A new descriptor is one that is not open, and only what is watched is read. -/
def Possible (s : ServiceState) : ExportedEvent → Prop
  | .connect sock _ => sock ∉ s.opened
  | .read sock _ _ => sock ∈ s.readFds
  | .forward _ _ => True
  | .destroy => True

instance (s : ServiceState) (event : ExportedEvent) : Decidable (event.Possible s) :=
  match event with
  | .connect sock _ => inferInstanceAs (Decidable (sock ∉ s.opened))
  | .read sock _ _ => inferInstanceAs (Decidable (sock ∈ s.readFds))
  | .forward _ _ => .isTrue trivial
  | .destroy => .isTrue trivial

def Step (s : ServiceState) (event : ExportedEvent) (s' : ServiceState) : Prop :=
  event.Possible s ∧ event.handle s = .ok s'

end ExportedEvent

/-! ### Local services -/

/-- What can happen to a local service. A request comes with the descriptor that `socket` would return, and
with whether `connect` would succeed. -/
inductive LocalEvent
  | read (sock : Nat) (data : Bytes) (taken : Bool)
  | forward (request : ForwardRequest) (sock : Nat) (connects : Bool) (written : Bool)
  | destroy

namespace LocalEvent

/-- `LocalService::Forward`. -/
def forwarded (s : ServiceState) (request : ForwardRequest) (sock : Nat) (connects : Bool) (written : Bool) :
    Except Fault (Bool × ServiceState) := do
  check (request.serviceId = s.serviceId)
  match s.sessionToSocket.lookup request.sessionId with
  | some found => s.send found request.buffer written
  | none =>
      -- the descriptor stays open where `connect` fails
      let s := { s with opened := insert sock s.opened }
      if !connects then return (false, s)
      else
        check (s.socketWriters.lookup sock).isNone
        let s ← s.enter sock request.sessionId
        s.send sock request.buffer written

/-- `~LocalService`. -/
def destroyed (s : ServiceState) : Except Fault ServiceState := do
  let s ← ServiceState.closeAll s.socketToSession.keys.length s
  check (s.socketToSession.keys.length = 0)
  check (s.sessionToSocket.keys.length = 0)
  return s

def handle (s : ServiceState) : LocalEvent → Except Fault ServiceState
  | .read sock data taken => (s.read sock data taken).map Prod.snd
  | .forward request sock connects written => (forwarded s request sock connects written).map Prod.snd
  | .destroy => destroyed s

def Possible (s : ServiceState) : LocalEvent → Prop
  | .read sock _ _ => sock ∈ s.readFds
  | .forward _ sock _ _ => sock ∉ s.opened
  | .destroy => True

instance (s : ServiceState) (event : LocalEvent) : Decidable (event.Possible s) :=
  match event with
  | .read sock _ _ => inferInstanceAs (Decidable (sock ∈ s.readFds))
  | .forward _ sock _ _ => inferInstanceAs (Decidable (sock ∉ s.opened))
  | .destroy => .isTrue trivial

def Step (s : ServiceState) (event : LocalEvent) (s' : ServiceState) : Prop :=
  event.Possible s ∧ event.handle s = .ok s'

end LocalEvent

/-! ### The maps agree -/

namespace ServiceState

/-- The two maps of sessions are inverse to each other, the writers have the same sockets, and these are the
descriptors that are watched; all of them are open. -/
structure Consistent (s : ServiceState) : Prop where
  inverse : ∀ session sock, s.sessionToSocket.lookup session = some sock ↔ s.socketToSession.lookup sock = some session
  writers : ∀ sock, (s.socketWriters.lookup sock).isSome ↔ (s.socketToSession.lookup sock).isSome
  watched : ∀ sock, sock ∈ s.readFds ↔ (s.socketToSession.lookup sock).isSome
  opened : ∀ sock, (s.socketToSession.lookup sock).isSome → sock ∈ s.opened

theorem consistent_new (serviceId : Int32) : (new serviceId).Consistent where
  inverse session sock := by simp [new]
  writers sock := by simp [new]
  watched sock := by simp [new]
  opened sock := by simp [new]

variable {s s' : ServiceState}

theorem Consistent.open (h : s.Consistent) (sock : Nat) : Consistent { s with opened := insert sock s.opened } where
  inverse := h.inverse
  writers := h.writers
  watched := h.watched
  opened other hother := Finset.mem_insert_of_mem (h.opened other hother)

/-- A descriptor that is not open is in no map. -/
theorem Consistent.fresh (h : s.Consistent) {sock : Nat} (hfresh : sock ∉ s.opened) :
    s.socketToSession.lookup sock = none := by
  cases hsession : s.socketToSession.lookup sock with
  | none => rfl
  | some session => exact absurd (h.opened sock (by rw [hsession]; rfl)) hfresh

/-- Nor is it watched. -/
theorem Consistent.unwatched (h : s.Consistent) {sock : Nat} (hfresh : sock ∉ s.opened) : sock ∉ s.readFds := by
  rw [h.watched, h.fresh hfresh]
  exact Bool.false_ne_true

/-- Where there is no session there is no writer. -/
theorem Consistent.noWriter (h : s.Consistent) {sock : Nat} (hnone : s.socketToSession.lookup sock = none) :
    s.socketWriters.lookup sock = none := by
  rw [← Option.not_isSome_iff_eq_none, h.writers, hnone]
  exact Bool.false_ne_true

theorem of_check_isSome {V : Type*} {entry : Option V} {done : Unit} (h : check entry.isSome = .ok done) :
    ∃ value, entry = some value := by
  cases entry with
  | none => cases h
  | some value => exact ⟨value, rfl⟩

theorem of_check_isNone {V : Type*} {entry : Option V} {done : Unit} (h : check entry.isNone = .ok done) :
    entry = none := by
  cases entry with
  | none => rfl
  | some value => cases h

/-- What `Close` needs, and what it does. -/
theorem close_cases {sock : Nat} (h : s.close sock = .ok s') :
    ∃ session : Int32, s.socketToSession.lookup sock = some session ∧ session > 0 ∧ sock ∈ s.readFds ∧
      s' = { s with
        socketToSession := s.socketToSession.erase sock
        sessionToSocket := s.sessionToSocket.erase session
        socketWriters := s.socketWriters.erase sock
        readFds := s.readFds.erase sock
        opened := s.opened.erase sock } := by
  obtain ⟨_, hcheck, h⟩ := bind_eq_ok h
  obtain ⟨session, hsession⟩ := of_check_isSome hcheck
  obtain ⟨unwatched, hremove, h⟩ := bind_eq_ok h
  rw [removeReadFd] at hremove
  split at hremove
  swap
  · cases hremove
  next hwatched =>
  cases hremove
  simp only [hsession, Option.getD_some] at h
  obtain ⟨_, hpos, h⟩ := bind_eq_ok h
  cases h
  exact ⟨session, hsession, of_check_ok hpos, hwatched, rfl⟩

theorem Consistent.close (h : s.Consistent) {sock : Nat} (hclose : s.close sock = .ok s') : s'.Consistent := by
  obtain ⟨session, hsession, -, -, rfl⟩ := close_cases hclose
  constructor
  · exact (Bimap.remove ⟨s.sessionToSocket, s.socketToSession, h.inverse⟩ session sock hsession).inverse
  · intro other
    simp only [Map.lookup_erase_eq]
    split
    · exact Iff.rfl
    · exact h.writers other
  · intro other
    simp only [Map.lookup_erase_eq, Finset.mem_erase]
    split
    case isTrue heq => simp [heq]
    case isFalse hne => simp [hne, h.watched]
  · intro other hother
    simp only [Map.lookup_erase_eq] at hother
    split at hother
    · cases hother
    · next hne => exact Finset.mem_erase.mpr ⟨hne, h.opened other hother⟩

theorem enter_cases {sock : Nat} {session : Int32} (h : s.enter sock session = .ok s') : sock ∉ s.readFds ∧
    s' = { s with
      socketToSession := s.socketToSession.insert sock session
      sessionToSocket := s.sessionToSocket.insert session sock
      socketWriters := s.socketWriters.insert sock []
      readFds := insert sock s.readFds } := by
  rw [enter, addReadFd] at h
  split at h
  · cases h
  · next hwatched =>
    cases h
    exact ⟨hwatched, rfl⟩

theorem exists_enter {sock : Nat} (h : sock ∉ s.readFds) (session : Int32) : ∃ s', s.enter sock session = .ok s' :=
  ⟨_, if_neg h⟩

theorem Consistent.enter (h : s.Consistent) {sock : Nat} {session : Int32}
    (hsock : s.socketToSession.lookup sock = none) (hsession : s.sessionToSocket.lookup session = none)
    (hopened : sock ∈ s.opened) (henter : s.enter sock session = .ok s') : s'.Consistent := by
  obtain ⟨-, rfl⟩ := enter_cases henter
  constructor
  · exact (Bimap.add ⟨s.sessionToSocket, s.socketToSession, h.inverse⟩ session sock hsession hsock).inverse
  · intro other
    simp only [Map.lookup_insert_eq]
    split
    · exact Iff.rfl
    · exact h.writers other
  · intro other
    simp only [Map.lookup_insert_eq, Finset.mem_insert]
    split
    case isTrue heq => simp [heq]
    case isFalse hne => simp [hne, h.watched]
  · intro other hother
    simp only [Map.lookup_insert_eq] at hother
    split at hother
    · next heq =>
      rw [heq]
      exact hopened
    · exact h.opened other hother

theorem Consistent.read (h : s.Consistent) {sock : Nat} {data : Bytes} {taken : Bool} {requests : List ForwardRequest}
    (hread : s.read sock data taken = .ok (requests, s')) : s'.Consistent := by
  obtain ⟨_, -, hread⟩ := bind_eq_ok hread
  split at hread
  · obtain ⟨closed, hclose, hread⟩ := bind_eq_ok hread
    cases hread
    exact h.close hclose
  · split at hread
    · obtain ⟨closed, hclose, hread⟩ := bind_eq_ok hread
      cases hread
      exact h.close hclose
    · cases hread
      exact h

theorem Consistent.send (h : s.Consistent) {sock : Nat} {data : Bytes} {written done : Bool}
    (hsend : s.send sock data written = .ok (done, s')) : s'.Consistent := by
  rw [ServiceState.send] at hsend
  split at hsend
  · cases hsend
  · next content hwriter =>
    obtain ⟨_, -, hsend⟩ := bind_eq_ok hsend
    split at hsend
    · obtain ⟨closed, hclose, hsend⟩ := bind_eq_ok hsend
      cases hsend
      exact h.close hclose
    · cases hsend
      refine ⟨h.inverse, fun other => ?_, h.watched, h.opened⟩
      simp only [Map.lookup_insert_eq]
      split
      · next heq =>
        rw [heq, ← h.writers, hwriter]
        exact Iff.rfl
      · exact h.writers other

theorem Consistent.closeAll (h : s.Consistent) {fuel : Nat} (hclose : ServiceState.closeAll fuel s = .ok s') :
    s'.Consistent := by
  induction fuel generalizing s with
  | zero =>
      rw [ServiceState.closeAll] at hclose
      split at hclose
      · cases hclose
        exact h
      · cases hclose
  | succ fuel ih =>
      rw [ServiceState.closeAll] at hclose
      split at hclose
      · cases hclose
        exact h
      · obtain ⟨closed, hfirst, hclose⟩ := bind_eq_ok hclose
        exact ih (h.close hfirst) hclose

end ServiceState

namespace ExportedEvent

variable {s s' : ServiceState}

theorem drawSession_fresh {draws : List Nat} {session : Int32} (h : drawSession s draws = some session) :
    s.sessionToSocket.lookup session = none := by
  have hnone := List.find?_some h
  exact Option.isNone_iff_eq_none.mp hnone

/-- **An event of an exported service** leaves the maps in agreement. -/
theorem Step.consistent {event : ExportedEvent} (h : event.Step s s') (hs : s.Consistent) : s'.Consistent := by
  obtain ⟨hpossible, hhandle⟩ := h
  cases event with
  | connect sock draws =>
      obtain ⟨_, hcheck, hhandle⟩ := bind_eq_ok hhandle
      split at hhandle
      · cases hhandle
      · next session hdraw =>
        exact (hs.open sock).enter (ServiceState.of_check_isNone hcheck) (drawSession_fresh hdraw)
          (Finset.mem_insert_self _ _) hhandle
  | read sock data taken =>
      obtain ⟨⟨requests, after⟩, hread, rfl⟩ := map_eq_ok hhandle
      exact hs.read hread
  | forward request written =>
      obtain ⟨⟨done, after⟩, hforward, rfl⟩ := map_eq_ok hhandle
      obtain ⟨_, -, hforward⟩ := bind_eq_ok hforward
      split at hforward
      · cases hforward
        exact hs
      · exact hs.send hforward
  | destroy =>
      obtain ⟨closed, hclose, hhandle⟩ := bind_eq_ok hhandle
      obtain ⟨_, -, hhandle⟩ := bind_eq_ok hhandle
      obtain ⟨_, -, hhandle⟩ := bind_eq_ok hhandle
      obtain ⟨_, -, hhandle⟩ := bind_eq_ok hhandle
      cases hhandle
      exact hs.closeAll hclose

end ExportedEvent

namespace LocalEvent

variable {s s' : ServiceState}

/-- **An event of a local service** does too. -/
theorem Step.consistent {event : LocalEvent} (h : event.Step s s') (hs : s.Consistent) : s'.Consistent := by
  obtain ⟨hpossible, hhandle⟩ := h
  cases event with
  | read sock data taken =>
      obtain ⟨⟨requests, after⟩, hread, rfl⟩ := map_eq_ok hhandle
      exact hs.read hread
  | forward request sock connects written =>
      obtain ⟨⟨done, after⟩, hforward, rfl⟩ := map_eq_ok hhandle
      obtain ⟨_, -, hforward⟩ := bind_eq_ok hforward
      split at hforward
      · exact hs.send hforward
      · next hsession =>
        split at hforward
        · cases hforward
          exact hs.open sock
        · obtain ⟨_, -, hforward⟩ := bind_eq_ok hforward
          obtain ⟨entered, henter, hforward⟩ := bind_eq_ok hforward
          have hentered := (hs.open sock).enter (hs.fresh hpossible) hsession (Finset.mem_insert_self _ _) henter
          exact hentered.send hforward
  | destroy =>
      obtain ⟨closed, hclose, hhandle⟩ := bind_eq_ok hhandle
      obtain ⟨_, -, hhandle⟩ := bind_eq_ok hhandle
      obtain ⟨_, -, hhandle⟩ := bind_eq_ok hhandle
      cases hhandle
      exact hs.closeAll hclose

end LocalEvent

/-! ### Which events come to an end -/

namespace ServiceState

variable {s s' : ServiceState}

theorem Consistent.close_iff (h : s.Consistent) {sock : Nat} {session : Int32}
    (hsession : s.socketToSession.lookup sock = some session) : (∃ s', s.close sock = .ok s') ↔ session > 0 := by
  constructor
  · rintro ⟨s', hclose⟩
    obtain ⟨found, hfound, hpos, -⟩ := close_cases hclose
    rw [hsession, Option.some.injEq] at hfound
    rw [hfound]
    exact hpos
  · intro hpos
    have hwatched : sock ∈ s.readFds := (h.watched sock).mpr (by rw [hsession]; rfl)
    have hcheck : check (s.socketToSession.lookup sock).isSome = .ok () := by rw [hsession]; rfl
    rw [ServiceState.close, hcheck, ok_bind, removeReadFd, if_pos hwatched, ok_bind]
    simp only [hsession, Option.getD_some]
    rw [check_ok hpos]
    exact ⟨_, rfl⟩

theorem Consistent.read_iff (h : s.Consistent) {sock : Nat} {session : Int32}
    (hsession : s.socketToSession.lookup sock = some session) (data : Bytes) (taken : Bool) :
    (∃ out, s.read sock data taken = .ok out) ↔ (0 < data.length ∧ taken = true) ∨ session > 0 := by
  have hcheck : check (s.socketToSession.lookup sock).isSome = .ok () := by rw [hsession]; rfl
  rw [ServiceState.read, hcheck, ok_bind, ← h.close_iff hsession]
  by_cases hdata : data.length = 0
  · rw [if_pos hdata]
    constructor
    · rintro ⟨out, hout⟩
      obtain ⟨closed, hclose, -⟩ := bind_eq_ok hout
      exact Or.inr ⟨closed, hclose⟩
    · rintro (⟨hpos, -⟩ | ⟨closed, hclose⟩)
      · omega
      · exact ⟨_, bind_ok hclose rfl⟩
  · rw [if_neg hdata]
    cases taken with
    | true => exact iff_of_true ⟨_, rfl⟩ (Or.inl ⟨Nat.pos_of_ne_zero hdata, rfl⟩)
    | false =>
        constructor
        · rintro ⟨out, hout⟩
          obtain ⟨closed, hclose, -⟩ := bind_eq_ok hout
          exact Or.inr ⟨closed, hclose⟩
        · rintro (⟨-, htaken⟩ | ⟨closed, hclose⟩)
          · cases htaken
          · exact ⟨_, bind_ok hclose rfl⟩

theorem Consistent.send_iff (h : s.Consistent) {sock : Nat} {session : Int32}
    (hsession : s.socketToSession.lookup sock = some session) (data : Bytes) (written : Bool) :
    (∃ out, s.send sock data written = .ok out) ↔ 0 < data.length ∧ (written = true ∨ session > 0) := by
  obtain ⟨content, hcontent⟩ : ∃ content, s.socketWriters.lookup sock = some content := by
    rw [← Option.isSome_iff_exists, h.writers, hsession]
    rfl
  simp only [ServiceState.send, hcontent]
  rw [← h.close_iff hsession]
  constructor
  · rintro ⟨out, hout⟩
    obtain ⟨_, hcheck, hout⟩ := bind_eq_ok hout
    refine ⟨of_check_ok hcheck, ?_⟩
    cases written with
    | true => exact Or.inl rfl
    | false =>
        obtain ⟨closed, hclose, -⟩ := bind_eq_ok hout
        exact Or.inr ⟨closed, hclose⟩
  · rintro ⟨hpos, hwritten⟩
    have hcheck : check (decide (data.length > 0)) = .ok () := check_ok hpos
    rw [hcheck, ok_bind]
    cases written with
    | true => exact ⟨_, rfl⟩
    | false =>
        rcases hwritten with hwritten | ⟨closed, hclose⟩
        · cases hwritten
        · exact ⟨_, bind_ok hclose rfl⟩

theorem keys_eq_nil {K V : Type*} [DecidableEq K] {m : Map K V} (h : ∀ key, m.lookup key = none) : m.keys = [] := by
  apply List.eq_nil_iff_forall_not_mem.mpr
  intro key hkey
  obtain ⟨value, hvalue⟩ := (Map.mem_keys_iff m key).mp hkey
  rw [h key] at hvalue
  cases hvalue

/-- The loop of the destructors ends, with nothing left, unless it comes to a session that has no valid id. -/
theorem Consistent.closeAll_iff (h : s.Consistent) {fuel : Nat} (hfuel : s.socketToSession.keys.length = fuel) :
    (∃ s', ServiceState.closeAll fuel s = .ok s' ∧ s'.socketToSession.keys = []) ↔
      ∀ sock (session : Int32), s.socketToSession.lookup sock = some session → session > 0 := by
  induction fuel generalizing s with
  | zero =>
      have hnil := List.length_eq_zero_iff.mp hfuel
      refine iff_of_true ⟨s, by rw [ServiceState.closeAll, if_pos hnil], hnil⟩ fun sock session hsession => ?_
      have hmem := (Map.mem_keys_iff _ _).mpr ⟨session, hsession⟩
      rw [hnil] at hmem
      cases hmem
  | succ fuel ih =>
      obtain ⟨sock, hsock⟩ : ∃ sock, s.socketToSession.keys.min? = some sock := by
        rw [← Option.isSome_iff_exists, List.isSome_min?_iff]
        exact List.ne_nil_of_length_eq_add_one hfuel
      obtain ⟨session, hsession⟩ := (Map.mem_keys_iff _ _).mp (List.min?_mem hsock)
      have hrest : ∀ closed, s.close sock = .ok closed →
          ((∃ s', ServiceState.closeAll fuel closed = .ok s' ∧ s'.socketToSession.keys = []) ↔
            ∀ other (found : Int32), (s.socketToSession.erase sock).lookup other = some found → found > 0) := by
        intro closed hclose
        have hlength := Map.length_keys_erase hsession
        obtain ⟨found, -, -, -, hclosed⟩ := close_cases hclose
        have hmap : closed.socketToSession = s.socketToSession.erase sock := by rw [hclosed]
        rw [ih (h.close hclose) (by rw [hmap]; omega), hmap]
      simp only [ServiceState.closeAll, hsock]
      constructor
      · rintro ⟨s', hall, hnil⟩ other found hfound
        obtain ⟨closed, hclose, hall⟩ := bind_eq_ok hall
        by_cases heq : other = sock
        · subst heq
          rw [hsession, Option.some.injEq] at hfound
          rw [← hfound]
          exact (h.close_iff hsession).mp ⟨closed, hclose⟩
        · refine (hrest closed hclose).mp ⟨s', hall, hnil⟩ other found ?_
          rw [Map.lookup_erase_eq, if_neg heq]
          exact hfound
      · intro hpos
        obtain ⟨closed, hclose⟩ := (h.close_iff hsession).mpr (hpos sock session hsession)
        obtain ⟨s', hall, hnil⟩ := (hrest closed hclose).mpr fun other found hfound =>
          hpos other found (Map.of_lookup_erase hfound).2
        exact ⟨s', bind_ok hclose hall, hnil⟩

/-- Where no socket is left, nothing else is. -/
theorem Consistent.nothing_left (h : s.Consistent) (hnil : s.socketToSession.keys = []) :
    s.socketWriters.keys = [] ∧ s.sessionToSocket.keys = [] := by
  have hnone : ∀ sock, s.socketToSession.lookup sock = none := by
    intro sock
    cases hsession : s.socketToSession.lookup sock with
    | none => rfl
    | some session =>
        have hmem := (Map.mem_keys_iff _ _).mpr ⟨session, hsession⟩
        rw [hnil] at hmem
        cases hmem
  constructor
  · apply keys_eq_nil
    exact fun sock => h.noWriter (hnone sock)
  · apply keys_eq_nil
    intro session
    cases hsock : s.sessionToSocket.lookup session with
    | none => rfl
    | some sock =>
        rw [h.inverse, hnone] at hsock
        cases hsock

/-- A destructor, which asks for what the loop leaves. -/
theorem Consistent.destroy_iff (h : s.Consistent) {rest : ServiceState → Except Fault ServiceState}
    (hneeds : ∀ closed s', rest closed = .ok s' → closed.socketToSession.keys = [])
    (hrest : ∀ closed, closed.socketToSession.keys = [] → closed.socketWriters.keys = [] →
      closed.sessionToSocket.keys = [] → rest closed = .ok closed) :
    (∃ s', (ServiceState.closeAll s.socketToSession.keys.length s >>= rest) = .ok s') ↔
      ∀ sock (session : Int32), s.socketToSession.lookup sock = some session → session > 0 := by
  rw [← h.closeAll_iff rfl]
  constructor
  · rintro ⟨s', hout⟩
    obtain ⟨closed, hclose, hout⟩ := bind_eq_ok hout
    exact ⟨closed, hclose, hneeds closed s' hout⟩
  · rintro ⟨closed, hclose, hnil⟩
    obtain ⟨hwriters, hsessions⟩ := (h.closeAll hclose).nothing_left hnil
    exact ⟨closed, bind_ok hclose (hrest closed hnil hwriters hsessions)⟩

/-- A call that asks for a condition first. -/
theorem exists_check_ok {α : Type} {condition : Prop} [Decidable condition] {rest : Except Fault α} :
    (∃ result, (check (decide condition) >>= fun _ => rest) = .ok result) ↔ condition ∧ ∃ result, rest = .ok result := by
  constructor
  · rintro ⟨result, h⟩
    obtain ⟨_, hcheck, h⟩ := bind_eq_ok h
    exact ⟨of_check_ok hcheck, result, h⟩
  · rintro ⟨hcondition, result, h⟩
    exact ⟨result, bind_ok (check_ok hcondition) h⟩

end ServiceState

namespace ExportedEvent

variable {s : ServiceState}

/-- The events that an exported service gets through: one of the numbers drawn is the id of no session, no
connection is closed whose session has no valid id, and requests are for this service and not empty. -/
def Sound (s : ServiceState) : ExportedEvent → Prop
  | .connect _ draws => ∃ session, drawSession s draws = some session
  | .read sock data taken => (0 < data.length ∧ taken = true) ∨
      ∀ session : Int32, s.socketToSession.lookup sock = some session → session > 0
  | .forward request written => request.serviceId = s.serviceId ∧
      ∀ sock, s.sessionToSocket.lookup request.sessionId = some sock →
        0 < request.buffer.length ∧ (written = true ∨ request.sessionId > 0)
  | .destroy => ∀ sock (session : Int32), s.socketToSession.lookup sock = some session → session > 0

theorem handled_iff (hs : s.Consistent) {event : ExportedEvent} (hpossible : event.Possible s) :
    (∃ s', event.Step s s') ↔ event.Sound s := by
  have hstep : (∃ s', event.Step s s') ↔ ∃ s', event.handle s = .ok s' :=
    exists_congr fun _ => and_iff_right hpossible
  rw [hstep]
  cases event with
  | connect sock draws =>
      have hnone : s.socketToSession.lookup sock = none := hs.fresh hpossible
      have hcheck : check (s.socketToSession.lookup sock).isNone = .ok () := by rw [hnone]; rfl
      simp only [handle, connected, hcheck, ok_bind, Sound]
      have hsame : drawSession { s with opened := insert sock s.opened } draws = drawSession s draws := rfl
      rw [hsame]
      cases hdraw : drawSession s draws with
      | none => exact iff_of_false nofun nofun
      | some session =>
          refine iff_of_true ?_ ⟨session, rfl⟩
          exact ServiceState.exists_enter (s := { s with opened := insert sock s.opened }) (hs.unwatched hpossible) session
  | read sock data taken =>
      obtain ⟨session, hsession⟩ := Option.isSome_iff_exists.mp ((hs.watched sock).mp hpossible)
      rw [handle, exists_map_ok, hs.read_iff hsession, Sound, hsession]
      simp only [Option.some.injEq, forall_eq']
  | forward request written =>
      rw [handle, exists_map_ok, forwarded, Sound, ServiceState.exists_check_ok]
      refine and_congr_right fun _ => ?_
      cases hsock : s.sessionToSocket.lookup request.sessionId with
      | none => exact iff_of_true ⟨_, rfl⟩ fun _ hnone => absurd hnone (Option.some_ne_none _).symm
      | some sock =>
          rw [hs.send_iff ((hs.inverse _ _).mp hsock)]
          simp only [Option.some.injEq, forall_eq']
  | destroy =>
      refine hs.destroy_iff (fun closed s' hout => ?_) fun closed hnil hwriters hsessions => ?_
      · obtain ⟨_, hcheck, -⟩ := bind_eq_ok hout
        exact List.length_eq_zero_iff.mp (of_check_ok hcheck)
      · rw [hnil, hwriters, hsessions]
        rfl

end ExportedEvent

namespace LocalEvent

variable {s : ServiceState}

/-- The events that a local service gets through. -/
def Sound (s : ServiceState) : LocalEvent → Prop
  | .read sock data taken => (0 < data.length ∧ taken = true) ∨
      ∀ session : Int32, s.socketToSession.lookup sock = some session → session > 0
  | .forward request _ connects written => request.serviceId = s.serviceId ∧
      ((s.sessionToSocket.lookup request.sessionId).isSome ∨ connects = true →
        0 < request.buffer.length ∧ (written = true ∨ request.sessionId > 0))
  | .destroy => ∀ sock (session : Int32), s.socketToSession.lookup sock = some session → session > 0

theorem handled_iff (hs : s.Consistent) {event : LocalEvent} (hpossible : event.Possible s) :
    (∃ s', event.Step s s') ↔ event.Sound s := by
  have hstep : (∃ s', event.Step s s') ↔ ∃ s', event.handle s = .ok s' :=
    exists_congr fun _ => and_iff_right hpossible
  rw [hstep]
  cases event with
  | read sock data taken =>
      obtain ⟨session, hsession⟩ := Option.isSome_iff_exists.mp ((hs.watched sock).mp hpossible)
      rw [handle, exists_map_ok, hs.read_iff hsession, Sound, hsession]
      simp only [Option.some.injEq, forall_eq']
  | forward request sock connects written =>
      rw [handle, exists_map_ok, forwarded, Sound, ServiceState.exists_check_ok]
      refine and_congr_right fun _ => ?_
      cases hfound : s.sessionToSocket.lookup request.sessionId with
      | some found =>
          have hopen : (some found).isSome = true ∨ connects = true := Or.inl rfl
          rw [forall_prop_of_true hopen]
          exact hs.send_iff ((hs.inverse _ _).mp hfound) _ _
      | none =>
          cases connects with
          | false => exact iff_of_true ⟨_, rfl⟩ (by simp)
          | true =>
              have hnone := hs.fresh hpossible
              have hwriter := hs.noWriter hnone
              obtain ⟨entered, henter⟩ := ServiceState.exists_enter
                (s := { s with opened := insert sock s.opened }) (hs.unwatched hpossible) request.sessionId
              have hentered := (hs.open sock).enter hnone hfound (Finset.mem_insert_self _ _) henter
              have hsession : entered.socketToSession.lookup sock = some request.sessionId := by
                rw [(ServiceState.enter_cases henter).2]
                exact AList.lookup_insert _
              have hconnects : (none : Option Nat).isSome = true ∨ true = true := Or.inr rfl
              rw [forall_prop_of_true hconnects, ← hentered.send_iff hsession]
              simp only [Bool.not_true, Bool.false_eq_true, if_false, hwriter, Option.isNone_none, henter, ok_bind]
              rfl
  | destroy =>
      refine hs.destroy_iff (fun closed s' hout => ?_) fun closed hnil _ hsessions => ?_
      · obtain ⟨_, hcheck, -⟩ := bind_eq_ok hout
        exact List.length_eq_zero_iff.mp (of_check_ok hcheck)
      · rw [hnil, hsessions]
        rfl

end LocalEvent

/-! ### What the maps are good for -/

namespace ServiceState

variable {s s' : ServiceState}

/-- A request that finds its session finds a live writer, and a descriptor that is not open is in no map. -/
structure Serves (s : ServiceState) : Prop extends s.Consistent where
  writer : ∀ session sock, s.sessionToSocket.lookup session = some sock →
    sock ∈ s.opened ∧ ∃ content, s.socketWriters.lookup sock = some content
  closed : ∀ sock, sock ∉ s.opened → s.socketToSession.lookup sock = none ∧ s.socketWriters.lookup sock = none ∧
    ∀ session, s.sessionToSocket.lookup session ≠ some sock

theorem Consistent.serves (h : s.Consistent) : s.Serves where
  toConsistent := h
  writer session sock hsock := by
    have hsession := (h.inverse session sock).mp hsock
    have hsome : (s.socketToSession.lookup sock).isSome := by rw [hsession]; rfl
    exact ⟨h.opened sock hsome, Option.isSome_iff_exists.mp ((h.writers sock).mpr hsome)⟩
  closed sock hclosed := by
    have hnone := h.fresh hclosed
    refine ⟨hnone, h.noWriter hnone, fun session hsock => ?_⟩
    rw [h.inverse, hnone] at hsock
    cases hsock

/-- The maps in agreement, as the sessions that agree by construction. -/
def sessions (s : ServiceState) (h : s.Consistent) : Sessions :=
  ⟨⟨s.sessionToSocket, s.socketToSession, h.inverse⟩, s.socketWriters, h.writers⟩

/-- The three updates by hand are those of the sessions. -/
theorem Consistent.sessions_enter (h : s.Consistent) {sock : Nat} {session : Int32}
    (hsock : s.socketToSession.lookup sock = none) (hsession : s.sessionToSocket.lookup session = none)
    (hopened : sock ∈ s.opened) (henter : s.enter sock session = .ok s') :
    s'.sessions (h.enter hsock hsession hopened henter) = (s.sessions h).add sock session hsock hsession := by
  obtain ⟨-, rfl⟩ := enter_cases henter
  rfl

theorem Consistent.sessions_close (h : s.Consistent) {sock : Nat} (hclose : s.close sock = .ok s') :
    (s.sessions h).close sock = .ok (s'.sessions (h.close hclose)) := by
  obtain ⟨session, hsession, hpos, -, rfl⟩ := close_cases hclose
  unfold Sessions.close
  split
  · next hnone =>
    rw [Sessions.session, sessions, hsession] at hnone
    cases hnone
  · next found hfound =>
    have heq : session = found := Option.some.inj (hsession.symm.trans hfound)
    subst heq
    rw [check_ok hpos]
    rfl

end ServiceState

/-- **The maps of a service agree**, and so every request that finds its session finds a live writer, and no
closed socket is in a map: after any events of an exported service, and of a local service. -/
theorem services_serve (serviceId : Int32) :
    (∀ events s, Run ExportedEvent.Step (.new serviceId) events s → s.Serves) ∧
      ∀ events s, Run LocalEvent.Step (.new serviceId) events s → s.Serves := by
  constructor
  · intro events s h
    apply ServiceState.Consistent.serves
    exact h.invariant (fun _ s => s.Consistent) (ServiceState.consistent_new serviceId)
      fun _ _ _ _ _ hs hstep => hstep.consistent hs
  · intro events s h
    apply ServiceState.Consistent.serves
    exact h.invariant (fun _ s => s.Consistent) (ServiceState.consistent_new serviceId)
      fun _ _ _ _ _ hs hstep => hstep.consistent hs

theorem services_serve_two :
    (∃ s, Run ExportedEvent.Step (.new 7) [.connect 4 [9], .connect 5 [9, 10], .forward ⟨7, 10, [1]⟩ true,
        .read 4 [] true] s ∧ s.sessionToSocket.lookup 10 = some 5 ∧ s.sessionToSocket.lookup 9 = none ∧ s.Serves) ∧
      ∃ s, Run LocalEvent.Step (.new 7) [.forward ⟨7, 3, [1]⟩ 4 true true, .read 4 [2] false] s ∧
        s.sessionToSocket.lookup 3 = none ∧ s.Serves := by
  constructor
  · obtain ⟨s, hrun, hopen, hclosed⟩ : ∃ s, Run ExportedEvent.Step (.new 7) [.connect 4 [9], .connect 5 [9, 10],
        .forward ⟨7, 10, [1]⟩ true, .read 4 [] true] s ∧ s.sessionToSocket.lookup 10 = some 5 ∧
        s.sessionToSocket.lookup 9 = none :=
      ⟨_, .cons ⟨by decide, rfl⟩ (.cons ⟨by decide, rfl⟩ (.cons ⟨trivial, rfl⟩ (.cons ⟨by decide, rfl⟩ (.nil _)))),
        by decide, by decide⟩
    exact ⟨s, hrun, hopen, hclosed, (services_serve 7).1 _ s hrun⟩
  · obtain ⟨s, hrun, hclosed⟩ : ∃ s, Run LocalEvent.Step (.new 7) [.forward ⟨7, 3, [1]⟩ 4 true true,
        .read 4 [2] false] s ∧ s.sessionToSocket.lookup 3 = none :=
      ⟨_, .cons ⟨by decide, rfl⟩ (.cons ⟨by decide, rfl⟩ (.nil _)), by decide⟩
    exact ⟨s, hrun, hclosed, (services_serve 7).2 _ s hrun⟩

end Thebends.Btunnel
