import Thebends.YpeerBinary

/-! What the response's parser makes of values of the wrong type: which of them it refuses, and which it uses. -/

namespace Thebends.Ypeer

open LibAscii LibExcept LibScan

/-- What the value of a key has to be. -/
inductive Kind
  | str
  | int
  | peers
  deriving DecidableEq, Repr

/-- The keys of a peer. -/
def peerKind (key : Chars) : Option Kind :=
  if key = ascii "peer id" ∨ key = ascii "ip" then some .str
  else if key = ascii "port" then some .int
  else none

/-- The keys of a message. -/
def messageKind (key : Chars) : Option Kind :=
  if key = ascii "failure reason" ∨ key = ascii "warning message" ∨ key = ascii "tracker id" then some .str
  else if key = ascii "interval" ∨ key = ascii "min interval" ∨ key = ascii "complete" ∨ key = ascii "incomplete" then
    some .int
  else if key = ascii "peers" then some .peers
  else none

/-- The node is of the right type, and not a string that failed. -/
def BeNode.fits : BeNode → Kind → Bool
  | .str (some _), .str => true
  | .int _, .int => true
  | .str (some _), .peers => true
  | .list _, .peers => true
  | _, _ => false

/-- Some entry up to the first failure reason has a value that is not of the type that its key calls for. -/
def HasWrong (dict : List (BeStr × BeNode)) : Prop :=
  ∃ before key n after kind, dict = before ++ (key, n) :: after ∧
    (∀ entry ∈ before, entry.1.text ≠ ascii "failure reason") ∧ messageKind key.text = some kind ∧ n.fits kind = false

/-- The parsers come to their end, and values of the wrong type are refused. -/
structure ChecksTypes (node : BeNode) : Prop where
  dict : ∀ d, node = .dict d → ∀ peer, ∃ result, parseDictPeer d peer = .ok result
  list : ∀ l, node = .list l → ∀ peers, ∃ result, parseListPeers l peers = .ok result
  message : ∀ response, ∃ ok response', parseNode node response = .ok (ok, response') ∧
    ∀ d, node = .dict d → HasWrong d → ok = false

/-- There is a string in the tree that failed. -/
inductive HasFailed : BeNode → Prop
  | here : HasFailed (.str none)
  | item {l : List BeNode} {n : BeNode} (h : n ∈ l) (hn : HasFailed n) : HasFailed (.list l)
  | entry {d : List (BeStr × BeNode)} {key : BeStr} {n : BeNode} (h : (key, n) ∈ d) (hn : HasFailed n) :
      HasFailed (.dict d)

/-- A value of a list of peers that is parsed. -/
def BeNode.isPeer : BeNode → Bool
  | .dict d => d.all fun entry => (peerKind entry.1.text).all entry.2.fits
  | _ => false

/-- A value of `peers` that is parsed. -/
def BeNode.isPeers : BeNode → Bool
  | .str (some s) => s.s.length % 6 = 0
  | .list l => l.all BeNode.isPeer
  | _ => false

/-- An entry of a message that the loop goes past. -/
def passes (key : Chars) (n : BeNode) : Bool :=
  key ≠ ascii "failure reason" &&
    match messageKind key with
    | none => true
    | some .peers => n.isPeers
    | some kind => n.fits kind

/-- The loop comes to peers that are the number zero. -/
def ZeroPeers (dict : List (BeStr × BeNode)) : Prop :=
  ∃ before key after, dict = before ++ (key, .int 0) :: after ∧ key.text = ascii "peers" ∧
    ∀ entry ∈ before, passes entry.1.text entry.2 = true

/-! ### Memory -/

mutual

theorem beFree_iff : ∀ node, beFree node = .ok () ↔ ¬HasFailed node
  | .str none => iff_of_false (fun h => nomatch h) (not_not_intro .here)
  | .str (some _) => iff_of_true rfl fun h => nomatch h
  | .int _ => iff_of_true rfl fun h => nomatch h
  | .list l => by
      rw [beFree, beFreeItems_iff l]
      constructor
      · rintro h ⟨⟩
        case item n hn hmem => exact h n hmem hn
      · exact fun h n hmem hn => h (.item hmem hn)
  | .dict d => by
      rw [beFree, beFreeEntries_iff d]
      constructor
      · rintro h ⟨⟩
        case entry key n hn hmem => exact h (key, n) hmem hn
      · exact fun h entry hmem hn => h (.entry hmem hn)

theorem beFreeItems_iff : ∀ l, beFreeItems l = .ok () ↔ ∀ n ∈ l, ¬HasFailed n
  | [] => iff_of_true rfl fun n hn => absurd hn List.not_mem_nil
  | n :: l => by
      rw [beFreeItems, List.forall_mem_cons, ← beFree_iff n, ← beFreeItems_iff l]
      exact unit_bind_iff

theorem beFreeEntries_iff : ∀ d, beFreeEntries d = .ok () ↔ ∀ entry ∈ d, ¬HasFailed entry.2
  | [] => iff_of_true rfl fun n hn => absurd hn List.not_mem_nil
  | (key, n) :: d => by
      rw [beFreeEntries, List.forall_mem_cons, ← beFree_iff n, ← beFreeEntries_iff d]
      exact unit_bind_iff

end

/-! ### Values -/

theorem text?_eq (n : BeNode) : ∃ value, n.text? = .ok value ∧ value.isSome = n.fits .str := by
  cases n with
  | str s =>
      cases s with
      | none => exact ⟨none, rfl, rfl⟩
      | some s => exact ⟨some s.text, rfl, rfl⟩
  | int i => exact ⟨none, rfl, rfl⟩
  | list l => exact ⟨none, rfl, rfl⟩
  | dict d => exact ⟨none, rfl, rfl⟩

theorem isSome_int? (n : BeNode) : n.int?.isSome = n.fits .int := by
  cases n with
  | str s => cases s <;> rfl
  | int i => rfl
  | list l => rfl
  | dict d => rfl

section Store

variable {α σ : Type}

theorem store_fst (state : σ) (value : Option α) (set : α → σ) :
    (store state value set).1 = if value.isSome then none else some false := by
  cases value <;> rfl

/-- A branch that stores a string. -/
theorem store_text (n : BeNode) (state : σ) (set : Chars → σ) :
    (n.text? >>= fun value => (.ok (store state value set) : Except Fault (Option Bool × σ))).map Prod.fst =
      .ok (if n.fits .str then none else some false) := by
  obtain ⟨value, htext, hfits⟩ := text?_eq n
  rw [htext, ok_bind, ← hfits]
  exact congrArg Except.ok (store_fst state value set)

/-- A branch that stores a number. -/
theorem store_int (n : BeNode) (state : σ) (set : Int → σ) :
    (.ok (store state n.int? set) : Except Fault (Option Bool × σ)).map Prod.fst =
      .ok (if n.fits .int then none else some false) := by
  rw [← isSome_int?]
  exact congrArg Except.ok (store_fst state n.int? set)

end Store

/-! ### Peers -/

theorem peerEntry_judges :
    Judges peerEntry fun entry => .ok (if (peerKind entry.1.text).all entry.2.fits then none else some false) := by
  rintro ⟨str, n⟩ peer
  dsimp only [peerEntry]
  generalize str.text = key
  obtain rfl | hid := eq_or_ne key (ascii "peer id")
  · rw [if_pos rfl]
    exact store_text n peer _
  rw [if_neg hid]
  obtain rfl | hip := eq_or_ne key (ascii "ip")
  · rw [if_pos rfl]
    exact store_text n peer _
  rw [if_neg hip, peerKind, if_neg (not_or.mpr ⟨hid, hip⟩)]
  obtain rfl | hport := eq_or_ne key (ascii "port")
  · rw [if_pos rfl]
    exact store_int n peer _
  rw [if_neg hport, if_neg hport]
  rfl

theorem parseDictPeer_eq (dict : List (BeStr × BeNode)) (peer : Peer) :
    ∃ peer', parseDictPeer dict peer = .ok ((BeNode.dict dict).isPeer, peer') :=
  scan_all peerEntry_judges dict peer

theorem listPeer_judges : Judges listPeer fun n => .ok (if n.isPeer then none else some false) := by
  intro n peers
  cases n with
  | dict d =>
      obtain ⟨peer, hpeer⟩ := parseDictPeer_eq d ⟨[], [], none⟩
      rw [listPeer, hpeer, ok_bind]
      dsimp only
      cases (BeNode.dict d).isPeer <;> rfl
  | str s => rfl
  | int i => rfl
  | list l => rfl

theorem parseListPeers_eq (l : List BeNode) (peers : List Peer) :
    ∃ peers', parseListPeers l peers = .ok (l.all BeNode.isPeer, peers') :=
  scan_all listPeer_judges l peers

theorem parseBinaryPeers_eq (s : BeStr) (peers : List Peer) :
    ∃ peers', parseBinaryPeers s.s peers = .ok (decide (s.s.length % 6 = 0), peers') := by
  have hshort : s.s.length ≤ 100 * 1024 := s.short
  by_cases h : s.s.length % 6 = 0
  · rw [parseBinaryPeers_ok h (by omega), decide_eq_true h]
    exact ⟨_, rfl⟩
  · rw [parseBinaryPeers, if_pos h, decide_eq_false h]
    exact ⟨peers, rfl⟩

theorem parsePeers_str (s : BeStr) (peers : List Peer) :
    parsePeers (.str (some s)) peers = parseBinaryPeers s.s peers := if_pos (.inl rfl)

/-- The value of `peers` is parsed or refused, unless it is a null pointer or looks like one. -/
theorem parsePeers_fst (n : BeNode) (peers : List Peer) :
    (parsePeers n peers).map Prod.fst = if n.s.isNull then .error .nullString else .ok n.isPeers := by
  cases n with
  | str s =>
      cases s with
      | none => rfl
      | some s =>
          obtain ⟨peers', hpeers⟩ := parseBinaryPeers_eq s peers
          rw [parsePeers_str, hpeers]
          rfl
  | int i =>
      by_cases h : i = 0
      · subst h
        rfl
      · have hnull : (BeNode.int i).s = .elsewhere := if_neg h
        unfold parsePeers
        rw [hnull]
        rfl
  | list l =>
      obtain ⟨peers', hpeers⟩ := parseListPeers_eq l peers
      exact congrArg (Except.map Prod.fst) hpeers
  | dict d => rfl

/-! ### The message -/

/-- What a turn of the message's loop does. -/
def judge (key : Chars) (n : BeNode) : Except Fault (Option Bool) :=
  if key = ascii "peers" ∧ n.s.isNull then .error .nullString
  else .ok (if passes key n then none else some (key = ascii "failure reason" && n.fits .str))

/-- A branch that stores a string or a number. -/
theorem judge_of_kind {key : Chars} {n : BeNode} {kind : Kind} (hkind : messageKind key = some kind)
    (hkey : key ≠ ascii "failure reason") (hpeers : kind ≠ .peers) :
    judge key n = .ok (if n.fits kind then none else some false) := by
  have hnot : ¬(key = ascii "peers" ∧ n.s.isNull = true) := by
    rintro ⟨rfl, -⟩
    exact hpeers (Option.some.inj hkind).symm
  have hpasses : passes key n = n.fits kind := by
    rw [passes, hkind, decide_eq_true hkey, Bool.true_and]
    cases kind with
    | str => rfl
    | int => rfl
    | peers => exact absurd rfl hpeers
  rw [judge, if_neg hnot, hpasses, decide_eq_false hkey]
  rfl

theorem judge_failure (n : BeNode) : judge (ascii "failure reason") n = .ok (some (n.fits .str)) := rfl

theorem judge_none {key : Chars} (n : BeNode) (hkind : messageKind key = none) (hkey : key ≠ ascii "failure reason") :
    judge key n = .ok none := by
  have hnot : ¬(key = ascii "peers" ∧ n.s.isNull = true) := by
    rintro ⟨rfl, -⟩
    cases hkind
  have hpasses : passes key n = true := by
    rw [passes, hkind, decide_eq_true hkey]
    rfl
  rw [judge, if_neg hnot, hpasses]
  rfl

theorem judge_peers (n : BeNode) (response : ResponseMessage) :
    ((parsePeers n response.peers >>= fun result =>
        (.ok (if result.1 then none else some false, { response with peers := result.2 }) :
          Except Fault (Option Bool × ResponseMessage))).map Prod.fst) =
      judge (ascii "peers") n := by
  have hfst := parsePeers_fst n response.peers
  rw [judge, passes]
  cases hnull : n.s.isNull with
  | true =>
      rw [hnull, if_pos rfl] at hfst
      rw [if_pos ⟨rfl, rfl⟩]
      cases hparse : parsePeers n response.peers with
      | error fault =>
          rw [hparse] at hfst
          exact congrArg Except.error (Except.error.inj hfst)
      | ok result =>
          rw [hparse] at hfst
          cases hfst
  | false =>
      rw [hnull] at hfst
      obtain ⟨⟨ok, peers⟩, hparse, rfl⟩ := map_eq_ok hfst
      rw [hparse]
      rfl

theorem messageEntry_judges : Judges messageEntry fun entry => judge entry.1.text entry.2 := by
  rintro ⟨str, n⟩ response
  dsimp only [messageEntry]
  generalize str.text = key
  obtain rfl | hfailure := eq_or_ne key (ascii "failure reason")
  · obtain ⟨value, htext, hfits⟩ := text?_eq n
    rw [if_pos rfl, htext, ok_bind, judge_failure, ← hfits]
    cases value <;> rfl
  rw [if_neg hfailure]
  obtain rfl | hwarning := eq_or_ne key (ascii "warning message")
  · rw [if_pos rfl]
    exact (store_text n response _).trans (judge_of_kind rfl hfailure nofun).symm
  rw [if_neg hwarning]
  obtain rfl | hinterval := eq_or_ne key (ascii "interval")
  · rw [if_pos rfl]
    exact (store_int n response _).trans (judge_of_kind rfl hfailure nofun).symm
  rw [if_neg hinterval]
  obtain rfl | hmin := eq_or_ne key (ascii "min interval")
  · rw [if_pos rfl]
    exact (store_int n response _).trans (judge_of_kind rfl hfailure nofun).symm
  rw [if_neg hmin]
  obtain rfl | htracker := eq_or_ne key (ascii "tracker id")
  · rw [if_pos rfl]
    exact (store_text n response _).trans (judge_of_kind rfl hfailure nofun).symm
  rw [if_neg htracker]
  obtain rfl | hcomplete := eq_or_ne key (ascii "complete")
  · rw [if_pos rfl]
    exact (store_int n response _).trans (judge_of_kind rfl hfailure nofun).symm
  rw [if_neg hcomplete]
  obtain rfl | hincomplete := eq_or_ne key (ascii "incomplete")
  · rw [if_pos rfl]
    exact (store_int n response _).trans (judge_of_kind rfl hfailure nofun).symm
  rw [if_neg hincomplete]
  obtain rfl | hpeers := eq_or_ne key (ascii "peers")
  · rw [if_pos rfl]
    exact judge_peers n response
  rw [if_neg hpeers]
  have hstr := not_or.mpr ⟨hfailure, not_or.mpr ⟨hwarning, htracker⟩⟩
  have hint := not_or.mpr ⟨hinterval, not_or.mpr ⟨hmin, not_or.mpr ⟨hcomplete, hincomplete⟩⟩⟩
  have hkind : messageKind key = none := (if_neg hstr).trans ((if_neg hint).trans (if_neg hpeers))
  rw [judge_none n hkind hfailure]
  rfl

/-- A failed string, and the number that looks like one. -/
theorem eq_of_isNull {n : BeNode} (h : n.s.isNull = true) : n = .str none ∨ n = .int 0 := by
  cases n with
  | str s =>
      cases s with
      | none => exact .inl rfl
      | some s => cases h
  | int i =>
      by_cases hi : i = 0
      · exact .inr (congrArg BeNode.int hi)
      · have helsewhere : (BeNode.int i).s = .elsewhere := if_neg hi
        rw [helsewhere] at h
        cases h
  | list l => cases h
  | dict d => cases h

theorem judge_error_iff {key : Chars} {n : BeNode} {fault : Fault} :
    judge key n = .error fault ↔ fault = .nullString ∧ key = ascii "peers" ∧ n.s.isNull = true := by
  rw [judge]
  by_cases hboth : key = ascii "peers" ∧ n.s.isNull = true
  · rw [if_pos hboth, Except.error.injEq, and_iff_left hboth]
    exact eq_comm
  · rw [if_neg hboth]
    exact iff_of_false (fun h => nomatch h) fun h => hboth h.2

theorem not_isNull_of_isPeers {n : BeNode} (h : n.isPeers = true) : n.s.isNull = false := by
  cases n with
  | str s =>
      cases s with
      | none => cases h
      | some s => rfl
  | int i => cases h
  | list l => rfl
  | dict d => rfl

theorem judge_none_iff {key : Chars} {n : BeNode} : judge key n = .ok none ↔ passes key n = true := by
  rw [judge]
  split_ifs with hboth hpasses
  · refine iff_of_false (fun h => nomatch h) fun hpasses => ?_
    obtain ⟨rfl, hnull⟩ := hboth
    exact absurd hnull (Bool.eq_false_iff.mp (not_isNull_of_isPeers hpasses))
  · exact iff_of_true rfl hpasses
  · exact iff_of_false (fun h => nomatch h) hpasses

/-- Only a failure reason makes the loop return true. -/
theorem judge_of_ne {key : Chars} {n : BeNode} (hkey : key ≠ ascii "failure reason") {value : Bool}
    (h : judge key n = .ok (some value)) : value = false := by
  rw [judge, decide_eq_false hkey] at h
  split_ifs at h
  · cases Except.ok.inj h
  · exact (Option.some.inj (Except.ok.inj h)).symm

theorem peers_of_kind {key : Chars} (h : messageKind key = some .peers) : key = ascii "peers" := by
  rw [messageKind] at h
  split_ifs at h with hstr hint hpeers
  · cases h
  · cases h
  · exact hpeers

theorem fits_of_isPeers {n : BeNode} (h : n.isPeers = true) : n.fits .peers = true := by
  cases n with
  | str s =>
      cases s with
      | none => cases h
      | some s => rfl
  | int i => cases h
  | list l => rfl
  | dict d => cases h

/-- A value of the wrong type is refused where it is judged at all. -/
theorem judge_of_wrong {key : Chars} {n : BeNode} {kind : Kind} (hkind : messageKind key = some kind)
    (hfits : n.fits kind = false) {ret : Option Bool} (h : judge key n = .ok ret) : ret = some false := by
  by_cases hkey : key = ascii "failure reason"
  · subst hkey
    obtain rfl : Kind.str = kind := Option.some.inj hkind
    rw [judge_failure, hfits] at h
    exact (Except.ok.inj h).symm
  · by_cases hpeers : kind = .peers
    · subst hpeers
      obtain rfl := peers_of_kind hkind
      cases ret with
      | none =>
          have hfits' := fits_of_isPeers (judge_none_iff.mp h)
          rw [hfits] at hfits'
          cases hfits'
      | some value => exact congrArg some (judge_of_ne hkey h)
    · rw [judge_of_kind hkind hkey hpeers, hfits] at h
      exact (Except.ok.inj h).symm

/-! ### The whole -/

theorem scan_messageEntry_error_iff {dict : List (BeStr × BeNode)} (h : ¬HasFailed (.dict dict))
    (response : ResponseMessage) :
    (∃ fault, scan messageEntry true dict response = .error fault) ↔ ZeroPeers dict := by
  constructor
  · rintro ⟨fault, hfault⟩
    obtain ⟨before, ⟨key, n⟩, after, rfl, hbefore, hjudge⟩ := (scan_error_iff messageEntry_judges).mp hfault
    obtain ⟨-, hkey, hnull⟩ := judge_error_iff.mp hjudge
    have hmem : (key, n) ∈ before ++ (key, n) :: after := List.mem_append_right _ List.mem_cons_self
    have hnot : n ≠ .str none := by
      rintro rfl
      exact h (.entry hmem .here)
    obtain rfl : n = .int 0 := (eq_of_isNull hnull).resolve_left hnot
    exact ⟨before, key, after, rfl, hkey, fun entry hentry => judge_none_iff.mp (hbefore entry hentry)⟩
  · rintro ⟨before, key, after, rfl, hkey, hbefore⟩
    refine ⟨.nullString, (scan_error_iff messageEntry_judges).mpr ⟨before, _, after, rfl, fun entry hentry => ?_, ?_⟩⟩
    · exact judge_none_iff.mpr (hbefore entry hentry)
    · exact judge_error_iff.mpr ⟨rfl, hkey, rfl⟩

theorem beFree_bind_iff {α : Type} (node : BeNode) (value : α) :
    (∃ result, (beFree node >>= fun _ => (.ok value : Except Fault α)) = .ok result) ↔ ¬HasFailed node := by
  rw [← beFree_iff]
  cases beFree node with
  | error fault => exact iff_of_false (fun ⟨_, h⟩ => nomatch h) fun h => nomatch h
  | ok _ => exact iff_of_true ⟨value, rfl⟩ rfl

theorem parseNode_ok_iff (node : BeNode) (response : ResponseMessage) :
    (∃ result, parseNode node response = .ok result) ↔
      ¬HasFailed node ∧ ∀ dict, node = .dict dict → ¬ZeroPeers dict := by
  cases node with
  | str s => exact (beFree_bind_iff _ _).trans (and_iff_left fun _ h => nomatch h).symm
  | int i => exact (beFree_bind_iff _ _).trans (and_iff_left fun _ h => nomatch h).symm
  | list l => exact (beFree_bind_iff _ _).trans (and_iff_left fun _ h => nomatch h).symm
  | dict d =>
      rw [parseNode]
      constructor
      · rintro ⟨result, h⟩
        obtain ⟨result', hscan, h⟩ := bind_eq_ok h
        have hfailed := (beFree_bind_iff _ _).mp ⟨result, h⟩
        refine ⟨hfailed, ?_⟩
        rintro _ ⟨⟩ hzero
        obtain ⟨fault, hfault⟩ := (scan_messageEntry_error_iff hfailed response).mpr hzero
        rw [hfault] at hscan
        cases hscan
      · rintro ⟨hfailed, hzero⟩
        cases hscan : scan messageEntry true d response with
        | error fault => exact absurd ((scan_messageEntry_error_iff hfailed response).mp ⟨fault, hscan⟩) (hzero d rfl)
        | ok result => exact (beFree_bind_iff _ result).mpr hfailed

/-- A message is as safe as its tree. -/
theorem parseResponseMessage_ok_iff {turns : Nat} {message rest : Chars} {node : BeNode} (response : ResponseMessage)
    (h : beDecode turns (message ++ [0]) = .ok (some node, rest)) :
    (∃ result, parseResponseMessage turns message response = .ok result) ↔
      ¬HasFailed node ∧ ∀ dict, node = .dict dict → ¬ZeroPeers dict := by
  rw [parseResponseMessage, h]
  exact parseNode_ok_iff node response

/-- Where the parser comes to its end, it has refused what is of the wrong type. -/
theorem parseNode_refuses {dict : List (BeStr × BeNode)} {response response' : ResponseMessage} {ok : Bool}
    (h : parseNode (.dict dict) response = .ok (ok, response')) (hwrong : HasWrong dict) : ok = false := by
  obtain ⟨before, key, n, after, kind, rfl, hbefore, hkind, hfits⟩ := hwrong
  obtain ⟨result, hscan, h⟩ := bind_eq_ok h
  obtain ⟨_, _, h⟩ := bind_eq_ok h
  obtain rfl := Except.ok.inj h
  refine scan_eq_of_mem messageEntry_judges (fun entry hentry other hother => ?_) (fun ret hret => ?_) hscan
  · exact judge_of_ne (hbefore entry hentry) hother
  · exact judge_of_wrong hkind hfits hret

/-- **When the parser is safe and checks all types**: just where no string in the tree has failed, on which `be_free`
would stumble, and the loop does not come to peers that are the number zero. -/
theorem checksTypes_iff (node : BeNode) :
    ChecksTypes node ↔ ¬HasFailed node ∧ ∀ dict, node = .dict dict → ¬ZeroPeers dict := by
  rw [← parseNode_ok_iff node .new]
  constructor
  · intro h
    obtain ⟨ok, response', hparse, -⟩ := h.message .new
    exact ⟨_, hparse⟩
  · intro h
    have hiff := parseNode_ok_iff node
    refine ⟨fun d _ peer => ?_, fun l _ peers => ?_, fun response => ?_⟩
    · obtain ⟨peer', hpeer⟩ := parseDictPeer_eq d peer
      exact ⟨_, hpeer⟩
    · obtain ⟨peers', hpeers⟩ := parseListPeers_eq l peers
      exact ⟨_, hpeers⟩
    · obtain ⟨⟨ok, response'⟩, hparse⟩ := (hiff response).mpr ((hiff .new).mp h)
      refine ⟨ok, response', hparse, ?_⟩
      rintro d rfl hwrong
      exact parseNode_refuses hparse hwrong

/-- The message `d5:peersi0ee`. -/
theorem zeroPeers_used :
    let node := BeNode.dict [(⟨ascii "peers", by decide⟩, .int 0)]
    beDecode 4 (ascii "d5:peersi0ee" ++ [0]) = .ok (some node, [0]) ∧ ¬ChecksTypes node := by
  have hkey : beDecodeStr (ascii "5:peersi0ee" ++ [0]) = .ok (some ⟨ascii "peers", by decide⟩, ascii "i0ee" ++ [0]) := rfl
  have hint : beDecodeInt (ascii "0ee" ++ [0]) = .ok (0, ascii "ee" ++ [0]) := rfl
  have hzero : beDecode 2 (ascii "i0ee" ++ [0]) = .ok (some (.int 0), ascii "e" ++ [0]) := beDecode_int hint
  have hentries := (beDecodeEntries_entry (d := []) (by decide) hkey hzero).trans (beDecodeEntries_end 1 _ _)
  refine ⟨beDecode_dict hentries, fun h => ?_⟩
  obtain ⟨ok, response, hparse, -⟩ := h.message .new
  exact ((parseNode_ok_iff _ _).mp ⟨_, hparse⟩).2 _ rfl ⟨[], _, [], rfl, rfl, fun _ h => absurd h List.not_mem_nil⟩

end Thebends.Ypeer
