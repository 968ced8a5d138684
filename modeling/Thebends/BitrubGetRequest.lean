import Thebends.BitrubString
import Thebends.YpeerPeers

/-! The request of the Ruby client to a tracker (`get_request.rb`), and what a web server on `yhttp` reads in it.
`CGI.escape` writes a space as a plus, and `Unescape` leaves a plus as it is. -/

namespace Thebends.BitrubRequest

open LibAscii LibDecimal LibMap LibPercent Yhttp Ypeer

/-! ### The request -/

/-- A digit of `[..].pack("H*")`. -/
def nibble (c : UInt8) : Nat := if isAlpha c then (c.toNat % 8 + 9) % 16 else c.toNat % 16

/-- `[hex].pack("H*")`. -/
def packH : Bytes → Bytes
  | [] => []
  | [a] => [.ofNat (16 * nibble a)]
  | a :: b :: rest => .ofNat (16 * nibble a + nibble b) :: packH rest

/-- A digit of an escape, in upper case. -/
def upperHexDigit (d : Nat) : UInt8 := .ofNat (if d < 10 then 48 + d else 55 + d)

/-- What `CGI.escape` makes of a character. -/
def cgiEscapeOne (c : UInt8) : Bytes :=
  if c = byte ' ' then [byte '+']
  else if isAlpha c || isDigit c || (ascii "_.-").contains c then [c]
  else [percent, upperHexDigit (c.toNat / 16), upperHexDigit (c.toNat % 16)]

/-- `CGI.escape`. -/
def cgiEscape (text : Bytes) : Bytes := text.flatMap cgiEscapeOne

/-- What a request needs of a torrent and of the client. -/
structure Metainfo where
  /-- In hexadecimal digits. -/
  infoHash : Bytes
  /-- Set only for a torrent of several files. -/
  filesLength : Option Nat

structure Peer where
  id : Bytes
  /-- None of a `LocalPeer`. -/
  ip : Option Bytes
  port : Int

/-- The keys and values of a request. -/
def query (metainfo : Metainfo) (localPeer : Peer) : List (Bytes × Option Bytes) :=
  [(ascii "info_hash", some (packH metainfo.infoHash)), (ascii "peer_id", some localPeer.id),
    (ascii "ip", localPeer.ip), (ascii "port", some (Bitrub.toS localPeer.port)),
    (ascii "uploaded", some (Bitrub.toS 0)), (ascii "downloaded", some (Bitrub.toS 0)),
    (ascii "left", metainfo.filesLength.map fun length : Nat => Bitrub.toS length), (ascii "compact", some (Bitrub.toS 1)),
    (ascii "event", some (ascii "started"))]

/-- The loop over the keys: those without a value are left out. -/
def parts : List (Bytes × Option Bytes) → List Bytes
  | [] => []
  | (_, none) :: query => parts query
  | (key, some value) :: query => (key ++ ascii "=" ++ cgiEscape value) :: parts query

/-- `GetRequest`: the URI. -/
def getRequest (announce : Bytes) (metainfo : Metainfo) (localPeer : Peer) : Bytes :=
  announce ++ ascii "?" ++ (ascii "&").intercalate (parts (query metainfo localPeer))

/-! ### Escapes -/

/-- What comes back of a character. -/
def plusOne (c : UInt8) : UInt8 := if c = byte ' ' then byte '+' else c

/-- A text with pluses for its spaces. -/
def plus (text : Bytes) : Bytes := text.map plusOne

theorem upperHexDigit_ok {d : Nat} (h : d < 16) :
    isXDigit (upperHexDigit d) = true ∧ hexValue (upperHexDigit d) = d ∧ isXChar (upperHexDigit d) = true ∧
      upperHexDigit d ≠ byte '&' ∧ upperHexDigit d ≠ byte '=' := by
  interval_cases d <;> decide

theorem nibbles_lt (c : UInt8) : c.toNat / 16 < 16 ∧ c.toNat % 16 < 16 := by
  have hlt := c.toNat_lt
  omega

theorem unescape_cgiEscapeOne (c : UInt8) (rest : Bytes) :
    unescape (cgiEscapeOne c ++ rest) = plusOne c :: unescape rest := by
  have hplain : ∀ d, d ≠ percent → unescape (d :: rest) = d :: unescape rest := by
    intro d hd
    apply unescape_copied
    rintro ⟨a, b, rest', heq, -, -⟩
    exact hd (List.cons.inj heq).1
  rw [cgiEscapeOne]
  split
  case isTrue hspace =>
      rw [plusOne, if_pos hspace]
      exact hplain (byte '+') (by decide)
  case isFalse hspace =>
      rw [plusOne, if_neg hspace]
      split
      case isTrue hkept =>
          apply hplain c
          rintro rfl
          exact absurd hkept (by decide)
      case isFalse =>
          obtain ⟨hhigh, hhighValue, -⟩ := upperHexDigit_ok (nibbles_lt c).1
          obtain ⟨hlow, hlowValue, -⟩ := upperHexDigit_ok (nibbles_lt c).2
          refine (unescape_escape hhigh hlow rest).trans ?_
          rw [Piece.value, hhighValue, hlowValue, Nat.div_add_mod, UInt8.ofNat_toNat]

theorem unescape_cgiEscape (text : Bytes) : unescape (cgiEscape text) = plus text := by
  induction text with
  | nil => rfl
  | cons c text ih =>
      rw [cgiEscape, List.flatMap_cons, unescape_cgiEscapeOne, ← cgiEscape, ih, plus, plus, List.map_cons]

theorem plus_eq_self_iff (text : Bytes) : plus text = text ↔ byte ' ' ∉ text := by
  have hid : plus text = text ↔ text.map plusOne = text.map id := by
    rw [List.map_id]
    rfl
  rw [hid, List.map_inj_left]
  constructor
  · intro h hmem
    exact absurd (h _ hmem) (by decide)
  · intro h c hc
    apply if_neg
    rintro rfl
    exact h hc

theorem mem_cgiEscape {text : Bytes} {x : UInt8} (h : x ∈ cgiEscape text) :
    isXChar x = true ∧ x ≠ byte '&' ∧ x ≠ byte '=' := by
  obtain ⟨c, -, hx⟩ := List.mem_flatMap.mp h
  rw [cgiEscapeOne] at hx
  split at hx
  case isTrue =>
      rw [List.mem_singleton.mp hx]
      decide
  case isFalse =>
      split at hx
      case isTrue hkept =>
          rw [List.mem_singleton.mp hx]
          refine ⟨?_, ?_, ?_⟩
          · apply isXChar_of_isUnreserved
            simp only [isUnreserved, isSafe, ascii, Bool.or_eq_true, List.contains_iff_mem] at hkept ⊢
            rcases hkept with hplain | hmark
            · exact Or.inl (Or.inl hplain)
            · simp at hmark ⊢
              tauto
          · rintro rfl
            exact absurd hkept (by decide)
          · rintro rfl
            exact absurd hkept (by decide)
      case isFalse =>
          obtain ⟨-, -, hhigh⟩ := upperHexDigit_ok (nibbles_lt c).1
          obtain ⟨-, -, hlow⟩ := upperHexDigit_ok (nibbles_lt c).2
          rcases List.mem_cons.mp hx with rfl | hx
          · decide
          rcases List.mem_cons.mp hx with rfl | hx
          · exact hhigh
          · rw [List.mem_singleton.mp hx]
            exact hlow

/-! ### The pairs -/

/-- The pairs of a query, with their values as they are written. -/
def kept (query : List (Bytes × Option Bytes)) : List (Bytes × Bytes) :=
  query.filterMap fun entry => entry.2.map fun value => (entry.1, cgiEscape value)

theorem parts_eq (query : List (Bytes × Option Bytes)) : parts query = (kept query).map pairText := by
  induction query with
  | nil => rfl
  | cons entry query ih =>
      obtain ⟨key, value⟩ := entry
      cases value with
      | none => exact ih
      | some value =>
          have hpair : key ++ ascii "=" ++ cgiEscape value = pairText (key, cgiEscape value) := List.append_assoc ..
          rw [parts, ih, hpair]
          rfl

theorem mem_kept {query : List (Bytes × Option Bytes)} {pair : Bytes × Bytes} (h : pair ∈ kept query) :
    pair.1 ∈ query.map Prod.fst ∧ ∃ value, pair.2 = cgiEscape value := by
  obtain ⟨entry, hentry, hpair⟩ := List.mem_filterMap.mp h
  obtain ⟨value, -, rfl⟩ := Option.map_eq_some_iff.mp hpair
  exact ⟨List.mem_map_of_mem hentry, value, rfl⟩

theorem nodup_kept {query : List (Bytes × Option Bytes)} (h : (query.map Prod.fst).Nodup) :
    ((kept query).map Prod.fst).Nodup := by
  induction query with
  | nil => exact List.nodup_nil
  | cons entry query ih =>
      obtain ⟨first, value⟩ := entry
      obtain ⟨hfirst, hrest⟩ := List.nodup_cons.mp h
      cases value with
      | none => exact ih hrest
      | some value =>
          refine List.nodup_cons.mpr ⟨fun hmem => ?_, ih hrest⟩
          obtain ⟨pair, hpair, heq⟩ := List.mem_map.mp hmem
          exact hfirst (heq ▸ (mem_kept hpair).1)

/-- The pair of a key has its value, where no key comes twice. -/
theorem lookup_kept {query : List (Bytes × Option Bytes)} (h : (query.map Prod.fst).Nodup) (key : Bytes) :
    (kept query).lookup key = ((query.lookup key).join).map cgiEscape := by
  induction query with
  | nil => rfl
  | cons entry query ih =>
      obtain ⟨first, value⟩ := entry
      obtain ⟨hfirst, hrest⟩ := List.nodup_cons.mp h
      cases value with
      | none =>
          have hkept : kept ((first, none) :: query) = kept query := rfl
          rw [hkept]
          by_cases hkey : key = first
          · have hnone : (kept query).lookup first = none := by
              apply List.lookup_eq_none_iff.mpr
              intro pair hpair
              rw [bne_iff_ne]
              rintro rfl
              exact hfirst (mem_kept hpair).1
            rw [hkey, List.lookup_cons_self, hnone]
            rfl
          · rw [LibSorted.lookup_cons_of_ne hkey, ih hrest]
      | some value =>
          have hkept : kept ((first, some value) :: query) = (first, cgiEscape value) :: kept query := rfl
          rw [hkept]
          by_cases hkey : key = first
          · rw [hkey, List.lookup_cons_self, List.lookup_cons_self]
            rfl
          · rw [LibSorted.lookup_cons_of_ne hkey, LibSorted.lookup_cons_of_ne hkey, ih hrest]

/-- The keys of a request. -/
def keys : List Bytes :=
  [ascii "info_hash", ascii "peer_id", ascii "ip", ascii "port", ascii "uploaded", ascii "downloaded", ascii "left",
    ascii "compact", ascii "event"]

theorem map_fst_query (metainfo : Metainfo) (localPeer : Peer) : (query metainfo localPeer).map Prod.fst = keys := rfl

theorem nodup_keys : keys.Nodup := by decide

theorem key_ok {key : Bytes} (h : key ∈ keys) :
    key ≠ [] ∧ ∀ c ∈ key, isXChar c = true ∧ c ≠ byte '&' ∧ c ≠ byte '=' := by
  have hall : keys.all (fun key => key ≠ [] ∧ key.all fun c => isXChar c ∧ c ≠ byte '&' ∧ c ≠ byte '=') = true := rfl
  obtain ⟨hne, hkey⟩ := of_decide_eq_true (List.all_eq_true.mp hall key h)
  exact ⟨hne, fun c hc => of_decide_eq_true (List.all_eq_true.mp hkey c hc)⟩

/-- The parts of the URL of a request. -/
def urlParts {path : Bytes} (hpath : PlainPath path) (metainfo : Metainfo) (localPeer : Peer) : Parts :=
  { localHost with
    path
    pairs := kept (query metainfo localPeer)
    path_all := hpath.all
    path_start := hpath.start
    key_ne := fun _ hpair => (key_ok (mem_kept hpair).1).1
    key_all := fun _ hpair => (key_ok (mem_kept hpair).1).2
    value_all := by
      intro pair hpair c hc
      obtain ⟨-, value, hvalue⟩ := mem_kept hpair
      rw [hvalue] at hc
      exact mem_cgiEscape hc }

/-- **What a web server hears of the Ruby client's request.** It takes every request, and reads every value that the
client has, with a plus for each space in it; so an info hash with a space in it is heard wrong, and of a torrent of
one file it is not said what is left. -/
theorem request_heard_plus {path : Bytes} (hpath : PlainPath path) (metainfo : Metainfo) (localPeer : Peer) (port : UInt32) :
    let u := URL.new port (getRequest (ascii "http://localhost" ++ byte '/' :: path) metainfo localPeer)
    u.valid = true ∧ u.path = path ∧
      (∀ key, u.params.lookup key = (((query metainfo localPeer).lookup key).join).map plus) ∧
      (u.params.lookup (ascii "info_hash") = some (packH metainfo.infoHash) ↔ byte ' ' ∉ packH metainfo.infoHash) ∧
      (u.params.lookup (ascii "left") = none ↔ metainfo.filesLength = none) := by
  intro u
  have hne : kept (query metainfo localPeer) ≠ [] := List.cons_ne_nil _ _
  have htext : getRequest (ascii "http://localhost" ++ byte '/' :: path) metainfo localPeer =
      ascii "http://localhost" ++ byte '/' :: (path ++ tailText (kept (query metainfo localPeer))) := by
    have htail : tailText (kept (query metainfo localPeer)) =
        byte '?' :: queryText (kept (query metainfo localPeer)) := if_neg hne
    rw [getRequest, parts_eq, htail]
    simp [ascii, queryText]
  obtain ⟨number, hnew⟩ := new_localHost port (path ++ tailText (kept (query metainfo localPeer)))
  have hread := consumePath_ok (urlParts hpath metainfo localPeer) [] [] ∅
  change consumePath (byte '/' :: (path ++ tailText (kept (query metainfo localPeer)))) [] [] ∅ = _ at hread
  rw [← htext, hread] at hnew
  have hlookup : ∀ key, u.params.lookup key = (((query metainfo localPeer).lookup key).join).map plus := by
    intro key
    have hparams : u.params = insertAll ∅ (kept (query metainfo localPeer)) := congrArg URL.params hnew
    have hnodup : ((query metainfo localPeer).map Prod.fst).Nodup := by
      rw [map_fst_query]
      exact nodup_keys
    have hplus : plus = unescape ∘ cgiEscape := funext fun text => (unescape_cgiEscape text).symm
    rw [hparams, lookup_insertAll, hplus, ← Option.map_map, ← lookup_kept hnodup,
      ← LibSorted.getLast?_filter (nodup_kept hnodup) key]
    cases ((kept (query metainfo localPeer)).filter (·.1 = key)).getLast? with
    | none => exact AList.lookup_empty key
    | some pair => rfl
  refine ⟨congrArg URL.valid hnew, congrArg URL.path hnew, hlookup, ?_, ?_⟩
  · have hinfo : ((query metainfo localPeer).lookup (ascii "info_hash")).join = some (packH metainfo.infoHash) := rfl
    rw [hlookup, hinfo, Option.map_some, Option.some_inj, plus_eq_self_iff]
  · have hleft : ((query metainfo localPeer).lookup (ascii "left")).join =
        metainfo.filesLength.map fun length : Nat => Bitrub.toS length := rfl
    rw [hlookup, hleft, Option.map_eq_none_iff, Option.map_eq_none_iff]

/-- An info hash that begins with a space. -/
theorem request_heard_plus_space :
    (URL.new 0 (getRequest (ascii "http://localhost/announce") ⟨ascii "2041", none⟩ ⟨ascii "me", none, 6882⟩)).params.lookup
      (ascii "info_hash") ≠ some (packH (ascii "2041")) := by
  have hpath : PlainPath (ascii "announce") := ⟨forall_of_all (by decide), by decide⟩
  have hheard := request_heard_plus hpath ⟨ascii "2041", none⟩ ⟨ascii "me", none, 6882⟩ 0
  exact fun h => hheard.2.2.2.1.mp h (by decide)

end Thebends.BitrubRequest
