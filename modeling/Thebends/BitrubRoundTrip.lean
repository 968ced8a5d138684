import Mathlib.Data.List.Lex
import Mathlib.Tactic.Choose
import Thebends.BitrubBencode
import Thebends.LibAscii

/-! What is encoded is decoded again, whatever stands before it and behind it. -/

namespace Thebends.Bitrub

open LibAscii LibDecimal LibExcept LibLoop

/-- A decoder that finds the text anywhere in a string gives the value and the position behind the text. -/
def Decodes (text : Bytes) (value : Value) : Prop :=
  ∃ least, ∀ before after turns levels, least ≤ turns → least ≤ levels →
    decode (before ++ (text ++ after)) turns levels before.length = .ok (value, (before.length : Int) + text.length)

/-! ### Integers and strings -/

theorem chr_append (before after : Bytes) (c : UInt8) : chr (before ++ c :: after) before.length = .ok c := by
  rw [chr, byteAt_append]

/-- The byte at an offset from the end of what stands before. -/
theorem chr_append_add (before after text : Bytes) (c : UInt8) :
    chr (before ++ (text ++ c :: after)) ((before.length : Int) + text.length) = .ok c := by
  have h := chr_append (before ++ text) after c
  rw [List.append_assoc, List.length_append, Nat.cast_add] at h
  exact h

/-- What stands behind the first byte of a code begins one position further on. -/
theorem length_append_singleton (before : Bytes) (c : UInt8) :
    ((before ++ [c]).length : Int) = (before.length : Int) + 1 := by
  rw [List.length_append, List.length_singleton, Nat.cast_add, Nat.cast_one]

theorem mem_toS {n : Int} {c : UInt8} (h : c ∈ toS n) : isDigit c ∨ c = byte '-' := by
  rw [toS] at h
  split at h
  · rcases List.mem_cons.mp h with rfl | hmem
    · exact Or.inr rfl
    · exact Or.inl (isDigit_of_mem_numeral hmem)
  · exact Or.inl (isDigit_of_mem_numeral h)

theorem toS_natCast (n : Nat) : toS n = numeral n := by
  rw [toS, if_neg (not_lt.mpr (Int.natCast_nonneg n)), Int.natAbs_natCast]

theorem colon_stops (after : Bytes) : Stops (byte ':' :: after) := by
  intro c hc
  rw [← Option.some.inj hc]
  decide

theorem not_mem_numeral {c : UInt8} (h : ¬isDigit c) (n : Nat) : c ∉ numeral n :=
  fun hmem => h (isDigit_of_mem_numeral hmem)

/-- **A string is read back**, by its length alone. -/
theorem decodeString_append (s before after : Bytes) :
    decodeString (before ++ (encodeString s ++ after)) before.length =
      .ok (s, (before.length : Int) + (encodeString s).length) := by
  have hcode : encodeString s = numeral s.length ++ byte ':' :: s := by
    rw [encodeString, toS_natCast]
  generalize hx : before ++ (encodeString s ++ after) = x
  have hcolon : x = before ++ (numeral s.length ++ byte ':' :: (s ++ after)) := by
    rw [← hx, hcode, List.append_assoc, List.cons_append]
  have hlength : x = before ++ (numeral s.length ++ [byte ':'] ++ (s ++ after)) := by
    rw [hcolon, List.append_assoc, List.singleton_append]
  have hcontent : x = before ++ (numeral s.length ++ [byte ':']) ++ (s ++ after) := by
    rw [hlength, List.append_assoc, List.append_assoc, List.append_assoc]
  have hindex : index x (byte ':') before.length = some ((before.length : Int) + (numeral s.length).length) := by
    rw [hcolon]
    exact index_append (not_mem_numeral (by decide) _) before _
  have hn : toI (slice x before.length ((before.length : Int) + (numeral s.length).length)) = s.length := by
    have htext := slice_append before (numeral s.length ++ [byte ':']) (s ++ after) (by simp)
    rw [List.length_append, List.length_singleton, Nat.cast_add, Nat.cast_one, ← Int.add_assoc, Int.add_sub_cancel,
      ← hlength] at htext
    rw [htext]
    exact toI_numeral s.length (colon_stops [])
  have hresult : slice x ((before.length : Int) + (numeral s.length).length + 1)
      ((before.length : Int) + (numeral s.length).length + 1 + s.length - 1) = s := by
    have htext := slice_append (before ++ (numeral s.length ++ [byte ':'])) s after (by simp)
    rw [← hcontent, List.length_append, List.length_append, List.length_singleton, Nat.cast_add, Nat.cast_add,
      Nat.cast_one, ← Int.add_assoc] at htext
    exact htext
  have hend : (before.length : Int) + (encodeString s).length =
      (before.length : Int) + (numeral s.length).length + 1 + s.length := by
    rw [hcode, List.length_append, List.length_cons]
    push_cast
    omega
  obtain ⟨c, digits, hdigits, -⟩ := numeral_eq_cons s.length
  have hchr : chr x before.length = .ok c := by
    rw [hcolon, hdigits]
    exact chr_append before _ c
  have hzero : ¬(c = byte '0' ∧ (before.length : Int) + (numeral s.length).length ≠ before.length + 1) := by
    rintro ⟨rfl, hne⟩
    rw [hdigits, (numeral_of_zero hdigits).2] at hne
    exact hne rfl
  rw [decodeString, hindex]
  dsimp only
  rw [hn, hchr, ok_bind, if_neg hzero, hresult, hend]

theorem decodes_string (s : Bytes) : Decodes (bencode (.string s)) (.string s) := by
  refine ⟨1, fun before after turns levels _ hlevels => ?_⟩
  obtain ⟨levels, rfl⟩ := Nat.exists_eq_add_one.mpr hlevels
  obtain ⟨c, digits, hdigits, hdigit⟩ := numeral_eq_cons s.length
  have hchr : chr (before ++ (encodeString s ++ after)) before.length = .ok c := by
    rw [encodeString, toS_natCast, hdigits]
    exact chr_append before _ c
  have hne : ∀ d, ¬isDigit d → c ≠ d := by
    rintro d hd rfl
    exact hd hdigit
  show decode (before ++ (encodeString s ++ after)) turns (levels + 1) before.length = _
  rw [decode, hchr, ok_bind, if_neg (hne _ (by decide)), if_neg (hne _ (by decide)), if_neg (hne _ (by decide)),
    if_pos hdigit, decodeString_append, ok_bind]
  rfl

/-- The text of an integer: digits that begin with a zero only where that is all, or a minus in front of digits that
do not begin with a zero. -/
theorem toS_eq_cons (n : Int) :
    (∃ c digits, toS n = byte '-' :: c :: digits ∧ c ≠ byte '0') ∨
      ∃ c digits, toS n = c :: digits ∧ c ≠ byte '-' ∧ (c = byte '0' → digits = []) := by
  obtain ⟨c, digits, hdigits, hdigit⟩ := numeral_eq_cons n.natAbs
  by_cases hneg : n < 0
  · refine Or.inl ⟨c, digits, by rw [toS, if_pos hneg, hdigits], ?_⟩
    rintro rfl
    exact Int.natAbs_ne_zero.mpr hneg.ne (numeral_of_zero hdigits).1
  · refine Or.inr ⟨c, digits, by rw [toS, if_neg hneg, hdigits], (digit_plain hdigit).2.1, ?_⟩
    rintro rfl
    exact (numeral_of_zero hdigits).2

/-- **An integer is read back.** -/
theorem decodeInt_append (n : Int) (before after : Bytes) :
    decodeInt (before ++ (bencode (.integer n) ++ after)) before.length =
      .ok (.integer n, (before.length : Int) + (bencode (.integer n)).length) := by
  have hcode : bencode (.integer n) = byte 'i' :: (toS n ++ [byte 'e']) := by
    rw [bencode, List.cons_append]
  generalize hx : before ++ (bencode (.integer n) ++ after) = x
  have hstart : ((before ++ [byte 'i']).length : Int) = (before.length : Int) + 1 := length_append_singleton before _
  have htext : x = before ++ [byte 'i'] ++ (toS n ++ byte 'e' :: after) := by
    rw [← hx, hcode, List.cons_append, List.append_assoc, List.append_assoc, List.singleton_append,
      List.singleton_append]
  have hnoE : byte 'e' ∉ toS n := fun hmem => absurd (mem_toS hmem) (by decide)
  have hindex : index x (byte 'e') ((before.length : Int) + 1) =
      some ((before.length : Int) + 1 + (toS n).length) := by
    rw [htext, ← hstart]
    exact index_append hnoE _ after
  have hvalue : toI (slice x ((before.length : Int) + 1) ((before.length : Int) + 1 + (toS n).length - 1)) = n := by
    rw [htext, ← hstart, slice_append _ _ _ (by simp)]
    exact toI_toS n
  have hend : (before.length : Int) + (bencode (.integer n)).length =
      (before.length : Int) + 1 + (toS n).length + 1 := by
    rw [hcode, List.length_cons, List.length_append, List.length_singleton]
    push_cast
    omega
  have hfirst : ∀ c rest, toS n = c :: rest → chr x ((before.length : Int) + 1) = .ok c := by
    intro c rest hsplit
    rw [htext, ← hstart, hsplit, List.cons_append]
    exact chr_append _ _ c
  have hne : (before.length : Int) + 1 + (toS n).length ≠ before.length + 1 := by
    have hpos : 0 < (toS n).length := by
      rcases toS_eq_cons n with ⟨c, digits, htoS, -⟩ | ⟨c, digits, htoS, -⟩ <;> rw [htoS] <;> exact Nat.succ_pos _
    omega
  rw [decodeInt, hindex]
  dsimp only
  rw [hvalue, hend, if_neg hne]
  rcases toS_eq_cons n with ⟨c, digits, htoS, hzero⟩ | ⟨c, digits, htoS, hminus, hzero⟩
  · have hsecond : chr x ((before.length : Int) + 1 + 1) = .ok c := by
      rw [htext, ← hstart, htoS]
      exact chr_append_add _ _ [byte '-'] c
    rw [hfirst _ _ htoS, ok_bind, if_pos rfl, hsecond, ok_bind, if_neg hzero]
  · have hplain : ¬(c = byte '0' ∧ (before.length : Int) + 1 + (toS n).length ≠ before.length + 1 + 1) := by
      rintro ⟨hc, hlong⟩
      rw [htoS, hzero hc] at hlong
      exact hlong rfl
    rw [hfirst _ _ htoS, ok_bind, if_neg hminus, if_neg hplain]

theorem decodes_integer (n : Int) : Decodes (bencode (.integer n)) (.integer n) := by
  refine ⟨1, fun before after turns levels _ hlevels => ?_⟩
  obtain ⟨levels, rfl⟩ := Nat.exists_eq_add_one.mpr hlevels
  have hchr : chr (before ++ (bencode (.integer n) ++ after)) before.length = .ok (byte 'i') := by
    rw [bencode]
    exact chr_append before _ _
  rw [decode, hchr, ok_bind, if_neg (by decide), if_neg (by decide), if_pos rfl, decodeInt_append]

/-! ### Lists and hashes -/

section Loop

variable {κ α : Type}

/-- What one turn of a loop reads: a value, and what comes before it. -/
structure Segment (κ : Type) where
  text : Bytes
  key : κ
  value : Value

/-- Wherever the segment is found, one turn reads it. -/
def Segment.Reads (before : Bytes → Int → Except Failure (κ × Int)) (segment : Segment κ) : Prop :=
  (∃ c rest, segment.text = c :: rest ∧ c ≠ byte 'e') ∧
    ∃ least, ∀ front after turns levels, least ≤ turns → least ≤ levels →
      ∃ mid, before (front ++ (segment.text ++ after)) front.length = .ok (segment.key, mid) ∧
        decode (front ++ (segment.text ++ after)) turns levels mid =
          .ok (segment.value, (front.length : Int) + segment.text.length)

/-- **A loop reads the segments one after the other**, up to the `e` behind them. -/
theorem readUntilE_segments {before : Bytes → Int → Except Failure (κ × Int)} (add : α → κ → Value → α)
    {segments : List (Segment κ)} (h : ∀ segment ∈ segments, segment.Reads before) :
    ∃ least, ∀ front after r room levels turns, least ≤ room → least ≤ levels → least ≤ turns →
      ∀ x, x = front ++ ((segments.map Segment.text).flatten ++ byte 'e' :: after) →
        readUntilE (decode x room levels) (before x) add x turns r front.length =
          .ok (segments.foldl (fun r segment => add r segment.key segment.value) r,
            (front.length : Int) + (segments.map Segment.text).flatten.length) := by
  induction segments with
  | nil =>
      refine ⟨1, fun front after r room levels turns _ _ hturns x hx => ?_⟩
      obtain ⟨turns, rfl⟩ := Nat.exists_eq_add_one.mpr hturns
      rw [readUntilE, hx]
      rw [show chr (front ++ ((([] : List (Segment κ)).map Segment.text).flatten ++ byte 'e' :: after)) front.length =
        .ok (byte 'e') from chr_append front after _, ok_bind, if_pos rfl]
      simp
  | cons segment segments ih =>
      obtain ⟨hsegment, hsegments⟩ := List.forall_mem_cons.mp h
      obtain ⟨⟨c, rest, htext, hc⟩, leastSegment, hreads⟩ := hsegment
      obtain ⟨leastRest, hrest⟩ := ih hsegments
      refine ⟨max leastSegment leastRest + 1, fun front after r room levels turns hroom hlevels hturns x hx => ?_⟩
      obtain ⟨turns, rfl⟩ := Nat.exists_eq_add_one.mpr (Nat.lt_of_lt_of_le (Nat.succ_pos _) hturns)
      rw [List.map_cons, List.flatten_cons, List.append_assoc] at hx
      have hchr : chr x front.length = .ok c := by
        rw [hx, htext]
        exact chr_append front _ c
      obtain ⟨mid, hbefore, hvalue⟩ := hreads front ((segments.map Segment.text).flatten ++ byte 'e' :: after) room levels
        (by omega) (by omega)
      rw [← hx] at hbefore hvalue
      have hnext : ((front ++ segment.text).length : Int) = (front.length : Int) + segment.text.length := by
        rw [List.length_append, Nat.cast_add]
      have hlater := hrest (front ++ segment.text) after (add r segment.key segment.value) room levels turns
        (by omega) (by omega) (by omega) x (by rw [hx, List.append_assoc])
      rw [hnext] at hlater
      rw [readUntilE, hchr, ok_bind, if_neg hc, hbefore, ok_bind]
      dsimp only
      rw [hvalue, ok_bind]
      dsimp only
      rw [hlater, List.map_cons, List.flatten_cons, List.length_append, List.foldl_cons, Nat.cast_add, Int.add_assoc]

end Loop

/-- No value begins with an `e`. -/
theorem bencode_cons (value : Value) : ∃ c rest, bencode value = c :: rest ∧ c ≠ byte 'e' := by
  cases value with
  | integer n => exact ⟨byte 'i', _, by rw [bencode, List.cons_append], by decide⟩
  | string s =>
      obtain ⟨c, digits, hdigits, hdigit⟩ := numeral_eq_cons s.length
      refine ⟨c, _, by rw [bencode, encodeString, toS_natCast, hdigits, List.cons_append], ?_⟩
      rintro rfl
      exact absurd hdigit (by decide)
  | list items => exact ⟨byte 'l', _, by rw [bencode, List.cons_append], by decide⟩
  | hash entries => exact ⟨byte 'd', _, by rw [bencode, List.cons_append], by decide⟩

theorem bencodeItems_eq_map (items : List Value) : bencodeItems items = items.map bencode := by
  induction items with
  | nil => rfl
  | cons item items ih => rw [bencodeItems, ih, List.map_cons]

theorem bencodeEntries_eq_map (entries : List (Bytes × Value)) :
    bencodeEntries entries = entries.map fun entry => (entry.1, bencode entry.2) := by
  induction entries with
  | nil => rfl
  | cons entry entries ih => rw [bencodeEntries, ih, List.map_cons]

/-- Nothing comes before an item of a list. -/
theorem Segment.reads_item {item decoded : Value} (h : Decodes (bencode item) decoded) :
    (⟨bencode item, (), decoded⟩ : Segment Unit).Reads fun _ f => .ok ((), f) := by
  obtain ⟨least, hdecodes⟩ := h
  exact ⟨bencode_cons item, least, fun front after turns levels hturns hlevels =>
    ⟨front.length, rfl, hdecodes front after turns levels hturns hlevels⟩⟩

/-- The key comes before the value of an entry. -/
theorem Segment.reads_entry (key : Bytes) {text : Bytes} {decoded : Value} (h : Decodes text decoded) :
    (⟨encodeString key ++ text, key, decoded⟩ : Segment Bytes).Reads decodeString := by
  obtain ⟨least, hdecodes⟩ := h
  obtain ⟨c, rest, hcons, hc⟩ := bencode_cons (.string key)
  refine ⟨⟨c, rest ++ text, congrArg (· ++ text) hcons, hc⟩, least, fun front after turns levels hturns hlevels => ?_⟩
  refine ⟨(front.length : Int) + (encodeString key).length, ?_, ?_⟩
  · rw [List.append_assoc]
    exact decodeString_append key front (text ++ after)
  · have hvalue := hdecodes (front ++ encodeString key) after turns levels hturns hlevels
    rw [List.append_assoc, List.length_append, Nat.cast_add] at hvalue
    rw [List.append_assoc, hvalue, List.length_append, Nat.cast_add, Int.add_assoc]

theorem foldl_push (segments : List (Segment Unit)) (r : List Value) :
    segments.foldl (fun r segment => r ++ [segment.value]) r = r ++ segments.map Segment.value := by
  induction segments generalizing r with
  | nil => rw [List.foldl_nil, List.map_nil, List.append_nil]
  | cons segment segments ih =>
      rw [List.foldl_cons, ih, List.append_assoc, List.map_cons, List.singleton_append]

/-- Entries with new keys are stored behind those that are there. -/
theorem foldl_store (segments : List (Segment Bytes)) (r : List (Bytes × Value))
    (h : (r.map Prod.fst ++ segments.map Segment.key).Nodup) :
    segments.foldl (fun r segment => store r segment.key segment.value) r =
      r ++ segments.map fun segment => (segment.key, segment.value) := by
  induction segments generalizing r with
  | nil => rw [List.foldl_nil, List.map_nil, List.append_nil]
  | cons segment segments ih =>
      rw [List.map_cons] at h
      have hnew : segment.key ∉ r.map Prod.fst := fun hmem =>
        (List.nodup_append.mp h).2.2 _ hmem _ List.mem_cons_self rfl
      rw [List.foldl_cons, store, if_neg hnew, ih, List.append_assoc, List.map_cons, List.singleton_append]
      rwa [List.map_append, List.append_assoc]

/-- What a loop reads is read back between its first byte and an `e`. -/
theorem decodes_container {κ α : Type} {before : Bytes → Int → Except Failure (κ × Int)} (add : α → κ → Value → α)
    {segments : List (Segment κ)} (h : ∀ segment ∈ segments, segment.Reads before) (first : UInt8) (empty : α)
    (wrap : α → Value)
    (hdecode : ∀ x turns levels f, chr x f = .ok first → decode x turns (levels + 1) f = (do
      let (r, f) ← readUntilE (decode x turns levels) (before x) add x turns empty (f + 1)
      .ok (wrap r, f + 1))) :
    Decodes (first :: ((segments.map Segment.text).flatten ++ [byte 'e']))
      (wrap (segments.foldl (fun r segment => add r segment.key segment.value) empty)) := by
  obtain ⟨least, hloop⟩ := readUntilE_segments add h
  refine ⟨least + 1, fun front after turns levels hturns hlevels => ?_⟩
  obtain ⟨levels, rfl⟩ := Nat.exists_eq_add_one.mpr (Nat.lt_of_lt_of_le (Nat.succ_pos _) hlevels)
  generalize hx : front ++ (first :: ((segments.map Segment.text).flatten ++ [byte 'e']) ++ after) = x
  have hinside : x = front ++ [first] ++ ((segments.map Segment.text).flatten ++ byte 'e' :: after) := by
    rw [← hx, List.cons_append, List.append_assoc, List.append_assoc, List.singleton_append, List.singleton_append]
  have hchr : chr x front.length = .ok first := by
    rw [hinside, List.append_assoc]
    exact chr_append front _ first
  have hread := hloop (front ++ [first]) after empty turns levels turns (by omega) (by omega) (by omega) x hinside
  rw [length_append_singleton] at hread
  rw [hdecode x turns levels _ hchr]
  refine bind_ok hread ?_
  rw [List.length_cons, List.length_append, List.length_singleton, Nat.cast_add, Nat.cast_add, Nat.cast_one]
  refine congrArg (fun f => Except.ok (_, f)) ?_
  omega

/-- **A list is read back** where its items are. -/
theorem decodes_list {items : List Value} {decoded : Value → Value}
    (h : ∀ item ∈ items, Decodes (bencode item) (decoded item)) :
    Decodes (bencode (.list items)) (.list (items.map decoded)) := by
  have hsegments : ∀ segment ∈ items.map fun item => (⟨bencode item, (), decoded item⟩ : Segment Unit),
      segment.Reads fun _ f => .ok ((), f) := by
    intro segment hmem
    obtain ⟨item, hitem, rfl⟩ := List.mem_map.mp hmem
    exact Segment.reads_item (h item hitem)
  have hread := decodes_container (fun r _ value => r ++ [value]) hsegments (byte 'l') [] .list ?_
  · rw [foldl_push, List.map_map, List.map_map, List.nil_append] at hread
    rw [bencode, bencodeItems_eq_map, List.cons_append]
    exact hread
  · exact fun x turns levels f hchr => decode_list (chr_eq_ok_iff.mp hchr) turns levels

/-- An entry is found under its key. -/
theorem lookup_of_mem {α : Type} {key : Bytes} {value : α} {entries : List (Bytes × α)}
    (h : (entries.map Prod.fst).Nodup) (hmem : (key, value) ∈ entries) : entries.lookup key = some value := by
  induction entries with
  | nil => nomatch hmem
  | cons entry entries ih =>
      rw [List.map_cons, List.nodup_cons] at h
      rcases List.mem_cons.mp hmem with rfl | hmem
      · exact List.lookup_cons_self
      · have hne : key ≠ entry.1 := by
          rintro rfl
          exact h.1 (List.mem_map.mpr ⟨_, hmem, rfl⟩)
        rw [List.lookup_cons, beq_eq_false_iff_ne.mpr hne]
        exact ih h.2 hmem

/-- The keys in the order in which they are encoded. -/
def sortedKeys (entries : List (Bytes × Value)) : List Bytes := (entries.map Prod.fst).mergeSort keyLe

theorem mem_sortedKeys {entries : List (Bytes × Value)} {key : Bytes} :
    key ∈ sortedKeys entries ↔ ∃ value, (key, value) ∈ entries := by
  rw [sortedKeys, List.mem_mergeSort, List.mem_map]
  exact ⟨fun ⟨entry, hmem, heq⟩ => ⟨entry.2, heq ▸ hmem⟩, fun ⟨value, hmem⟩ => ⟨(key, value), hmem, rfl⟩⟩

theorem nodup_sortedKeys {entries : List (Bytes × Value)} (h : (entries.map Prod.fst).Nodup) :
    (sortedKeys entries).Nodup := (List.mergeSort_perm _ _).nodup_iff.mpr h

/-- **A hash is read back** where its values are, with its entries in the order of their keys. -/
theorem decodes_hash {entries : List (Bytes × Value)} (hnodup : (entries.map Prod.fst).Nodup) {decoded : Bytes → Value}
    (h : ∀ key value, (key, value) ∈ entries → Decodes (bencode value) (decoded key)) :
    Decodes (bencode (.hash entries)) (.hash ((sortedKeys entries).map fun key => (key, decoded key))) := by
  have hkeys : (bencodeEntries entries).map Prod.fst = entries.map Prod.fst := by
    rw [bencodeEntries_eq_map, List.map_map]
    rfl
  have hsegments : ∀ segment ∈ (sortedKeys entries).map fun key =>
      (⟨encodeString key ++ ((bencodeEntries entries).lookup key).getD [], key, decoded key⟩ : Segment Bytes),
      segment.Reads decodeString := by
    intro segment hmem
    obtain ⟨key, hkey, rfl⟩ := List.mem_map.mp hmem
    obtain ⟨value, hentry⟩ := mem_sortedKeys.mp hkey
    have hcode : (key, bencode value) ∈ bencodeEntries entries := by
      rw [bencodeEntries_eq_map]
      exact List.mem_map_of_mem (f := fun entry : Bytes × Value => (entry.1, bencode entry.2)) hentry
    rw [lookup_of_mem (hkeys ▸ hnodup) hcode]
    exact Segment.reads_entry key (h key value hentry)
  have hread := decodes_container store hsegments (byte 'd') [] .hash ?_
  · rw [foldl_store, List.map_map, List.map_map, List.nil_append] at hread
    · rw [bencode, hkeys, List.flatMap_def, List.cons_append]
      exact hread
    · rw [List.map_nil, List.nil_append, List.map_map]
      exact (List.map_id' _).symm ▸ nodup_sortedKeys hnodup
  · exact fun x turns levels f hchr => decode_hash (chr_eq_ok_iff.mp hchr) turns levels

/-! ### Every value -/

namespace Value

instance : Inhabited Value := ⟨.integer 0⟩

theorem sameItems_map {items : List Value} {decoded : Value → Value} (h : ∀ item ∈ items, Same item (decoded item)) :
    SameItems items (items.map decoded) := by
  induction items with
  | nil => trivial
  | cons item items ih =>
      obtain ⟨hitem, hitems⟩ := List.forall_mem_cons.mp h
      exact ⟨hitem, ih hitems⟩

theorem sameEntries_iff (entries others : List (Bytes × Value)) :
    SameEntries entries others ↔ ∀ key value, (key, value) ∈ entries →
      ∃ other, others.lookup key = some other ∧ Same value other := by
  induction entries with
  | nil => exact iff_of_true trivial fun _ _ h => nomatch h
  | cons entry entries ih =>
      rw [SameEntries, ih]
      constructor
      · rintro ⟨hentry, hentries⟩ key value hmem
        rcases List.mem_cons.mp hmem with rfl | hmem
        · exact hentry
        · exact hentries key value hmem
      · exact fun h => ⟨h _ _ List.mem_cons_self, fun key value hmem => h key value (List.mem_cons_of_mem entry hmem)⟩

end Value

/-- Every proper value is read back as one that is equal to it. -/
theorem decodes_same {value : Value} (h : value.Proper) : ∃ decoded, Decodes (bencode value) decoded ∧
    value.Same decoded := by
  induction value using Value.induct with
  | integer n => exact ⟨.integer n, decodes_integer n, rfl⟩
  | string s => exact ⟨.string s, decodes_string s, rfl⟩
  | list items ih =>
      cases h with
      | list hitems =>
          have hall : ∀ item ∈ items, ∃ decoded, Decodes (bencode item) decoded ∧ item.Same decoded :=
            fun item hmem => ih item hmem (hitems item hmem)
          choose! decoded hdecodes hsame using hall
          exact ⟨_, decodes_list hdecodes, Value.sameItems_map hsame⟩
  | hash entries ih =>
      cases h with
      | hash hnodup hentries =>
          have hall : ∀ key, ∃ decoded, ∀ value, (key, value) ∈ entries →
              Decodes (bencode value) decoded ∧ value.Same decoded := by
            intro key
            by_cases hkey : ∃ value, (key, value) ∈ entries
            · obtain ⟨value, hmem⟩ := hkey
              obtain ⟨decoded, hboth⟩ := ih _ hmem (hentries _ hmem)
              refine ⟨decoded, fun other hother => ?_⟩
              obtain rfl := Option.some.inj ((lookup_of_mem hnodup hmem).symm.trans (lookup_of_mem hnodup hother))
              exact hboth
            · exact ⟨default, fun value hmem => absurd ⟨value, hmem⟩ hkey⟩
          choose decoded hboth using hall
          refine ⟨_, decodes_hash hnodup fun key value hmem => (hboth key value hmem).1, ?_, ?_⟩
          · rw [List.length_map, sortedKeys, List.length_mergeSort, List.length_map]
          · rw [Value.sameEntries_iff]
            intro key value hmem
            refine ⟨decoded key, lookup_of_mem ?_ ?_, (hboth key value hmem).2⟩
            · rw [List.map_map]
              exact (List.map_id' _).symm ▸ nodup_sortedKeys hnodup
            · exact List.mem_map.mpr ⟨key, mem_sortedKeys.mpr ⟨value, hmem⟩, rfl⟩

theorem returns_of_decodes {text : Bytes} {value : Value} (h : Decodes text value) : Returns text (.ok value) := by
  obtain ⟨least, hdecodes⟩ := h
  refine ⟨.ok _ _, least, fun levels hlevels => ⟨least, ?_⟩⟩
  have hdecode := hdecodes [] [] least levels le_rfl hlevels
  rw [List.nil_append, List.append_nil, List.length_nil, Nat.cast_zero, Int.zero_add] at hdecode
  rw [bdecode, hdecode]
  exact if_neg fun hne => hne rfl

/-- What `bencode` is applied to. -/
structure Encodable where
  value : Value
  proper : value.Proper

/-- **The round trip.** -/
theorem bdecode_bencode (x : Encodable) :
    ∃ decoded, Returns (bencode x.value) (.ok decoded) ∧ x.value.Same decoded := by
  obtain ⟨decoded, hdecodes, hsame⟩ := decodes_same x.proper
  exact ⟨decoded, returns_of_decodes hdecodes, hsame⟩

/-- A hash within a hash, and a list with an empty string and a hash without entries. -/
def torrentValue : Value :=
  .hash [(ascii "info", .hash [(ascii "name", .string (ascii "a")), (ascii "length", .integer (-5))]),
    (ascii "files", .list [.string [], .hash []])]

theorem torrentValue_proper : torrentValue.Proper := by
  refine .hash (by decide) (List.forall_mem_cons.mpr ⟨?_, List.forall_mem_singleton.mpr ?_⟩)
  · exact .hash (by decide) (List.forall_mem_cons.mpr ⟨.string _, List.forall_mem_singleton.mpr (.integer _)⟩)
  · refine .list (List.forall_mem_cons.mpr ⟨.string _, List.forall_mem_singleton.mpr ?_⟩)
    exact .hash List.nodup_nil (List.forall_mem_nil _)

theorem bdecode_bencode_torrent :
    ∃ decoded, Returns (bencode torrentValue) (.ok decoded) ∧ torrentValue.Same decoded :=
  bdecode_bencode ⟨torrentValue, torrentValue_proper⟩

end Thebends.Bitrub
