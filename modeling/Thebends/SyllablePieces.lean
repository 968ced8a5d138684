import Thebends.SyllableHyphenator

/-! What `hyphenate_word` returns, for any patterns and exceptions the class accepts: the walk through the tree finds
at each place the greatest point of the patterns that match there, no index is out of range, nothing of the word is
lost, and an exception is hyphenated as it was written. -/

namespace Thebends.Syllable

open LibAscii LibDecimal LibTrie

/-! ### The points of a word -/

/-- What a pattern whose first character is at `i` says about place `k`. -/
def level (i : Nat) (p : List Int) (k : Nat) : Option Int := if i ≤ k then p[k - i]? else none

theorem level_cons (i : Nat) (value : Int) (p : List Int) (k : Nat) :
    level i (value :: p) k = if k = i then some value else level (i + 1) p k := by
  rw [level, level]
  by_cases hk : k = i
  · subst hk
    simp
  · rw [if_neg hk]
    by_cases hle : i ≤ k
    · obtain ⟨d, rfl⟩ := Nat.exists_eq_add_of_lt (Nat.lt_of_le_of_ne hle (Ne.symm hk))
      rw [if_pos hle, if_pos (by omega), show i + d + 1 - i = d + 1 by omega, show i + d + 1 - (i + 1) = d by omega,
        List.getElem?_cons_succ]
    · rw [if_neg hle, if_neg (by omega)]

/-- Each place has the greatest of some values. -/
def Greatest (levels : Nat → Set Int) (points : List Int) : Prop :=
  ∀ k (h : k < points.length), IsGreatest (levels k) points[k]

theorem Greatest.congr {levels levels' : Nat → Set Int} {points : List Int} (h : Greatest levels points)
    (hsame : ∀ k value, value ∈ levels' k ↔ value ∈ levels k) : Greatest levels' points := by
  intro k hk
  rw [Set.ext (hsame k)]
  exact h k hk

/-- The loop over the points of a pattern has a place for each of them, and takes them into account. -/
theorem raise_spec {i : Nat} {points p : List Int} {levels : Nat → Set Int} (h : i + p.length ≤ points.length)
    (hpoints : Greatest levels points) :
    ∃ raised, raise i points p = some raised ∧ raised.length = points.length ∧
      Greatest (fun k => levels k ∪ {value | level i p k = some value}) raised := by
  induction p generalizing i points levels with
  | nil =>
      refine ⟨points, rfl, rfl, hpoints.congr fun k value => ?_⟩
      simp [level]
  | cons value p ih =>
      rw [List.length_cons] at h
      have hi : i < points.length := by omega
      have hset : Greatest (fun k => levels k ∪ {other | k = i ∧ other = value}) (points.set i (max points[i] value)) := by
        intro k hk
        have hk' : k < points.length := by rwa [List.length_set] at hk
        by_cases heq : k = i
        · subst heq
          rw [List.getElem_set_self]
          simpa using (hpoints k hk').union (isGreatest_singleton (a := value))
        · rw [List.getElem_set_ne (Ne.symm heq)]
          simpa [heq] using hpoints k hk'
      obtain ⟨raised, hraised, hlength, hgreatest⟩ := ih (i := i + 1) (by rw [List.length_set]; omega) hset
      refine ⟨raised, by rw [raise, dif_pos hi, hraised], by rw [hlength, List.length_set],
        hgreatest.congr fun k other => ?_⟩
      simp only [Set.mem_union, Set.mem_ofPred_eq, level_cons, or_assoc]
      by_cases hk : k = i
      · subst hk
        simp [level, eq_comm]
      · simp [hk]

/-- Several patterns, each with the place of its first character. -/
theorem foldlM_raise {matched : List (Nat × List Int)} {points : List Int} {levels : Nat → Set Int}
    (h : ∀ m ∈ matched, m.1 + m.2.length ≤ points.length) (hpoints : Greatest levels points) :
    ∃ raised, matched.foldlM (fun before m => raise m.1 before m.2) points = some raised ∧
      raised.length = points.length ∧
      Greatest (fun k => levels k ∪ {value | ∃ m ∈ matched, level m.1 m.2 k = some value}) raised := by
  induction matched generalizing points levels with
  | nil =>
      refine ⟨points, rfl, rfl, hpoints.congr fun k value => ?_⟩
      simp
  | cons m matched ih =>
      obtain ⟨first, hfirst, hlength, hgreatest⟩ := raise_spec (h m List.mem_cons_self) hpoints
      have hroom : ∀ other ∈ matched, other.1 + other.2.length ≤ first.length :=
        fun other hother => hlength.symm ▸ h other (List.mem_cons_of_mem _ hother)
      obtain ⟨raised, hraised, hlength', hgreatest'⟩ := ih hroom hgreatest
      refine ⟨raised, ?_, hlength'.trans hlength, hgreatest'.congr fun k value => ?_⟩
      · rw [List.foldlM_cons, hfirst]
        exact hraised
      · simp [or_assoc]

/-! ### The walk -/

/-- The patterns that a walk from place `i` comes past. -/
def matchedAt (t : Trie UInt8 (List Int)) (i : Nat) (word : Str) : List (Nat × List Int) :=
  (t.along 0 word).map fun found => (i, found.2)

/-- The patterns that match anywhere. -/
def matched (t : Trie UInt8 (List Int)) (work : Str) : List (Nat × List Int) :=
  (List.range work.length).flatMap fun i => matchedAt t i (work.drop i)

theorem walk_eq (t : Trie UInt8 (List Int)) (i count : Nat) (points : List Int) (word : Str) :
    walk t i points word =
      ((t.along count word).map fun found => (i, found.2)).foldlM (fun before m => raise m.1 before m.2) points := by
  induction word generalizing t count points with
  | nil => rfl
  | cons c word ih =>
      rw [walk, Trie.along]
      cases t.child c with
      | none => rfl
      | some next =>
          simp only [List.map_append, List.foldlM_append]
          cases next.value with
          | none => exact ih next (count + 1) points
          | some p =>
              simp only [Option.toList_some, List.map_cons, List.map_nil, List.foldlM_cons, List.foldlM_nil]
              cases raise i points p with
              | none => rfl
              | some raised => exact ih next (count + 1) raised

theorem foldlM_walk (t : Trie UInt8 (List Int)) (work : Str) (places : List Nat) (points : List Int) :
    places.foldlM (fun before i => walk t i before (work.drop i)) points =
      (places.flatMap fun i => matchedAt t i (work.drop i)).foldlM (fun before m => raise m.1 before m.2) points := by
  induction places generalizing points with
  | nil => rfl
  | cons i places ih =>
      rw [List.foldlM_cons, List.flatMap_cons, List.foldlM_append, walk_eq t i 0, ← matchedAt]
      congr 1
      funext before
      exact ih before

theorem mem_matched {t : Trie UInt8 (List Int)} {work : Str} {i : Nat} {p : List Int} :
    (i, p) ∈ matched t work ↔ ∃ chars, chars ≠ [] ∧ chars <+: work.drop i ∧ t.get chars = some p := by
  have hplace : (i, p) ∈ matched t work ↔ i < work.length ∧ ∃ n, (n, p) ∈ t.along 0 (work.drop i) := by
    simp only [matched, matchedAt, List.mem_flatMap, List.mem_range, List.mem_map, Prod.mk.injEq]
    constructor
    · rintro ⟨j, hj, ⟨n, q⟩, hmem, rfl, rfl⟩
      exact ⟨hj, n, hmem⟩
    · rintro ⟨hi, n, hmem⟩
      exact ⟨i, hi, (n, p), hmem, rfl, rfl⟩
  rw [hplace]
  simp only [Trie.mem_along]
  constructor
  · rintro ⟨hi, n, steps, -, hpos, hle, hget⟩
    refine ⟨(work.drop i).take steps, ?_, List.take_prefix .., hget⟩
    rw [Ne, ← List.length_eq_zero_iff, List.length_take]
    omega
  · rintro ⟨chars, hne, hprefix, hget⟩
    have hpos := List.length_pos_iff.mpr hne
    have hle := hprefix.length_le
    refine ⟨?_, chars.length, chars.length, (Nat.zero_add _).symm, hpos, hle, ?_⟩
    · rw [List.length_drop] at hle
      omega
    · rwa [← List.prefix_iff_eq_take.mp hprefix]

/-! ### The tree of the patterns -/

theorem length_splitOnP (q : UInt8 → Bool) (xs : Str) : (xs.splitOnP q).length = xs.countP q + 1 := by
  induction xs with
  | nil => rfl
  | cons x xs ih =>
      rw [List.splitOnP_cons_eq_if_modifyHead]
      by_cases hx : q x
      · rw [if_pos hx, List.length_cons, ih, List.countP_cons_of_pos hx]
      · rw [if_neg hx, List.length_modifyHead, ih, List.countP_cons_of_neg hx]

theorem length_of_mapM {f : Str → Option Int} {xs : List Str} {values : List Int} (h : xs.mapM f = some values) :
    values.length = xs.length := by
  induction xs generalizing values with
  | nil =>
      cases h
      rfl
  | cons x xs ih =>
      rw [List.mapM_cons] at h
      obtain ⟨value, -, h⟩ := Option.bind_eq_some_iff.mp h
      obtain ⟨rest, hrest, h⟩ := Option.bind_eq_some_iff.mp h
      cases h
      rw [List.length_cons, List.length_cons, ih hrest]

/-- A pattern has at most one point more than characters. -/
theorem length_pointsOf {pattern : Str} {p : List Int} (h : pointsOf pattern = some p) :
    p.length ≤ (charsOf pattern).length + 1 := by
  rw [length_of_mapM h, length_splitOnP, charsOf, ← List.countP_eq_length_filter]
  apply Nat.succ_le_succ
  apply List.countP_mono_left
  intro c _ hc
  have hnot : isDigit c = false := by
    rw [isDigit, Bool.and_eq_false_iff]
    rw [Bool.or_eq_true] at hc
    rcases hc with hdot | hlower
    · rw [of_decide_eq_true hdot]
      decide
    · rw [isLower, Bool.and_eq_true] at hlower
      have hle := UInt8.le_iff_toNat_le.mp (of_decide_eq_true hlower.1)
      refine Or.inr (decide_eq_false fun hdigit => ?_)
      have hle' := UInt8.le_iff_toNat_le.mp hdigit
      exact absurd (hle.trans hle') (by decide)
  rw [hnot]
  rfl

/-- The tree of the class has, for some characters, the points of the last pattern with these characters. -/
theorem get_tree {patterns : List Str} {tree : Trie UInt8 (List Int)}
    (h : patterns.foldlM insertPattern .empty = some tree) (chars : Str) (p : List Int) :
    tree.get chars = some p ↔ ∃ pattern, IsLast charsOf patterns pattern ∧ charsOf pattern = chars ∧
      pointsOf pattern = some p := by
  have hall : ∀ (start : Trie UInt8 (List Int)) {tree : Trie UInt8 (List Int)}, patterns.foldlM insertPattern start = some tree →
      (∀ pattern ∈ patterns, pointsOf pattern = some ((pointsOf pattern).getD [])) ∧
        tree = patterns.foldl (fun t pattern => t.insert (charsOf pattern) ((pointsOf pattern).getD [])) start := by
    clear h
    induction patterns with
    | nil =>
        intro start tree h
        cases h
        exact ⟨fun _ hmem => absurd hmem List.not_mem_nil, rfl⟩
    | cons pattern patterns ih =>
        intro start tree h
        rw [List.foldlM_cons] at h
        obtain ⟨next, hnext, hrest⟩ := Option.bind_eq_some_iff.mp h
        obtain ⟨points, hpoints, rfl⟩ := Option.map_eq_some_iff.mp hnext
        obtain ⟨hsome, htree⟩ := ih _ hrest
        refine ⟨fun other hother => ?_, ?_⟩
        · rcases List.mem_cons.mp hother with rfl | hmem
          · rw [hpoints, Option.getD_some]
          · exact hsome other hmem
        · rw [List.foldl_cons, hpoints, Option.getD_some]
          exact htree
  obtain ⟨hsome, rfl⟩ := hall _ h
  have hget := get_foldl Trie.get (fun t pattern => t.insert (charsOf pattern) ((pointsOf pattern).getD [])) charsOf
    (fun pattern => (pointsOf pattern).getD []) Trie.get_empty
    (fun t pattern => by rw [Trie.get_insert, if_pos rfl]) (fun t pattern k hk => by rw [Trie.get_insert, if_neg hk])
    patterns chars p
  rw [hget]
  constructor
  · rintro ⟨pattern, hlast, hchars, hpoints⟩
    have hmem : pattern ∈ patterns := by
      obtain ⟨before, after, rfl, -⟩ := id hlast
      simp
    exact ⟨pattern, hlast, hchars, by rw [hsome pattern hmem, hpoints]⟩
  · rintro ⟨pattern, hlast, hchars, hpoints⟩
    exact ⟨pattern, hlast, hchars, by rw [hpoints, Option.getD_some]⟩

/-- What the patterns say about a place of a word: zero, and the point of each pattern that matches there. -/
def Levels (patterns word : Str) (k : Nat) : Set Int :=
  {value | value = 0 ∨ ∃ pattern i p, IsLast charsOf (split patterns) pattern ∧ charsOf pattern ≠ [] ∧
    charsOf pattern <+: (workOf word).drop i ∧ pointsOf pattern = some p ∧ level i p k = some value}

/-- The places without a hyphen: the first two and the last two. -/
def IsEnd (word : Str) (k : Nat) : Prop := k = 1 ∨ k = 2 ∨ k = word.length ∨ k = word.length + 1

theorem assign_ends {points : List Int} {size : Nat} (hlength : points.length = size + 3) (hsize : 4 < size) :
    [1, 2, -2, -3].foldlM (fun before index => assign before index 0) points =
      some ((((points.set 1 0).set 2 0).set (size + 1) 0).set size 0) := by
  have hfront : ∀ (before : List Int) (n : Nat), before.length = size + 3 → n < size + 3 →
      assign before n 0 = some (before.set n 0) := by
    intro before n hbefore hn
    rw [assign]
    simp only [hbefore]
    rw [if_neg (show ¬(n : Int) < 0 by omega), if_pos (by omega), Int.toNat_natCast]
  have hback : ∀ (before : List Int) (n : Nat), before.length = size + 3 → 0 < n → n ≤ size + 3 →
      assign before (-(n : Int)) 0 = some (before.set (size + 3 - n) 0) := by
    intro before n hbefore hpos hn
    rw [assign]
    simp only [hbefore]
    rw [if_pos (show -(n : Int) < 0 by omega), if_pos (by omega)]
    congr 2
    omega
  have h₁ := hfront points 1 hlength (by omega)
  have h₂ := hfront (points.set 1 0) 2 (by rwa [List.length_set]) (by omega)
  have h₃ := hback ((points.set 1 0).set 2 0) 2 (by rwa [List.length_set, List.length_set]) (by omega) (by omega)
  have h₄ := hback (((points.set 1 0).set 2 0).set (size + 1) 0) 3
    (by rwa [List.length_set, List.length_set, List.length_set]) (by omega) (by omega)
  simp only [Nat.cast_one, Nat.cast_ofNat] at h₁ h₂ h₃ h₄
  rw [List.foldlM_cons, h₁, Option.bind_eq_bind, Option.bind_some, List.foldlM_cons, h₂, Option.bind_eq_bind,
    Option.bind_some, List.foldlM_cons, h₃, Option.bind_eq_bind, Option.bind_some, List.foldlM_cons,
    show size + 3 - 2 = size + 1 from rfl, h₄]
  rfl

/-- **The points of a word that is not an exception.** No index is out of range, and each place but the first two and
the last two has the greatest point of the patterns that match there. -/
theorem wordPoints_spec {patterns : Str} {tree : Trie UInt8 (List Int)}
    (htree : (split patterns).foldlM insertPattern .empty = some tree) {word : Str} (hlong : 4 < word.length) :
    ∃ points, wordPoints tree word = some points ∧ points.length = word.length + 3 ∧
      ∀ k (hk : k < points.length), (IsEnd word k → points[k] = 0) ∧
        (¬IsEnd word k → IsGreatest (Levels patterns word k) points[k]) := by
  have hwork : (workOf word).length = word.length + 2 := by simp [workOf, lower]
  have hfit : ∀ m ∈ matched tree (workOf word), m.1 + m.2.length ≤ (List.replicate ((workOf word).length + 1) (0 : Int)).length := by
    rintro ⟨i, p⟩ hm
    obtain ⟨chars, hne, hprefix, hget⟩ := mem_matched.mp hm
    obtain ⟨pattern, -, rfl, hpoints⟩ := (get_tree htree chars p).mp hget
    have hle := length_pointsOf hpoints
    have hroom := hprefix.length_le
    have hpos := List.length_pos_iff.mpr hne
    rw [List.length_drop] at hroom
    rw [List.length_replicate]
    show i + p.length ≤ _
    omega
  have hzero : Greatest (fun _ => {0}) (List.replicate ((workOf word).length + 1) (0 : Int)) := by
    intro k hk
    rw [List.getElem_replicate]
    exact isGreatest_singleton
  obtain ⟨raised, hraised, hlength, hgreatest⟩ := foldlM_raise hfit hzero
  rw [List.length_replicate, hwork] at hlength
  have hwalk : (List.range (workOf word).length).foldlM (fun points i => walk tree i points ((workOf word).drop i))
      (List.replicate ((workOf word).length + 1) 0) = some raised := by
    rw [foldlM_walk]
    exact hraised
  refine ⟨(((raised.set 1 0).set 2 0).set (word.length + 1) 0).set word.length 0, ?_, ?_, fun k hk => ⟨?_, ?_⟩⟩
  · rw [wordPoints]
    simp only [hwalk]
    exact assign_ends hlength hlong
  · rw [List.length_set, List.length_set, List.length_set, List.length_set, hlength]
  · intro hend
    simp only [List.getElem_set]
    rcases hend with rfl | rfl | rfl | rfl <;> simp
  · intro hend
    rw [IsEnd, not_or, not_or, not_or] at hend
    obtain ⟨h₁, h₂, h₃, h₄⟩ := hend
    rw [List.getElem_set_ne (Ne.symm h₃), List.getElem_set_ne (Ne.symm h₄), List.getElem_set_ne (Ne.symm h₂),
      List.getElem_set_ne (Ne.symm h₁)]
    have hk' : k < raised.length := by simpa using hk
    have hsame : Levels patterns word k =
        {0} ∪ {value | ∃ m ∈ matched tree (workOf word), level m.1 m.2 k = some value} := by
      ext value
      simp only [Levels, Set.mem_ofPred_eq, Set.mem_union, Set.mem_singleton_iff, Prod.exists, mem_matched, get_tree htree]
      constructor
      · rintro (rfl | ⟨pattern, i, p, hlast, hne, hprefix, hpoints, hlevel⟩)
        · exact Or.inl rfl
        · exact Or.inr ⟨i, p, ⟨charsOf pattern, hne, hprefix, pattern, hlast, rfl, hpoints⟩, hlevel⟩
      · rintro (rfl | ⟨i, p, ⟨chars, hne, hprefix, pattern, hlast, rfl, hpoints⟩, hlevel⟩)
        · exact Or.inl rfl
        · exact Or.inr ⟨pattern, i, p, hlast, hne, hprefix, hpoints, hlevel⟩
    rw [hsame]
    exact hgreatest k hk'

/-! ### Pieces -/

/-- A word cut behind the characters that are marked. -/
def cut : List (UInt8 × Bool) → List Str
  | [] => [[]]
  | (c, true) :: rest => [c] :: cut rest
  | (c, false) :: rest => (cut rest).modifyHead (c :: ·)

theorem cut_ne_nil (marked : List (UInt8 × Bool)) : cut marked ≠ [] := by
  match marked with
  | [] => exact List.cons_ne_nil _ _
  | (c, true) :: rest => exact List.cons_ne_nil _ _
  | (c, false) :: rest =>
      rw [cut, Ne, List.modifyHead_eq_nil_iff]
      exact cut_ne_nil rest

theorem flatten_cut (marked : List (UInt8 × Bool)) : (cut marked).flatten = marked.map Prod.fst := by
  match marked with
  | [] => rfl
  | (c, true) :: rest => rw [cut, List.flatten_cons, flatten_cut rest, List.map_cons, List.singleton_append]
  | (c, false) :: rest =>
      obtain ⟨piece, pieces, hcut⟩ := List.exists_cons_of_ne_nil (cut_ne_nil rest)
      have hrest := flatten_cut rest
      rw [hcut] at hrest
      rw [cut, hcut, List.modifyHead_cons, List.flatten_cons, List.cons_append, ← List.flatten_cons, hrest, List.map_cons]

/-- The loop of the source cuts behind the characters with an odd point. -/
theorem piecesOf_eq (word : Str) (points : List Int) :
    piecesOf word points = cut ((word.zip points).map fun cp => (cp.1, decide (cp.2 % 2 ≠ 0))) := by
  rw [piecesOf]
  have hgrow : ∀ (rest : List (UInt8 × Int)) (done : List Str) (last : Str),
      rest.foldl (fun pieces cp =>
        let grown := pieces.dropLast ++ [pieces.getLastD [] ++ [cp.1]]
        if cp.2 % 2 ≠ 0 then grown ++ [[]] else grown) (done ++ [last]) =
        done ++ (cut (rest.map fun cp => (cp.1, decide (cp.2 % 2 ≠ 0)))).modifyHead (last ++ ·) := by
    intro rest
    induction rest with
    | nil =>
        intro done last
        simp [cut]
    | cons cp rest ih =>
        intro done last
        obtain ⟨c, p⟩ := cp
        rw [List.foldl_cons, List.map_cons]
        simp only [List.dropLast_concat, List.getLastD_concat]
        by_cases hodd : p % 2 ≠ 0
        · rw [if_pos hodd, ih, decide_eq_true hodd, cut, List.modifyHead_cons, List.append_assoc, List.singleton_append]
          congr 2
          exact congrFun List.modifyHead_id _
        · rw [if_neg hodd, ih, decide_eq_false hodd, cut, List.modifyHead_modifyHead]
          congr 2
          funext piece
          rw [Function.comp_apply, List.append_assoc, List.singleton_append]
  have hall := hgrow (word.zip points) [] []
  rw [List.nil_append, List.nil_append] at hall
  rw [hall]
  exact congrFun List.modifyHead_id _

/-- An empty piece in front is the only one. -/
theorem eq_nil_of_cut {marked : List (UInt8 × Bool)} {tail : List Str} (h : cut marked = [] :: tail) : tail = [] := by
  match marked with
  | [] =>
      cases h
      rfl
  | (c, true) :: rest => cases h
  | (c, false) :: rest =>
      obtain ⟨piece, pieces, hcut⟩ := List.exists_cons_of_ne_nil (cut_ne_nil rest)
      rw [cut, hcut] at h
      cases h

/-- The pieces have a boundary behind the first characters of the word. -/
def BrokenAfter (pieces : List Str) (count : Nat) : Prop :=
  ∃ first rest, pieces = first ++ rest ∧ first ≠ [] ∧ rest ≠ [] ∧ first.flatten.length = count

/-- **The boundaries** are behind the marked characters. -/
theorem brokenAfter_cut {marked : List (UInt8 × Bool)} {i : Nat} :
    BrokenAfter (cut marked) (i + 1) ↔ ∃ c, marked[i]? = some (c, true) := by
  induction marked generalizing i with
  | nil =>
      refine iff_of_false ?_ (by simp)
      rintro ⟨first, rest, heq, hfirst, hrest, -⟩
      rw [cut] at heq
      rcases List.append_eq_singleton_iff.mp heq.symm with ⟨hnil, -⟩ | ⟨-, hnil⟩
      · exact hfirst hnil
      · exact hrest hnil
  | cons mark marked ih =>
      obtain ⟨c, b⟩ := mark
      cases b with
      | true =>
          cases i with
          | zero =>
              refine iff_of_true ?_ ⟨c, rfl⟩
              exact ⟨[[c]], cut marked, rfl, List.cons_ne_nil _ _, cut_ne_nil marked, rfl⟩
          | succ i =>
              rw [List.getElem?_cons_succ, ← ih]
              constructor
              · rintro ⟨first, rest, heq, hfirst, hrest, hlength⟩
                obtain ⟨piece, first, rfl⟩ := List.exists_cons_of_ne_nil hfirst
                rw [cut, List.cons_append, List.cons.injEq] at heq
                obtain ⟨rfl, heq⟩ := heq
                rw [List.flatten_cons, List.length_append, List.length_singleton] at hlength
                refine ⟨first, rest, heq, ?_, hrest, by omega⟩
                rintro rfl
                simp at hlength
              · rintro ⟨first, rest, heq, hfirst, hrest, hlength⟩
                refine ⟨[c] :: first, rest, by rw [cut, heq, List.cons_append], List.cons_ne_nil _ _, hrest, ?_⟩
                rw [List.flatten_cons, List.length_append, List.length_singleton, hlength, Nat.add_comm]
      | false =>
          obtain ⟨head, tail, hcut⟩ := List.exists_cons_of_ne_nil (cut_ne_nil marked)
          cases i with
          | zero =>
              refine iff_of_false ?_ (by simp)
              rintro ⟨first, rest, heq, hfirst, hrest, hlength⟩
              obtain ⟨piece, first, rfl⟩ := List.exists_cons_of_ne_nil hfirst
              rw [cut, hcut, List.modifyHead_cons, List.cons_append, List.cons.injEq] at heq
              obtain ⟨rfl, heq⟩ := heq
              rw [List.flatten_cons, List.length_append, List.length_cons] at hlength
              have hhead : head = [] := List.length_eq_zero_iff.mp (by omega)
              rw [hhead] at hcut
              rw [eq_nil_of_cut hcut] at heq
              exact hrest (List.append_eq_nil_iff.mp heq.symm).2
          | succ i =>
              rw [List.getElem?_cons_succ, ← ih]
              constructor
              · rintro ⟨first, rest, heq, hfirst, hrest, hlength⟩
                obtain ⟨piece, first, rfl⟩ := List.exists_cons_of_ne_nil hfirst
                rw [cut, hcut, List.modifyHead_cons, List.cons_append, List.cons.injEq] at heq
                obtain ⟨rfl, heq⟩ := heq
                rw [List.flatten_cons, List.length_append, List.length_cons] at hlength
                refine ⟨head :: first, rest, by rw [hcut, heq, List.cons_append], List.cons_ne_nil _ _, hrest, ?_⟩
                rw [List.flatten_cons, List.length_append]
                omega
              · rintro ⟨first, rest, heq, hfirst, hrest, hlength⟩
                obtain ⟨piece, first, rfl⟩ := List.exists_cons_of_ne_nil hfirst
                rw [List.cons_append] at heq
                refine ⟨(c :: piece) :: first, rest, by rw [cut, heq, List.modifyHead_cons, List.cons_append],
                  List.cons_ne_nil _ _, hrest, ?_⟩
                rw [List.flatten_cons, List.length_append] at hlength ⊢
                rw [List.length_cons]
                omega

/-- Only the last piece can be empty, and only behind a marked character. -/
theorem ne_nil_of_mem_cut {marked : List (UInt8 × Bool)} (hmarked : marked ≠ [])
    (hlast : ∀ c, marked.getLast? ≠ some (c, true)) : ∀ piece ∈ cut marked, piece ≠ [] := by
  induction marked with
  | nil => exact absurd rfl hmarked
  | cons mark marked ih =>
      obtain ⟨c, b⟩ := mark
      by_cases hnil : marked = []
      · subst hnil
        cases b with
        | true => exact absurd rfl (hlast c)
        | false => simp [cut]
      · have hrest := ih hnil fun c' => by rw [← List.getLast?_cons_of_ne_nil hnil (x := (c, b))]; exact hlast c'
        cases b with
        | true =>
            intro piece hpiece
            rcases List.mem_cons.mp hpiece with rfl | hmem
            · exact List.cons_ne_nil _ _
            · exact hrest piece hmem
        | false =>
            obtain ⟨head, tail, hcut⟩ := List.exists_cons_of_ne_nil (cut_ne_nil marked)
            rw [cut, hcut, List.modifyHead_cons]
            intro piece hpiece
            rcases List.mem_cons.mp hpiece with rfl | hmem
            · exact List.cons_ne_nil _ _
            · exact hrest piece (by rw [hcut]; exact List.mem_cons_of_mem _ hmem)

/-! ### What `hyphenate_word` returns -/

/-- What `__init__` makes of its texts. -/
theorem of_init {patterns exceptions : Str} {h : Hyphenator} (hinit : Hyphenator.init patterns exceptions = some h) :
    (split patterns).foldlM insertPattern .empty = some h.tree ∧
      ∀ key points, h.exceptions key = some points ↔
        ∃ ex, IsLast withoutHyphens (split exceptions) ex ∧ withoutHyphens ex = key ∧ exceptionPoints ex = points := by
  obtain ⟨tree, htree, rfl⟩ := Option.map_eq_some_iff.mp hinit
  refine ⟨htree, fun key points => ?_⟩
  exact get_foldl (fun (d : Str → Option (List Int)) k => d k) _ withoutHyphens exceptionPoints
    (fun _ => rfl) (fun d ex => Function.update_self ..) (fun d ex k hk => Function.update_of_ne hk ..) (split exceptions)
    key points

/-- The characters of a word, marked where the point behind them is odd. -/
def marks (word : Str) (points : List Int) : List (UInt8 × Bool) :=
  (word.zip (points.drop 2)).map fun cp => (cp.1, decide (cp.2 % 2 ≠ 0))

theorem piecesOf_drop (word : Str) (points : List Int) : piecesOf word (points.drop 2) = cut (marks word points) :=
  piecesOf_eq word _

theorem map_fst_marks {word : Str} {points : List Int} (h : word.length + 2 ≤ points.length) :
    (marks word points).map Prod.fst = word := by
  rw [marks, List.map_map]
  exact List.map_fst_zip (by rw [List.length_drop]; omega)

theorem length_marks {word : Str} {points : List Int} (h : word.length + 2 ≤ points.length) :
    (marks word points).length = word.length := by
  rw [marks, List.length_map, List.length_zip, List.length_drop]
  omega

theorem getElem?_marks {word : Str} {points : List Int} (h : word.length + 2 ≤ points.length) {i : Nat}
    (hi : i < word.length) : (marks word points)[i]? = some (word[i], decide (points[i + 2] % 2 ≠ 0)) := by
  have hzip : i < (word.zip (points.drop 2)).length := by
    rw [List.length_zip, List.length_drop]
    omega
  rw [marks, List.getElem?_map, List.getElem?_eq_getElem hzip, List.getElem_zip, List.getElem_drop]
  simp only [Option.map_some, Nat.add_comm 2 i]

/-- **Where the pieces end** is where the points are odd. -/
theorem brokenAfter_piecesOf {word : Str} {points : List Int} (h : word.length + 2 ≤ points.length) (i : Nat) :
    BrokenAfter (piecesOf word (points.drop 2)) (i + 1) ↔ ∃ hi : i < word.length, points[i + 2] % 2 ≠ 0 := by
  rw [piecesOf_drop, brokenAfter_cut]
  by_cases hi : i < word.length
  · rw [getElem?_marks h hi]
    simp [hi]
  · rw [List.getElem?_eq_none (by rw [length_marks h]; omega)]
    simp [hi]

theorem flatten_piecesOf {word : Str} {points : List Int} (h : word.length + 2 ≤ points.length) :
    (piecesOf word (points.drop 2)).flatten = word := by
  rw [piecesOf_drop, flatten_cut, map_fst_marks h]

/-- **Nothing is lost, and every piece has its size.** With zeros at the ends no piece is empty, and the first and the
last have two characters. -/
theorem pieces_of_ends {word : Str} {points : List Int} (hlong : 4 < word.length) (h : word.length + 2 < points.length)
    (hends : ∀ k (hk : k < points.length), IsEnd word k → points[k] = 0) :
    (∀ piece ∈ piecesOf word (points.drop 2), piece ≠ []) ∧
      (∀ piece rest, piecesOf word (points.drop 2) = piece :: rest → 2 ≤ piece.length) ∧
      ∀ front piece, piecesOf word (points.drop 2) = front ++ [piece] → 2 ≤ piece.length := by
  have hne : ∀ piece ∈ piecesOf word (points.drop 2), piece ≠ [] := by
    rw [piecesOf_drop]
    apply ne_nil_of_mem_cut
    · rw [Ne, ← List.length_eq_zero_iff, length_marks h.le]
      omega
    · intro c hc
      rw [List.getLast?_eq_getElem?, length_marks h.le, getElem?_marks h.le (by omega)] at hc
      simp only [Option.some.injEq, Prod.mk.injEq, decide_eq_true_eq] at hc
      have hzero := hends (word.length - 1 + 2) (by omega) (Or.inr (Or.inr (Or.inr (by omega))))
      rw [hzero] at hc
      exact hc.2 rfl
  have hflat := flatten_piecesOf h.le
  refine ⟨hne, fun piece rest hpieces => ?_, fun front piece hpieces => ?_⟩
  · have hpos := List.length_pos_iff.mpr (hne piece (by rw [hpieces]; exact List.mem_cons_self))
    by_contra hshort
    have hone : piece.length = 0 + 1 := by omega
    by_cases hrest : rest = []
    · rw [hpieces, hrest, List.flatten_cons, List.flatten_nil, List.append_nil] at hflat
      rw [← hflat] at hlong
      omega
    · obtain ⟨hi, hodd⟩ := (brokenAfter_piecesOf h.le 0).mp
        ⟨[piece], rest, hpieces, List.cons_ne_nil _ _, hrest, by simpa using hone⟩
      exact hodd (by rw [hends 2 (by omega) (Or.inr (Or.inl rfl))]; rfl)
  · have hpos := List.length_pos_iff.mpr (hne piece (by rw [hpieces]; simp))
    by_contra hshort
    have hone : piece.length = 1 := by omega
    have hlength := congrArg List.length hflat
    rw [hpieces, List.flatten_append, List.length_append, List.flatten_cons, List.flatten_nil, List.append_nil, hone] at hlength
    have hfront : front ≠ [] := by
      rintro rfl
      rw [List.flatten_nil, List.length_nil] at hlength
      omega
    obtain ⟨hi, hodd⟩ := (brokenAfter_piecesOf h.le (word.length - 2)).mp
      ⟨front, [piece], hpieces, hfront, List.cons_ne_nil _ _, by omega⟩
    apply hodd
    rw [hends (word.length - 2 + 2) (by omega) (Or.inr (Or.inr (Or.inl (by omega))))]
    rfl

/-! ### Exceptions -/

/-- The text between the letters of an exception. -/
theorem splitOnP_letters (ex : Str) : ∃ first rest, ex.splitOnP isLower = first :: rest ∧
    rest.length = (ex.filter isLower).length ∧
    ex = first ++ ((ex.filter isLower).zip rest).flatMap (fun cp => cp.1 :: cp.2) ∧
    (∀ c ∈ first, isLower c = false) ∧ ∀ piece ∈ rest, piece <:+: ex ∧ ∀ c ∈ piece, isLower c = false := by
  induction ex with
  | nil => exact ⟨[], [], rfl, rfl, rfl, by simp, by simp⟩
  | cons x ex ih =>
      obtain ⟨first, rest, hsplit, hlength, hex, hfirst, hrest⟩ := ih
      rw [List.splitOnP_cons_eq_if_modifyHead, hsplit]
      have hpart : ∀ piece ∈ rest, piece <:+: x :: ex ∧ ∀ c ∈ piece, isLower c = false :=
        fun piece hpiece => ⟨List.infix_cons (hrest piece hpiece).1, (hrest piece hpiece).2⟩
      by_cases hx : isLower x
      · refine ⟨[], first :: rest, by rw [if_pos hx], ?_, ?_, by simp, ?_⟩
        · rw [List.filter_cons_of_pos hx, List.length_cons, List.length_cons, hlength]
        · rw [List.filter_cons_of_pos hx, List.zip_cons_cons, List.flatMap_cons, List.nil_append, List.cons_append, ← hex]
        · intro piece hpiece
          rcases List.mem_cons.mp hpiece with rfl | hmem
          · refine ⟨List.infix_cons ?_, hfirst⟩
            exact ⟨[], _, by rw [List.nil_append]; exact hex.symm⟩
          · exact hpart piece hmem
      · refine ⟨x :: first, rest, by rw [if_neg hx, List.modifyHead_cons], ?_, ?_, ?_, hpart⟩
        · rw [List.filter_cons_of_neg hx, hlength]
        · rw [List.filter_cons_of_neg hx, List.cons_append, ← hex]
        · intro c hc
          rcases List.mem_cons.mp hc with rfl | hmem
          · exact eq_false_of_ne_true hx
          · exact hfirst c hmem

/-- Letters, with single hyphens behind them. -/
structure Proper (ex : Str) : Prop where
  chars : ∀ c ∈ ex, isLower c = true ∨ c = 45
  first : ex.head? ≠ some 45
  single : ¬[45, 45] <:+: ex

theorem Proper.withoutHyphens {ex : Str} (h : Proper ex) : withoutHyphens ex = ex.filter isLower := by
  apply List.filter_congr
  intro c hc
  rcases h.chars c hc with hlower | rfl
  · rw [hlower, decide_eq_true]
    rintro rfl
    exact absurd hlower (by decide)
  · rfl

/-- `'-'.join(pieces)`. -/
def join (pieces : List Str) : Str := [45].intercalate pieces

/-- What a marked character becomes. -/
def spelled (mark : UInt8 × Bool) : Str := if mark.2 then [mark.1, 45] else [mark.1]

theorem join_cut (marked : List (UInt8 × Bool)) : join (cut marked) = marked.flatMap spelled := by
  induction marked with
  | nil => rfl
  | cons mark marked ih =>
      obtain ⟨c, b⟩ := mark
      obtain ⟨head, tail, hcut⟩ := List.exists_cons_of_ne_nil (cut_ne_nil marked)
      rw [hcut] at ih
      rw [List.flatMap_cons, ← ih]
      cases b with
      | true =>
          rw [cut, hcut, join, List.intercalate_cons_cons]
          rfl
      | false =>
          rw [cut, hcut, List.modifyHead_cons]
          cases tail with
          | nil => simp [join, spelled]
          | cons next tail => simp [join, List.intercalate_cons_cons, spelled]

theorem map_lower_cut (marked : List (UInt8 × Bool)) :
    (cut marked).map lower = cut (marked.map fun mark => (toLower mark.1, mark.2)) := by
  induction marked with
  | nil => rfl
  | cons mark marked ih =>
      obtain ⟨c, b⟩ := mark
      cases b with
      | true => rw [cut, List.map_cons, List.map_cons, cut, ih]; rfl
      | false =>
          obtain ⟨head, tail, hcut⟩ := List.exists_cons_of_ne_nil (cut_ne_nil marked)
          rw [cut, List.map_cons, cut, ← ih, hcut]
          rfl

/-- The pieces of an exception, with hyphens between them, are the exception as it was written. -/
theorem Proper.pieces {ex word : Str} (h : Proper ex) (hword : Syllable.withoutHyphens ex = lower word) :
    word.length + 2 ≤ (exceptionPoints ex).length ∧
      join ((piecesOf word ((exceptionPoints ex).drop 2)).map lower) = ex := by
  obtain ⟨first, rest, hsplit, hlength, hex, hfirst, hrest⟩ := splitOnP_letters ex
  rw [h.withoutHyphens] at hword
  have hcount : rest.length = word.length := by rw [hlength, hword, lower, List.length_map]
  have hpoints : exceptionPoints ex = 0 :: (if first = [45] then 1 else 0) :: rest.map fun h => if h = [45] then 1 else 0 := by
    rw [exceptionPoints, hsplit, List.map_cons]
  have hhyphens : ∀ piece : Str, piece <:+: ex → (∀ c ∈ piece, isLower c = false) → ∀ c ∈ piece, c = 45 := by
    intro piece hpiece hlower c hc
    rcases h.chars c (hpiece.subset hc) with hyes | hyes
    · rw [hlower c hc] at hyes
      cases hyes
    · exact hyes
  have hnone : first = [] := by
    cases first with
    | nil => rfl
    | cons c first =>
        have hc := hhyphens (c :: first) ⟨[], _, by rw [List.nil_append]; exact hex.symm⟩ hfirst c List.mem_cons_self
        subst hc
        rw [hex] at h
        exact absurd rfl h.first
  have hsingle : ∀ piece ∈ rest, piece = [] ∨ piece = [45] := by
    intro piece hpiece
    obtain ⟨hpart, hlower⟩ := hrest piece hpiece
    have hall := hhyphens piece hpart hlower
    match piece with
    | [] => exact Or.inl rfl
    | [c] =>
        rw [hall c List.mem_cons_self]
        exact Or.inr rfl
    | c :: c' :: more =>
        have hc := hall c List.mem_cons_self
        have hc' := hall c' (List.mem_cons_of_mem _ List.mem_cons_self)
        subst hc
        subst hc'
        exact absurd (List.IsInfix.trans ⟨[], more, rfl⟩ hpart) h.single
  constructor
  · rw [hpoints, List.length_cons, List.length_cons, List.length_map, hcount]
  · rw [piecesOf_drop, map_lower_cut, join_cut, marks, hpoints, List.drop_succ_cons, List.drop_succ_cons, List.drop_zero]
    conv_rhs => rw [hex, hnone, List.nil_append, hword, lower]
    rw [List.map_map, List.flatMap_map, List.zip_map_right, List.zip_map_left, List.flatMap_map, List.flatMap_map]
    apply List.flatMap_congr
    rintro ⟨c, piece⟩ hmem
    rcases hsingle piece (List.of_mem_zip hmem).2 with rfl | rfl
    · simp [spelled]
    · simp [spelled]

/-! ### Words -/

/-- The pieces of a word that is not an exception. -/
theorem hyphenate_plain {patterns exceptions word : Str} {h : Hyphenator}
    (hinit : Hyphenator.init patterns exceptions = some h) (hlong : 4 < word.length)
    (hplain : ∀ ex ∈ split exceptions, withoutHyphens ex ≠ lower word) :
    ∃ points : List Int, h.hyphenateWord word = some (piecesOf word (points.drop 2)) ∧ points.length = word.length + 3 ∧
      ∀ k (hk : k < points.length), (IsEnd word k → points[k] = 0) ∧
        (¬IsEnd word k → IsGreatest (Levels patterns word k) points[k]) := by
  obtain ⟨htree, hexceptions⟩ := of_init hinit
  have hnone : h.exceptions (lower word) = none := by
    cases hsome : h.exceptions (lower word) with
    | none => rfl
    | some points =>
        obtain ⟨ex, ⟨before, after, heq, -⟩, hkey, -⟩ := (hexceptions _ _).mp hsome
        exact absurd hkey (hplain ex (by rw [heq]; simp))
  obtain ⟨points, hpoints, hlength, hspec⟩ := wordPoints_spec htree hlong
  refine ⟨points, ?_, hlength, hspec⟩
  rw [Hyphenator.hyphenateWord, if_neg (by omega), Hyphenator.points, hnone]
  simp only [hpoints, Option.map_some]

/-- **Where a word is hyphenated.** A word of more than four characters that is not an exception is hyphenated behind
a character, but the first one and the last two, exactly if the greatest point that the patterns have there is odd. -/
theorem hyphens_at_odd_levels (patterns exceptions word : Str) (h : Hyphenator)
    (hinit : Hyphenator.init patterns exceptions = some h) (hlong : 4 < word.length)
    (hplain : ∀ ex ∈ split exceptions, withoutHyphens ex ≠ lower word) :
    ∃ pieces, h.hyphenateWord word = some pieces ∧ ∀ count, BrokenAfter pieces count ↔
      2 ≤ count ∧ count + 2 ≤ word.length ∧
        ∃ value, IsGreatest (Levels patterns word (count + 1)) value ∧ value % 2 = 1 := by
  obtain ⟨points, hword, hlength, hspec⟩ := hyphenate_plain hinit hlong hplain
  have hends : ∀ k (hk : k < points.length), IsEnd word k → points[k] = 0 := fun k hk => (hspec k hk).1
  refine ⟨_, hword, fun count => ?_⟩
  cases count with
  | zero =>
      refine iff_of_false ?_ (by omega)
      rintro ⟨first, rest, hpieces, hfirst, -, hcount⟩
      obtain ⟨piece, first, rfl⟩ := List.exists_cons_of_ne_nil hfirst
      have hne := (pieces_of_ends hlong (by omega) hends).1 piece (by rw [hpieces]; simp)
      rw [List.flatten_cons, List.length_append] at hcount
      exact hne (List.length_eq_zero_iff.mp (by omega))
  | succ i =>
      rw [brokenAfter_piecesOf (by omega)]
      constructor
      · rintro ⟨hi, hodd⟩
        have hinside : ¬IsEnd word (i + 2) := fun hend => hodd (by rw [hends _ (by omega) hend]; rfl)
        have hgreatest := (hspec (i + 2) (by omega)).2 hinside
        rw [IsEnd] at hinside
        exact ⟨by omega, by omega, _, hgreatest, by omega⟩
      · rintro ⟨hlow, hhigh, value, hgreatest, hodd⟩
        have hinside : ¬IsEnd word (i + 2) := by
          rw [IsEnd]
          omega
        have hvalue := ((hspec (i + 2) (by omega)).2 hinside).unique hgreatest
        exact ⟨by omega, by omega⟩

/-- The patterns `a1b` and `b2a`, and the exception `ta-bles`. -/
def twoPatterns : Str := ascii "a1b b2a"

theorem hyphens_at_odd_levels_twoPatterns : ∃ h pieces, Hyphenator.init twoPatterns (ascii "ta-bles") = some h ∧
    h.hyphenateWord (ascii "Ababab") = some pieces ∧ (BrokenAfter pieces 3 ↔
      2 ≤ 3 ∧ 3 + 2 ≤ (ascii "Ababab").length ∧
        ∃ value, IsGreatest (Levels twoPatterns (ascii "Ababab") (3 + 1)) value ∧ value % 2 = 1) := by
  obtain ⟨h, hinit⟩ : ∃ h, Hyphenator.init twoPatterns (ascii "ta-bles") = some h := ⟨_, rfl⟩
  obtain ⟨pieces, hword, hbroken⟩ := hyphens_at_odd_levels twoPatterns (ascii "ta-bles") (ascii "Ababab") h hinit
    (by decide) (by decide)
  exact ⟨h, pieces, hinit, hword, hbroken 3⟩

/-- **Hyphenation loses nothing.** Whatever the patterns, every word is returned in pieces that make it up; those of a
word that is not an exception are not empty, with two characters in the first and in the last one, and those of an
exception are the ones it was written with. -/
theorem hyphenate_keeps (patterns exceptions word : Str) (h : Hyphenator)
    (hinit : Hyphenator.init patterns exceptions = some h) (hproper : ∀ ex ∈ split exceptions, Proper ex) :
    ∃ pieces, h.hyphenateWord word = some pieces ∧ pieces.flatten = word ∧ (4 < word.length →
      (∀ ex, IsLast withoutHyphens (split exceptions) ex → withoutHyphens ex = lower word →
        join (pieces.map lower) = ex) ∧
      ((∀ ex ∈ split exceptions, withoutHyphens ex ≠ lower word) → (∀ piece ∈ pieces, piece ≠ []) ∧
        (∀ piece rest, pieces = piece :: rest → 2 ≤ piece.length) ∧
        ∀ front piece, pieces = front ++ [piece] → 2 ≤ piece.length)) := by
  have hmem : ∀ {ex}, IsLast withoutHyphens (split exceptions) ex → ex ∈ split exceptions := by
    rintro ex ⟨before, after, heq, -⟩
    rw [heq]
    simp
  by_cases hlong : 4 < word.length
  swap
  · exact ⟨[word], if_pos (by omega), by simp, fun hlt => absurd hlt hlong⟩
  obtain ⟨-, hexceptions⟩ := of_init hinit
  by_cases hplain : ∀ ex ∈ split exceptions, withoutHyphens ex ≠ lower word
  · obtain ⟨points, hword, hlength, hspec⟩ := hyphenate_plain hinit hlong hplain
    refine ⟨_, hword, flatten_piecesOf (by omega), fun _ => ⟨fun ex hlast hkey => ?_, fun _ => ?_⟩⟩
    · exact absurd hkey (hplain ex (hmem hlast))
    · exact pieces_of_ends hlong (by omega) fun k hk => (hspec k hk).1
  · have hsome : ∃ points, h.exceptions (lower word) = some points := by
      simp only [not_forall, not_not] at hplain
      obtain ⟨ex, hex, hkey⟩ := hplain
      obtain ⟨last, hlast, hsame⟩ := exists_isLast withoutHyphens hex
      exact ⟨_, (hexceptions _ _).mpr ⟨last, hlast, hsame.trans hkey, rfl⟩⟩
    obtain ⟨points, hpoints⟩ := hsome
    obtain ⟨ex, hlast, hkey, rfl⟩ := (hexceptions _ _).mp hpoints
    obtain ⟨hlength, hjoin⟩ := (hproper ex (hmem hlast)).pieces hkey
    have hword : h.hyphenateWord word = some (piecesOf word ((exceptionPoints ex).drop 2)) := by
      rw [Hyphenator.hyphenateWord, if_neg (by omega), Hyphenator.points, hpoints]
      rfl
    refine ⟨_, hword, flatten_piecesOf hlength, fun _ => ⟨fun other hother hkey' => ?_, fun hnot => absurd hnot hplain⟩⟩
    have hsame : exceptionPoints other = exceptionPoints ex := by
      have hboth := (hexceptions _ _).mpr ⟨other, hother, hkey', rfl⟩
      rw [hpoints, Option.some.injEq] at hboth
      exact hboth.symm
    rw [← hsame]
    exact ((hproper other (hmem hother)).pieces hkey').2

theorem hyphenate_keeps_twoPatterns : ∃ h pieces, Hyphenator.init twoPatterns (ascii "ta-bles") = some h ∧
    h.hyphenateWord (ascii "Tables") = some pieces ∧ pieces.flatten = ascii "Tables" ∧
    join (pieces.map lower) = ascii "ta-bles" := by
  obtain ⟨h, hinit⟩ : ∃ h, Hyphenator.init twoPatterns (ascii "ta-bles") = some h := ⟨_, rfl⟩
  have hsplit : split (ascii "ta-bles") = [ascii "ta-bles"] := rfl
  have hchars : ((ascii "ta-bles").all fun c => isLower c || c == 45) = true := rfl
  have hproper : ∀ ex ∈ split (ascii "ta-bles"), Proper ex := by
    rw [hsplit]
    intro ex hex
    rw [List.mem_singleton.mp hex]
    exact ⟨fun c hc => by simpa using List.all_eq_true.mp hchars c hc, by decide, by decide⟩
  obtain ⟨pieces, hword, hflat, hmore⟩ := hyphenate_keeps twoPatterns (ascii "ta-bles") (ascii "Tables") h hinit hproper
  refine ⟨h, pieces, hinit, hword, hflat, (hmore (by decide)).1 _ ⟨[], [], hsplit, ?_⟩ rfl⟩
  simp

end Thebends.Syllable
