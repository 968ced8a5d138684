import Thebends.YhttpUrl

/-! A `URL` that parses one string after the other. Every field but the map of the parameters is set anew; of the map,
`Parse` sets the keys of the query, and leaves what other strings have set. -/

namespace Thebends.Yhttp

open LibAscii LibMap

/-- What can be observed of two URLs is the same. -/
structure SameUrl (u v : URL) : Prop where
  valid : u.valid = v.valid
  scheme : u.scheme = v.scheme
  user : u.user = v.user
  password : u.password = v.password
  host : u.host = v.host
  port : u.port = v.port
  path : u.path = v.path
  query : u.query = v.query
  params : ∀ key, u.params.lookup key = v.params.lookup key

theorem SameUrl.trans {u v w : URL} (h : SameUrl u v) (h' : SameUrl v w) : SameUrl u w :=
  ⟨h.valid.trans h'.valid, h.scheme.trans h'.scheme, h.user.trans h'.user, h.password.trans h'.password,
    h.host.trans h'.host, h.port.trans h'.port, h.path.trans h'.path, h.query.trans h'.query,
    fun key => (h.params key).trans (h'.params key)⟩

/-- The key and the value of a pair, where the pair is not refused. -/
def entryOf (pair : Bytes) : Option (Bytes × Bytes) :=
  match split pair (byte '=') with
  | [key] => if key = [] then none else some (key, [])
  | [key, value] => if key = [] then none else some (key, unescape value)
  | _ => none

/-- The keys of the pairs in front of the first that is refused. -/
def keysOf : List Bytes → List Bytes
  | [] => []
  | pair :: pairs =>
      match entryOf pair with
      | none => []
      | some entry => entry.1 :: keysOf pairs

/-- The pairs of the query of a string whose stages before the query succeed. -/
def pairsOf (url : Bytes) : List Bytes :=
  match consumeScheme url [] with
  | (false, _, _) => []
  | (true, tmp, _) =>
      match consumeLogin tmp ⟨[], [], [], 0⟩ with
      | (false, _, _) => []
      | (true, tmp, _) =>
          let url := tmp.dropWhile (· = byte '/')
          if !url.all isXChar then []
          else split (url.drop ((url.takeWhile (· ≠ byte '?')).length + 1)) (byte '&')

/-- The keys that a string sets. -/
def sets (url : Bytes) : List Bytes := keysOf (pairsOf url)

/-! ### The parameters -/

theorem consumeParams_cons (params : ParamMap) (pair : Bytes) (pairs : List Bytes) :
    consumeParams params (pair :: pairs) =
      match entryOf pair with
      | none => (false, params)
      | some entry => consumeParams (params.insert entry.1 entry.2) pairs := by
  rw [consumeParams, entryOf]
  rcases split pair (byte '=') with _ | ⟨key, _ | ⟨value, _ | ⟨extra, more⟩⟩⟩
  · rfl
  · by_cases hkey : key = []
    · simp only [if_pos hkey]
    · simp only [if_neg hkey]
  · by_cases hkey : key = []
    · simp only [if_pos hkey]
    · simp only [if_neg hkey]
  · rfl

/-- Whether the pairs are accepted does not depend on the map, and they set the same values in any two. -/
theorem consumeParams_same (params params' : ParamMap) (pairs : List Bytes) :
    (consumeParams params pairs).1 = (consumeParams params' pairs).1 ∧
      ∀ key, (key ∈ keysOf pairs ∨ params.lookup key = params'.lookup key) →
        (consumeParams params pairs).2.lookup key = (consumeParams params' pairs).2.lookup key := by
  induction pairs generalizing params params' with
  | nil => exact ⟨rfl, fun key hkey => hkey.resolve_left List.not_mem_nil⟩
  | cons pair pairs ih =>
      rw [consumeParams_cons, consumeParams_cons, keysOf]
      cases entryOf pair with
      | none => exact ⟨rfl, fun key hkey => hkey.resolve_left List.not_mem_nil⟩
      | some entry =>
          obtain ⟨hok, hlookup⟩ := ih (params.insert entry.1 entry.2) (params'.insert entry.1 entry.2)
          refine ⟨hok, fun key hkey => hlookup key ?_⟩
          rw [Map.lookup_insert_eq, Map.lookup_insert_eq]
          by_cases heq : key = entry.1
          · exact .inr (by rw [if_pos heq, if_pos heq])
          · rw [if_neg heq, if_neg heq]
            exact hkey.imp_left fun hmem => (List.mem_cons.mp hmem).resolve_left heq

theorem lookup_consumeParams_of_not_mem {pairs : List Bytes} {key : Bytes} (h : key ∉ keysOf pairs) (params : ParamMap) :
    (consumeParams params pairs).2.lookup key = params.lookup key := by
  induction pairs generalizing params with
  | nil => rfl
  | cons pair pairs ih =>
      rw [keysOf] at h
      rw [consumeParams_cons]
      cases hentry : entryOf pair with
      | none => rfl
      | some entry =>
          rw [hentry] at h
          obtain ⟨hne, hpairs⟩ := List.ne_and_not_mem_of_not_mem_cons h
          exact (ih hpairs _).trans (AList.lookup_insert_ne hne)

/-- A key that is set has a value. -/
theorem lookup_consumeParams_of_mem {pairs : List Bytes} {key : Bytes} {params : ParamMap}
    (h : key ∈ keysOf pairs ∨ params.lookup key ≠ none) : (consumeParams params pairs).2.lookup key ≠ none := by
  induction pairs generalizing params with
  | nil => exact h.resolve_left List.not_mem_nil
  | cons pair pairs ih =>
      rw [keysOf] at h
      rw [consumeParams_cons]
      cases hentry : entryOf pair with
      | none =>
          rw [hentry] at h
          exact h.resolve_left List.not_mem_nil
      | some entry =>
          rw [hentry] at h
          refine ih ?_
          rw [Map.lookup_insert_eq]
          by_cases heq : key = entry.1
          · rw [if_pos heq]
            exact .inr (Option.some_ne_none _)
          · rw [if_neg heq]
            exact h.imp_left fun hmem => (List.mem_cons.mp hmem).resolve_left heq

/-! ### One string -/

/-- Every field but the parameters is what a fresh object has, and the parameters are those of the pairs. -/
theorem parse_eq (u v : URL) (url : Bytes) :
    u.parse url = { v.parse url with params := (consumeParams u.params (pairsOf url)).2 } := by
  rw [URL.parse, URL.parse, pairsOf]
  dsimp only
  rcases consumeScheme url [] with ⟨_ | _, tmp, scheme⟩
  · rfl
  · dsimp only
    rcases consumeLogin tmp ⟨[], [], [], 0⟩ with ⟨_ | _, tmp, login⟩
    · rfl
    · dsimp only
      rw [consumePath, consumePath]
      dsimp only
      split
      case isTrue => rfl
      case isFalse =>
          have hok := (consumeParams_same u.params v.params (split ((tmp.dropWhile (· = byte '/')).drop
            (((tmp.dropWhile (· = byte '/')).takeWhile (· ≠ byte '?')).length + 1)) (byte '&'))).1
          rw [hok]

theorem params_parse (u : URL) (url : Bytes) : (u.parse url).params = (consumeParams u.params (pairsOf url)).2 := by
  rw [parse_eq u u]

/-- Two objects that parse the same string differ only in the keys that it does not set. -/
theorem sameUrl_parse {u v : URL} {url : Bytes}
    (h : ∀ key, key ∉ sets url → u.params.lookup key = v.params.lookup key) : SameUrl (u.parse url) (v.parse url) := by
  rw [parse_eq u v]
  refine ⟨rfl, rfl, rfl, rfl, rfl, rfl, rfl, rfl, fun key => ?_⟩
  rw [params_parse]
  refine (consumeParams_same _ _ _).2 key ?_
  by_cases hkey : key ∈ sets url
  · exact .inl hkey
  · exact .inr (h key hkey)

/-! ### One after the other -/

/-- What other strings have left. -/
theorem lookup_foldl_parse (port : UInt32) (earlier : List Bytes) (key : Bytes) :
    (earlier.foldl URL.parse (URL.blank port)).params.lookup key ≠ none ↔ ∃ url ∈ earlier, key ∈ sets url := by
  induction earlier using List.reverseRecOn with
  | nil => exact iff_of_false (fun h => h (AList.lookup_empty key)) (by simp)
  | append_singleton earlier url ih =>
      rw [List.foldl_append, List.foldl_cons, List.foldl_nil, params_parse]
      constructor
      · intro h
        by_cases hkey : key ∈ keysOf (pairsOf url)
        · exact ⟨url, List.mem_append_right _ List.mem_cons_self, hkey⟩
        · rw [lookup_consumeParams_of_not_mem hkey] at h
          obtain ⟨other, hother, hsets⟩ := ih.mp h
          exact ⟨other, List.mem_append_left _ hother, hsets⟩
      · rintro ⟨other, hother, hsets⟩
        refine lookup_consumeParams_of_mem ?_
        rcases List.mem_append.mp hother with hother | hother
        · exact .inr (ih.mpr ⟨other, hother, hsets⟩)
        · rw [List.mem_singleton.mp hother] at hsets
          exact .inl hsets

/-- **When an object is as good as a fresh one**: just where the string sets every key that an earlier string has set.
-/
theorem reused_iff (port port' : UInt32) (earlier : List Bytes) (url : Bytes) :
    SameUrl ((earlier.foldl URL.parse (URL.blank port)).parse url) (URL.new port' url) ↔
      ∀ other ∈ earlier, ∀ key ∈ sets other, key ∈ sets url := by
  rw [URL.new]
  constructor
  · intro h other hother key hsets
    by_contra hnot
    have hkey := h.params key
    rw [params_parse, params_parse, lookup_consumeParams_of_not_mem hnot, lookup_consumeParams_of_not_mem hnot] at hkey
    exact (lookup_foldl_parse port earlier key).mpr ⟨other, hother, hsets⟩ (hkey.trans (AList.lookup_empty key))
  · intro h
    refine sameUrl_parse fun key hkey => ?_
    have hblank : (URL.blank port').params.lookup key = none := AList.lookup_empty key
    rw [hblank]
    by_contra hleft
    obtain ⟨other, hother, hsets⟩ := (lookup_foldl_parse port earlier key).mp hleft
    exact hkey (h other hother key hsets)

/-- The parameter of a request is in the next one. -/
theorem parameter_leaks : ¬SameUrl (([ascii "http://localhost/?a=1"].foldl URL.parse (URL.blank 0)).parse
    (ascii "http://localhost/")) (URL.new 0 (ascii "http://localhost/")) := by
  intro h
  have hkey := h.params (ascii "a")
  exact absurd hkey (by decide)

end Thebends.Yhttp
