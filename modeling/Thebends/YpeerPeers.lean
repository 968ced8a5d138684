import Mathlib.Data.List.Lex
import Thebends.LibSorted
import Thebends.YhttpRequest
import Thebends.YhttpRoundTrip
import Thebends.YpeerEscape

/-! The query that a request to a tracker carries (`BuildQuery` in `peers.cpp`), and what a web server on `yhttp` reads
in it. `EscapeAndAppend` leaves a tilde as it is, and `ConsumePath` takes none. -/

namespace Thebends.Ypeer

open LibAscii LibDecimal LibMap LibSorted Yhttp

/-- The order of the bytes, by which strings are compared. -/
@[reducible] def byteOrder : LinearOrder UInt8 := LinearOrder.lift' UInt8.toNat fun _ _ => UInt8.toNat_inj.mp

attribute [local instance] byteOrder

/-- `map<string, string>`, in its order. -/
abbrev Params := List (Bytes × Bytes)

/-- A turn of the loop in `BuildQuery`, with the message and `i`. -/
def appendParam (sofar : Bytes × Nat) (param : Bytes × Bytes) : Bytes × Nat :=
  let (message, i) := sofar
  let message := if i ≠ 0 then message ++ ascii "&" else message
  let message := escapeAndAppend param.1 message
  let message := message ++ ascii "="
  (escapeAndAppend param.2 message, i + 1)

/-- `BuildQuery`. -/
def buildQuery (params : Params) (message : Bytes) : Bytes := (params.foldl appendParam (message ++ ascii "?", 0)).1

/-! ### The text of the query -/

/-- A text as `EscapeAndAppend` writes it. -/
def escaped (text : Bytes) : Bytes := text.flatMap escapeOne

def escapedPair (param : Bytes × Bytes) : Bytes × Bytes := (escaped param.1, escaped param.2)

theorem unescape_escaped_self (text : Bytes) : unescape (escaped text) = text := unescape_flatMap text

theorem escaped_injective : Function.Injective escaped := by
  intro text text' h
  rw [← unescape_escaped_self text, h, unescape_escaped_self]

theorem escapeAndAppend_eq {value : Bytes} (h : value.length < 2 ^ 31) (message : Bytes) :
    escapeAndAppend value message = message ++ escaped value := by
  rw [escapeAndAppend, (take_sizeToInt_iff value).mpr h, escaped]

/-- The strings of a map whose sizes are an `int`. -/
def Short (params : Params) : Prop := ∀ param ∈ params, param.1.length < 2 ^ 31 ∧ param.2.length < 2 ^ 31

theorem foldl_appendParam {params : Params} (h : Short params) (message : Bytes) (i : Nat) :
    (params.foldl appendParam (message, i + 1)).1 =
      message ++ (params.map escapedPair).flatMap fun pair => byte '&' :: pairText pair := by
  induction params generalizing message i with
  | nil => exact (List.append_nil _).symm
  | cons param params ih =>
      obtain ⟨hkey, hvalue⟩ := h param List.mem_cons_self
      have hturn : appendParam (message, i + 1) param =
          (message ++ (byte '&' :: pairText (escapedPair param)), i + 1 + 1) := by
        rw [appendParam, if_pos (Nat.succ_ne_zero i), escapeAndAppend_eq hkey, escapeAndAppend_eq hvalue, pairText,
          escapedPair]
        simp [ascii]
      rw [List.foldl_cons, hturn, ih fun other hother => h other (List.mem_cons_of_mem _ hother), List.map_cons,
        List.flatMap_cons, List.append_assoc]

theorem queryText_cons (pair : Bytes × Bytes) (pairs : List (Bytes × Bytes)) :
    queryText (pair :: pairs) = pairText pair ++ pairs.flatMap fun pair => byte '&' :: pairText pair := by
  induction pairs generalizing pair with
  | nil => rw [queryText, List.map_singleton, List.intercalate_singleton, List.flatMap_nil, List.append_nil]
  | cons next pairs ih =>
      have hnext := ih next
      rw [queryText, List.map_cons] at hnext
      rw [queryText, List.map_cons, List.map_cons, List.intercalate_cons_cons, hnext, List.flatMap_cons]
      simp

/-- The query is a question mark and the escaped parameters. -/
theorem buildQuery_eq {params : Params} (hne : params ≠ []) (h : Short params) (message : Bytes) :
    buildQuery params message = message ++ byte '?' :: queryText (params.map escapedPair) := by
  cases params with
  | nil => exact absurd rfl hne
  | cons param params =>
      obtain ⟨hkey, hvalue⟩ := h param List.mem_cons_self
      have hturn : appendParam (message ++ ascii "?", 0) param =
          (message ++ (byte '?' :: pairText (escapedPair param)), 0 + 1) := by
        rw [appendParam, if_neg (fun h => h rfl), escapeAndAppend_eq hkey, escapeAndAppend_eq hvalue, pairText,
          escapedPair]
        simp [ascii]
      rw [buildQuery, List.foldl_cons, hturn, foldl_appendParam fun other hother => h other (List.mem_cons_of_mem _ hother),
        List.map_cons, queryText_cons]
      simp

/-! ### The characters of the query -/

theorem isXChar_of_isUnreserved {c : UInt8} (h : isUnreserved c = true) : isXChar c = true := by
  rw [isXChar, h]
  rfl

/-- The characters that an escaped one consists of. -/
theorem mem_escapeOne {c x : UInt8} (h : x ∈ escapeOne c) :
    x ≠ byte '&' ∧ x ≠ byte '=' ∧ (isXChar x = true ∨ x = byte '~' ∧ c = byte '~') := by
  have hhex : ∀ d < 16, hexDigit d ≠ byte '&' ∧ hexDigit d ≠ byte '=' ∧ isXChar (hexDigit d) = true := by decide
  rw [escapeOne] at h
  split at h
  case isTrue hplain =>
    obtain rfl := List.mem_singleton.mp h
    refine ⟨?_, ?_, ?_⟩
    · rintro rfl
      exact absurd hplain (by decide)
    · rintro rfl
      exact absurd hplain (by decide)
    · by_cases htilde : x = byte '~'
      · exact Or.inr ⟨htilde, htilde⟩
      · left
        apply isXChar_of_isUnreserved
        simp only [isUnreserved, isSafe, ascii, Bool.or_eq_true, List.contains_iff_mem] at hplain ⊢
        rcases hplain with hplain | hmark
        · exact Or.inl (Or.inl hplain)
        · simp at hmark ⊢
          tauto
  case isFalse =>
    have hlt := c.toNat_lt
    rw [escapeChar] at h
    rcases List.mem_cons.mp h with rfl | h
    · exact ⟨by decide, by decide, Or.inl (by decide)⟩
    rcases List.mem_cons.mp h with rfl | h
    · obtain ⟨hand, hequal, hx⟩ := hhex (c.toNat / 16) (by omega)
      exact ⟨hand, hequal, Or.inl hx⟩
    · obtain ⟨hand, hequal, hx⟩ := hhex (c.toNat % 16) (by omega)
      rw [List.mem_singleton.mp h]
      exact ⟨hand, hequal, Or.inl hx⟩

theorem mem_escaped {text : Bytes} {x : UInt8} (h : x ∈ escaped text) : x ≠ byte '&' ∧ x ≠ byte '=' := by
  obtain ⟨c, -, hx⟩ := List.mem_flatMap.mp h
  exact ⟨(mem_escapeOne hx).1, (mem_escapeOne hx).2.1⟩

theorem isXChar_escaped {text : Bytes} (h : byte '~' ∉ text) : ∀ x ∈ escaped text, isXChar x = true := by
  intro x hx
  obtain ⟨c, hc, hx⟩ := List.mem_flatMap.mp hx
  refine (mem_escapeOne hx).2.2.resolve_right ?_
  rintro ⟨-, rfl⟩
  exact h hc

theorem tilde_mem_escaped {text : Bytes} (h : byte '~' ∈ text) : byte '~' ∈ escaped text :=
  List.mem_flatMap.mpr ⟨byte '~', h, List.mem_singleton_self _⟩

theorem escaped_ne_nil {text : Bytes} (h : text ≠ []) : escaped text ≠ [] := by
  cases text with
  | nil => exact absurd rfl h
  | cons c text =>
      rw [escaped, List.flatMap_cons]
      apply List.append_ne_nil_of_left_ne_nil
      rw [escapeOne]
      split
      · exact List.cons_ne_nil _ _
      · exact List.cons_ne_nil _ _

theorem isXChar_tilde : ¬isXChar (byte '~') = true := by decide

/-! ### What the web server reads -/

theorem isScheme_http : ∀ c ∈ ascii "http", isScheme c := forall_of_all (by decide)

/-- What stands in front of the path. -/
def localHost : Parts where
  scheme := ascii "http"
  login := none
  host := ascii "localhost"
  port := none
  path := []
  pairs := []
  scheme_ne := List.cons_ne_nil _ _
  scheme_all := isScheme_http
  user_ne := fun _ h => absurd h (Option.not_mem_none _)
  user_all := fun _ h => absurd h (Option.not_mem_none _)
  password_ne := fun _ h => absurd h (Option.not_mem_none _)
  password_all := fun _ h => absurd h (Option.not_mem_none _)
  host_ne := List.cons_ne_nil _ _
  host_all := forall_of_all (by decide)
  port_ne := fun _ h => absurd h (Option.not_mem_none _)
  port_all := fun _ h => absurd h (Option.not_mem_none _)
  port_lt := fun _ h => absurd h (Option.not_mem_none _)
  path_all := fun _ h => absurd h List.not_mem_nil
  path_start := (Option.some_ne_none _).symm
  key_ne := fun _ h => absurd h List.not_mem_nil
  key_all := fun _ h => absurd h List.not_mem_nil
  value_all := fun _ h => absurd h List.not_mem_nil

/-- What a URL on the server itself is parsed to, from what `ConsumePath` makes of the rest. -/
theorem new_localHost (port : UInt32) (rest : Bytes) : ∃ number : UInt32,
    URL.new port (ascii "http://localhost" ++ byte '/' :: rest) =
      let (ok, path, query, params) := consumePath (byte '/' :: rest) [] [] ∅
      { valid := ok, scheme := ascii "http", user := [], password := [], host := ascii "localhost", port := number, path,
        query, params } := by
  have hscheme := consumeScheme_ok localHost.scheme_ne localHost.scheme_all
    (loginText localHost.login ++ (localHost.host ++ portText localHost.port ++ byte '/' :: rest)) []
  obtain ⟨number, -, hlogin⟩ := consumeLogin_ok localHost rest ⟨[], [], [], 0⟩
  refine ⟨number, ?_⟩
  rw [URL.new, URL.parse, URL.blank]
  dsimp only
  have htext : ascii "http://localhost" ++ byte '/' :: rest = localHost.scheme ++ ascii "://" ++
      (loginText localHost.login ++ (localHost.host ++ portText localHost.port ++ byte '/' :: rest)) := rfl
  rw [htext, hscheme]
  dsimp only
  rw [hlogin]
  rfl

theorem dropWhile_one_slash {text : Bytes} (h : text.head? ≠ some (byte '/')) :
    (byte '/' :: text).dropWhile (· = byte '/') = text := by
  rw [List.dropWhile_cons_of_pos (by decide)]
  cases text with
  | nil => rfl
  | cons c text =>
      apply List.dropWhile_cons_of_neg
      intro hc
      exact h (congrArg some (of_decide_eq_true hc))

/-- A query with a tilde is not taken. -/
theorem consumePath_tilde {text : Bytes} (hstart : text.head? ≠ some (byte '/')) (h : byte '~' ∈ text)
    (path query : Bytes) (params : ParamMap) :
    consumePath (byte '/' :: text) path query params = (false, path, query, params) := by
  have hall : text.all isXChar = false := by
    rw [List.all_eq_false]
    exact ⟨byte '~', h, isXChar_tilde⟩
  rw [consumePath, dropWhile_one_slash hstart]
  dsimp only
  rw [hall]
  rfl

theorem tilde_mem_queryText {pairs : List (Bytes × Bytes)} {pair : Bytes × Bytes} (hpair : pair ∈ pairs)
    (h : byte '~' ∈ pair.1 ∨ byte '~' ∈ pair.2) : byte '~' ∈ queryText pairs := by
  have hmem : byte '~' ∈ pairText pair :=
    List.mem_append.mpr (h.imp_right (List.mem_cons_of_mem _))
  cases pairs with
  | nil => exact absurd hpair List.not_mem_nil
  | cons first pairs =>
      rw [queryText_cons]
      rcases List.mem_cons.mp hpair with rfl | hpair
      · exact List.mem_append_left _ hmem
      · exact List.mem_append_right _ (List.mem_flatMap.mpr ⟨pair, hpair, List.mem_cons_of_mem _ hmem⟩)

/-- No tilde is among the parameters. -/
def NoTilde (params : Params) : Prop := ∀ param ∈ params, byte '~' ∉ param.1 ∧ byte '~' ∉ param.2

/-- A path that comes back as it is. -/
structure PlainPath (path : Bytes) : Prop where
  all : ∀ c ∈ path, isXChar c ∧ c ≠ byte '?'
  start : path.head? ≠ some (byte '/')

/-- The parts of the URL of a request. -/
def requestParts {path : Bytes} (hpath : PlainPath path) {params : Params} (hkeys : ∀ param ∈ params, param.1 ≠ [])
    (h : NoTilde params) : Parts :=
  { localHost with
    path
    pairs := params.map escapedPair
    path_all := hpath.all
    path_start := hpath.start
    key_ne := by
      intro pair hpair
      obtain ⟨param, hparam, rfl⟩ := List.mem_map.mp hpair
      exact escaped_ne_nil (hkeys param hparam)
    key_all := by
      intro pair hpair c hc
      obtain ⟨param, hparam, rfl⟩ := List.mem_map.mp hpair
      exact ⟨isXChar_escaped (h param hparam).1 c hc, mem_escaped hc⟩
    value_all := by
      intro pair hpair c hc
      obtain ⟨param, hparam, rfl⟩ := List.mem_map.mp hpair
      exact ⟨isXChar_escaped (h param hparam).2 c hc, mem_escaped hc⟩ }

/-- The pairs for an escaped key. -/
theorem filter_escapedPair (params : Params) (key : Bytes) :
    (params.map escapedPair).filter (·.1 = escaped key) = (params.filter (·.1 = key)).map escapedPair := by
  rw [List.filter_map]
  congr 1
  apply List.filter_congr
  intro param _
  exact decide_eq_decide.mpr escaped_injective.eq_iff

/-- The parameters that the server keeps, by their escaped keys. -/
theorem lookup_escaped {params : Params} (h : Sorted params) (key : Bytes) :
    (insertAll ∅ (params.map escapedPair)).lookup (escaped key) = params.lookup key := by
  rw [lookup_insertAll, filter_escapedPair, List.getLast?_map, ← getLast?_filter (nodup_keys h) key]
  cases (params.filter (·.1 = key)).getLast? with
  | none => exact AList.lookup_empty _
  | some param => exact congrArg some (unescape_escaped_self param.2)

theorem escaped_of_lookup {params : Params} {key value : Bytes}
    (h : (insertAll ∅ (params.map escapedPair)).lookup key = some value) : ∃ name, key = escaped name := by
  rw [lookup_insertAll] at h
  cases hlast : ((params.map escapedPair).filter (·.1 = key)).getLast? with
  | none =>
      rw [hlast] at h
      exact absurd (h.symm.trans (AList.lookup_empty key)) (Option.some_ne_none _)
  | some pair =>
      obtain ⟨hpair, hkey⟩ := List.mem_filter.mp (List.mem_of_getLast? hlast)
      obtain ⟨param, -, rfl⟩ := List.mem_map.mp hpair
      exact ⟨param.1, (of_decide_eq_true hkey).symm⟩

/-- What the server makes of a query: all of it, or nothing. -/
structure ReadBack (u : URL) (path : Bytes) (params : Params) : Prop where
  valid_iff : u.valid = true ↔ NoTilde params
  path_eq : u.valid = true → u.path = path
  lookup : u.valid = true → ∀ key, u.params.lookup (escaped key) = params.lookup key
  only : u.valid = true → ∀ key value, u.params.lookup key = some value → ∃ name, key = escaped name
  nothing : u.valid = false → u.path = [] ∧ u.params = ∅

theorem readBack_of {path : Bytes} (hpath : PlainPath path) {params : Params} (hsorted : Sorted params)
    (hshort : Short params) (hkeys : ∀ param ∈ params, param.1 ≠ []) (hne : params ≠ []) (port : UInt32) :
    ReadBack (URL.new port (ascii "http://localhost" ++ byte '/' :: buildQuery params path)) path params := by
  obtain ⟨number, hnew⟩ := new_localHost port (buildQuery params path)
  rw [hnew, buildQuery_eq hne hshort]
  by_cases htilde : NoTilde params
  · have htail : byte '?' :: queryText (params.map escapedPair) = tailText (params.map escapedPair) :=
      (if_neg fun hnil => hne (List.map_eq_nil_iff.mp hnil)).symm
    have hread := consumePath_ok (requestParts hpath hkeys htilde) [] [] ∅
    rw [htail]
    change consumePath (byte '/' :: (path ++ tailText (params.map escapedPair))) [] [] ∅ = _ at hread
    rw [hread]
    exact {
      valid_iff := iff_of_true rfl htilde
      path_eq := fun _ => rfl
      lookup := fun _ => lookup_escaped hsorted
      only := fun _ _ _ => escaped_of_lookup
      nothing := fun h => absurd h Bool.true_eq_false.mp }
  · have hmem : byte '~' ∈ path ++ byte '?' :: queryText (params.map escapedPair) := by
      simp only [NoTilde, not_forall] at htilde
      obtain ⟨param, hparam, htilde⟩ := htilde
      apply List.mem_append_right
      apply List.mem_cons_of_mem
      apply tilde_mem_queryText (List.mem_map_of_mem hparam)
      rw [not_and_or, not_not, not_not] at htilde
      exact htilde.imp tilde_mem_escaped tilde_mem_escaped
    have hstart : (path ++ byte '?' :: queryText (params.map escapedPair)).head? ≠ some (byte '/') := by
      have hplain := hpath.start
      cases path with
      | nil => exact fun h => absurd (Option.some.inj h) (by decide)
      | cons c path => exact hplain
    rw [consumePath_tilde hstart hmem]
    exact {
      valid_iff := iff_of_false Bool.false_ne_true htilde
      path_eq := fun h => absurd h Bool.false_ne_true
      lookup := fun h => absurd h Bool.false_ne_true
      only := fun h => absurd h Bool.false_ne_true
      nothing := fun _ => ⟨rfl, rfl⟩ }

/-! ### The request -/

/-- The first line of a request for the query, and what comes behind it. -/
def requestText (path : Bytes) (params : Params) (more : Bytes) : Bytes :=
  ascii "GET" ++ byte ' ' :: (byte '/' :: buildQuery params path ++ byte ' ' :: (ascii "HTTP/1.1" ++
    [carriageReturn])) ++ newline :: more

/-- A character that is in no request line but where the words end. -/
theorem not_mem_query {path : Bytes} (hpath : PlainPath path) {params : Params} (hshort : Short params) (hne : params ≠ [])
    {c : UInt8} (hc : isXChar c = false) (htilde : c ≠ byte '~') : c ∉ byte '/' :: buildQuery params path := by
  have htext : ∀ param ∈ params, c ∉ pairText (escapedPair param) := by
    have hnot : ∀ text, c ∉ escaped text := by
      intro text hmem
      obtain ⟨d, -, hd⟩ := List.mem_flatMap.mp hmem
      rcases (mem_escapeOne hd).2.2 with hx | ⟨heq, -⟩
      · exact absurd (hx.symm.trans hc) Bool.true_eq_false.mp
      · exact htilde heq
    intro param _ hmem
    rcases List.mem_append.mp hmem with hmem | hmem
    · exact hnot _ hmem
    · rcases List.mem_cons.mp hmem with heq | hmem
      · rw [heq] at hc
        exact absurd hc (by decide)
      · exact hnot _ hmem
  have hquery : c ∉ queryText (params.map escapedPair) := by
    cases params with
    | nil => exact absurd rfl hne
    | cons param params =>
        rw [List.map_cons, queryText_cons, List.mem_append, not_or]
        refine ⟨htext param List.mem_cons_self, fun hmem => ?_⟩
        obtain ⟨pair, hpair, hmem⟩ := List.mem_flatMap.mp hmem
        obtain ⟨other, hother, rfl⟩ := List.mem_map.mp hpair
        rcases List.mem_cons.mp hmem with heq | hmem
        · rw [heq] at hc
          exact absurd hc (by decide)
        · exact htext other (List.mem_cons_of_mem _ hother) hmem
  rw [buildQuery_eq hne hshort, List.mem_cons, List.mem_append, List.mem_cons]
  rintro (heq | hmem | heq | hmem)
  · rw [heq] at hc
    exact absurd hc (by decide)
  · exact absurd ((hpath.all c hmem).1.symm.trans hc) Bool.true_eq_false.mp
  · rw [heq] at hc
    exact absurd hc (by decide)
  · exact hquery hmem

/-- The words of the first line. -/
theorem split_requestLine {path : Bytes} (hpath : PlainPath path) {params : Params} (hshort : Short params)
    (hne : params ≠ []) (more : Bytes) (hfits : (requestText path params more).length < 2 ^ 31) :
    split (requestLine (requestText path params more)) (byte ' ') =
      [ascii "GET", byte '/' :: buildQuery params path, ascii "HTTP/1.1" ++ [carriageReturn]] := by
  have hspace := not_mem_query hpath hshort hne (c := byte ' ') (by decide) (by decide)
  have hline := not_mem_query hpath hshort hne (c := newline) (by decide) (by decide)
  have hfront : newline ∉ ascii "GET" ++ byte ' ' :: (byte '/' :: buildQuery params path ++ byte ' ' ::
      (ascii "HTTP/1.1" ++ [carriageReturn])) := by
    intro hmem
    rcases List.mem_append.mp hmem with hmem | hmem
    · exact absurd hmem (by decide)
    rcases List.mem_cons.mp hmem with heq | hmem
    · exact absurd heq (by decide)
    rcases List.mem_append.mp hmem with hmem | hmem
    · exact hline hmem
    · exact absurd hmem (by decide)
  rw [requestText, List.length_append] at hfits
  rw [requestText, requestLine_eq hfront (by omega), split_cons (by decide) (by decide),
    split_cons hspace (List.cons_ne_nil _ _), split_last (by decide) (by decide)]

/-- What the server has of a request that came in one piece. -/
theorem read_requestText {path : Bytes} (hpath : PlainPath path) {params : Params} (hshort : Short params)
    (hne : params ≠ []) (port : UInt32) (more : Bytes) (hfits : (requestText path params more).length < 2 ^ 31) :
    (Request.new port).read (requestText path params more) =
      ⟨requestText path params more, true, true,
        URL.new port (ascii "http://localhost" ++ byte '/' :: buildQuery params path)⟩ := by
  have hcons : requestText path params more ≠ [] := List.cons_ne_nil _ _
  rw [Request.read, if_neg hcons]
  dsimp only [Request.new]
  rw [List.nil_append, if_neg (Nat.not_lt_zero _), Request.parseLine,
    split_requestLine hpath hshort hne more hfits]
  dsimp only
  rw [if_neg (fun h => h.1 rfl)]
  rfl

/-- **A request to a tracker on the web server is heard whole or not at all.** Where no tilde is among the parameters,
the handler of the path is called, and finds every parameter as the client has it and nothing else; where there is
one, `EscapeAndAppend` leaves it as it is, the server takes neither the path nor a parameter, and answers that there
is no such page. -/
theorem request_heard {path : Bytes} (hpath : PlainPath path) {params : Params} (hsorted : Sorted params)
    (hshort : Short params) (hkeys : ∀ param ∈ params, param.1 ≠ []) (hne : params ≠ []) (port : UInt32) (more : Bytes)
    (hfits : (requestText path params more).length < 2 ^ 31) {handlers : List Bytes} (hpage : path ∈ handlers)
    (hroot : [] ∉ handlers) :
    let request := (Request.new port).read (requestText path params more)
    ReadBack request.url path params ∧
      (NoTilde params → request.answer handlers = some (.handler path)) ∧
      (¬NoTilde params → request.answer handlers = some .notFound) := by
  intro request
  have hrequest : request = _ := read_requestText hpath hshort hne port more hfits
  have hback := readBack_of hpath hsorted hshort hkeys hne port
  rw [hrequest]
  refine ⟨hback, fun htilde => ?_, fun htilde => ?_⟩
  · have hurl := hback.path_eq (hback.valid_iff.mpr htilde)
    rw [Request.answer]
    dsimp only
    rw [hurl, List.contains_iff_mem.mpr hpage]
    rfl
  · have hinvalid := Bool.eq_false_iff.mpr fun h => htilde (hback.valid_iff.mp h)
    rw [Request.answer]
    dsimp only
    rw [(hback.nothing hinvalid).1]
    have hnone : handlers.contains [] = false := Bool.eq_false_iff.mpr fun h => hroot (List.contains_iff_mem.mp h)
    rw [hnone]
    rfl

/-- Two parameters, with a space in one of them. -/
theorem request_heard_space :
    let params : Params := [(ascii "event", ascii "start"), (ascii "key", ascii "1 2")]
    let request := (Request.new 0).read (requestText (ascii "announce") params [])
    request.url.params.lookup (ascii "key") = some (ascii "1 2") ∧
      request.answer [ascii "announce"] = some (.handler (ascii "announce")) := by
  intro params request
  have htilde : NoTilde params := by
    intro param hparam
    rcases List.mem_cons.mp hparam with rfl | hparam
    · decide
    · rw [List.mem_singleton.mp hparam]
      decide
  have hpath : PlainPath (ascii "announce") := ⟨forall_of_all (by decide), by decide⟩
  have hsorted : Sorted params := List.pairwise_pair.mpr (by decide)
  have hshort : Short params := List.forall_mem_cons.mpr ⟨by decide, List.forall_mem_singleton.mpr (by decide)⟩
  have hlength : (requestText (ascii "announce") params []).length = 46 := rfl
  obtain ⟨hback, hanswer, -⟩ := request_heard hpath hsorted hshort (by decide) (by decide) 0 [] (by omega)
    (List.mem_singleton_self (ascii "announce")) (by decide)
  have hkey : escaped (ascii "key") = ascii "key" := rfl
  have hvalue : params.lookup (ascii "key") = some (ascii "1 2") := rfl
  refine ⟨?_, hanswer htilde⟩
  rw [← hvalue, ← hback.lookup (hback.valid_iff.mpr htilde), hkey]

end Thebends.Ypeer
