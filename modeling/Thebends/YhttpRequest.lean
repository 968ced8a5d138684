import Thebends.YhttpReuse

/-! Reading a request (`httpserver.cpp`, `reader.cpp`). The position that `find` returns is unsigned and is never below
zero, so that a request is ready after its first read, whatever has arrived. -/

namespace Thebends.Yhttp

open LibAscii LibMap

abbrev newline : UInt8 := 10

abbrev carriageReturn : UInt8 := 13

/-- `npos`. -/
def npos : Nat := 2 ^ 64 - 1

/-- `find`. -/
def find (text pattern : Bytes) : Nat :=
  ((List.range (text.length + 1)).find? fun pos => pattern.isPrefixOf (text.drop pos)).getD npos

/-- `substr(0, pos)`, of a position that is converted back to a `size_t`. -/
def upTo (text : Bytes) (pos : Int) : Bytes := text.take (pos % 2 ^ 64).toNat

/-- What `Request` keeps of a request. -/
structure Request where
  input : Bytes
  ready : Bool
  valid : Bool
  url : URL

def Request.new (port : UInt32) : Request := ⟨[], false, true, .blank port⟩

/-- The line of the request. -/
def requestLine (input : Bytes) : Bytes := upTo input (sizeToInt (find input [newline]))

/-- What `Read` does with the line of the request. -/
def Request.parseLine (r : Request) (line : Bytes) : Request :=
  match split line (byte ' ') with
  | [method, path, protocol] =>
      if method ≠ ascii "GET" ∧ find protocol (ascii "HTTP/") ≠ 0 then { r with valid := false }
      else { r with url := r.url.parse (ascii "http://localhost" ++ path) }
  | _ => { r with valid := false }

/-- `Request::Read`, where `read` delivers some bytes, or none at the end of the stream. -/
def Request.read (r : Request) (chunk : Bytes) : Request :=
  if chunk = [] then { r with ready := true, valid := false }
  else
    let r := { r with input := r.input ++ chunk }
    if find r.input ([newline, newline]) < 0 then r
    else { r with ready := true }.parseLine (requestLine r.input)

/-- How the server answers. -/
inductive Answer
  | error
  | notFound
  | handler (path : Bytes)

/-- The rest of `HTTPServer::Read`, after `Request::Read`. -/
def Request.answer (handlers : List Bytes) (r : Request) : Option Answer :=
  if !r.valid then some .error
  else if !r.ready then none
  else if handlers.contains r.url.path then some (.handler r.url.path)
  else some .notFound

/-- Reads one after the other. -/
def Request.readAll (r : Request) (chunks : List Bytes) : Request := chunks.foldl Request.read r

/-- An empty line has arrived. -/
def HeaderArrived (input : Bytes) : Prop := [newline, newline] <:+: input ∨ [newline, carriageReturn, newline] <:+: input

/-- A text ends with an empty line. -/
def EndsEmpty (text : Bytes) : Prop := [newline, newline] <:+ text ∨ [newline, carriageReturn, newline] <:+ text

/-- The cuts of a text make no difference: it is not ready and is not answered before its header has arrived, and in the
end all is as if it had come in one piece. -/
structure CutSafely (handlers : List Bytes) (port : UInt32) (chunks : List Bytes) : Prop where
  waits : ∀ count ≤ chunks.length, ((Request.new port).readAll (chunks.take count)).ready = true →
    HeaderArrived (chunks.take count).flatten
  silent : ∀ count ≤ chunks.length, (((Request.new port).readAll (chunks.take count)).answer handlers).isSome →
    HeaderArrived (chunks.take count).flatten
  ready : ((Request.new port).readAll chunks).ready = true
  valid : ((Request.new port).readAll chunks).valid = ((Request.new port).read chunks.flatten).valid
  url : SameUrl ((Request.new port).readAll chunks).url ((Request.new port).read chunks.flatten).url

/-! ### The line of the request -/

theorem find_newline {front : Bytes} (h : newline ∉ front) (rest : Bytes) :
    find (front ++ newline :: rest) [newline] = front.length := by
  rw [find, Option.getD_eq_iff]
  refine .inl (List.find?_range_eq_some.mpr ⟨?_, ?_, fun pos hpos => ?_⟩)
  · rw [List.drop_left]
    rfl
  · rw [List.mem_range, List.length_append]
    omega
  · rw [List.drop_append_of_le_length hpos.le, List.drop_eq_getElem_cons hpos, List.cons_append]
    have hne : newline ≠ front[pos] := fun heq => h (heq ▸ List.getElem_mem hpos)
    simpa [List.isPrefixOf] using hne

theorem requestLine_eq {front : Bytes} (h : newline ∉ front) (hlength : front.length < 2 ^ 31) (rest : Bytes) :
    requestLine (front ++ newline :: rest) = front := by
  have hint : sizeToInt front.length = front.length := Int.bmod_eq_of_le (by omega) (by omega)
  have hback : ((front.length : Int) % 2 ^ 64).toNat = front.length := by
    rw [Int.emod_eq_of_lt (by omega) (by omega), Int.toNat_natCast]
  rw [requestLine, find_newline h, hint, upTo, hback, List.take_left]

/-- What comes later does not change the line. -/
theorem requestLine_append {first : Bytes} (h : newline ∈ first) (hlength : first.length < 2 ^ 31) (more : Bytes) :
    requestLine (first ++ more) = requestLine first := by
  obtain ⟨front, rest, rfl, hfront⟩ := List.eq_append_cons_of_mem h
  rw [List.length_append] at hlength
  rw [List.append_assoc, List.cons_append, requestLine_eq hfront (by omega), requestLine_eq hfront (by omega)]

theorem newline_mem {input : Bytes} (h : HeaderArrived input) : newline ∈ input := by
  rcases h with h | h
  · exact h.subset List.mem_cons_self
  · exact h.subset List.mem_cons_self

theorem HeaderArrived.append {input : Bytes} (h : HeaderArrived input) (more : Bytes) : HeaderArrived (input ++ more) :=
  h.imp List.infix_append_of_infix_left List.infix_append_of_infix_left

/-! ### One read -/

/-- A line is refused, or it is good for a URL. -/
theorem parseLine_cases (line : Bytes) :
    (∀ r : Request, r.parseLine line = { r with valid := false }) ∨
      ∃ url, ∀ r : Request, r.parseLine line = { r with url := r.url.parse url } := by
  simp only [Request.parseLine]
  rcases split line (byte ' ') with _ | ⟨method, _ | ⟨path, _ | ⟨protocol, _ | ⟨extra, more⟩⟩⟩⟩
  · exact .inl fun _ => rfl
  · exact .inl fun _ => rfl
  · exact .inl fun _ => rfl
  · by_cases hformat : method ≠ ascii "GET" ∧ find protocol (ascii "HTTP/") ≠ 0
    · exact .inl fun _ => if_pos hformat
    · exact .inr ⟨_, fun _ => if_neg hformat⟩
  · exact .inl fun _ => rfl

/-- A read takes its bytes to the others, is ready, and parses the line. -/
theorem read_eq {chunk : Bytes} (h : chunk ≠ []) (r : Request) :
    r.read chunk = { r.parseLine (requestLine (r.input ++ chunk)) with input := r.input ++ chunk, ready := true } := by
  rw [Request.read, if_neg h]
  dsimp only
  rw [if_neg (Nat.not_lt_zero _)]
  generalize requestLine (r.input ++ chunk) = line
  rcases parseLine_cases line with hrefused | ⟨url, hgood⟩
  · rw [hrefused, hrefused]
  · rw [hgood, hgood]

/-- A string that is parsed again. -/
theorem SameUrl.again {u : URL} {port : UInt32} {url : Bytes} (h : SameUrl u ((URL.blank port).parse url)) :
    SameUrl (u.parse url) ((URL.blank port).parse url) := by
  refine sameUrl_parse fun key hkey => (h.params key).trans ?_
  rw [params_parse, lookup_consumeParams_of_not_mem hkey]

/-- Two requests agree in their validity and their URL. -/
structure Agrees (r one : Request) : Prop where
  valid : r.valid = one.valid
  url : SameUrl r.url one.url

/-- What has arrived does not matter. -/
theorem Agrees.stored (one : Request) (input : Bytes) (ready : Bool) :
    Agrees one { one with input := input, ready := ready } :=
  ⟨rfl, rfl, rfl, rfl, rfl, rfl, rfl, rfl, rfl, fun _ => rfl⟩

/-- A line that is parsed again. -/
theorem Agrees.again {r : Request} {port : UInt32} {line : Bytes} (h : Agrees r ((Request.new port).parseLine line)) :
    Agrees (r.parseLine line) ((Request.new port).parseLine line) := by
  rcases parseLine_cases line with hrefused | ⟨url, hgood⟩
  · rw [hrefused] at h ⊢
    rw [hrefused]
    exact ⟨rfl, h.url⟩
  · rw [hgood] at h ⊢
    rw [hgood]
    exact ⟨h.valid, h.url.again⟩

/-! ### Many reads -/

/-- After the first read all has come to what it will be, if the line of the request was in it. -/
theorem readAll_agrees {port : UInt32} {first : Bytes} {line : Bytes} (hne : first ≠ [])
    (hline : ∀ more, requestLine (first ++ more) = line) {chunks : List Bytes} (h : ∀ chunk ∈ chunks, chunk ≠ []) :
    ((Request.new port).readAll (first :: chunks)).input = first ++ chunks.flatten ∧
      ((Request.new port).readAll (first :: chunks)).ready = true ∧
      Agrees ((Request.new port).readAll (first :: chunks)) ((Request.new port).parseLine line) := by
  induction chunks using List.reverseRecOn with
  | nil =>
      have hfirst := hline []
      rw [List.append_nil] at hfirst
      have hread := read_eq hne (Request.new port)
      have hinput : (Request.new port).input ++ first = first := rfl
      rw [hinput, hfirst] at hread
      rw [Request.readAll, List.foldl_cons, List.foldl_nil, hread]
      generalize (Request.new port).parseLine line = one
      exact ⟨(List.append_nil first).symm, rfl, rfl, rfl, rfl, rfl, rfl, rfl, rfl, rfl, rfl, fun _ => rfl⟩
  | append_singleton chunks chunk ih =>
      obtain ⟨hinput, -, hagrees⟩ := ih fun other hother => h other (List.mem_append_left _ hother)
      have hchunk : chunk ≠ [] := h chunk (List.mem_append_right _ List.mem_cons_self)
      have hread := read_eq hchunk ((Request.new port).readAll (first :: chunks))
      rw [hinput, List.append_assoc, hline] at hread
      have hstep : (Request.new port).readAll (first :: (chunks ++ [chunk])) =
          ((Request.new port).readAll (first :: chunks)).read chunk := by
        rw [Request.readAll, ← List.cons_append, List.foldl_append]
        rfl
      rw [hstep, hread, List.flatten_append, List.flatten_singleton]
      exact ⟨rfl, rfl, hagrees.again.valid, hagrees.again.url⟩

section

variable {handlers : List Bytes} {port : UInt32} {chunks : List Bytes}

theorem exists_first (h : EndsEmpty chunks.flatten) : ∃ first rest, chunks = first :: rest := by
  cases chunks with
  | nil => exact absurd h (by rintro (h | h) <;> exact List.cons_ne_nil _ _ (List.suffix_nil.mp h))
  | cons first rest => exact ⟨first, rest, rfl⟩

/-- The first read is ready, whatever it has brought. -/
theorem CutSafely.arrived {first : Bytes} {rest : List Bytes} (h : CutSafely handlers port (first :: rest))
    (hne : first ≠ []) : HeaderArrived first := by
  have hready : ((Request.new port).readAll ((first :: rest).take 1)).ready = true := by
    rw [List.take_succ_cons, List.take_zero, Request.readAll, List.foldl_cons, List.foldl_nil, read_eq hne]
  have harrived := h.waits 1 (Nat.succ_le_succ (Nat.zero_le _)) hready
  rwa [List.take_succ_cons, List.take_zero, List.flatten_singleton] at harrived

/-- Where the first read has brought the header, the others make no difference. -/
theorem cutSafely_of_arrived {first : Bytes} {rest : List Bytes} (hfirst : HeaderArrived first)
    (hlength : first.length < 2 ^ 31) (hne : ∀ chunk ∈ first :: rest, chunk ≠ []) :
    CutSafely handlers port (first :: rest) := by
  have hfirst' : first ≠ [] := hne first List.mem_cons_self
  have hline : ∀ more, requestLine (first ++ more) = requestLine first :=
    requestLine_append (newline_mem hfirst) hlength
  have hrest : ∀ chunk ∈ rest, chunk ≠ [] := fun chunk hchunk => hne chunk (List.mem_cons_of_mem _ hchunk)
  obtain ⟨-, hready, hagrees⟩ : _ ∧ _ ∧ Agrees ((Request.new port).readAll (first :: rest)) _ :=
    readAll_agrees hfirst' hline hrest
  have hone : Agrees ((Request.new port).parseLine (requestLine first))
      ((Request.new port).read (first :: rest).flatten) := by
    have hflatten : (first :: rest).flatten ≠ [] := by simp [hfirst']
    have hinput : (Request.new port).input ++ (first :: rest).flatten = first ++ rest.flatten := rfl
    have hread := read_eq hflatten (Request.new port)
    rw [hinput, hline] at hread
    rw [hread]
    exact .stored ((Request.new port).parseLine (requestLine first)) _ _
  have hprefix : ∀ count, HeaderArrived ((first :: rest).take (count + 1)).flatten := by
    intro count
    rw [List.take_succ_cons, List.flatten_cons]
    exact hfirst.append _
  refine ⟨fun count _ h => ?_, fun count _ h => ?_, hready, hagrees.valid.trans hone.valid, ?_⟩
  · cases count with
    | zero => exact absurd h Bool.false_ne_true
    | succ count => exact hprefix count
  · cases count with
    | zero => exact absurd h Bool.false_ne_true
    | succ count => exact hprefix count
  · exact hagrees.url.trans hone.url

end

/-- **When the cuts of a request make no difference**: just where its whole header comes with the first read. -/
theorem cutSafely_iff (handlers : List Bytes) (port : UInt32) (bufsiz : Nat) (chunks : List Bytes)
    (hbufsiz : bufsiz < 2 ^ 31) (hchunks : ∀ chunk ∈ chunks, chunk ≠ [] ∧ chunk.length ≤ bufsiz)
    (hends : EndsEmpty chunks.flatten) :
    CutSafely handlers port chunks ↔ ∀ first, chunks.head? = some first → HeaderArrived first := by
  obtain ⟨first, rest, rfl⟩ := exists_first hends
  obtain ⟨hne, hlength⟩ := hchunks first List.mem_cons_self
  constructor
  · intro h first' hfirst'
    exact Option.some.inj hfirst' ▸ h.arrived hne
  · intro h
    exact cutSafely_of_arrived (h first rfl) (by omega) fun chunk hchunk => (hchunks chunk hchunk).1

/-- A request whose line is cut in the middle of its protocol. -/
def cutLine : List Bytes := [ascii "GET / HT", ascii "TP/1.0" ++ [newline, newline]]

theorem cutLine_not_safe : EndsEmpty cutLine.flatten ∧ ¬CutSafely [] 0 cutLine := by
  refine ⟨.inl ⟨ascii "GET / HTTP/1.0", by decide⟩, fun h => ?_⟩
  have harrived : HeaderArrived (ascii "GET / HT") := h.arrived (by decide)
  exact absurd (newline_mem harrived) (by decide)

/-- A request that comes in two reads, with an empty line in the first. -/
theorem wholeHeader_safe :
    CutSafely [ascii "stat"] 0 [ascii "GET /stat HTTP/1.0" ++ [newline, newline], [newline, newline]] :=
  (cutSafely_iff [ascii "stat"] 0 1024 [ascii "GET /stat HTTP/1.0" ++ [newline, newline], [newline, newline]] (by decide)
    (by decide) (.inl ⟨ascii "GET /stat HTTP/1.0" ++ [newline, newline], by decide⟩)).mpr
      fun _ hfirst => Option.some.inj hfirst ▸ .inl ⟨ascii "GET /stat HTTP/1.0", [], by decide⟩

end Thebends.Yhttp
