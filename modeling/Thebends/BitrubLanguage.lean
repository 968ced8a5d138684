import Mathlib.Data.Int.Interval
import Thebends.BitrubRoundTrip

/-! The strings that the decoder accepts, and those on which it does not come to an end. A number is looked for by
the byte behind it, and all that is looked at of it are its first bytes; the key of a hash may begin with any byte
but an `e`, and where its length is below zero, its value is looked for before the key. -/

namespace Thebends.Bitrub

open LibDecimal LibExcept LibLoop Relation

/-! ### The grammar -/

/-- From behind its `i` on, an integer is anything up to the next `e` but nothing, a minus with a zero behind it, or
a zero with something behind it. -/
structure IntegerText (x : Bytes) (f newf : Int) : Prop where
  finds : index x (byte 'e') f = some newf
  nonempty : newf ≠ f
  minus : byteAt x f = some (byte '-') → ∃ c, byteAt x (f + 1) = some c ∧ c ≠ byte '0'
  zero : byteAt x f = some (byte '0') → newf = f + 1

/-- The length of a string is anything up to the next colon but a zero with something behind it. -/
structure LengthText (x : Bytes) (f colon : Int) : Prop where
  finds : index x (byte ':') f = some colon
  zero : byteAt x f = some (byte '0') → colon = f + 1

/-- The position behind a string with its length from `f` up to the colon. -/
def behind (x : Bytes) (f colon : Int) : Int := colon + 1 + toI (slice x f colon)

/-- The two loops. -/
inductive Loop
  | items
  | entries
  deriving DecidableEq, Repr

def Loop.opener : Loop → UInt8
  | .items => byte 'l'
  | .entries => byte 'd'

/-- Where a turn of a loop from `f` on looks for its value. -/
inductive Before (x : Bytes) : Loop → Int → Int → Prop
  | item (f : Int) : Before x .items f f
  | entry {f colon : Int} : LengthText x f colon → Before x .entries f (behind x f colon)

/-- What stands at a position: a value, or the rest of a loop up to its `e`. -/
inductive Part
  | value
  | rest (loop : Loop)

/-- `Reads x part f g`: the part stands at `f` and ends before `g`; a rest ends before its `e`. -/
inductive Reads (x : Bytes) : Part → Int → Int → Prop
  | integer {f newf : Int} : byteAt x f = some (byte 'i') → IntegerText x (f + 1) newf → Reads x .value f (newf + 1)
  | string {f colon : Int} {c : UInt8} : byteAt x f = some c → isDigit c → LengthText x f colon →
      Reads x .value f (behind x f colon)
  | container (loop : Loop) {f g : Int} : byteAt x f = some loop.opener → Reads x (.rest loop) (f + 1) g →
      Reads x .value f (g + 1)
  | done {loop : Loop} {f : Int} : byteAt x f = some (byte 'e') → Reads x (.rest loop) f f
  | turn {loop : Loop} {f start g h : Int} {c : UInt8} : byteAt x f = some c → c ≠ byte 'e' → Before x loop f start →
      Reads x .value start g → Reads x (.rest loop) g h → Reads x (.rest loop) f h

/-- One turn of a loop leads from `f` to `g`. -/
def Turn (x : Bytes) (loop : Loop) (f g : Int) : Prop :=
  ∃ c start, byteAt x f = some c ∧ c ≠ byte 'e' ∧ Before x loop f start ∧ Reads x .value start g

/-- The positions that decoding comes to, one after the other. -/
inductive Comes (x : Bytes) : Part → Int → Prop
  | start : Comes x .value 0
  | inside {loop : Loop} {f : Int} : Comes x .value f → byteAt x f = some loop.opener → Comes x (.rest loop) (f + 1)
  | value {loop : Loop} {f start : Int} {c : UInt8} : Comes x (.rest loop) f → byteAt x f = some c → c ≠ byte 'e' →
      Before x loop f start → Comes x .value start
  | turn {loop : Loop} {f g : Int} : Comes x (.rest loop) f → Turn x loop f g → Comes x (.rest loop) g

/-- A loop comes back to a position where it has been. -/
def Endless (x : Bytes) : Prop := ∃ loop f, Comes x (.rest loop) f ∧ TransGen (Turn x loop) f f

/-! ### The decoders follow the grammar -/

theorem chr_finished (x : Bytes) (f : Int) : Finished .unfinished (chr x f) := by
  rw [chr]
  cases byteAt x f with
  | none => exact .error (by decide)
  | some c => exact .ok _ _

/-- Where a byte is found, there is a byte to start from. -/
theorem byteAt_of_index {x : Bytes} {c : UInt8} {f found : Int} (h : index x c f = some found) :
    ∃ d, byteAt x f = some d := by
  rw [index] at h
  split at h
  case isTrue => cases h
  case isFalse hplace =>
      obtain ⟨count, hcount, -⟩ := Option.map_eq_some_iff.mp h
      have hmem : c ∈ x.drop (place x f).toNat := by
        by_contra hnot
        rw [List.idxOf?_eq_none_iff.mpr hnot] at hcount
        cases hcount
      have hlt : (place x f).toNat < x.length := by
        have hpos := List.length_pos_of_mem hmem
        rw [List.length_drop] at hpos
        omega
      exact ⟨x[(place x f).toNat], by rw [byteAt, if_neg hplace, List.getElem?_eq_getElem hlt]⟩

/-- An integer is accepted just where its text is. -/
theorem decodeInt_eq_ok_iff {x : Bytes} {f g : Int} :
    (∃ value, decodeInt x f = .ok (value, g)) ↔ ∃ newf, IntegerText x (f + 1) newf ∧ g = newf + 1 := by
  constructor
  · rintro ⟨value, h⟩
    rw [decodeInt] at h
    split at h
    case h_1 => cases h
    case h_2 newf hfinds =>
        split at h
        case isTrue => cases h
        case isFalse hne =>
            obtain ⟨c, hc, h⟩ := bind_eq_ok h
            rw [chr_eq_ok_iff] at hc
            split at h
            case isTrue hminus =>
                subst hminus
                obtain ⟨d, hd, h⟩ := bind_eq_ok h
                rw [chr_eq_ok_iff] at hd
                split at h
                case isTrue => cases h
                case isFalse hzero =>
                    cases h
                    refine ⟨newf, ⟨hfinds, hne, fun _ => ⟨d, hd, hzero⟩, fun h => ?_⟩, rfl⟩
                    rw [hc] at h
                    exact absurd (Option.some.inj h) (by decide)
            case isFalse hplus =>
                split at h
                case isTrue => cases h
                case isFalse hzero =>
                    cases h
                    refine ⟨newf, ⟨hfinds, hne, fun h => ?_, fun h => ?_⟩, rfl⟩
                    · rw [hc] at h
                      exact absurd (Option.some.inj h) hplus
                    · rw [hc] at h
                      by_contra hlong
                      exact hzero ⟨Option.some.inj h, hlong⟩
  · rintro ⟨newf, ⟨hfinds, hne, hminus, hzero⟩, rfl⟩
    obtain ⟨c, hc⟩ := byteAt_of_index hfinds
    rw [decodeInt, hfinds]
    dsimp only
    rw [if_neg hne, chr_eq_ok_iff.mpr hc, ok_bind]
    split
    case isTrue hsign =>
        subst hsign
        obtain ⟨d, hd, hdigit⟩ := hminus hc
        rw [chr_eq_ok_iff.mpr hd, ok_bind, if_neg hdigit]
        exact ⟨_, rfl⟩
    case isFalse =>
        rw [if_neg fun hlong => hlong.2 (hzero (hlong.1 ▸ hc))]
        exact ⟨_, rfl⟩

/-- A string is accepted just where its length is. -/
theorem decodeString_eq_ok_iff {x : Bytes} {f start : Int} :
    (∃ key, decodeString x f = .ok (key, start)) ↔ ∃ colon, LengthText x f colon ∧ start = behind x f colon := by
  constructor
  · rintro ⟨key, h⟩
    rw [decodeString] at h
    split at h
    case h_1 => cases h
    case h_2 colon hfinds =>
        obtain ⟨c, hc, h⟩ := bind_eq_ok h
        rw [chr_eq_ok_iff] at hc
        split at h
        case isTrue => cases h
        case isFalse hzero =>
            cases h
            refine ⟨colon, ⟨hfinds, fun h => ?_⟩, rfl⟩
            rw [hc] at h
            by_contra hlong
            exact hzero ⟨Option.some.inj h, hlong⟩
  · rintro ⟨colon, ⟨hfinds, hzero⟩, rfl⟩
    obtain ⟨c, hc⟩ := byteAt_of_index hfinds
    rw [decodeString, hfinds]
    dsimp only
    rw [chr_eq_ok_iff.mpr hc, ok_bind, if_neg fun hlong => hlong.2 (hzero (hlong.1 ▸ hc))]
    exact ⟨_, rfl⟩

theorem decodeInt_finished (x : Bytes) (f : Int) : Finished .unfinished (decodeInt x f) := by
  rw [decodeInt]
  split
  case h_1 => exact .error (by decide)
  case h_2 =>
      split
      case isTrue => exact .error (by decide)
      case isFalse =>
          refine .bind (chr_finished x _) fun c _ => ?_
          split
          case isTrue =>
              refine .bind (chr_finished x _) fun d _ => ?_
              split
              · exact .error (by decide)
              · exact .ok _ _
          case isFalse =>
              split
              · exact .error (by decide)
              · exact .ok _ _

theorem decodeString_finished (x : Bytes) (f : Int) : Finished .unfinished (decodeString x f) := by
  rw [decodeString]
  split
  case h_1 => exact .error (by decide)
  case h_2 =>
      refine .bind (chr_finished x _) fun c _ => ?_
      split
      · exact .error (by decide)
      · exact .ok _ _

/-- What comes before a value in a turn of a loop. -/
structure Implements {κ : Type} (x : Bytes) (loop : Loop) (before : Int → Except Failure (κ × Int)) : Prop where
  starts : ∀ f start, (∃ key, before f = .ok (key, start)) ↔ Before x loop f start
  finishes : ∀ f, Finished .unfinished (before f)

theorem implements_items (x : Bytes) : Implements x .items fun f => .ok ((), f) where
  starts f start := by
    constructor
    · rintro ⟨key, h⟩
      cases h
      exact .item f
    · rintro ⟨⟩
      exact ⟨(), rfl⟩
  finishes _ := .ok _ _

theorem implements_entries (x : Bytes) : Implements x .entries (decodeString x) where
  starts f start := by
    rw [decodeString_eq_ok_iff]
    constructor
    · rintro ⟨colon, hlength, rfl⟩
      exact .entry hlength
    · rintro ⟨⟩
      exact ⟨_, ‹_›, rfl⟩
  finishes := decodeString_finished x

section Loops

variable {κ α : Type} {x : Bytes} {loop : Loop} {before : Int → Except Failure (κ × Int)} {add : α → κ → Value → α}
  {decode : Int → Except Failure (Value × Int)}

theorem readUntilE_done (turns : Nat) (r : α) {f : Int} (h : byteAt x f = some (byte 'e')) :
    readUntilE decode before add x (turns + 1) r f = .ok (r, f) := by
  rw [readUntilE, chr_eq_ok_iff.mpr h, ok_bind, if_pos rfl]

/-- One turn, as far as the value. -/
theorem readUntilE_turn (turns : Nat) (r : α) {f start : Int} {c : UInt8} {key : κ} (hc : byteAt x f = some c)
    (hne : c ≠ byte 'e') (hbefore : before f = .ok (key, start)) :
    readUntilE decode before add x (turns + 1) r f = (do
      let (value, num) ← decode start
      readUntilE decode before add x turns (add r key value) num) := by
  rw [readUntilE, chr_eq_ok_iff.mpr hc, ok_bind, if_neg hne, hbefore, ok_bind]

/-- A loop that ends has read the rest of what it is in. -/
theorem reads_of_readUntilE (h : Implements x loop before)
    (hdecode : ∀ f value g, decode f = .ok (value, g) → Reads x .value f g) {turns : Nat} {r r' : α} {f g : Int}
    (hread : readUntilE decode before add x turns r f = .ok (r', g)) : Reads x (.rest loop) f g := by
  induction turns generalizing r f with
  | zero => cases hread
  | succ turns ih =>
      rw [readUntilE] at hread
      obtain ⟨c, hc, hread⟩ := bind_eq_ok hread
      rw [chr_eq_ok_iff] at hc
      split at hread
      case isTrue hend =>
          cases hread
          exact .done (hend ▸ hc)
      case isFalse hne =>
          obtain ⟨⟨key, start⟩, hbefore, hread⟩ := bind_eq_ok hread
          obtain ⟨⟨value, next⟩, hvalue, hread⟩ := bind_eq_ok hread
          exact .turn hc hne ((h.starts f start).mp ⟨key, hbefore⟩) (hdecode _ _ _ hvalue) (ih hread)

end Loops

/-- A container is decoded by its loop. -/
theorem decode_container (x : Bytes) (loop : Loop) :
    ∃ (κ α : Type) (before : Int → Except Failure (κ × Int)) (add : α → κ → Value → α) (r : α) (make : α → Value),
      Implements x loop before ∧ ∀ f turns levels, byteAt x f = some loop.opener →
        decode x turns (levels + 1) f = (do
          let (r, f) ← readUntilE (decode x turns levels) before add x turns r (f + 1)
          .ok (make r, f + 1)) := by
  cases loop with
  | items => exact ⟨_, _, _, _, [], .list, implements_items x, fun f turns levels h => decode_list h turns levels⟩
  | entries => exact ⟨_, _, _, _, [], .hash, implements_entries x, fun f turns levels h => decode_hash h turns levels⟩

/-- **What is decoded is in the grammar.** -/
theorem reads_of_decode {x : Bytes} {turns levels : Nat} {f g : Int} {value : Value}
    (h : decode x turns levels f = .ok (value, g)) : Reads x .value f g := by
  induction levels generalizing f g value with
  | zero => cases h
  | succ levels ih =>
      have hinner : ∀ f value g, decode x turns levels f = .ok (value, g) → Reads x .value f g := fun _ _ _ h => ih h
      rw [decode] at h
      obtain ⟨c, hc, h⟩ := bind_eq_ok h
      rw [chr_eq_ok_iff] at hc
      split_ifs at h with hl hd hi hdigit
      · subst hl
        obtain ⟨⟨r, last⟩, hitems, h⟩ := bind_eq_ok h
        cases h
        exact .container .items hc (reads_of_readUntilE (implements_items x) hinner hitems)
      · subst hd
        obtain ⟨⟨r, last⟩, hentries, h⟩ := bind_eq_ok h
        cases h
        exact .container .entries hc (reads_of_readUntilE (implements_entries x) hinner hentries)
      · subst hi
        obtain ⟨newf, htext, rfl⟩ := decodeInt_eq_ok_iff.mp ⟨value, h⟩
        exact .integer hc htext
      · obtain ⟨⟨key, last⟩, hstring, h⟩ := bind_eq_ok h
        cases h
        obtain ⟨colon, hlength, rfl⟩ := decodeString_eq_ok_iff.mp ⟨key, hstring⟩
        exact .string hc hdigit hlength

/-! ### The grammar is decoded -/

/-- With enough room and turns, a part is read to its end. -/
def Runs (x : Bytes) : Part → Int → Int → Prop
  | .value, f, g => ∃ least value, ∀ turns levels, least ≤ turns → least ≤ levels →
      decode x turns levels f = .ok (value, g)
  | .rest loop, f, g => ∀ {κ α : Type} (before : Int → Except Failure (κ × Int)) (add : α → κ → Value → α),
      Implements x loop before → ∃ least, ∀ r, ∃ r', ∀ room levels turns, least ≤ room → least ≤ levels →
        least ≤ turns → readUntilE (decode x room levels) before add x turns r f = .ok (r', g)

/-- **What is in the grammar is decoded.** -/
theorem runs_of_reads {x : Bytes} {part : Part} {f g : Int} (h : Reads x part f g) : Runs x part f g := by
  induction h with
  | integer hc htext =>
      obtain ⟨value, hvalue⟩ := decodeInt_eq_ok_iff.mpr ⟨_, htext, rfl⟩
      refine ⟨1, value, fun turns levels _ hlevels => ?_⟩
      obtain ⟨levels, rfl⟩ := Nat.exists_eq_add_one.mpr hlevels
      rw [decode, chr_eq_ok_iff.mpr hc, ok_bind, if_neg (by decide), if_neg (by decide), if_pos rfl, hvalue]
  | string hc hdigit hlength =>
      obtain ⟨key, hkey⟩ := decodeString_eq_ok_iff.mpr ⟨_, hlength, rfl⟩
      refine ⟨1, .string key, fun turns levels _ hlevels => ?_⟩
      obtain ⟨levels, rfl⟩ := Nat.exists_eq_add_one.mpr hlevels
      have hne : ∀ d, ¬isDigit d → _ ≠ d := fun d hd heq => hd (heq ▸ hdigit)
      rw [decode, chr_eq_ok_iff.mpr hc, ok_bind, if_neg (hne _ (by decide)), if_neg (hne _ (by decide)),
        if_neg (hne _ (by decide)), if_pos hdigit, hkey]
      rfl
  | container loop hc _ ih =>
      obtain ⟨κ, α, before, add, empty, make, himplements, hdecode⟩ := decode_container x loop
      obtain ⟨least, hall⟩ := ih before add himplements
      obtain ⟨r, hread⟩ := hall empty
      refine ⟨least + 1, make r, fun turns levels hturns hlevels => ?_⟩
      obtain ⟨levels, rfl⟩ := Nat.exists_eq_add_one.mpr (Nat.lt_of_lt_of_le (Nat.succ_pos _) hlevels)
      rw [hdecode _ turns levels hc]
      exact bind_ok (hread turns levels turns (by omega) (by omega) (by omega)) rfl
  | done hc =>
      intro κ α before add _
      refine ⟨1, fun r => ⟨r, fun room levels turns _ _ hturns => ?_⟩⟩
      obtain ⟨turns, rfl⟩ := Nat.exists_eq_add_one.mpr hturns
      exact readUntilE_done turns r hc
  | turn hc hne hstart _ _ hvalue hrest =>
      intro κ α before add himplements
      obtain ⟨key, hkey⟩ := (himplements.starts _ _).mpr hstart
      obtain ⟨leastValue, value, hvalue⟩ := hvalue
      obtain ⟨leastRest, hrest⟩ := hrest before add himplements
      refine ⟨max leastValue leastRest + 1, fun r => ?_⟩
      obtain ⟨r', hrest⟩ := hrest (add r key value)
      refine ⟨r', fun room levels turns hroom hlevels hturns => ?_⟩
      obtain ⟨turns, rfl⟩ := Nat.exists_eq_add_one.mpr (Nat.lt_of_lt_of_le (Nat.succ_pos _) hturns)
      rw [readUntilE_turn turns r hc hne hkey, hvalue room levels (by omega) (by omega), ok_bind]
      exact hrest room levels turns (by omega) (by omega) (by omega)

/-! ### Where no loop comes round, decoding ends -/

theorem turn_finite (x : Bytes) (loop : Loop) : {f | ∃ g, Turn x loop f g}.Finite := by
  refine (Set.finite_Icc (-(x.length : Int)) x.length).subset ?_
  rintro f ⟨g, c, start, hc, -⟩
  exact ⟨(byteAt_bounds hc).1, (byteAt_bounds hc).2.le⟩

theorem comes_of_reflTransGen {x : Bytes} {loop : Loop} {f g : Int} (h : Comes x (.rest loop) f)
    (hturns : ReflTransGen (Turn x loop) f g) : Comes x (.rest loop) g := by
  induction hturns with
  | refl => exact h
  | tail _ hturn ih => exact .turn ih hturn

/-- A computation that ends in the same way from some number of turns on. -/
def Settles {β : Type} (run : Nat → Except Failure β) : Prop :=
  ∃ least result, Finished .unfinished result ∧ ∀ turns, least ≤ turns → run turns = result

theorem Settles.of_finished {β : Type} {result : Except Failure β} (h : Finished .unfinished result) :
    Settles fun _ => result := ⟨0, result, h, fun _ _ => rfl⟩

theorem Settles.bind {β γ : Type} {run : Nat → Except Failure β} {next : β → Except Failure γ} (h : Settles run)
    (h' : ∀ value, Finished .unfinished (next value)) : Settles fun turns => run turns >>= next := by
  obtain ⟨least, result, hfinished, hall⟩ := h
  exact ⟨least, result >>= next, hfinished.bind fun value _ => h' value, fun turns hturns =>
    congrArg (· >>= next) (hall turns hturns)⟩

/-- A loop ends where the values that it comes to do. -/
theorem settles_rest {κ α : Type} {x : Bytes} {loop : Loop} {before : Int → Except Failure (κ × Int)}
    {levels : Nat} (add : α → κ → Value → α) (himplements : Implements x loop before)
    (hvalue : ∀ f, Comes x .value f → Settles fun turns => decode x turns levels f) {f : Int}
    (hacc : Acc (fun g f => Turn x loop f g) f) (hcomes : Comes x (.rest loop) f) (r : α) :
    ∃ least result, Finished .unfinished result ∧ ∀ room turns, least ≤ room → least ≤ turns →
      readUntilE (decode x room levels) before add x turns r f = result := by
  induction hacc generalizing r with
  | intro f _ ih =>
      cases hc : byteAt x f with
      | none =>
          refine ⟨1, .error .noMethodError, .error (by decide), fun room turns _ hturns => ?_⟩
          obtain ⟨turns, rfl⟩ := Nat.exists_eq_add_one.mpr hturns
          rw [readUntilE, chr, hc]
          rfl
      | some c =>
          by_cases hend : c = byte 'e'
          · refine ⟨1, .ok (r, f), .ok _ _, fun room turns _ hturns => ?_⟩
            obtain ⟨turns, rfl⟩ := Nat.exists_eq_add_one.mpr hturns
            exact readUntilE_done turns r (hend ▸ hc)
          · cases hbefore : before f with
            | error failure =>
                refine ⟨1, .error failure, .error fun heq => himplements.finishes f (heq ▸ hbefore), ?_⟩
                intro room turns _ hturns
                obtain ⟨turns, rfl⟩ := Nat.exists_eq_add_one.mpr hturns
                rw [readUntilE, chr_eq_ok_iff.mpr hc, ok_bind, if_neg hend, hbefore]
                rfl
            | ok both =>
                obtain ⟨key, start⟩ := both
                have hstart : Before x loop f start := (himplements.starts f start).mp ⟨key, hbefore⟩
                obtain ⟨leastValue, result, hfinished, hall⟩ := hvalue start (.value hcomes hc hend hstart)
                cases result with
                | error failure =>
                    refine ⟨leastValue + 1, .error failure, .error fun heq => hfinished (heq ▸ rfl), ?_⟩
                    intro room turns hroom hturns
                    obtain ⟨turns, rfl⟩ := Nat.exists_eq_add_one.mpr (Nat.lt_of_lt_of_le (Nat.succ_pos _) hturns)
                    have hfails : decode x room levels start = .error failure := hall room (by omega)
                    rw [readUntilE_turn turns r hc hend hbefore, hfails]
                    rfl
                | ok both =>
                    obtain ⟨value, g⟩ := both
                    have hturn : Turn x loop f g :=
                      ⟨c, start, hc, hend, hstart, reads_of_decode (hall leastValue le_rfl)⟩
                    obtain ⟨leastRest, result, hlast, hrest⟩ := ih g hturn (.turn hcomes hturn) (add r key value)
                    refine ⟨max leastValue leastRest + 1, result, hlast, fun room turns hroom hturns => ?_⟩
                    obtain ⟨turns, rfl⟩ := Nat.exists_eq_add_one.mpr (Nat.lt_of_lt_of_le (Nat.succ_pos _) hturns)
                    have hreads : decode x room levels start = .ok (value, g) := hall room (by omega)
                    rw [readUntilE_turn turns r hc hend hbefore, hreads, ok_bind]
                    exact hrest room turns (by omega) (by omega)

/-- **Decoding ends**, with whatever stack, where no loop comes back. -/
theorem settles_of_not_endless {x : Bytes} (h : ¬Endless x) (levels : Nat) {f : Int} (hcomes : Comes x .value f) :
    Settles fun turns => decode x turns levels f := by
  induction levels generalizing f with
  | zero => exact .of_finished (.error (by decide))
  | succ levels ih =>
      cases hc : byteAt x f with
      | none =>
          have hrun : ∀ turns, decode x turns (levels + 1) f = .error .noMethodError := by
            intro turns
            rw [decode, chr, hc]
            rfl
          exact ⟨0, _, .error (by decide), fun turns _ => hrun turns⟩
      | some c =>
          by_cases hopener : ∃ loop : Loop, c = loop.opener
          · obtain ⟨loop, rfl⟩ := hopener
            obtain ⟨κ, α, before, add, empty, make, himplements, hdecode⟩ := decode_container x loop
            have hinside : Comes x (.rest loop) (f + 1) := .inside hcomes hc
            have hacc : Acc (fun g f => Turn x loop f g) (f + 1) :=
              acc_of_no_cycle (turn_finite x loop) fun g hreach hcycle =>
                h ⟨loop, g, comes_of_reflTransGen hinside hreach, hcycle⟩
            obtain ⟨least, result, hfinished, hall⟩ :=
              settles_rest add himplements (fun _ => ih) hacc hinside empty
            have hloop : Settles fun turns => readUntilE (decode x turns levels) before add x turns empty (f + 1) :=
              ⟨least, result, hfinished, fun turns hturns => hall turns turns hturns hturns⟩
            simp only [hdecode _ _ _ hc]
            exact hloop.bind fun _ => .ok _ _
          · have hl : c ≠ byte 'l' := fun hl => hopener ⟨.items, hl⟩
            have hd : c ≠ byte 'd' := fun hd => hopener ⟨.entries, hd⟩
            simp only [decode, chr_eq_ok_iff.mpr hc, ok_bind, if_neg hl, if_neg hd]
            refine .of_finished ?_
            split
            · exact decodeInt_finished x f
            · split
              · exact (decodeString_finished x f).bind fun _ _ => .ok _ _
              · exact .error (by decide)

/-! ### Where a loop comes round, decoding does not end -/

theorem readUntilE_extends {κ α : Type} {x : Bytes} {before : Int → Except Failure (κ × Int)} {add : α → κ → Value → α}
    {decode decode' : Int → Except Failure (Value × Int)} (h : ∀ f, Extends .unfinished (decode f) (decode' f))
    {turns turns' : Nat} (hle : turns ≤ turns') (r : α) (f : Int) :
    Extends .unfinished (readUntilE decode before add x turns r f) (readUntilE decode' before add x turns' r f) := by
  induction turns generalizing turns' r f with
  | zero => exact fun hfinished => absurd rfl hfinished
  | succ turns ih =>
      obtain ⟨turns', rfl⟩ := Nat.exists_eq_add_one.mpr (Nat.lt_of_lt_of_le (Nat.succ_pos _) hle)
      rw [readUntilE, readUntilE]
      refine .bind (.refl _ _) fun c _ => ?_
      split
      · exact .refl _ _
      · refine .bind (.refl _ _) fun both _ => .bind (h both.2) fun last _ => ?_
        exact ih (Nat.le_of_succ_le_succ hle) _ _

/-- More turns change nothing where decoding has ended. -/
theorem decode_extends (x : Bytes) {turns turns' : Nat} (hle : turns ≤ turns') (levels : Nat) (f : Int) :
    Extends .unfinished (decode x turns levels f) (decode x turns' levels f) := by
  induction levels generalizing f with
  | zero => exact .refl _ _
  | succ levels ih =>
      rw [decode, decode]
      refine .bind (.refl _ _) fun c _ => ?_
      split
      · exact .bind (readUntilE_extends ih hle _ _) fun _ _ => .refl _ _
      · split
        · exact .bind (readUntilE_extends ih hle _ _) fun _ _ => .refl _ _
        · exact .refl _ _

/-- The rest of a loop has come to an end within the turns that are left. -/
def RestFinished (x : Bytes) (turns levels : Nat) (loop : Loop) (left : Nat) (f : Int) : Prop :=
  match loop with
  | .items => ∃ r, Finished .unfinished (readItems (decode x turns levels) x left r f)
  | .entries => ∃ r, Finished .unfinished (readEntries (decode x turns levels) x left r f)

theorem finished_turn {κ α : Type} {x : Bytes} {loop : Loop} {before : Int → Except Failure (κ × Int)}
    {add : α → κ → Value → α} {decode : Int → Except Failure (Value × Int)} (himplements : Implements x loop before)
    {left : Nat} {r : α} {f start : Int} {c : UInt8} (hc : byteAt x f = some c) (hne : c ≠ byte 'e')
    (hstart : Before x loop f start) (h : Finished .unfinished (readUntilE decode before add x left r f)) :
    ∃ left', left = left' + 1 ∧ Finished .unfinished (decode start) ∧ ∀ value g, decode start = .ok (value, g) →
      ∃ r', Finished .unfinished (readUntilE decode before add x left' r' g) := by
  cases left with
  | zero => exact absurd rfl h
  | succ left =>
      obtain ⟨key, hkey⟩ := (himplements.starts f start).mpr hstart
      rw [readUntilE_turn left r hc hne hkey] at h
      refine ⟨left, rfl, h.of_bind, fun value g hvalue => ⟨add r key value, ?_⟩⟩
      rw [hvalue, ok_bind] at h
      exact h

/-- A loop that has ended has ended its next turn. -/
theorem RestFinished.turn {x : Bytes} {turns levels left : Nat} {loop : Loop} {f start : Int} {c : UInt8}
    (h : RestFinished x turns levels loop left f) (hc : byteAt x f = some c) (hne : c ≠ byte 'e')
    (hstart : Before x loop f start) :
    ∃ left', left = left' + 1 ∧ Finished .unfinished (decode x turns levels start) ∧ ∀ value g,
      decode x turns levels start = .ok (value, g) → RestFinished x turns levels loop left' g := by
  cases loop with
  | items =>
      obtain ⟨r, h⟩ := h
      exact finished_turn (implements_items x) hc hne hstart h
  | entries =>
      obtain ⟨r, h⟩ := h
      exact finished_turn (implements_entries x) hc hne hstart h

/-- A loop that has ended has ended within fewer turns from wherever it comes to. -/
theorem RestFinished.next {x : Bytes} {loop : Loop} {f g : Int} (hturn : Turn x loop f g) :
    ∃ least, ∀ levels, least ≤ levels → ∀ turns left, RestFinished x turns levels loop left f →
      ∃ left' < left, RestFinished x turns levels loop left' g := by
  obtain ⟨c, start, hc, hne, hstart, hreads⟩ := hturn
  obtain ⟨least, value, hvalue⟩ := runs_of_reads hreads
  refine ⟨least, fun levels hlevels turns left h => ?_⟩
  obtain ⟨left', rfl, hfinished, hrest⟩ := h.turn hc hne hstart
  have hmore := decode_extends x (Nat.le_max_left turns least) levels start hfinished
  rw [hvalue _ levels (Nat.le_max_right turns least) hlevels] at hmore
  exact ⟨left', Nat.lt_succ_self _, hrest value g hmore.symm⟩

theorem RestFinished.later {x : Bytes} {loop : Loop} {f g : Int} (hturns : TransGen (Turn x loop) f g) :
    ∃ least, ∀ levels, least ≤ levels → ∀ turns left, RestFinished x turns levels loop left f →
      ∃ left' < left, RestFinished x turns levels loop left' g := by
  induction hturns with
  | single hturn => exact RestFinished.next hturn
  | tail _ hturn ih =>
      obtain ⟨first, hfirst⟩ := ih
      obtain ⟨second, hsecond⟩ := RestFinished.next hturn
      refine ⟨max first second, fun levels hlevels turns left h => ?_⟩
      obtain ⟨middle, hmiddle, h⟩ := hfirst levels (by omega) turns left h
      obtain ⟨last, hlast, h⟩ := hsecond levels (by omega) turns middle h
      exact ⟨last, hlast.trans hmiddle, h⟩

/-- A loop that comes round does not end. -/
theorem not_restFinished {x : Bytes} {loop : Loop} {f : Int} (hcycle : TransGen (Turn x loop) f f) :
    ∃ least, ∀ levels, least ≤ levels → ∀ turns left, ¬RestFinished x turns levels loop left f := by
  obtain ⟨least, hless⟩ := RestFinished.later hcycle
  refine ⟨least, fun levels hlevels turns left => ?_⟩
  induction left using Nat.strong_induction_on with
  | h left ih =>
      intro h
      obtain ⟨left', hlt, h⟩ := hless levels hlevels turns left h
      exact ih left' hlt h

/-- What decoding comes to has ended where the whole has. -/
theorem finished_of_comes {x : Bytes} {part : Part} {f : Int} (h : Comes x part f) (need : Nat) :
    ∃ least, ∀ levels, least ≤ levels → ∀ turns, Finished .unfinished (decode x turns levels 0) →
      ∃ inner, need ≤ inner ∧
        match part with
        | .value => Finished .unfinished (decode x turns inner f)
        | .rest loop => ∃ left, RestFinished x turns inner loop left f := by
  induction h generalizing need with
  | start => exact ⟨need, fun levels hlevels turns h => ⟨levels, hlevels, h⟩⟩
  | @inside loop f _ hc ih =>
      obtain ⟨least, hleast⟩ := ih (need + 1)
      refine ⟨least, fun levels hlevels turns h => ?_⟩
      obtain ⟨inner, hinner, h⟩ := hleast levels hlevels turns h
      obtain ⟨inner, rfl⟩ := Nat.exists_eq_add_one.mpr (Nat.lt_of_lt_of_le (Nat.succ_pos _) hinner)
      refine ⟨inner, Nat.le_of_succ_le_succ hinner, turns, ?_⟩
      cases loop with
      | items =>
          rw [decode_list hc] at h
          exact ⟨[], h.of_bind⟩
      | entries =>
          rw [decode_hash hc] at h
          exact ⟨[], h.of_bind⟩
  | value _ hc hne hstart ih =>
      obtain ⟨least, hleast⟩ := ih need
      refine ⟨least, fun levels hlevels turns h => ?_⟩
      obtain ⟨inner, hinner, left, h⟩ := hleast levels hlevels turns h
      obtain ⟨-, -, hfinished, -⟩ := h.turn hc hne hstart
      exact ⟨inner, hinner, hfinished⟩
  | turn _ hturn ih =>
      obtain ⟨least, hleast⟩ := RestFinished.next hturn
      obtain ⟨least', hleast'⟩ := ih (max need least)
      refine ⟨least', fun levels hlevels turns h => ?_⟩
      obtain ⟨inner, hinner, left, h⟩ := hleast' levels hlevels turns h
      obtain ⟨left', -, h⟩ := hleast inner (by omega) turns left h
      exact ⟨inner, by omega, left', h⟩

/-- **Decoding does not end** where a loop comes back. -/
theorem not_finished_of_endless {x : Bytes} (h : Endless x) :
    ∃ least, ∀ levels, least ≤ levels → ∀ turns, ¬Finished .unfinished (decode x turns levels 0) := by
  obtain ⟨loop, f, hcomes, hcycle⟩ := h
  obtain ⟨need, hnever⟩ := not_restFinished hcycle
  obtain ⟨least, hleast⟩ := finished_of_comes hcomes need
  refine ⟨least, fun levels hlevels turns h => ?_⟩
  obtain ⟨inner, hinner, left, h⟩ := hleast levels hlevels turns h
  exact hnever inner hinner turns left h

/-! ### What `bdecode` does with a string -/

/-- The errors of the decoders are rescued, and what is decoded has to be the whole string. -/
theorem bdecode_of_finished {x : Bytes} {turns levels : Nat} (h : Finished .unfinished (decode x turns levels 0)) :
    bdecode turns levels x = .error .argumentError ∨
      ∃ value, decode x turns levels 0 = .ok (value, (x.length : Int)) ∧ bdecode turns levels x = .ok value := by
  rw [bdecode]
  split
  case h_1 hunfinished => exact absurd hunfinished h
  case h_2 => exact Or.inl rfl
  case h_3 value num hvalue =>
      split
      case isTrue => exact Or.inl rfl
      case isFalse hlength =>
          rw [not_not] at hlength
          exact Or.inr ⟨value, hlength ▸ hvalue, rfl⟩

theorem decode_of_bdecode {x : Bytes} {turns levels : Nat} (h : Finished .unfinished (bdecode turns levels x)) :
    Finished .unfinished (decode x turns levels 0) := by
  intro hunfinished
  rw [bdecode, hunfinished] at h
  exact h rfl

/-- **The strings that are accepted.** -/
theorem accepted_iff {x : Bytes} : (∃ value, Returns x (.ok value)) ↔ Reads x .value 0 x.length := by
  constructor
  · rintro ⟨value, hfinished, least, hall⟩
    obtain ⟨turns, hturns⟩ := hall least le_rfl
    have hdecode := decode_of_bdecode (hturns.symm ▸ hfinished : Finished .unfinished (bdecode turns least x))
    rcases bdecode_of_finished hdecode with herror | ⟨value, hvalue, -⟩
    · cases herror.symm.trans hturns
    · exact reads_of_decode hvalue
  · intro h
    obtain ⟨least, value, hvalue⟩ := runs_of_reads h
    refine ⟨value, .ok _ _, least, fun levels hlevels => ⟨least, ?_⟩⟩
    rw [bdecode, hvalue least levels le_rfl hlevels]
    exact if_neg fun hne => hne rfl

theorem not_endless_of_returns {x : Bytes} {result : Except Failure Value} (h : Returns x result) : ¬Endless x := by
  intro hendless
  obtain ⟨hfinished, least, hall⟩ := h
  obtain ⟨least', hnever⟩ := not_finished_of_endless hendless
  obtain ⟨turns, hturns⟩ := hall (max least least') (Nat.le_max_left _ _)
  refine hnever (max least least') (Nat.le_max_right _ _) turns (decode_of_bdecode ?_)
  rw [hturns]
  exact hfinished

/-- **The strings that are refused.** -/
theorem refused_iff {x : Bytes} (h : ¬Reads x .value 0 x.length) : Returns x (.error .argumentError) ↔ ¬Endless x := by
  refine ⟨not_endless_of_returns, fun hends => ⟨.error (by decide), 0, fun levels _ => ?_⟩⟩
  obtain ⟨turns, result, hfinished, hall⟩ := settles_of_not_endless hends levels .start
  have hresult : decode x turns levels 0 = result := hall turns le_rfl
  refine ⟨turns, (bdecode_of_finished (hresult ▸ hfinished)).resolve_right ?_⟩
  · rintro ⟨value, hvalue, -⟩
    exact h (reads_of_decode hvalue)

/-- The strings that `bencode` gives. -/
def Canonical (x : Bytes) : Prop := ∃ value : Encodable, x = bencode value.value

theorem Canonical.accepted {x : Bytes} (h : Canonical x) : ∃ value, Returns x (.ok value) := by
  obtain ⟨value, rfl⟩ := h
  obtain ⟨decoded, hdecodes, -⟩ := decodes_same value.proper
  exact ⟨decoded, returns_of_decodes hdecodes⟩

/-- **When exactly the canonical strings would do.** The decoder accepts a string where it is canonical and raises
`ArgumentError` where it is not, just where the string is not in the grammar without being canonical, and no loop
comes round on it. -/
theorem accepts_canonical_iff (x : Bytes) :
    (((∃ value, Returns x (.ok value)) ↔ Canonical x) ∧ (¬Canonical x → Returns x (.error .argumentError))) ↔
      (Reads x .value 0 x.length → Canonical x) ∧ ¬Endless x := by
  rw [accepted_iff]
  constructor
  · rintro ⟨haccepts, hrefuses⟩
    refine ⟨haccepts.mp, ?_⟩
    by_cases hcanonical : Canonical x
    · obtain ⟨value, hreturns⟩ := hcanonical.accepted
      exact not_endless_of_returns hreturns
    · exact not_endless_of_returns (hrefuses hcanonical)
  · rintro ⟨hreads, hends⟩
    have hiff : Reads x .value 0 x.length ↔ Canonical x := ⟨hreads, fun hcanonical => accepted_iff.mp hcanonical.accepted⟩
    exact ⟨hiff, fun hnot => (refused_iff fun h => hnot (hreads h)).mpr hends⟩

/-- `i1xe`, of which the `x` is overlooked. -/
def junk : Bytes := [byte 'i', byte '1', byte 'x', byte 'e']

theorem junk_accepted : Returns junk (.ok (.integer 1)) ∧ ¬Canonical junk := by
  constructor
  · refine ⟨.ok _ _, 1, fun levels hlevels => ⟨0, ?_⟩⟩
    obtain ⟨levels, rfl⟩ := Nat.exists_eq_add_one.mpr hlevels
    rfl
  · rintro ⟨⟨value, _⟩, h⟩
    dsimp only at h
    cases value with
    | integer n =>
        rw [bencode, List.cons_append, junk] at h
        have hcode : toS n ++ [byte 'e'] = [byte '1', byte 'x'] ++ [byte 'e'] := (List.cons.inj h).2.symm
        have hmem : byte 'x' ∈ toS n := by
          rw [List.append_cancel_right hcode]
          exact List.mem_cons_of_mem _ List.mem_cons_self
        exact absurd (mem_toS hmem) (by decide)
    | string s =>
        obtain ⟨c, digits, hdigits, hdigit⟩ := numeral_eq_cons s.length
        rw [bencode, encodeString, toS_natCast, hdigits, List.cons_append, junk] at h
        rw [← (List.cons.inj h).1] at hdigit
        exact absurd hdigit (by decide)
    | list items =>
        rw [bencode, List.cons_append] at h
        exact absurd (List.cons.inj h).1 (by decide)
    | hash entries =>
        rw [bencode, List.cons_append] at h
        exact absurd (List.cons.inj h).1 (by decide)

end Thebends.Bitrub
