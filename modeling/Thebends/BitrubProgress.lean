import Thebends.BitrubLanguage

/-! How the loops of the decoders move. A list moves forward with each of its items, and so does a hash as long as
its keys lead forward; a key whose length is below zero may lead back to a value that ends at the key. -/

namespace Thebends.Bitrub

open LibDecimal LibExcept LibLoop Relation

/-- With whatever stack, `bdecode` comes to an end. -/
def Ends (x : Bytes) : Prop := ∀ levels, ∃ turns, Finished .unfinished (bdecode turns levels x)

/-- Each iteration of a loop that decoding comes to moves the position forward where it raises no error. -/
def Forward (x : Bytes) : Prop :=
  ∀ loop f, Comes x (.rest loop) f → ∀ c start, chr x f = .ok c → c ≠ byte 'e' → Before x loop f start →
    ∀ turns levels value g, decode x turns levels start = .ok (value, g) → f < g

/-- No key that decoding comes to leads back before itself, to a value that ends at the key or before it. -/
def KeysLeadOn (x : Bytes) : Prop :=
  ∀ f colon g, Comes x (.rest .entries) f → byteAt x f ≠ some (byte 'e') → LengthText x f colon →
    behind x f colon < f → Reads x .value (behind x f colon) g → f < g

/-! ### What moves forward -/

theorem le_index {x : Bytes} {c : UInt8} {f found : Int} (h : index x c f = some found) : f ≤ found := by
  rw [index] at h
  split at h
  case isTrue => cases h
  case isFalse =>
      obtain ⟨count, hfound, rfl⟩ := Option.map_eq_some_iff.mp h
      obtain ⟨index, -, hindex⟩ := Option.bind_eq_some_iff.mp hfound
      have hcount : 0 ≤ count := Option.some.inj hindex ▸ Int.natCast_nonneg index
      have hplace : f ≤ place x f := by
        rw [place]
        split <;> omega
      exact hplace.trans (Int.le_add_of_nonneg_right hcount)

/-- What a slice begins with. -/
theorem slice_eq {x : Bytes} {f : Int} {c : UInt8} (h : byteAt x f = some c) (last : Int) :
    slice x f last = [] ∨ ∃ text, slice x f last = c :: text := by
  rw [byteAt] at h
  split at h
  case isTrue => cases h
  case isFalse hplace =>
      obtain ⟨hlt, hc⟩ := List.getElem?_eq_some_iff.mp h
      rw [slice, if_neg hplace, List.drop_eq_getElem_cons hlt, hc]
      cases (place x last + 1 - place x f).toNat with
      | zero => exact .inl rfl
      | succ count => exact .inr ⟨_, rfl⟩

theorem toI_nonneg {c : UInt8} (h : isDigit c) (text : Bytes) : 0 ≤ toI (c :: text) := by
  obtain ⟨hblank, hminus, hplus⟩ := digit_plain h
  rw [toI, List.dropWhile_cons_of_neg hblank]
  dsimp only
  rw [if_neg hminus, if_neg hplus]
  exact Int.natCast_nonneg _

/-- A length that begins with a digit is not below zero. -/
theorem lt_behind {x : Bytes} {f colon : Int} {c : UInt8} (hc : byteAt x f = some c) (hdigit : isDigit c)
    (hlength : LengthText x f colon) : f < behind x f colon := by
  have hcolon := le_index hlength.finds
  have hnonneg : 0 ≤ toI (slice x f colon) := by
    rcases slice_eq hc colon with hnil | ⟨text, htext⟩
    · rw [hnil]
      exact le_rfl
    · rw [htext]
      exact toI_nonneg hdigit text
  rw [behind]
  omega

/-- A part ends behind its start, or where it starts if it is the empty rest of a loop. -/
def Part.Passes (f g : Int) : Part → Prop
  | .value => f < g
  | .rest _ => f ≤ g

/-- A value that a turn reads ends behind the position of the turn. -/
theorem KeysLeadOn.lt {x : Bytes} (h : KeysLeadOn x) {loop : Loop} {f start g : Int} {c : UInt8}
    (hcomes : Comes x (.rest loop) f) (hc : byteAt x f = some c) (hne : c ≠ byte 'e') (hstart : Before x loop f start)
    (hvalue : Reads x .value start g) (hlt : start < g) : f < g := by
  cases hstart with
  | item => exact hlt
  | @entry _ colon hlength =>
      by_cases hback : behind x f colon < f
      · exact h f colon g hcomes (fun hend => hne (Option.some.inj (hc.symm.trans hend))) hlength hback hvalue
      · omega

theorem Reads.passes {x : Bytes} (h : KeysLeadOn x) {part : Part} {f g : Int} (hreads : Reads x part f g)
    (hcomes : Comes x part f) : part.Passes f g := by
  induction hreads with
  | @integer f newf _ htext =>
      have hnewf := le_index htext.finds
      have hlt : f < newf + 1 := by omega
      exact hlt
  | string hc hdigit hlength => exact lt_behind hc hdigit hlength
  | @container loop f g hc _ ih =>
      have hrest : f + 1 ≤ g := ih (.inside hcomes hc)
      have hlt : f < g + 1 := by omega
      exact hlt
  | done => exact le_refl _
  | @turn loop f start g last c hc hne hstart hvalue _ ih ih' =>
      have hlt : start < g := ih (.value hcomes hc hne hstart)
      have hon : f < g := h.lt hcomes hc hne hstart hvalue hlt
      have hrest : g ≤ last := ih' (.turn hcomes ⟨c, start, hc, hne, hstart, hvalue⟩)
      exact hon.le.trans hrest

/-- Every turn moves forward. -/
theorem Turn.lt {x : Bytes} (h : KeysLeadOn x) {loop : Loop} {f g : Int} (hcomes : Comes x (.rest loop) f)
    (hturn : Turn x loop f g) : f < g := by
  obtain ⟨c, start, hc, hne, hstart, hvalue⟩ := hturn
  exact h.lt hcomes hc hne hstart hvalue (hvalue.passes h (.value hcomes hc hne hstart))

/-- A loop that moves forward does not come round. -/
theorem KeysLeadOn.not_endless {x : Bytes} (h : KeysLeadOn x) : ¬Endless x := by
  rintro ⟨loop, f, hcomes, hcycle⟩
  have hlater : ∀ g, TransGen (Turn x loop) f g → f < g := by
    intro g hturns
    induction hturns with
    | single hturn => exact hturn.lt h hcomes
    | tail hturns hturn ih => exact ih.trans (hturn.lt h (comes_of_reflTransGen hcomes hturns.to_reflTransGen))
  exact lt_irrefl f (hlater f hcycle)

theorem ends_of_not_endless {x : Bytes} (h : ¬Endless x) : Ends x := by
  intro levels
  obtain ⟨turns, result, hfinished, hall⟩ := settles_of_not_endless h levels .start
  rw [← hall turns le_rfl] at hfinished
  refine ⟨turns, ?_⟩
  rcases bdecode_of_finished hfinished with herror | ⟨value, -, hvalue⟩
  · rw [herror]
    exact .error (by decide)
  · rw [hvalue]
    exact .ok _ _

theorem not_ends_of_endless {x : Bytes} (h : Endless x) : ¬Ends x := by
  intro hends
  obtain ⟨least, hnever⟩ := not_finished_of_endless h
  obtain ⟨turns, hfinished⟩ := hends least
  exact hnever least le_rfl turns (decode_of_bdecode hfinished)

/-- The iterations are the turns of the grammar. -/
theorem forward_iff {x : Bytes} : Forward x ↔ ∀ loop f g, Comes x (.rest loop) f → Turn x loop f g → f < g := by
  constructor
  · rintro h loop f g hcomes ⟨c, start, hc, hne, hstart, hvalue⟩
    obtain ⟨least, value, hrun⟩ := runs_of_reads hvalue
    exact h loop f hcomes c start (chr_eq_ok_iff.mpr hc) hne hstart least least value g (hrun least least le_rfl le_rfl)
  · intro h loop f hcomes c start hc hne hstart turns levels value g hvalue
    exact h loop f g hcomes ⟨c, start, chr_eq_ok_iff.mp hc, hne, hstart, reads_of_decode hvalue⟩

/-- **When decoding ends because its loops move forward**: just where no key leads back to a value that ends at the
key or before it. -/
theorem ends_forward_iff (x : Bytes) : Ends x ∧ Forward x ↔ KeysLeadOn x := by
  constructor
  · rintro ⟨-, hforward⟩ f colon g hcomes hnot hlength - hvalue
    obtain ⟨c, hc⟩ := byteAt_of_index hlength.finds
    have hne : c ≠ byte 'e' := fun hend => hnot (hend ▸ hc)
    exact forward_iff.mp hforward .entries f g hcomes ⟨c, _, hc, hne, .entry hlength, hvalue⟩
  · intro h
    exact ⟨ends_of_not_endless h.not_endless, forward_iff.mpr fun _ _ _ hcomes hturn => hturn.lt h hcomes⟩

/-- `d1:ai5e-6:`, whose second key leads back to the value of the first. -/
def comesRound : Bytes := [100, 49, 58, 97, 105, 53, 101, 45, 54, 58]

/-- The loop of the hash is at its second key in every turn but the first. -/
theorem comesRound_not_ends : ¬(Ends comesRound ∧ Forward comesRound) := by
  have htext : IntegerText comesRound 5 6 :=
    ⟨by decide, by decide, fun h => absurd h (by decide), fun h => absurd h (by decide)⟩
  have hfirst : LengthText comesRound 1 2 := ⟨by decide, fun h => absurd h (by decide)⟩
  have hsecond : LengthText comesRound 7 9 := ⟨by decide, fun h => absurd h (by decide)⟩
  have hvalue : Reads comesRound .value 4 (6 + 1) := .integer rfl htext
  have hkey : Before comesRound .entries 1 4 := .entry hfirst
  have hback : Before comesRound .entries 7 4 := .entry hsecond
  have hstart : Comes comesRound (.rest .entries) 1 := .inside .start rfl
  have hcomes : Comes comesRound (.rest .entries) 7 := .turn hstart ⟨byte '1', 4, rfl, by decide, hkey, hvalue⟩
  have hcycle : Turn comesRound .entries 7 7 := ⟨byte '-', 4, rfl, by decide, hback, hvalue⟩
  exact fun h => not_ends_of_endless ⟨.entries, 7, hcomes, .single hcycle⟩ h.1

end Thebends.Bitrub
