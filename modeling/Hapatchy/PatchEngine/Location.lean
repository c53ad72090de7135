import Hapatchy.PatchEngine

/-!
# The matcher finds blocks of whole lines

`uniqueLocation` and `direction` against the blocks of `Lib.Blocks`.
-/

open Blocks

namespace Hapatchy.PatchEngine

/-- The newline byte. -/
abbrev lf : UInt8 := 10

variable {original before : Bytes}

/-! ## `bytes.find` -/

theorem find_eq_some_iff {start i : Nat} :
    find original before start = some i ↔
      start ≤ i ∧ i ≤ original.length ∧ before <+: original.drop i ∧
        ∀ j, start ≤ j → j < i → ¬ before <+: original.drop j := by
  simp only [find, List.find?_range'_eq_some, List.mem_range'_1, Bool.not_eq_true,
    Bool.not_eq_eq_eq_not, ← List.isPrefixOf_iff_prefix]
  constructor
  · rintro ⟨hpre, ⟨hle, hlt⟩, hmin⟩
    exact ⟨hle, by omega, hpre, fun j hj hji => by simpa using hmin j hj hji⟩
  · rintro ⟨hle, hlen, hpre, hmin⟩
    exact ⟨hpre, ⟨hle, by omega⟩, fun j hj hji => by simpa using hmin j hj hji⟩

theorem find_eq_none_iff {start : Nat} :
    find original before start = none ↔
      ∀ j, start ≤ j → j ≤ original.length → ¬ before <+: original.drop j := by
  simp only [find, List.find?_eq_none, List.mem_range'_1, List.isPrefixOf_iff_prefix]
  constructor
  · intro h j hj hlen
    exact h j ⟨hj, by omega⟩
  · rintro h j ⟨hj, hlt⟩
    exact h j hj (by omega)

/-! ## Line alignment -/

/-- The test that `_unique_location` makes at each match. -/
def Aligned (original before : Bytes) (position : Nat) : Prop :=
  (position = 0 ∨ original[position - 1]? = some 10) ∧
    (before.getLast? = some 10 ∨ position + before.length = original.length)

instance (position : Nat) : Decidable (Aligned original before position) :=
  inferInstanceAs (Decidable (_ ∧ _))

theorem closed_take_iff {i : Nat} (h : i ≤ original.length) :
    Closed lf (original.take i) ↔ i = 0 ∨ original[i - 1]? = some 10 := by
  rcases Nat.eq_zero_or_pos i with rfl | hi
  · simp
  · have hne : original.take i ≠ [] := by
      rw [Ne, List.take_eq_nil_iff]
      rintro (rfl | rfl) <;> simp_all
    rw [closed_iff_of_ne_nil hne, Ends, List.getLast?_take, if_neg (by omega)]
    have hsome : original[i - 1]? = some original[i - 1] := List.getElem?_eq_getElem (by omega)
    simp [hsome, show i ≠ 0 by omega]

theorem occursAt_iff {i : Nat} :
    OccursAt lf original before i ↔
      i ≤ original.length ∧ before <+: original.drop i ∧ Aligned original before i := by
  constructor
  · intro h
    have hle := h.le
    obtain ⟨heq, hclosed, hend⟩ := h.split
    have hdrop : original.drop i = before ++ original.drop (i + before.length) := by
      conv_lhs => rw [heq, List.append_assoc]
      rw [List.drop_left' (by simp; omega)]
    refine ⟨by omega, ⟨_, hdrop.symm⟩, (closed_take_iff (by omega)).mp hclosed, ?_⟩
    refine hend.imp_right fun hnil => ?_
    have := congrArg List.length hnil
    simp only [List.length_drop, List.length_nil] at this
    omega
  · rintro ⟨hle, ⟨post, hpost⟩, hstart, hend⟩
    refine ⟨original.take i, post, ?_, by simp; omega, (closed_take_iff hle).mpr hstart, ?_⟩
    · rw [List.append_assoc, hpost, List.take_append_drop]
    · refine hend.imp_right fun hlen => ?_
      have := congrArg List.length hpost
      simp only [List.length_append, List.length_drop] at this
      exact List.eq_nil_of_length_eq_zero (by omega)

/-! ## The search loop -/

/-- After the last match, nothing occurs any more. -/
theorem not_occursAt_of_find_none {start j : Nat} (h : find original before start = none)
    (hj : start ≤ j) : ¬ OccursAt lf original before j := by
  intro hocc
  obtain ⟨hle, hpre, -⟩ := occursAt_iff.mp hocc
  exact find_eq_none_iff.mp h j hj hle hpre

/-- Between two matches, nothing occurs. -/
theorem le_of_find_some {start position j : Nat} (h : find original before start = some position)
    (hj : start ≤ j) (hocc : OccursAt lf original before j) : position ≤ j := by
  obtain ⟨-, -, -, hmin⟩ := find_eq_some_iff.mp h
  by_contra hlt
  exact hmin j hj (by omega) (occursAt_iff.mp hocc).2.1

/-- The loop, for any location seen before `start`. -/
theorem locate_eq_some_iff {fuel start i : Nat} {location : Option Nat}
    (hfuel : original.length + 2 ≤ fuel + start) :
    locate original before fuel location (find original before start) = some i ↔
      (location = some i ∧ ∀ j, start ≤ j → ¬ OccursAt lf original before j) ∨
        (location = none ∧ start ≤ i ∧ OccursAt lf original before i ∧
          ∀ j, start ≤ j → OccursAt lf original before j → j = i) := by
  induction fuel generalizing start location with
  | zero =>
    have hnone : find original before start = none :=
      find_eq_none_iff.mpr fun j hj hlen => by omega
    have hocc := fun j (hj : start ≤ j) => not_occursAt_of_find_none hnone hj
    rw [locate]
    constructor
    · exact fun h => Or.inl ⟨h, hocc⟩
    · rintro (h | ⟨-, hi, hoi, -⟩)
      · exact h.1
      · exact absurd hoi (hocc i hi)
  | succ fuel ih =>
    rcases hfind : find original before start with _ | position
    · have hocc := fun j (hj : start ≤ j) => not_occursAt_of_find_none hfind hj
      simp only [locate]
      constructor
      · exact fun h => Or.inl ⟨h, hocc⟩
      · rintro (h | ⟨-, hi, hoi, -⟩)
        · exact h.1
        · exact absurd hoi (hocc i hi)
    · obtain ⟨hstart, hlen, hpre, -⟩ := find_eq_some_iff.mp hfind
      have hmin := fun j (hj : start ≤ j) hocc => le_of_find_some hfind hj hocc
      simp only [locate]
      split
      · -- An aligned match: the second one ends the search.
        rename_i haligned
        have hocc : OccursAt lf original before position := occursAt_iff.mpr ⟨hlen, hpre, haligned⟩
        rcases location with _ | l
        · rw [if_neg (by simp), ih (by omega)]
          constructor
          · rintro (⟨hl, hno⟩ | ⟨hl, -⟩)
            · obtain rfl : position = i := by simpa using hl
              refine Or.inr ⟨rfl, hstart, hocc, fun j hj hoj => ?_⟩
              have := hmin j hj hoj
              by_contra hne
              exact hno j (by omega) hoj
            · simp at hl
          · rintro (⟨hl, -⟩ | ⟨-, hi, hoi, huniq⟩)
            · simp at hl
            · obtain rfl := huniq position hstart hocc
              refine Or.inl ⟨rfl, fun j hj hoj => ?_⟩
              have := huniq j (by omega) hoj
              omega
        · rw [if_pos (by simp)]
          constructor
          · simp
          · rintro (⟨-, hno⟩ | ⟨hl, -⟩)
            · exact absurd hocc (hno position hstart)
            · simp at hl
      · rename_i haligned
        have hocc : ¬ OccursAt lf original before position := fun h =>
          haligned (occursAt_iff.mp h).2.2
        have hnext : ∀ j, start ≤ j → OccursAt lf original before j → position + 1 ≤ j := by
          intro j hj hoj
          have := hmin j hj hoj
          rcases eq_or_ne position j with rfl | hne
          · exact absurd hoj hocc
          · omega
        rw [ih (by omega)]
        constructor
        · rintro (⟨hl, hno⟩ | ⟨hl, hi, hoi, huniq⟩)
          · exact Or.inl ⟨hl, fun j hj hoj => hno j (hnext j hj hoj) hoj⟩
          · exact Or.inr ⟨hl, by omega, hoi, fun j hj hoj => huniq j (hnext j hj hoj) hoj⟩
        · rintro (⟨hl, hno⟩ | ⟨hl, hi, hoi, huniq⟩)
          · exact Or.inl ⟨hl, fun j hj => hno j (by omega)⟩
          · exact Or.inr ⟨hl, hnext i hi hoi, hoi, fun j hj => huniq j (by omega)⟩

/-- `_unique_location` finds the one place where `before` stands as whole lines. -/
theorem uniqueLocation_eq_some_iff {i : Nat} :
    uniqueLocation original before = some i ↔ FoundAt lf original before i := by
  rw [uniqueLocation, locate_eq_some_iff (by omega)]
  simp [FoundAt]

/-! ## Both directions -/

variable {hunks : List Hunk} {reverse : Bool}

theorem placed_of_replacements {c : Nat} {spans : List (Nat × Nat × Bytes)}
    (h : replacements original reverse c hunks = some spans) :
    PlacedFrom lf original c (hunks.map (Hunk.side reverse)) (spans.map Prod.fst) ∧
      ∀ cursor, pieces original cursor spans =
        spliced (Hunk.side reverse) (Hunk.side !reverse) original cursor hunks
          (spans.map Prod.fst) := by
  induction hunks generalizing c spans with
  | nil =>
    obtain rfl : [] = spans := by simpa [replacements] using h
    exact ⟨trivial, fun _ => rfl⟩
  | cons hunk hunks ih =>
    simp only [replacements, Option.bind_eq_bind, Option.bind_eq_some_iff] at h
    obtain ⟨start, hstart, h⟩ := h
    split at h
    · simp at h
    · rename_i hle
      simp only [Option.bind_eq_some_iff] at h
      obtain ⟨rest, hrest, hspans⟩ := h
      obtain rfl : _ = spans := by simpa using hspans
      obtain ⟨hplaced, hpieces⟩ := ih hrest
      exact ⟨⟨by omega, uniqueLocation_eq_some_iff.mp hstart, hplaced⟩,
        fun cursor => by simp [pieces, spliced, hpieces]⟩

theorem replacements_of_placed {c : Nat} {is : List Nat}
    (h : PlacedFrom lf original c (hunks.map (Hunk.side reverse)) is) :
    ∃ spans, replacements original reverse c hunks = some spans := by
  induction hunks generalizing c is with
  | nil => exact ⟨[], rfl⟩
  | cons hunk hunks ih =>
    match is, h with
    | i :: is, ⟨hci, hfound, hrest⟩ =>
      obtain ⟨spans, hspans⟩ := ih hrest
      refine ⟨(i, i + (hunk.side reverse).length, hunk.side !reverse) :: spans, ?_⟩
      simp [replacements, uniqueLocation_eq_some_iff.mpr hfound, hspans, show ¬ i < c by omega]

/-- A direction has an output exactly when its blocks are placeable, and the output is the
text with the other side spliced in at their places. -/
theorem direction_eq_some_iff {output : Bytes} :
    direction hunks original reverse = some output ↔
      ∃ is, PlacedFrom lf original 0 (hunks.map (Hunk.side reverse)) is ∧
        output = spliced (Hunk.side reverse) (Hunk.side !reverse) original 0 hunks is := by
  simp only [direction, Option.map_eq_some_iff]
  constructor
  · rintro ⟨spans, hspans, rfl⟩
    obtain ⟨hplaced, hpieces⟩ := placed_of_replacements hspans
    exact ⟨_, hplaced, hpieces 0⟩
  · rintro ⟨is, hplaced, rfl⟩
    obtain ⟨spans, hspans⟩ := replacements_of_placed hplaced
    obtain ⟨hplaced', hpieces⟩ := placed_of_replacements hspans
    exact ⟨spans, hspans, by rw [hpieces, hplaced.unique hplaced']⟩

theorem direction_eq_none_iff :
    direction hunks original reverse = none ↔
      ¬ Placeable lf original (hunks.map (Hunk.side reverse)) := by
  rw [← not_iff_not, not_not, ← Ne, Option.ne_none_iff_exists']
  simp only [direction_eq_some_iff]
  constructor
  · rintro ⟨output, is, hplaced, -⟩
    exact ⟨is, hplaced⟩
  · rintro ⟨is, hplaced⟩
    exact ⟨_, is, hplaced, rfl⟩

/-- The same, as gaps woven with either side. -/
theorem direction_eq_some_iff_located {output : Bytes} :
    direction hunks original reverse = some output ↔
      ∃ g segs, segs.map Prod.fst = hunks ∧ Located lf (Hunk.side reverse) original g segs ∧
        output = weave (Hunk.side !reverse) g segs := by
  rw [direction_eq_some_iff]
  constructor
  · rintro ⟨is, hplaced, rfl⟩
    obtain ⟨g, segs, hfst, hloc, hsplice⟩ := hplaced.located
    exact ⟨g, segs, hfst, by simpa [Located] using hloc, hsplice _⟩
  · rintro ⟨g, segs, rfl, hloc, rfl⟩
    have hplaced : PlacedFrom lf original 0 ((segs.map Prod.fst).map (Hunk.side reverse))
        (offsets (Hunk.side reverse) 0 g segs) := by
      rw [List.map_map]
      exact LocatedFrom.placed hloc
    obtain ⟨g', segs', hfst, hloc', hsplice⟩ := hplaced.located
    obtain ⟨rfl, rfl⟩ := hloc'.unique hloc hfst
    exact ⟨_, hplaced, (hsplice _).symm⟩

end Hapatchy.PatchEngine
