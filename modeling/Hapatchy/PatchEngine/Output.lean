import Hapatchy.PatchEngine.Parsed

/-!
# The outputs of `inspect`

An output is the target with the blocks of one side exchanged for the other,
and it is again an acceptable target.
-/

open Blocks Newlines

namespace Hapatchy

def PatchInspection.output (result : PatchInspection) (reverse : Bool) : Option Bytes :=
  if reverse then result.reverseOutput else result.forwardOutput

namespace PatchEngine

variable {fromstring : Fromstring} {source raw output : Bytes} {target : Text}
  {patch : ParsedPatch} {reverse : Bool} {g : Bytes} {segs : List (Hunk × Bytes)}

/-! ## Blocks exchanged -/

/-- The blocks of one side are found in `raw`, between the gaps `g` and those of `segs`. -/
structure Matched (patch : ParsedPatch) (raw : Bytes) (reverse : Bool) (g : Bytes)
    (segs : List (Hunk × Bytes)) : Prop where
  acceptable : Acceptable raw maxTargetBytes
  hunks : segs.map Prod.fst = patch.hunks
  located : Located lf (Hunk.side reverse) (normalised raw) g segs

/-- The normalised target with the other side woven in. -/
abbrev exchanged (reverse : Bool) (g : Bytes) (segs : List (Hunk × Bytes)) : Bytes :=
  weave (Hunk.side !reverse) g segs

theorem Matched.unique {g' : Bytes} {segs' : List (Hunk × Bytes)}
    (h : Matched patch raw reverse g segs) (h' : Matched patch raw reverse g' segs') :
    g = g' ∧ segs = segs' := LocatedFrom.unique h.located h'.located (h.hunks.trans h'.hunks.symm)

theorem Matched.eq (h : Matched patch raw reverse g segs) :
    normalised raw = weave (Hunk.side reverse) g segs := h.located.eq

theorem Matched.mem_hunks (h : Matched patch raw reverse g segs) {s : Hunk × Bytes}
    (hs : s ∈ segs) : s.1 ∈ patch.hunks := h.hunks ▸ List.mem_map_of_mem hs

theorem Matched.direction (h : Matched patch raw reverse g segs) :
    direction patch.hunks (normalised raw) reverse = some (exchanged reverse g segs) :=
  direction_eq_some_iff_located.mpr ⟨g, segs, h.hunks, h.located, rfl⟩

/-- `output` is what `inspect` gives for `raw`. -/
structure Output (patch : ParsedPatch) (raw : Bytes) (reverse : Bool) (g : Bytes)
    (segs : List (Hunk × Bytes)) (output : Bytes) : Prop extends
    Matched patch raw reverse g segs where
  other : ¬ SidePlaceable patch raw !reverse
  eq : output = withEndings (hasCrlf raw) (exchanged reverse g segs)
  size : output.length ≤ maxTargetBytes

theorem output_of_not_acceptable (h : ¬ Acceptable raw maxTargetBytes) :
    (inspect patch raw).output reverse = none := by
  obtain ⟨reason, hreason⟩ : ∃ reason, inspect patch raw = _ := inspect_of_not_acceptable h
  rw [hreason]
  cases reverse <;> rfl

/-- What the end of `inspect` lets through. -/
theorem verdict_output_eq_some_iff {crlf : Bool} {forward back : Option Bytes} :
    (verdict crlf forward back).output reverse = some output ↔
      ∃ bare, (if reverse then back else forward) = some bare ∧
        (if reverse then forward else back) = none ∧ output = withEndings crlf bare ∧
        output.length ≤ maxTargetBytes := by
  rcases forward with _ | forward <;> rcases back with _ | back
  · cases reverse <;> simp [verdict, PatchInspection.output]
  · by_cases hsize : (withEndings crlf back).length ≤ maxTargetBytes
    · cases reverse <;> simp [verdict, PatchInspection.output, Nat.not_lt.mpr hsize]
      exact ⟨fun h => ⟨h.symm, h ▸ hsize⟩, fun h => h.1.symm⟩
    · cases reverse <;> simp [verdict, PatchInspection.output, Nat.lt_of_not_le hsize]
      rintro rfl
      exact Nat.lt_of_not_le hsize
  · by_cases hsize : (withEndings crlf forward).length ≤ maxTargetBytes
    · cases reverse <;> simp [verdict, PatchInspection.output, Nat.not_lt.mpr hsize]
      exact ⟨fun h => ⟨h.symm, h ▸ hsize⟩, fun h => h.1.symm⟩
    · cases reverse <;> simp [verdict, PatchInspection.output, Nat.lt_of_not_le hsize]
      rintro rfl
      exact Nat.lt_of_not_le hsize
  · cases reverse <;> simp [verdict, PatchInspection.output]

theorem output_eq_some_iff :
    (inspect patch raw).output reverse = some output ↔
      ∃ g segs, Output patch raw reverse g segs output := by
  by_cases hraw : Acceptable raw maxTargetBytes
  · rw [inspect_of_acceptable hraw, verdict_output_eq_some_iff]
    constructor
    · rintro ⟨bare, hbare, hnone, rfl, hsize⟩
      have hdir : direction patch.hunks (normalised raw) reverse = some bare := by
        cases reverse <;> exact hbare
      have hother : direction patch.hunks (normalised raw) (!reverse) = none := by
        cases reverse <;> exact hnone
      obtain ⟨g, segs, hhunks, hloc, rfl⟩ := direction_eq_some_iff_located.mp hdir
      exact ⟨g, segs, ⟨hraw, hhunks, hloc⟩, direction_eq_none_iff.mp hother, rfl, hsize⟩
    · rintro ⟨g, segs, h⟩
      have hother := direction_of_not_placeable h.other
      refine ⟨_, ?_, ?_, h.eq, h.size⟩
      · rw [← h.direction]
        cases reverse <;> rfl
      · rw [← hother]
        cases reverse <;> rfl
  · rw [output_of_not_acceptable hraw]
    simp only [reduceCtorEq, false_iff, not_exists]
    exact fun g segs h => hraw h.acceptable

theorem status_of_output (h : (inspect patch raw).output reverse = some output) :
    (inspect patch raw).status = if reverse then .applied else .applicable := by
  obtain ⟨g, segs, h⟩ := output_eq_some_iff.mp h
  have hother := direction_of_not_placeable h.other
  have hsize := h.size
  rw [h.eq] at hsize
  rw [inspect_of_acceptable h.acceptable]
  cases reverse
  · rw [h.direction, show direction patch.hunks (normalised raw) true = none from hother]
    simp [verdict, Nat.not_lt.mpr hsize]
  · rw [h.direction, show direction patch.hunks (normalised raw) false = none from hother]
    simp [verdict, Nat.not_lt.mpr hsize]

theorem exists_output_of_status
    (h : (inspect patch raw).status = if reverse then .applied else .applicable) :
    ∃ output, (inspect patch raw).output reverse = some output := by
  have hstatus : (inspect patch raw).status ≠ .invalidPatch := by
    rw [h]
    cases reverse <;> simp
  have hraw := acceptable_of_status hstatus
  rw [inspect_of_acceptable hraw] at h ⊢
  generalize direction patch.hunks (normalised raw) false = forward at h ⊢
  generalize direction patch.hunks (normalised raw) true = back at h ⊢
  rcases forward with _ | forward <;> rcases back with _ | back <;> cases reverse <;>
    simp only [verdict, PatchInspection.output, reduceCtorEq, if_true, if_false,
      Bool.false_eq_true] at h ⊢ <;>
    split at h <;> rename_i hsize <;> simp only [reduceCtorEq] at h <;> simp [if_neg hsize]

/-! ## Outputs are acceptable targets -/

theorem normalised_withEndings {crlf : Bool} {bare : Bytes} (h : 13 ∉ bare) :
    normalised (withEndings crlf bare) = bare := by
  cases crlf
  · exact replacePair_of_not_infix fun hpair => h (hpair.subset List.mem_cons_self)
  · exact replacePair_toCrlf_self h

theorem withEndings_normalised {limit : Nat} (h : Acceptable raw limit) :
    withEndings (hasCrlf raw) (normalised raw) = raw := by
  by_cases hpair : ([13, 10] : Bytes) <:+: raw
  · rw [show hasCrlf raw = true from decide_eq_true hpair]
    exact toCrlf_replacePair (by decide) fun hlone => h.notMixed ⟨hpair, hlone⟩
  · rw [show hasCrlf raw = false from decide_eq_false hpair]
    exact replacePair_of_not_infix hpair

theorem hasCrlf_withEndings {crlf : Bool} {bare : Bytes} (h : 13 ∉ bare) :
    hasCrlf (withEndings crlf bare) = (crlf && decide (lf ∈ bare)) := by
  cases crlf
  · exact decide_eq_false fun hpair => h (hpair.subset List.mem_cons_self)
  · rw [Bool.true_and, withEndings, if_pos rfl]
    by_cases hlf : lf ∈ bare
    · rw [decide_eq_true hlf]
      exact decide_eq_true (pair_infix_toCrlf hlf)
    · rw [toCrlf_of_not_mem hlf, decide_eq_false hlf]
      exact decide_eq_false fun hpair => h (hpair.subset List.mem_cons_self)

theorem valid_toCrlf {bare : Bytes} (h : Utf8.Valid bare) : Utf8.Valid (toCrlf 13 10 bare) := by
  obtain ⟨t, rfl⟩ := h
  exact ⟨toCrlf '\r' '\n' t, Utf8.encode_toCrlf (c := '\r') (d := '\n') (by decide) (by decide) t⟩

theorem acceptable_withEndings {crlf : Bool} {bare : Bytes} {limit : Nat}
    (hsize : (withEndings crlf bare).length ≤ limit) (hvalid : Utf8.Valid bare) (hcr : 13 ∉ bare)
    (hnul : 0 ∉ bare) : Acceptable (withEndings crlf bare) limit := by
  cases crlf
  · exact ⟨hsize, Utf8.valid_iff_decode.mp hvalid, hnul, not_loneCr_of_not_mem hcr,
      fun hmixed => hcr (hmixed.1.subset List.mem_cons_self)⟩
  · exact ⟨hsize, Utf8.valid_iff_decode.mp (valid_toCrlf hvalid),
      fun hmem => hnul ((mem_toCrlf (by decide)).mp hmem), not_loneCr_toCrlf (by decide) hcr,
      fun hmixed => not_loneLf_toCrlf (by decide) hcr hmixed.2⟩

/-- Valid text cut at a line start is valid on both sides. -/
theorem valid_cut (x y : Bytes) (hx : Closed lf x) (h : Utf8.Valid (x ++ y)) :
    Utf8.Valid x ∧ Utf8.Valid y := by
  rcases hx with rfl | hend
  · exact ⟨Utf8.valid_nil, h⟩
  · obtain ⟨x', rfl⟩ := List.getLast?_eq_some_iff.mp hend
    obtain ⟨t, ht⟩ := h
    rw [List.append_assoc, List.singleton_append] at ht
    obtain ⟨t₁, t₂, -, rfl, rfl⟩ := Utf8.encode_eq_append_cons (c := '\n') (by decide) ht
    exact ⟨(Utf8.valid_encode t₁).append ⟨['\n'], rfl⟩, Utf8.valid_encode t₂⟩

theorem valid_normalised {limit : Nat} (h : Acceptable raw limit) : Utf8.Valid (normalised raw) := by
  obtain ⟨t, -, hencode⟩ := text_of_acceptable h
  exact ⟨t, hencode⟩

/-- Bytes that neither the target nor the patch has are not woven in. -/
theorem Matched.not_mem_exchanged {b : UInt8} (h : Matched patch raw reverse g segs)
    (hraw : b ∉ normalised raw) (hside : ∀ hunk ∈ patch.hunks, b ∉ hunk.side !reverse) :
    b ∉ exchanged reverse g segs := by
  have hgaps := LocatedFrom.gaps (P := (b ∉ ·)) (fun x y _ hxy => by simpa using hxy)
    h.located (h.eq ▸ hraw)
  refine weave_induction (P := (b ∉ ·)) (fun x y hx hy => by simp [hx, hy]) hgaps.1 fun s hs => ?_
  exact ⟨hside s.1 (h.mem_hunks hs), hgaps.2 s hs⟩

section Parsed

variable (hparse : parse fromstring source target = .ok patch)

include hparse

theorem Matched.cr_not_mem (h : Matched patch raw reverse g segs) :
    13 ∉ exchanged reverse g segs :=
  h.not_mem_exchanged (cr_not_mem_normalised h.acceptable) fun _ hmem =>
    parse_cr_not_mem_side hparse hmem _

theorem Matched.nul_not_mem (h : Matched patch raw reverse g segs) :
    0 ∉ exchanged reverse g segs :=
  h.not_mem_exchanged (nul_not_mem_normalised h.acceptable) fun _ hmem =>
    parse_nul_not_mem_side hparse hmem _

theorem Matched.valid (h : Matched patch raw reverse g segs) :
    Utf8.Valid (exchanged reverse g segs) := by
  have hgaps := LocatedFrom.gaps valid_cut h.located (h.eq ▸ valid_normalised h.acceptable)
  refine weave_induction (fun x y => Utf8.Valid.append) hgaps.1 fun s hs => ⟨?_, hgaps.2 s hs⟩
  obtain ⟨t, hside, -⟩ := parse_side hparse (h.mem_hunks hs) (!reverse)
  exact ⟨t, hside.symm⟩

theorem Output.normalised_eq (h : Output patch raw reverse g segs output) :
    normalised output = exchanged reverse g segs := by
  rw [h.eq]
  exact normalised_withEndings (h.toMatched.cr_not_mem hparse)

/-- The engine accepts its own outputs as targets. -/
theorem Output.acceptable_output (h : Output patch raw reverse g segs output) :
    Acceptable output maxTargetBytes := by
  have hsize := h.size
  have hcr := h.toMatched.cr_not_mem hparse
  have hnul := h.toMatched.nul_not_mem hparse
  have hvalid := h.toMatched.valid hparse
  rw [h.eq] at hsize ⊢
  exact acceptable_withEndings hsize hvalid hcr hnul

end Parsed

end PatchEngine

end Hapatchy
