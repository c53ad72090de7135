import Hapatchy.PatchEngine.Output

/-!
# Line endings decide nothing

A text with LF endings and the same text with CRLF ones have the same normal
form, so the parser reads the same patch and the matcher gives the same verdict.
-/

open Blocks Newlines

namespace Hapatchy.PatchEngine

/-- UTF-8 text of whole or partial lines that end in LF. -/
structure LfText (raw : Bytes) : Prop where
  utf8 : Utf8.Valid raw
  noNul : 0 ∉ raw
  noCr : 13 ∉ raw
  newline : 10 ∈ raw

/-- The text with CRLF endings. -/
def crlf (raw : Bytes) : Bytes := toCrlf 13 10 raw

/-- The same verdict on a target with CRLF endings. -/
def crlfInspection (inspection : PatchInspection) : PatchInspection :=
  { inspection with
    forwardOutput := inspection.forwardOutput.map crlf
    reverseOutput := inspection.reverseOutput.map crlf }

variable {raw : Bytes} {limit : Nat}

/-! ## Texts -/

theorem length_le_crlf (raw : Bytes) : raw.length ≤ (crlf raw).length := by
  unfold crlf
  induction raw with
  | nil => rfl
  | cons b raw ih =>
    rw [toCrlf_cons, List.length_cons, List.length_append]
    split
    · rw [List.length_cons]
      omega
    · rw [List.length_singleton]
      omega

theorem LfText.acceptable (h : LfText raw) (hsize : raw.length ≤ limit) : Acceptable raw limit :=
  @acceptable_withEndings false _ _ hsize h.utf8 h.noCr h.noNul

theorem LfText.acceptable_crlf (h : LfText raw) (hsize : (crlf raw).length ≤ limit) :
    Acceptable (crlf raw) limit :=
  @acceptable_withEndings true _ _ hsize h.utf8 h.noCr h.noNul

theorem LfText.normalised_eq (h : LfText raw) : normalised raw = raw :=
  @normalised_withEndings false _ h.noCr

theorem LfText.normalised_crlf (h : LfText raw) : normalised (crlf raw) = raw :=
  @normalised_withEndings true _ h.noCr

theorem LfText.hasCrlf_eq (h : LfText raw) : hasCrlf raw = false :=
  @hasCrlf_withEndings false _ h.noCr

theorem LfText.hasCrlf_crlf (h : LfText raw) : hasCrlf (crlf raw) = true := by
  have hcrlf : hasCrlf (withEndings true raw) = _ := hasCrlf_withEndings h.noCr
  rwa [Bool.true_and, decide_eq_true h.newline] at hcrlf

/-- `_text` gives the same text for both, and tells them apart by the flag only. -/
theorem LfText.text_eq (h : LfText raw) (hsize : (crlf raw).length ≤ limit) :
    ∃ t, text raw limit = .ok (t, false) ∧ text (crlf raw) limit = .ok (t, true) ∧
      Utf8.encode t = raw := by
  obtain ⟨t, htext, hencode⟩ := text_of_acceptable (h.acceptable ((length_le_crlf raw).trans hsize))
  obtain ⟨t', htext', hencode'⟩ := text_of_acceptable (h.acceptable_crlf hsize)
  rw [h.normalised_eq] at hencode
  rw [h.normalised_crlf] at hencode'
  obtain rfl := Utf8.encode_injective (hencode.trans hencode'.symm)
  rw [h.hasCrlf_eq] at htext
  rw [h.hasCrlf_crlf] at htext'
  exact ⟨t, htext, htext', hencode⟩

/-! ## Verdicts -/

/-- The outputs of a verdict on LF text stay in the limit with CRLF endings. -/
def Fits (inspection : PatchInspection) : Prop :=
  ∀ output, inspection.forwardOutput = some output ∨ inspection.reverseOutput = some output →
    (crlf output).length ≤ maxTargetBytes

theorem verdict_crlf (forward back : Option Bytes) (h : Fits (verdict false forward back)) :
    verdict true forward back = crlfInspection (verdict false forward back) := by
  have hend : ∀ output, withEndings true output = crlf output := fun _ => rfl
  have hbare : ∀ output, withEndings false output = output := fun _ => rfl
  unfold verdict at h ⊢
  rcases forward with _ | forward <;> rcases back with _ | back
  · rfl
  · simp only [hend, hbare] at h ⊢
    by_cases hsize : back.length > maxTargetBytes
    · have hlonger := length_le_crlf back
      rw [if_pos hsize, if_pos (by omega)]
      rfl
    · rw [if_neg hsize] at h ⊢
      have hfits := h back (.inr rfl)
      rw [if_neg (by omega)]
      rfl
  · simp only [hend, hbare] at h ⊢
    by_cases hsize : forward.length > maxTargetBytes
    · have hlonger := length_le_crlf forward
      rw [if_pos hsize, if_pos (by omega)]
      rfl
    · rw [if_neg hsize] at h ⊢
      have hfits := h forward (.inl rfl)
      rw [if_neg (by omega)]
      rfl
  · rfl

theorem inspect_crlf {patch : ParsedPatch} (h : LfText raw)
    (hsize : (crlf raw).length ≤ maxTargetBytes) (hfits : Fits (inspect patch raw)) :
    inspect patch (crlf raw) = crlfInspection (inspect patch raw) := by
  obtain ⟨t, htext, htext', -⟩ := h.text_eq hsize
  unfold inspect at hfits ⊢
  simp only [htext, htext'] at hfits ⊢
  exact verdict_crlf _ _ hfits

theorem parse_crlf {fromstring : Fromstring} (target : Text) (h : LfText raw)
    (hsize : (crlf raw).length ≤ maxPatchBytes) :
    parse fromstring (crlf raw) target = parse fromstring raw target := by
  obtain ⟨t, htext, htext', -⟩ := h.text_eq hsize
  unfold parse
  rw [htext, htext']
  rfl

/-- A verdict on text with CRLF endings is the verdict on the text with LF ones, and so is the patch
that is read from a diff. -/
theorem endings_decide_nothing {raw : Bytes} (h : LfText raw) :
    (∀ patch : ParsedPatch, (crlf raw).length ≤ maxTargetBytes → Fits (inspect patch raw) →
      inspect patch (crlf raw) = crlfInspection (inspect patch raw)) ∧
    ∀ (fromstring : Fromstring) (target : Text), (crlf raw).length ≤ maxPatchBytes →
      parse fromstring (crlf raw) target = parse fromstring raw target :=
  ⟨fun _ hsize hfits => inspect_crlf h hsize hfits, fun _ target hsize => parse_crlf target h hsize⟩

theorem endings_decide_nothing_lines :
    inspect ⟨"a".toList, [⟨[120, 10], [121, 10]⟩]⟩ [120, 13, 10, 122] =
      { status := .applicable, forwardOutput := some [121, 13, 10, 122] } := by
  have h : LfText [120, 10, 122] :=
    ⟨⟨"x\nz".toList, by decide⟩, by decide, by decide, by decide⟩
  have hinspect : inspect ⟨"a".toList, [⟨[120, 10], [121, 10]⟩]⟩ [120, 10, 122] =
      { status := .applicable, forwardOutput := some [121, 10, 122] } := by decide
  have hfits : Fits (inspect ⟨"a".toList, [⟨[120, 10], [121, 10]⟩]⟩ [120, 10, 122]) := by
    rw [hinspect]
    rintro output (houtput | houtput)
    · cases houtput
      decide
    · cases houtput
  exact ((endings_decide_nothing h).1 _ (by decide) hfits).trans (by rw [hinspect]; rfl)

end Hapatchy.PatchEngine
