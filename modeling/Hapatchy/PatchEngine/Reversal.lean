import Hapatchy.PatchEngine.Output

/-!
# Applying and then reverting

The reverse search starts afresh on the output, and the line endings are read
off it again. When both lead back to the bytes that were there before.
-/

open Blocks Newlines

namespace Hapatchy.PatchEngine

/-! ## The way back -/

/-- Every new side stands on line boundaries of the new text, and where the target has CRLF
endings, a gap or a new side has one. -/
def LeavesBoundaries (patch : ParsedPatch) (raw : Bytes) : Prop :=
  ∀ g segs, Matched patch raw false g segs →
    Anchored lf (Hunk.side true) segs ∧
      (hasCrlf raw → lf ∈ g ∨ ∃ s ∈ segs, lf ∈ s.1.after ∨ lf ∈ s.2)

/-- Reverting leads back to the bytes before the patch exactly when it left line boundaries
around its blocks, and an ending to tell the convention by. -/
theorem revert_eq_iff_leavesBoundaries {fromstring : Fromstring} {source raw o r : Bytes}
    {target : Text} {patch : ParsedPatch} (hparse : parse fromstring source target = .ok patch)
    (hforward : (inspect patch raw).output false = some o)
    (hreverse : (inspect patch o).output true = some r) :
    r = raw ↔ LeavesBoundaries patch raw := by
  obtain ⟨g, segs, h⟩ := output_eq_some_iff.mp hforward
  obtain ⟨g', segs', h'⟩ := output_eq_some_iff.mp hreverse
  have hbare := h.toMatched.cr_not_mem hparse
  have hnormal := h.normalised_eq hparse
  -- Back to the text of the target, up to endings.
  have hback : weave (Hunk.side false) g' segs' = normalised raw ↔
      Anchored lf (Hunk.side true) segs := by
    rw [h.toMatched.eq]
    exact LocatedFrom.weave_back_iff h.located h'.located (h.hunks.trans h'.hunks.symm)
      hnormal closed_nil
  have hleaves : LeavesBoundaries patch raw ↔ Anchored lf (Hunk.side true) segs ∧
      (hasCrlf raw → lf ∈ exchanged false g segs) := by
    rw [mem_weave_iff]
    constructor
    · exact fun hall => hall g segs h.toMatched
    · intro hall g₁ segs₁ h₁
      obtain ⟨rfl, rfl⟩ := h.toMatched.unique h₁
      exact hall
  have hcrlf : hasCrlf o = (hasCrlf raw && decide (lf ∈ exchanged false g segs)) := by
    rw [h.eq, hasCrlf_withEndings hbare]
  have hr : r = withEndings (hasCrlf o) (weave (Hunk.side false) g' segs') := h'.eq
  rw [hleaves, ← hback]
  constructor
  · intro heq
    have hsame : weave (Hunk.side false) g' segs' = normalised raw := by
      rw [← heq]
      exact (h'.normalised_eq hparse).symm
    refine ⟨hsame, fun hraw => ?_⟩
    by_contra hlf
    rw [hcrlf, decide_eq_false hlf, Bool.and_false, hsame, heq] at hr
    have hcr : (13 : UInt8) ∈ raw := (of_decide_eq_true hraw).subset List.mem_cons_self
    rw [hr] at hcr
    exact cr_not_mem_normalised h.acceptable hcr
  · rintro ⟨hsame, hlf⟩
    have hkeep : hasCrlf o = hasCrlf raw := by
      rw [hcrlf]
      cases hraw : hasCrlf raw
      · rfl
      · rw [decide_eq_true (hlf hraw), Bool.and_true]
    rw [hr, hkeep, hsame, withEndings_normalised h.acceptable]

/-! ## A lost convention -/

def endingSource : Bytes := Utf8.encode
  "--- f\n+++ f\n@@ -1 +1 @@\n-x\n+z\n\\ No newline at end of file\n".toList

/-- What the third-party parser reads of `endingSource`. -/
def endingHunks : List (List NgHunk) :=
  [[⟨false, ["-x\n", "+z\n"].map fun line => Utf8.encode line.toList⟩]]

def endingPatch : ParsedPatch :=
  ⟨"f".toList, [⟨Utf8.encode "x\n".toList, Utf8.encode "z".toList⟩]⟩

def crlfLine : Bytes := Utf8.encode "x\r\n".toList

theorem parse_endingSource :
    parse (fun _ => some endingHunks) endingSource "f".toList = .ok endingPatch := by
  decide +kernel

theorem inspect_crlfLine :
    (inspect endingPatch crlfLine).output false = some (Utf8.encode "z".toList) := by
  decide +kernel

theorem inspect_bareLine : (inspect endingPatch (Utf8.encode "z".toList)).output true =
    some (Utf8.encode "x\n".toList) := by decide +kernel

theorem revert_eq_iff_crlfLine :
    Utf8.encode "x\n".toList = crlfLine ↔ LeavesBoundaries endingPatch crlfLine :=
  revert_eq_iff_leavesBoundaries parse_endingSource inspect_crlfLine inspect_bareLine

/-- A file of one CRLF line comes back with an LF line. -/
theorem revert_ne_crlfLine :
    parse (fun _ => some endingHunks) endingSource "f".toList = .ok endingPatch ∧
      (inspect endingPatch crlfLine).output false = some (Utf8.encode "z".toList) ∧
      (inspect endingPatch (Utf8.encode "z".toList)).output true =
        some (Utf8.encode "x\n".toList) ∧
      Utf8.encode "x\n".toList ≠ crlfLine :=
  ⟨parse_endingSource, inspect_crlfLine, inspect_bareLine, by decide +kernel⟩

end Hapatchy.PatchEngine
