import Hapatchy.PatchEngine.Output

/-!
# Lines of an output

When the lines of an output are the lines of the target with whole blocks of
lines exchanged, and the markers that make two lines one.
-/

open Blocks

namespace Hapatchy.PatchEngine

/-- The lines of `output` are those of the target, with the lines of the matched blocks exchanged
and every line of the gaps kept. -/
def ExchangesLines (patch : ParsedPatch) (raw : Bytes) (reverse : Bool) (output : Bytes) : Prop :=
  ∀ g segs, Matched patch raw reverse g segs →
    lines lf (normalised raw) = wovenLines lf (Hunk.side reverse) g segs ∧
      lines lf (normalised output) = wovenLines lf (Hunk.side !reverse) g segs

/-- No new side without a final newline is put in front of other text. -/
def JoinsNothing (patch : ParsedPatch) (raw : Bytes) (reverse : Bool) : Prop :=
  ∀ g segs, Matched patch raw reverse g segs → Unjoined lf (Hunk.side !reverse) segs

/-- The lines of an output are exchanged block by block, exactly when no new side without a
final newline is put in front of other text. -/
theorem exchangesLines_iff_joinsNothing {fromstring : Fromstring} {source raw output : Bytes}
    {target : Text} {patch : ParsedPatch} {reverse : Bool}
    (hparse : parse fromstring source target = .ok patch)
    (hout : (inspect patch raw).output reverse = some output) :
    ExchangesLines patch raw reverse output ↔ JoinsNothing patch raw reverse := by
  obtain ⟨g, segs, h⟩ := output_eq_some_iff.mp hout
  have hraw : lines lf (normalised raw) = wovenLines lf (Hunk.side reverse) g segs := by
    rw [h.toMatched.eq]
    exact LocatedFrom.lines_weave h.located
  have hnew : lines lf (normalised output) = wovenLines lf (Hunk.side !reverse) g segs ↔
      Unjoined lf (Hunk.side !reverse) segs := by
    rw [h.normalised_eq hparse]
    exact LocatedFrom.lines_weave_iff h.located
  constructor
  · intro hlines g' segs' h'
    obtain ⟨rfl, rfl⟩ := h.toMatched.unique h'
    exact hnew.mp (hlines g segs h.toMatched).2
  · intro hjoins g' segs' h'
    obtain ⟨rfl, rfl⟩ := h.toMatched.unique h'
    exact ⟨hraw, hnew.mpr (hjoins g segs h.toMatched)⟩

/-! ## A marker in the middle of a file -/

/-- The new side ends without a newline, as a marker says. -/
def joiningSource : Bytes := Utf8.encode
  "--- f\n+++ f\n@@ -1,2 +1,2 @@\n first\n-old\n+new\n\\ No newline at end of file\n".toList

/-- What the third-party parser reads of `joiningSource`. -/
def joiningHunks : List (List NgHunk) :=
  [[⟨false, [" first\n", "-old\n", "+new\n"].map fun line => Utf8.encode line.toList⟩]]

def joiningPatch : ParsedPatch :=
  ⟨"f".toList, [⟨Utf8.encode "first\nold\n".toList, Utf8.encode "first\nnew".toList⟩]⟩

def threeLines : Bytes := Utf8.encode "first\nold\nlast\n".toList

def twoLines : Bytes := Utf8.encode "first\nnewlast\n".toList

theorem parse_joiningSource :
    parse (fun _ => some joiningHunks) joiningSource "f".toList = .ok joiningPatch := by
  decide +kernel

theorem inspect_threeLines : (inspect joiningPatch threeLines).output false = some twoLines := by
  decide +kernel

/-- The one hunk stands at the start, with the last line after it. -/
theorem matched_threeLines : Matched joiningPatch threeLines false []
    (joiningPatch.hunks.map (·, Utf8.encode "last\n".toList)) where
  acceptable := by
    have htext : text threeLines maxTargetBytes = .ok ("first\nold\nlast\n".toList, false) := by
      decide +kernel
    exact acceptable_of_text htext
  hunks := rfl
  located := by
    have hsplit : normalised threeLines =
        Utf8.encode "first\nold\n".toList ++ Utf8.encode "last\n".toList := by decide +kernel
    exact ⟨uniqueLocation_eq_some_iff.mp (by decide +kernel), hsplit⟩

theorem exchangesLines_iff_threeLines :
    ExchangesLines joiningPatch threeLines false twoLines ↔
      JoinsNothing joiningPatch threeLines false :=
  exchangesLines_iff_joinsNothing parse_joiningSource inspect_threeLines

/-- The last line of the file is joined to the line that the patch put before it. -/
theorem not_exchangesLines_threeLines :
    parse (fun _ => some joiningHunks) joiningSource "f".toList = .ok joiningPatch ∧
      (inspect joiningPatch threeLines).output false = some twoLines ∧
      ¬ ExchangesLines joiningPatch threeLines false twoLines := by
  refine ⟨parse_joiningSource, inspect_threeLines, fun hlines => ?_⟩
  have hjoined := (hlines _ _ matched_threeLines).2
  revert hjoined
  decide +kernel

end Hapatchy.PatchEngine
