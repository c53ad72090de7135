import Hapatchy.PatchEngine.RoundTrip

/-!
# Empty sides

The parser counts and compares lines, and the matcher takes the joined bytes. A
last line with no text and no newline is a line to the one and nothing to the
other.
-/

open Blocks

namespace Hapatchy.PatchEngine

namespace DiffHunk

/-- No side is one empty line, and the sides differ in more than an empty last line. -/
structure Anchored (hunk : DiffHunk) : Prop where
  old : oldLines hunk.body ≠ [[]]
  new : newLines hunk.body ≠ [[]]
  oldMore : oldLines hunk.body ≠ newLines hunk.body ++ [[]]
  newMore : newLines hunk.body ≠ oldLines hunk.body ++ [[]]

end DiffHunk

/-- Every hunk of `patch` has text on both sides and changes it, so that neither direction is
found without a line of text. -/
structure Anchors (patch : ParsedPatch) : Prop where
  hunks : ∀ hunk ∈ patch.hunks, hunk.before ≠ [] ∧ hunk.after ≠ [] ∧ hunk.before ≠ hunk.after
  found : ∀ raw reverse, (inspect patch raw).status = (if reverse then .applied else .applicable) →
    ∃ g segs, Matched patch raw reverse g segs ∧ ∀ s ∈ segs, s.1.side reverse ≠ []

theorem anchors_of_hunks {patch : ParsedPatch}
    (h : ∀ hunk ∈ patch.hunks, hunk.before ≠ [] ∧ hunk.after ≠ [] ∧ hunk.before ≠ hunk.after) :
    Anchors patch := by
  refine ⟨h, fun raw reverse hstatus => ?_⟩
  obtain ⟨output, houtput⟩ := exists_output_of_status hstatus
  obtain ⟨g, segs, hout⟩ := output_eq_some_iff.mp houtput
  refine ⟨g, segs, hout.toMatched, fun s hs => ?_⟩
  have hhunk := h s.1 (hout.toMatched.mem_hunks hs)
  cases reverse
  · exact hhunk.1
  · exact hhunk.2.1

theorem encode_eq_nil_iff {t : Text} : Utf8.encode t = [] ↔ t = [] := by
  rw [← Utf8.encode_nil]
  exact Utf8.encode_injective.eq_iff

/-- A newline only ends a line. -/
theorem not_mem_dropLast_value {line : DiffLine} (h : '\n' ∉ line.shown) :
    '\n' ∉ line.value.dropLast := by
  have htext : '\n' ∉ line.text := fun hmem => h (List.mem_cons_of_mem _ hmem)
  rw [DiffLine.value]
  split
  · rwa [List.dropLast_concat]
  · exact fun hmem => htext (List.mem_of_mem_dropLast hmem)

theorem shown_mem_lines {line : DiffLine} : line.shown ∈ line.lines := by
  rw [DiffLine.lines]
  split <;> exact List.mem_cons_self

variable {fromstring : Fromstring} {raw : Bytes} {target : Text} {patch : ParsedPatch}

theorem Ordered.valid {previousOld previousNew : Nat} {hunks : List DiffHunk}
    (h : Ordered previousOld previousNew hunks) :
    ∀ hunk ∈ hunks, ∃ oldStart newStart, hunk.Valid oldStart newStart := by
  induction hunks generalizing previousOld previousNew with
  | nil => simp
  | cons hunk hunks ih =>
    obtain ⟨oldStart, newStart, hvalid, -, -, hrest⟩ := h
    intro hunk' hmem
    rcases List.mem_cons.mp hmem with rfl | hmem
    · exact ⟨oldStart, newStart, hvalid⟩
    · exact ih hrest hunk' hmem

/-- The newlines of the two sides stand at the ends of their lines. -/
theorem Diff.Valid.bare {diff : Diff} (h : diff.Valid target) {hunk : DiffHunk}
    (hhunk : hunk ∈ diff.hunks) : (∀ l ∈ oldLines hunk.body, '\n' ∉ l.dropLast) ∧
      ∀ l ∈ newLines hunk.body, '\n' ∉ l.dropLast := by
  have hline : ∀ line ∈ hunk.body, '\n' ∉ line.value.dropLast := by
    intro line hline
    refine not_mem_dropLast_value (h.plain line.shown ?_).2
    refine List.mem_append_right _ (List.mem_flatMap.mpr ⟨hunk, hhunk, ?_⟩)
    exact List.mem_cons_of_mem _ (List.mem_flatMap.mpr ⟨line, hline, shown_mem_lines⟩)
  constructor <;> intro l hl
  · obtain ⟨line, hmem, rfl⟩ := List.mem_map.mp hl
    exact hline line (List.mem_of_mem_filter hmem)
  · obtain ⟨line, hmem, rfl⟩ := List.mem_map.mp hl
    exact hline line (List.mem_of_mem_filter hmem)

/-- The joined sides of a hunk have text and differ exactly when it is anchored. -/
theorem Diff.Valid.sides_iff {diff : Diff} (h : diff.Valid target) {hunk : DiffHunk}
    (hhunk : hunk ∈ diff.hunks) : (hunk.sides.before ≠ [] ∧ hunk.sides.after ≠ [] ∧
      hunk.sides.before ≠ hunk.sides.after) ↔ hunk.Anchored := by
  obtain ⟨oldStart, newStart, hvalid⟩ := h.ordered.valid hunk hhunk
  obtain ⟨hbareOld, hbareNew⟩ := h.bare hhunk
  have hpositive := hvalid.means.positive
  have hold : hunk.sides.before = [] ↔ oldLines hunk.body = [[]] :=
    encode_eq_nil_iff.trans (flatten_eq_nil_iff_of_ends hvalid.endsOld
      (List.ne_nil_of_length_pos hpositive.2.1))
  have hnew : hunk.sides.after = [] ↔ newLines hunk.body = [[]] :=
    encode_eq_nil_iff.trans (flatten_eq_nil_iff_of_ends hvalid.endsNew
      (List.ne_nil_of_length_pos hpositive.2.2.2))
  have hsame : hunk.sides.before = hunk.sides.after ↔
      oldLines hunk.body = newLines hunk.body ++ [[]] ∨
        newLines hunk.body = oldLines hunk.body ++ [[]] :=
    Utf8.encode_injective.eq_iff.trans (flatten_eq_flatten_iff hvalid.endsOld hvalid.endsNew
      hbareOld hbareNew hvalid.changes)
  rw [ne_eq, ne_eq, ne_eq, hold, hnew, hsame]
  constructor
  · rintro ⟨hold, hnew, hsame⟩
    exact ⟨hold, hnew, fun h => hsame (Or.inl h), fun h => hsame (Or.inr h)⟩
  · rintro ⟨hold, hnew, holdMore, hnewMore⟩
    exact ⟨hold, hnew, fun h => h.elim holdMore hnewMore⟩

/-- A parsed patch has text on both sides of every hunk and changes it exactly when no side is a
lone empty line with no newline and none has only such a line more than the other. -/
theorem anchors_iff_of_parse (h : parse fromstring raw target = .ok patch) :
    Anchors patch ↔ ∀ (diff : Diff) (crlf : Bool), diff.Valid target →
      raw = diff.render target crlf → ∀ hunk ∈ diff.hunks, hunk.Anchored := by
  obtain ⟨diff, crlf, hvalid, rfl, hsize, hreports, rfl⟩ := exists_diff_of_parse h
  constructor
  · rintro hanchors diff' crlf' hvalid' hsame hunk hhunk
    rw [hsame] at h hsize
    have h' := parse_render hvalid' hsize (reports_report diff' target)
    have hside : hunk.sides ∈ (diff.patch target).hunks := by
      rw [parse_unique h h']
      exact List.mem_map_of_mem hhunk
    exact (hvalid'.sides_iff hhunk).mp (hanchors.hunks _ hside)
  · intro hall
    refine anchors_of_hunks fun side hside => ?_
    obtain ⟨hunk, hhunk, rfl⟩ := List.mem_map.mp hside
    exact (hvalid.sides_iff hhunk).mpr (hall diff crlf hvalid rfl hunk hhunk)

/-! ## A hunk that is found nowhere in particular -/

/-- The deleted line has no text and no newline. -/
def emptySource : Bytes := Utf8.encode
  "--- f\n+++ f\n@@ -1 +1 @@\n-\n\\ No newline at end of file\n+x\n".toList

def emptyHunks : List (List NgHunk) :=
  [[⟨false, ["-\n", "+x\n"].map fun line => Utf8.encode line.toList⟩]]

def emptyPatch : ParsedPatch := ⟨"f".toList, [⟨[], Utf8.encode "x\n".toList⟩]⟩

theorem parse_emptySource :
    parse (fun _ => some emptyHunks) emptySource "f".toList = .ok emptyPatch := by decide +kernel

theorem anchors_emptySource_iff :
    Anchors emptyPatch ↔ ∀ (diff : Diff) (crlf : Bool), diff.Valid "f".toList →
      emptySource = diff.render "f".toList crlf → ∀ hunk ∈ diff.hunks, hunk.Anchored :=
  anchors_iff_of_parse parse_emptySource

/-- The empty old side is found at the end of any terminated file. -/
theorem not_anchors_emptySource :
    parse (fun _ => some emptyHunks) emptySource "f".toList = .ok emptyPatch ∧
      ¬ Anchors emptyPatch ∧
      (inspect emptyPatch (Utf8.encode "a\n".toList)).status = .applicable := by
  refine ⟨parse_emptySource, fun h => ?_, by decide +kernel⟩
  exact (h.hunks _ List.mem_cons_self).1 rfl

end Hapatchy.PatchEngine
