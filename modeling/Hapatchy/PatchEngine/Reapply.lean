import Mathlib.Algebra.GroupWithZero.Nat
import Hapatchy.Lib.Strips
import Hapatchy.PatchEngine.Output

/-!
# Applying twice

When the engine finds a patch applicable to its own forward output.
-/

open Blocks

namespace Hapatchy.PatchEngine

/-- The number of bytes that `block` takes in a file with these endings. -/
def written (crlf : Bool) (block : Bytes) : Nat := (withEndings crlf block).length

/-- Each old block can be cut once more, at one place and in the order of the hunks, from the new
blocks and the gaps between the old ones, with a part of a new block in it; the new blocks cannot be
cut from them so; and the exchange, made twice, leaves a text of a size that is accepted. -/
structure Recombines (patch : ParsedPatch) (raw g : Bytes) (segs : List (Hunk × Bytes)) : Prop
    extends Matched patch raw false g segs where
  again : ∃ js, OnceFrom (fun b => Cut lf (Touches b) (strips (Hunk.side true) g segs) b) 0
    (patch.hunks.map Hunk.before) js
  hidden : ¬ ∃ js, OnceFrom (Cut lf (fun _ => True) (strips (Hunk.side true) g segs)) 0
    (patch.hunks.map Hunk.after) js
  size : raw.length + 2 * (patch.hunks.map fun hunk => written (hasCrlf raw) hunk.after).sum ≤
    maxTargetBytes + 2 * (patch.hunks.map fun hunk => written (hasCrlf raw) hunk.before).sum

variable {fromstring : Fromstring} {source raw output : Bytes} {target : Text}
  {patch : ParsedPatch} {g : Bytes} {segs : List (Hunk × Bytes)}

/-! ## Sizes -/

theorem written_append {crlf : Bool} {x y : Bytes} :
    written crlf (x ++ y) = written crlf x + written crlf y := by
  cases crlf
  · exact List.length_append
  · exact (congrArg List.length (Newlines.toCrlf_append x y)).trans List.length_append

/-- An exchange changes the size by the sizes of the blocks. -/
theorem written_weave (crlf : Bool) (old new : Hunk → Bytes) {hunks : List Hunk}
    (hhunks : segs.map Prod.fst = hunks) :
    written crlf (weave new g segs) + (hunks.map fun hunk => written crlf (old hunk)).sum =
      written crlf (weave old g segs) + (hunks.map fun hunk => written crlf (new hunk)).sum := by
  induction segs generalizing g hunks with
  | nil =>
    obtain rfl := hhunks
    rfl
  | cons s rest ih =>
    obtain ⟨hunk, g'⟩ := s
    obtain rfl := hhunks
    have hrest := @ih g' _ rfl
    simp only [weave, written_append, List.map_cons, List.sum_cons]
    omega

section Matched

variable (h : Matched patch raw false g segs)

include h

theorem Matched.written_exchanged (crlf : Bool) :
    written crlf (exchanged false g segs) +
        (patch.hunks.map fun hunk => written crlf hunk.before).sum =
      written crlf (normalised raw) +
        (patch.hunks.map fun hunk => written crlf hunk.after).sum := by
  rw [h.eq]
  exact written_weave crlf _ _ h.hunks

/-- An old text with a newline leaves one, if the old blocks stand in the new text. -/
theorem Matched.lf_mem (hraw : lf ∈ normalised raw) {js : List Nat}
    (hplaced : PlacedFrom lf (exchanged false g segs) 0 (patch.hunks.map Hunk.before) js) :
    lf ∈ exchanged false g segs := by
  rw [h.eq, mem_weave_iff] at hraw
  rcases hraw with hg | ⟨s, hs, hside | hg⟩
  · exact mem_weave_iff.mpr (Or.inl hg)
  · obtain ⟨g', segs', hhunks, hlocated, -⟩ := PlacedFrom.located hplaced
    have hmem : s.1 ∈ segs'.map Prod.fst := hhunks ▸ h.mem_hunks hs
    obtain ⟨s', hs', heq⟩ := List.mem_map.mp hmem
    rw [hlocated.eq, List.take_zero, List.nil_append, mem_weave_iff]
    exact Or.inr ⟨s', hs', Or.inl (heq ▸ hside)⟩
  · exact mem_weave_iff.mpr (Or.inr ⟨s, hs, Or.inr hg⟩)

theorem Matched.hasCrlf_iff {js : List Nat}
    (hplaced : PlacedFrom lf (exchanged false g segs) 0 (patch.hunks.map Hunk.before) js) :
    (hasCrlf raw && decide (lf ∈ exchanged false g segs)) = hasCrlf raw := by
  cases hcrlf : hasCrlf raw with
  | false => rfl
  | true =>
    have hraw : lf ∈ normalised raw := by
      have hback : hasCrlf (withEndings (hasCrlf raw) (normalised raw)) = _ :=
        hasCrlf_withEndings (cr_not_mem_normalised h.acceptable)
      rw [withEndings_normalised h.acceptable, hcrlf, Bool.true_and] at hback
      exact of_decide_eq_true hback.symm
    rw [Bool.true_and, decide_eq_true (h.lf_mem hraw hplaced)]

/-- The size of the text after a second exchange. -/
theorem Matched.written_spliced {js : List Nat}
    (hplaced : PlacedFrom lf (exchanged false g segs) 0 (patch.hunks.map Hunk.before) js) :
    written (hasCrlf raw) (spliced Hunk.before Hunk.after (exchanged false g segs) 0 patch.hunks js) +
        2 * (patch.hunks.map fun hunk => written (hasCrlf raw) hunk.before).sum =
      raw.length + 2 * (patch.hunks.map fun hunk => written (hasCrlf raw) hunk.after).sum := by
  have hfirst := h.written_exchanged (hasCrlf raw)
  obtain ⟨g', segs', hhunks, hlocated, hspliced⟩ := PlacedFrom.located hplaced
  have hsecond : written (hasCrlf raw) (weave Hunk.after g' segs') + _ = _ :=
    written_weave (hasCrlf raw) Hunk.before Hunk.after hhunks
  have heq : weave Hunk.before g' segs' = exchanged false g segs := by
    rw [hlocated.eq, List.take_zero, List.nil_append]
  have hsame : written (hasCrlf raw) (normalised raw) = raw.length :=
    congrArg List.length (withEndings_normalised h.acceptable)
  rw [hspliced]
  rw [heq] at hsecond
  rw [hsame] at hfirst
  omega

/-! ## Where the blocks stand -/

/-- The old blocks stand in the new text where they can be cut with a part of a new block. -/
theorem Matched.placed_before_iff {js : List Nat} :
    PlacedFrom lf (exchanged false g segs) 0 (patch.hunks.map Hunk.before) js ↔
      OnceFrom (fun b => Cut lf (Touches b) (strips (Hunk.side true) g segs) b) 0
        (patch.hunks.map Hunk.before) js := by
  have hcut : ∀ b ∈ patch.hunks.map Hunk.before, ∀ j,
      OccursAt lf (exchanged false g segs) b j ↔
        Cut lf (Touches b) (strips (Hunk.side true) g segs) b j := by
    intro b hb j
    rw [← h.hunks, List.map_map] at hb
    obtain ⟨s, hs, rfl⟩ := List.mem_map.mp hb
    exact Located.occursAt_iff_touches h.located hs
  rw [placedFrom_iff_onceFrom]
  exact ⟨fun hplaced => hplaced.congr hcut, fun hcuts =>
    hcuts.congr fun b hb j => (hcut b hb j).symm⟩

omit h in
theorem placeable_after_iff :
    Placeable lf (exchanged false g segs) (patch.hunks.map Hunk.after) ↔
      ∃ js, OnceFrom (Cut lf (fun _ => True) (strips (Hunk.side true) g segs)) 0
        (patch.hunks.map Hunk.after) js := by
  refine exists_congr fun js => ?_
  have hcut : ∀ b j, OccursAt lf (exchanged false g segs) b j ↔
      Cut lf (fun _ => True) (strips (Hunk.side true) g segs) b j := by
    intro b j
    rw [← occursAt_iff_cut, flatMap_strips]
    rfl
  rw [placedFrom_iff_onceFrom]
  exact ⟨fun hplaced => hplaced.congr fun b _ => hcut b, fun hcuts =>
    hcuts.congr fun b _ j => (hcut b j).symm⟩

end Matched

/-- A forward output is applicable again exactly when the new blocks recombine with the lines
around them. -/
theorem applicable_again_iff (hparse : parse fromstring source target = .ok patch)
    (hforward : (inspect patch raw).output false = some output) :
    (inspect patch output).status = .applicable ↔ ∃ g segs, Recombines patch raw g segs := by
  obtain ⟨g, segs, h⟩ := output_eq_some_iff.mp hforward
  have hnormal : normalised output = exchanged false g segs := h.normalised_eq hparse
  have hcrlf : hasCrlf output = (hasCrlf raw && decide (lf ∈ exchanged false g segs)) := by
    rw [h.eq, hasCrlf_withEndings (h.toMatched.cr_not_mem hparse)]
  rw [(verdict_of_acceptable (h.acceptable_output hparse)).applicable]
  simp only [SidePlaceable, SidePlaced, patched, hnormal, hcrlf]
  constructor
  · rintro ⟨js, hplaced, hhidden, hsize⟩
    rw [h.toMatched.hasCrlf_iff hplaced] at hsize
    have hwritten := h.toMatched.written_spliced hplaced
    refine ⟨g, segs, h.toMatched, ⟨js, h.toMatched.placed_before_iff.mp hplaced⟩,
      fun hcuts => hhidden (placeable_after_iff.mpr hcuts), ?_⟩
    rw [← hwritten]
    exact Nat.add_le_add_right hsize _
  · rintro ⟨g', segs', hrec⟩
    obtain ⟨rfl, rfl⟩ := h.toMatched.unique hrec.toMatched
    obtain ⟨js, hcuts⟩ := hrec.again
    have hplaced := h.toMatched.placed_before_iff.mpr hcuts
    have hwritten := h.toMatched.written_spliced hplaced
    refine ⟨js, hplaced, fun hafter => hrec.hidden (placeable_after_iff.mp hafter), ?_⟩
    rw [h.toMatched.hasCrlf_iff hplaced]
    have hsize := hrec.size
    rw [← hwritten] at hsize
    exact Nat.le_of_add_le_add_right hsize

/-! ## Repeated lines -/

/-- A hunk that deletes one line in front of another. -/
def repeatingSource : Bytes := Utf8.encode "--- f/g\n+++ f/g\n@@ -1,2 +1 @@\n-A\n B\n".toList

/-- What the third-party parser reads of `repeatingSource`. -/
def repeatingHunks : List (List NgHunk) :=
  [[⟨false, ["-A\n", " B\n"].map fun line => Utf8.encode line.toList⟩]]

def repeatingPatch : ParsedPatch :=
  ⟨"f/g".toList, [⟨Utf8.encode "A\nB\n".toList, Utf8.encode "B\n".toList⟩]⟩

def repeatedLines : Bytes := Utf8.encode "A\nA\nB\nB\n".toList

/-- What the patch leaves of them. -/
def fewerLines : Bytes := Utf8.encode "A\nB\nB\n".toList

/-- Deleting one `A` leaves another in front of a `B`, and two `B`s that hide the first step. -/
theorem inspect_repeatedLines :
    (inspect repeatingPatch repeatedLines).output false = some fewerLines := by decide

end Hapatchy.PatchEngine
