import Hapatchy.PatchBuilder.Format

/-!
# The hunks of a round

What `difflib` writes for groups of opcodes, as a diff of the parser. Where each
line ends in a newline, the diff is valid.
-/

open Blocks

namespace Hapatchy.Difflib

open PatchEngine

/-! ## Headers -/

def countText (n : Nat) : Option Text := if n = 1 then none else some (str n)

def rangeHeader (r : Range) : DiffHeader :=
  ⟨str (r.i1 + 1), countText (r.i2 - r.i1), str (r.j1 + 1), countText (r.j2 - r.j1), none⟩

theorem formatRangeUnified_of_lt {start stop : Nat} (h : start < stop) :
    formatRangeUnified start stop =
      str (start + 1) ++ DiffHeader.count (countText (stop - start)) := by
  have hcomma : ",".toList = [','] := rfl
  rw [formatRangeUnified, countText, if_neg (show stop - start ≠ 0 by omega)]
  split
  · exact (List.append_nil _).symm
  · rw [DiffHeader.count, hcomma]
    rfl

theorem rangeHeader_means {r : Range} (hold : r.i1 < r.i2 ∧ r.i2 < 10 ^ 7)
    (hnew : r.j1 < r.j2 ∧ r.j2 < 10 ^ 7) :
    (rangeHeader r).Means ⟨r.i1 + 1, r.i2 - r.i1, r.j1 + 1, r.j2 - r.j1⟩ := by
  have hstr : ∀ {k : Nat}, k < 10 ^ 7 → Numeral (str k) k := fun hk =>
    numeral_str ((length_str_le (by decide) hk).trans (by decide))
  have hcount : ∀ {k : Nat}, k < 10 ^ 7 → Numeral ((countText k).getD "1".toList) k := by
    intro k hk
    rw [countText]
    split
    · rename_i hone
      exact numeral_one.mpr hone
    · exact hstr hk
  have hpositive : 1 ≤ r.i2 - r.i1 ∧ 1 ≤ r.j2 - r.j1 := by omega
  exact ⟨hstr (by omega), hcount (by omega), hstr (by omega), hcount (by omega),
    Nat.le_add_left 1 _, hpositive.1, Nat.le_add_left 1 _, hpositive.2⟩

theorem groupHeader_eq {first last : Opcode} (hold : first.i1 < last.i2)
    (hnew : first.j1 < last.j2) : groupHeader first last =
      (rangeHeader ⟨first.i1, last.i2, first.j1, last.j2⟩).text ++ ['\n'] := by
  have hend : " @@\n".toList = " @@".toList ++ ['\n'] := rfl
  unfold groupHeader
  rw [formatRangeUnified_of_lt hold, formatRangeUnified_of_lt hnew, hend]
  unfold DiffHeader.text rangeHeader
  simp only [DiffHeader.headingText, List.append_assoc, List.append_nil]

/-! ## Lines -/

/-- The marked lines of a hunk. -/
abbrev groupMarks (a b : List Text) (ops : List Opcode) : List (Mark × Text) :=
  ops.flatMap (opcodeMarks a b)

section Lines

variable {grouped : GroupedOpcodes} {a b : List Text} {ops : List Opcode} {n : Nat}

theorem Spans.groupLines_eq (h : Spans a b ops) : groupLines a b ops =
    ((rangeHeader (hunkRange ops)).text ++ ['\n']) :: (groupMarks a b ops).map marked := by
  have hold := h.old
  have hnew := h.new
  obtain ⟨first, last, hfirst, hlast, hrange⟩ := h.ends
  rw [hrange] at hold hnew ⊢
  rw [groupLines, hfirst, hlast, groupMarks, List.map_flatMap]
  dsimp only
  rw [groupHeader_eq hold hnew, List.flatMap_congr fun op _ => opcodeLines_eq a b op]

theorem unifiedDiff_eq {fromfile tofile : Text} (hspans : ∀ ops ∈ grouped a b n, Spans a b ops)
    (hne : grouped a b n ≠ []) : unifiedDiff grouped a b fromfile tofile n =
      ("--- ".toList ++ fromfile ++ ['\n']) :: ("+++ ".toList ++ tofile ++ ['\n']) ::
        (grouped a b n).flatMap fun ops =>
          ((rangeHeader (hunkRange ops)).text ++ ['\n']) :: (groupMarks a b ops).map marked := by
  rw [unifiedDiff]
  split
  · rename_i hnil
    exact absurd hnil hne
  · rw [List.flatMap_congr fun ops hops => (hspans ops hops).groupLines_eq]

end Lines

/-! ## Terminated lines -/

/-- A terminated line of a side. -/
def diffLine (line : Mark × Text) : DiffLine := { mark := line.1, text := line.2.dropLast }

def hunkOf (a b : List Text) (ops : List Opcode) : DiffHunk :=
  ⟨rangeHeader (hunkRange ops), (groupMarks a b ops).map diffLine⟩

def diffOf (a b : List Text) (groups : List (List Opcode)) : Diff where
  headers := { prefixed := true }
  hunks := groups.map (hunkOf a b)

theorem dropLast_append_of_ends {l : Text} (h : Ends '\n' l) : l.dropLast ++ ['\n'] = l := by
  obtain ⟨init, rfl⟩ := List.getLast?_eq_some_iff.mp h
  rw [List.dropLast_concat]

section Terminated

variable {a b : List Text} {ops : List Opcode}
  (hends : ∀ line ∈ groupMarks a b ops, Ends '\n' line.2)

theorem lines_hunkOf : (hunkOf a b ops).lines = (rangeHeader (hunkRange ops)).text ::
    ((groupMarks a b ops).map diffLine).map DiffLine.shown := by
  have hbody : ((groupMarks a b ops).map diffLine).flatMap DiffLine.lines =
      ((groupMarks a b ops).map diffLine).map DiffLine.shown := by
    rw [List.flatMap_map, List.map_map, List.map_eq_flatMap]
    rfl
  rw [DiffHunk.lines, hunkOf, hbody]

include hends

theorem lines_hunkOf_newline : (hunkOf a b ops).lines.map (· ++ ['\n']) =
    ((rangeHeader (hunkRange ops)).text ++ ['\n']) :: (groupMarks a b ops).map marked := by
  rw [lines_hunkOf, List.map_cons, List.map_map, List.map_map]
  refine congrArg _ (List.map_congr_left fun line hline => ?_)
  change line.1.char :: line.2.dropLast ++ ['\n'] = line.1.char :: line.2
  rw [List.cons_append, dropLast_append_of_ends (hends line hline)]

theorem value_diffLine {line : Mark × Text} (h : line ∈ groupMarks a b ops) :
    (diffLine line).value = line.2 := dropLast_append_of_ends (hends line h)

/-- The two sides are lines of the two texts. -/
theorem Spans.sides (h : Spans a b ops) :
    oldLines (hunkOf a b ops).body = a.extract (hunkRange ops).i1 (hunkRange ops).i2 ∧
      newLines (hunkOf a b ops).body = b.extract (hunkRange ops).j1 (hunkRange ops).j2 := by
  obtain ⟨hold, hnew⟩ := h.covers.sides
  rw [← hold, ← hnew, oldLines, newLines, hunkOf, List.filter_map, List.filter_map, List.map_map,
    List.map_map]
  exact ⟨List.map_congr_left fun line hline => value_diffLine hends (List.mem_of_mem_filter hline),
    List.map_congr_left fun line hline => value_diffLine hends (List.mem_of_mem_filter hline)⟩

end Terminated

/-! ## Valid diffs -/

/-- The two sides of a hunk. -/
def groupHunk (a b : List Text) (ops : List Opcode) : Hunk :=
  ⟨Utf8.encode (a.extract (hunkRange ops).i1 (hunkRange ops).i2).flatten,
    Utf8.encode (b.extract (hunkRange ops).j1 (hunkRange ops).j2).flatten⟩

/-- Hunks that the parser takes as they are: each line ends in a newline, and the sides differ. -/
structure Takes (a b : List Text) (ops : List Opcode) : Prop where
  ends : ∀ line ∈ groupMarks a b ops, Ends '\n' line.2
  changes : a.extract (hunkRange ops).i1 (hunkRange ops).i2 ≠
    b.extract (hunkRange ops).j1 (hunkRange ops).j2

section Valid

variable {grouped : GroupedOpcodes} {a b : List Text} {n : Nat} {target : Text}
  (hlength : a.length + 1 < 10 ^ 7 ∧ b.length + 1 < 10 ^ 7)

include hlength

theorem Takes.valid {ops : List Opcode} (h : Takes a b ops) (hspans : Spans a b ops) :
    (hunkOf a b ops).Valid ((hunkRange ops).i1 + 1) ((hunkRange ops).j1 + 1) := by
  obtain ⟨hold, hnew⟩ := hspans.sides h.ends
  have hwithin := hspans.within
  have hlt := hspans.old
  have hlt' := hspans.new
  have hterminated : ∀ {side : List DiffLine}, (∀ line ∈ side, line ∈ (hunkOf a b ops).body) →
      ∀ l ∈ side.map DiffLine.value, Ends '\n' l := by
    intro side hside l hl
    obtain ⟨_, hline, rfl⟩ := List.mem_map.mp hl
    obtain ⟨line, hmem, rfl⟩ := List.mem_map.mp (hside _ hline)
    rw [value_diffLine h.ends hmem]
    exact h.ends line hmem
  refine ⟨?_, fun l hl => ?_, fun l hl => ?_, ?_⟩
  · have hlengths : (a.extract (hunkRange ops).i1 (hunkRange ops).i2).length =
        (hunkRange ops).i2 - (hunkRange ops).i1 ∧
        (b.extract (hunkRange ops).j1 (hunkRange ops).j2).length =
          (hunkRange ops).j2 - (hunkRange ops).j1 := by
      constructor <;> rw [List.extract_eq_take_drop, List.length_take, List.length_drop] <;> omega
    rw [hold, hnew, hlengths.1, hlengths.2]
    exact rangeHeader_means ⟨hlt, by omega⟩ ⟨hlt', by omega⟩
  · exact hterminated (fun line hline => List.mem_of_mem_filter hline) l (List.mem_of_mem_dropLast hl)
  · exact hterminated (fun line hline => List.mem_of_mem_filter hline) l (List.mem_of_mem_dropLast hl)
  · rw [hold, hnew]
    exact h.changes

theorem ordered_hunks {i j previousOld previousNew : Nat} {groups : List (List Opcode)}
    (hgroups : Groups a b i j groups) (htakes : ∀ ops ∈ groups, Takes a b ops)
    (hold : previousOld ≤ i + 1) (hnew : previousNew ≤ j + 1) :
    Ordered previousOld previousNew (groups.map (hunkOf a b)) := by
  induction groups generalizing i j previousOld previousNew with
  | nil => exact trivial
  | cons ops groups ih =>
    obtain ⟨hi, hj, -, hspans, hrest⟩ := hgroups
    rw [List.forall_mem_cons] at htakes
    have hvalid := htakes.1.valid hlength hspans
    obtain ⟨hsideOld, hsideNew⟩ := hspans.sides htakes.1.ends
    refine ⟨_, _, hvalid, by omega, by omega, ih hrest htakes.2 ?_ ?_⟩
    · have hlt := hspans.old
      rw [hsideOld, List.extract_eq_take_drop, List.length_take, List.length_drop]
      omega
    · have hlt := hspans.new
      rw [hsideNew, List.extract_eq_take_drop, List.length_take, List.length_drop]
      omega

end Valid

section Diff

variable {grouped : GroupedOpcodes} {a b : List Text} {n : Nat} {target : Text}
  (ha : ∀ p ∈ a, Piece p) (hb : ∀ p ∈ b, Piece p)
  (hlength : a.length + 1 < 10 ^ 7 ∧ b.length + 1 < 10 ^ 7)
  (hgroups : Groups a b 0 0 (grouped a b n)) (hne : grouped a b n ≠ [])
  (htakes : ∀ ops ∈ grouped a b n, Takes a b ops)

include hgroups hne htakes

theorem unifiedDiff_eq_lines :
    unifiedDiff grouped a b ("a/".toList ++ target) ("b/".toList ++ target) n =
      ((diffOf a b (grouped a b n)).lines target).map (· ++ ['\n']) := by
  rw [unifiedDiff_eq hgroups.spans hne, Diff.lines, List.map_append, List.map_flatMap, diffOf,
    List.flatMap_map, List.flatMap_congr fun ops hops => lines_hunkOf_newline (htakes ops hops).ends]
  simp only [FileHeaders.lines, FileHeaders.preambleLines, FileHeaders.oldLine, FileHeaders.newLine,
    FileHeaders.oldPath, FileHeaders.newPath, FileHeaders.suffixText, List.append_nil]
  rfl

include ha hb hlength

theorem valid_diffOf (htarget : path target = .ok target) (hplain : '\n' ∉ target ∧ Plain target) :
    (diffOf a b (grouped a b n)).Valid target := by
  have hslash : Plain "a/".toList ∧ Plain "b/".toList :=
    ⟨⟨by decide, by decide⟩, by decide, by decide⟩
  refine ⟨htarget, ?_, by simpa [diffOf] using hne,
    ordered_hunks hlength hgroups htakes (Nat.zero_le _) (Nat.zero_le _), ?_⟩
  · intro line h
    cases h
  · intro line hline
    have hmem : line ++ ['\n'] ∈ unifiedDiff grouped a b ("a/".toList ++ target)
        ("b/".toList ++ target) n := by
      rw [unifiedDiff_eq_lines hgroups hne htakes]
      exact List.mem_map.mpr ⟨line, hline, rfl⟩
    have hpiece := outputPiece_of_mem_unifiedDiff hgroups.spans ha hb hlength
      ⟨by simp [hplain.1], plain_append.mpr ⟨hslash.1, hplain.2⟩⟩
      ⟨by simp [hplain.1], plain_append.mpr ⟨hslash.2, hplain.2⟩⟩ hmem
    have hbare := hpiece.bare
    rw [List.dropLast_concat] at hbare
    exact ⟨(plain_append.mp hpiece.plain).1, hbare⟩

end Diff

end Hapatchy.Difflib
