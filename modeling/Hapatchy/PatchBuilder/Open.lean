import Hapatchy.PatchBuilder.Rounds
import Hapatchy.PatchEngine.Unanchored

/-!
# Open pieces

Where `str.splitlines` breaks a line at another boundary, the piece before it
goes on into the next line of the diff. The parser then misses lines of the hunk.
-/

open Blocks Results

namespace Hapatchy.PatchBuilder

open PatchEngine Difflib

/-! ## Sections -/

section Sections

variable {α β γ : Type*} {P : α → Prop}

/-- Two texts of a head section and of what follows it are cut at the same place. -/
theorem section_append {s s' rest rest' : List α} (h : s ++ rest = s' ++ rest')
    (hs : ∀ l ∈ s, ¬ P l) (hs' : ∀ l ∈ s', ¬ P l) (hrest : ∀ l ∈ rest.head?, P l)
    (hrest' : ∀ l ∈ rest'.head?, P l) : s = s' ∧ rest = rest' := by
  induction s generalizing s' with
  | nil =>
    cases s' with
    | nil => exact ⟨rfl, h⟩
    | cons x s' =>
      rw [List.nil_append] at h
      rw [h] at hrest
      exact absurd (hrest x rfl) (hs' x List.mem_cons_self)
  | cons x s ih =>
    cases s' with
    | nil =>
      rw [List.nil_append] at h
      rw [← h] at hrest'
      exact absurd (hrest' x rfl) (hs x List.mem_cons_self)
    | cons y s' =>
      obtain ⟨rfl, hcut⟩ := List.cons.inj h
      obtain ⟨rfl, hrest⟩ := ih hcut (fun l hl => hs l (List.mem_cons_of_mem _ hl))
        fun l hl => hs' l (List.mem_cons_of_mem _ hl)
      exact ⟨rfl, hrest⟩

theorem head_sections {head : β → α} {tail : β → List α} {xs : List β} (h : ∀ x ∈ xs, P (head x)) :
    ∀ l ∈ (xs.flatMap fun x => head x :: tail x).head?, P l := by
  intro l hl
  cases xs with
  | nil => cases hl
  | cons x xs =>
    rw [List.flatMap_cons, List.cons_append, List.head?_cons, Option.mem_some_iff] at hl
    exact hl ▸ h x List.mem_cons_self

/-- Sections that start at the lines `P` are found again from the lines. -/
theorem exists_section {head : β → α} {tail : β → List α} {head' : γ → α} {tail' : γ → List α}
    {xs : List β} {ys : List γ} (hxs : ∀ x ∈ xs, P (head x) ∧ ∀ l ∈ tail x, ¬ P l)
    (hys : ∀ y ∈ ys, P (head' y) ∧ ∀ l ∈ tail' y, ¬ P l)
    (h : (xs.flatMap fun x => head x :: tail x) = ys.flatMap fun y => head' y :: tail' y) :
    ∀ y ∈ ys, ∃ x ∈ xs, head x = head' y ∧ tail x = tail' y := by
  induction ys generalizing xs with
  | nil => simp
  | cons y ys ih =>
    cases xs with
    | nil => cases h
    | cons x xs =>
      rw [List.forall_mem_cons] at hxs hys
      rw [List.flatMap_cons, List.flatMap_cons, List.cons_append, List.cons_append] at h
      obtain ⟨hhead, h⟩ := List.cons.inj h
      obtain ⟨htail, hcut⟩ := section_append h hxs.1.2 hys.1.2
        (head_sections fun x hx => (hxs.2 x hx).1) (head_sections fun y hy => (hys.2 y hy).1)
      intro z hz
      rcases List.mem_cons.mp hz with rfl | hz
      · exact ⟨x, List.mem_cons_self, hhead, htail⟩
      · obtain ⟨x', hx', hsame⟩ := ih hxs.2 hys.2 hcut z hz
        exact ⟨x', List.mem_cons_of_mem _ hx', hsame⟩

end Sections

/-! ## Counts -/

/-- A part of a list that lacks none of two kinds of elements lacks nothing. -/
theorem length_eq_of_sublist {α : Type*} {xs ys : List α} {P Q : α → Bool} (h : xs.Sublist ys)
    (hall : ∀ y ∈ ys, P y ∨ Q y) (hP : xs.countP P = ys.countP P) (hQ : xs.countP Q = ys.countP Q) :
    xs.length = ys.length := by
  induction h with
  | slnil => rfl
  | @cons xs ys y h ih =>
    have hle := h.countP_le (p := P)
    have hle' := h.countP_le (p := Q)
    rw [List.countP_cons] at hP hQ
    rcases hall y List.mem_cons_self with hy | hy <;> simp only [hy, if_true] at hP hQ <;> omega
  | @cons_cons xs ys y h ih =>
    rw [List.countP_cons, List.countP_cons, Nat.add_right_cancel_iff] at hP hQ
    rw [List.length_cons, List.length_cons, ih (fun z hz => hall z (List.mem_cons_of_mem _ hz)) hP hQ]

/-- The marks of a hunk count the lines of its sides. -/
theorem length_sides (body : List DiffLine) :
    (oldLines body).length = ((body.map DiffLine.shown).map List.head?).countP (· ≠ some '+') ∧
      (newLines body).length = ((body.map DiffLine.shown).map List.head?).countP (· ≠ some '-') := by
  rw [oldLines, newLines, List.length_map, List.length_map, List.map_map, List.countP_map,
    List.countP_map, List.countP_eq_length_filter, List.countP_eq_length_filter]
  constructor <;> refine congrArg List.length (List.filter_congr fun line _ => ?_) <;>
    obtain ⟨mark, text, terminated⟩ := line <;> cases mark <;> rfl

theorem length_marks (marks : List (Mark × Text)) :
    ((marks.filter (·.1 ≠ .insert)).map Prod.snd).length =
        ((marks.map marked).map List.head?).countP (· ≠ some '+') ∧
      ((marks.filter (·.1 ≠ .delete)).map Prod.snd).length =
        ((marks.map marked).map List.head?).countP (· ≠ some '-') := by
  rw [List.length_map, List.length_map, List.map_map, List.countP_map, List.countP_map,
    List.countP_eq_length_filter, List.countP_eq_length_filter]
  constructor <;> refine congrArg List.length (List.filter_congr fun line _ => ?_) <;>
    obtain ⟨mark, text⟩ := line <;> cases mark <;> rfl

/-! ## Whole lines -/

/-- The hunk starts and ends where lines of the two files do. -/
structure WholeLines (a b : List Text) (ops : List Opcode) : Prop where
  old : Closed '\n' (a.take (hunkRange ops).i1).flatten ∧
    Closed '\n' (a.take (hunkRange ops).i2).flatten
  new : Closed '\n' (b.take (hunkRange ops).j1).flatten ∧
    Closed '\n' (b.take (hunkRange ops).j2).flatten

theorem closed_encode {t : Text} (h : Closed '\n' t) : Closed lf (Utf8.encode t) := by
  rcases h with rfl | h
  · exact closed_nil
  · obtain ⟨init, rfl⟩ := List.getLast?_eq_some_iff.mp h
    rw [Utf8.encode_append]
    exact Or.inr (Ends.append_left _ rfl)

section WholeLines

variable {a b : List Text} {ops : List Opcode} {i j : Nat}

/-- The last line of a hunk that ends where a line does. -/
theorem ends_last_extract (hij : i ≤ j) (hclosed : Closed '\n' (a.take j).flatten)
    (hne : ∀ p ∈ a, p ≠ []) {side : List Text} {l : Text} (hside : side ++ [l] = a.extract i j) :
    Ends '\n' l := by
  have hl : l ∈ a := mem_of_mem_extract (hside ▸ List.mem_append_right _ List.mem_cons_self)
  rw [← take_append_extract hij, ← hside, List.flatten_append, List.flatten_append,
    List.flatten_singleton, ← List.append_assoc] at hclosed
  exact ends_of_closed_append hclosed (hne l hl)

/-- The last line of a hunk of whole lines ends one of its sides. -/
theorem ends_of_getLast (hspans : Spans a b ops) (hwhole : WholeLines a b ops)
    (ha : ∀ p ∈ a, p ≠ []) (hb : ∀ p ∈ b, p ≠ []) :
    ∀ p ∈ ((groupMarks a b ops).map marked).getLast?, Ends '\n' p := by
  obtain ⟨hold, hnew⟩ := hspans.covers.sides
  change ((groupMarks a b ops).filter (·.1 ≠ .insert)).map Prod.snd = _ at hold
  change ((groupMarks a b ops).filter (·.1 ≠ .delete)).map Prod.snd = _ at hnew
  generalize groupMarks a b ops = marks at hold hnew ⊢
  intro p hp
  rw [List.getLast?_map] at hp
  obtain ⟨line, hline, rfl⟩ := Option.map_eq_some_iff.mp hp
  obtain ⟨init, rfl⟩ := List.getLast?_eq_some_iff.mp hline
  have hends : Ends '\n' line.2 := by
    by_cases hmark : line.1 = .insert
    · have hother : line.1 ≠ Mark.delete := by
        rw [hmark]
        decide
      rw [List.filter_append, List.filter_cons_of_pos (by simpa using hother), List.filter_nil,
        List.map_append, List.map_singleton] at hnew
      exact ends_last_extract hspans.new.le hwhole.new.2 hb hnew
    · rw [List.filter_append, List.filter_cons_of_pos (by simpa using hmark), List.filter_nil,
        List.map_append, List.map_singleton] at hold
      exact ends_last_extract hspans.old.le hwhole.old.2 ha hold
  rw [marked, Ends, List.getLast?_cons_of_ne_nil hends.ne_nil]
  exact hends

/-- Whole lines that stand in one place only stand where they were taken from. -/
theorem foundAt_of_unique {data : Bytes} (hdata : data = Utf8.encode a.flatten) (hij : i < j)
    (hj : j ≤ a.length) (hne : ∀ p ∈ a, p ≠ [])
    (hclosed : Closed '\n' (a.take i).flatten ∧ Closed '\n' (a.take j).flatten)
    (h : ∃ k, FoundAt lf data (Utf8.encode (a.extract i j).flatten) k) :
    FoundAt lf data (Utf8.encode (a.extract i j).flatten) (linesBefore a i).length := by
  obtain ⟨k, hfound⟩ := h
  have hside : Utf8.encode (a.extract i j).flatten ≠ [] := by
    have hlength : (a.extract i j).length = j - i := by
      rw [List.extract_eq_take_drop, List.length_take, List.length_drop]
      omega
    have hpieces := length_le_length_flatten fun p (hp : p ∈ a.extract i j) =>
      hne p (mem_of_mem_extract hp)
    have hbytes := Utf8.length_le_encode (a.extract i j).flatten
    exact List.ne_nil_of_length_pos (by omega)
  have hends : Ends lf (Utf8.encode (a.extract i j).flatten) := by
    have hstop := closed_encode hclosed.2
    rw [← linesBefore, ← linesBefore_append hij.le] at hstop
    exact ends_of_closed_append hstop hside
  have hoccurs : OccursAt lf data (Utf8.encode (a.extract i j).flatten) (linesBefore a i).length := by
    refine ⟨linesBefore a i, Utf8.encode (a.drop j).flatten, ?_, rfl, closed_encode hclosed.1,
      Or.inl hends⟩
    rw [hdata, linesBefore_append hij.le, linesBefore_drop]
  rw [hfound.2 _ hoccurs]
  exact hfound

end WholeLines

/-! ## A hunk -/

theorem char_injective : Function.Injective Mark.char := by
  intro mark mark' h
  revert h
  cases mark <;> cases mark' <;> decide

theorem eq_of_shown {body body' : List DiffLine}
    (h : body.map DiffLine.shown = body'.map DiffLine.shown)
    (hbody : ∀ line ∈ body, line.terminated = true)
    (hbody' : ∀ line ∈ body', line.terminated = true) : body = body' := by
  induction body generalizing body' with
  | nil => exact (List.map_eq_nil_iff.mp h.symm).symm
  | cons line body ih =>
    cases body' with
    | nil => cases h
    | cons line' body' =>
      rw [List.map_cons, List.map_cons, List.cons.injEq] at h
      rw [List.forall_mem_cons] at hbody hbody'
      have hsame : line = line' := by
        obtain ⟨mark, t, terminated⟩ := line
        obtain ⟨mark', t', terminated'⟩ := line'
        obtain ⟨hmark, ht⟩ := List.cons.inj h.1
        rw [DiffLine.mk.injEq]
        exact ⟨char_injective hmark, ht, hbody.1.trans hbody'.1.symm⟩
      rw [hsame, ih h.2 hbody.2 hbody'.2]

section Hunk

variable {a b : List Text} {ops : List Opcode} (ha : ∀ p ∈ a, Piece p) (hb : ∀ p ∈ b, Piece p)

include ha hb

theorem piece_marked : ∀ p ∈ (groupMarks a b ops).map marked, p ≠ [] ∧ '\n' ∉ p.dropLast := by
  intro p hp
  obtain ⟨line, hline, rfl⟩ := List.mem_map.mp hp
  obtain ⟨op, -, hmem⟩ := List.mem_flatMap.mp hline
  have hpiece : Piece line.2 := (mem_of_mem_opcodeMarks hmem).elim (ha _) (hb _)
  have houtput := outputPiece_marked hpiece.ne_nil hpiece.bare hpiece.plain
  exact ⟨houtput.ne_nil, houtput.bare⟩

/-- The lines of a hunk start with the marks of `difflib`. -/
theorem head_marked {l : Text} (hl : l ∈ lines '\n' ((groupMarks a b ops).map marked).flatten) :
    ∃ mark : Mark, l.head? = some mark.char := by
  have hheads := heads_lines_sublist (@piece_marked a b ops ha hb)
  obtain ⟨_, hp, hhead⟩ := List.mem_map.mp (hheads.subset (List.mem_map_of_mem hl))
  obtain ⟨line, -, rfl⟩ := List.mem_map.mp hp
  exact ⟨line.1, hhead.symm⟩

variable {hunk : DiffHunk} (hlines : (hunk.body.flatMap DiffLine.lines).map (· ++ ['\n']) =
  lines '\n' ((groupMarks a b ops).map marked).flatten)

include hlines

theorem terminated_of_lines : ∀ line ∈ hunk.body, line.terminated = true := by
  intro line hline
  by_contra hopen
  have hmem : noNewline ++ ['\n'] ∈ lines '\n' ((groupMarks a b ops).map marked).flatten := by
    rw [← hlines]
    refine List.mem_map.mpr ⟨noNewline, List.mem_flatMap.mpr ⟨line, hline, ?_⟩, rfl⟩
    rw [DiffLine.lines, if_neg hopen]
    exact List.mem_cons_of_mem _ List.mem_cons_self
  obtain ⟨mark, hmark⟩ := head_marked ha hb hmem
  rw [List.head?_append, noNewline_head, Option.some_or] at hmark
  cases mark <;> exact absurd hmark (by decide)

theorem shown_of_lines : (hunk.body.map DiffLine.shown).map (· ++ ['\n']) =
    lines '\n' ((groupMarks a b ops).map marked).flatten := by
  rw [← hlines]
  refine congrArg (List.map (· ++ ['\n'])) ?_
  rw [List.map_eq_flatMap]
  refine List.flatMap_congr fun line hline => ?_
  rw [DiffLine.lines, if_pos (terminated_of_lines ha hb hlines line hline)]

variable {oldStart newStart : Nat} (hlength : a.length + 1 < 10 ^ 7 ∧ b.length + 1 < 10 ^ 7)
  (hspans : Spans a b ops) (hwhole : WholeLines a b ops) (hvalid : hunk.Valid oldStart newStart)
  (hheader : hunk.header.text = (rangeHeader (hunkRange ops)).text)

include hlength hspans hwhole hvalid hheader

/-- The header counts the pieces, and the parser the lines: no piece is open. -/
theorem ends_of_lines : ∀ p ∈ (groupMarks a b ops).map marked, Ends '\n' p := by
  by_contra hopen
  simp only [not_forall] at hopen
  obtain ⟨p, hp, hopen⟩ := hopen
  have hpieces := @piece_marked a b ops ha hb
  have hheads := heads_lines_sublist hpieces
  have hshort := length_lines_flatten_lt hpieces
    (ends_of_getLast hspans hwhole (fun p hp => (ha p hp).ne_nil) fun p hp => (hb p hp).ne_nil)
    ⟨p, hp, hopen⟩
  rw [← shown_of_lines ha hb hlines] at hheads hshort
  obtain ⟨hwithin, hwithin'⟩ := hspans.within
  have hcounts := hunkHeader_eq_ok.mpr ⟨hunk.header, rfl, hvalid.means⟩
  have hmeans := hunkHeader_eq_ok.mpr ⟨_, rfl, rangeHeader_means
    ⟨hspans.old, by omega⟩ ⟨hspans.new, by omega⟩⟩
  rw [hheader, hmeans, Except.ok.injEq, HunkHeader.mk.injEq] at hcounts
  have hsides := length_sides hunk.body
  have hmarks := length_marks (groupMarks a b ops)
  obtain ⟨hold, hnew⟩ := hspans.covers.sides
  change ((groupMarks a b ops).filter (·.1 ≠ .insert)).map Prod.snd = _ at hold
  change ((groupMarks a b ops).filter (·.1 ≠ .delete)).map Prod.snd = _ at hnew
  rw [hold, hnew, List.extract_eq_take_drop, List.extract_eq_take_drop, List.length_take,
    List.length_take, List.length_drop, List.length_drop, Nat.min_eq_left (by omega),
    Nat.min_eq_left (by omega)] at hmarks
  have hsame : (hunk.body.map DiffLine.shown).map List.head? =
      ((hunk.body.map DiffLine.shown).map (· ++ ['\n'])).map List.head? := by
    rw [List.map_map, List.map_map, List.map_map]
    exact List.map_congr_left fun line _ => rfl
  rw [hsame] at hsides
  have hcount := length_eq_of_sublist (P := (· ≠ some '+')) (Q := (· ≠ some '-')) hheads
    (fun y _ => by by_cases hy : y = some '+' <;> simp [hy])
    (by rw [← hsides.1, ← hmarks.1, hcounts.2.1]) (by rw [← hsides.2, ← hmarks.2, hcounts.2.2.2])
  simp only [List.length_map] at hcount hshort
  omega

/-- A hunk that is read is read as it was written. -/
theorem takes_of_lines : Takes a b ops := by
  have hpieces := ends_of_lines ha hb hlines hlength hspans hwhole hvalid hheader
  have hends : ∀ line ∈ groupMarks a b ops, Ends '\n' line.2 := by
    intro line hline
    have hmarked := hpieces _ (List.mem_map_of_mem hline)
    obtain ⟨op, -, hmem⟩ := List.mem_flatMap.mp hline
    have hpiece : Piece line.2 := (mem_of_mem_opcodeMarks hmem).elim (ha _) (hb _)
    rwa [marked, Ends, List.getLast?_cons_of_ne_nil hpiece.ne_nil] at hmarked
  refine ⟨hends, ?_⟩
  obtain ⟨hold, hnew⟩ := hspans.sides hends
  have hbody : hunk.body = (hunkOf a b ops).body := by
    have hshown := shown_of_lines ha hb hlines
    rw [lines_flatten (fun l hl => hpieces l (List.mem_of_mem_dropLast hl))
      fun l hl => (piece_marked ha hb l hl).2, List.filter_eq_self.mpr fun l hl =>
        decide_eq_true (hpieces l hl).ne_nil] at hshown
    have hwritten := lines_hunkOf_newline hends
    rw [lines_hunkOf, List.map_cons, List.cons.injEq] at hwritten
    rw [← hwritten.2] at hshown
    refine eq_of_shown (List.map_injective_iff.mpr (List.append_left_injective _) hshown)
      (terminated_of_lines ha hb hlines) fun line hline => ?_
    obtain ⟨_, -, rfl⟩ := List.mem_map.mp hline
    rfl
  rw [← hold, ← hnew, ← hbody]
  exact hvalid.changes

end Hunk

/-! ## A candidate -/

section Lines

variable {a b : List Text} {groups : List (List Opcode)}

/-- The lines of hunks that end lines are the lines of each hunk. -/
theorem lines_groups (hheader : ∀ ops ∈ groups, '\n' ∉ (rangeHeader (hunkRange ops)).text)
    (hends : ∀ ops ∈ groups, ∀ p ∈ ((groupMarks a b ops).map marked).getLast?, Ends '\n' p) :
    lines '\n' (groups.flatMap fun ops => ((rangeHeader (hunkRange ops)).text ++ ['\n']) ::
      (groupMarks a b ops).map marked).flatten = groups.flatMap fun ops =>
        ((rangeHeader (hunkRange ops)).text ++ ['\n']) ::
          lines '\n' ((groupMarks a b ops).map marked).flatten := by
  induction groups with
  | nil => rfl
  | cons ops groups ih =>
    rw [List.forall_mem_cons] at hheader hends
    have hclosed : Closed '\n' ((groupMarks a b ops).map marked).flatten := by
      generalize (groupMarks a b ops).map marked = ps at hends
      rcases List.eq_nil_or_concat ps with rfl | ⟨init, last, rfl⟩
      · exact closed_nil
      · rw [List.concat_eq_append] at hends ⊢
        have hlast := hends.1 last List.getLast?_concat
        rw [List.flatten_append, List.flatten_singleton]
        exact (Ends.append_left _ hlast).closed
    rw [List.flatMap_cons, List.flatMap_cons, List.cons_append, List.flatten_cons,
      lines_line_append hheader.1, List.flatten_append, lines_append hclosed,
      ih hheader.2 hends.2, List.cons_append]

end Lines

theorem head_body (body : List DiffLine) :
    ∀ l ∈ (body.flatMap DiffLine.lines).map (· ++ ['\n']), l.head? ≠ some '@' := by
  intro l hl
  obtain ⟨_, hmem, rfl⟩ := List.mem_map.mp hl
  obtain ⟨line, -, hmem⟩ := List.mem_flatMap.mp hmem
  have hmark : (line.shown ++ ['\n']).head? ≠ some '@' := by
    obtain ⟨mark, _, _⟩ := line
    cases mark <;> simp [DiffLine.shown, Mark.char]
  rw [DiffLine.lines] at hmem
  split at hmem
  · rw [List.mem_singleton.mp hmem]
    exact hmark
  · rcases List.mem_cons.mp hmem with rfl | hmem
    · exact hmark
    · rw [List.mem_singleton.mp hmem, List.head?_append, noNewline_head, Option.some_or]
      decide

/-- The lines of a diff after a first line that is no preamble. -/
theorem lines_of_head {diff : Diff} {target oldLine newLine : Text} {rest : List Text}
    (hlines : (diff.lines target).map (· ++ ['\n']) = oldLine :: newLine :: rest)
    (hold : oldLine.head? = some '-') :
    (diff.hunks.flatMap fun hunk => (hunk.header.text ++ ['\n']) ::
      (hunk.body.flatMap DiffLine.lines).map (· ++ ['\n'])) = rest := by
  have hhunks : (diff.hunks.flatMap DiffHunk.lines).map (· ++ ['\n']) =
      diff.hunks.flatMap fun hunk => (hunk.header.text ++ ['\n']) ::
        (hunk.body.flatMap DiffLine.lines).map (· ++ ['\n']) := by
    rw [List.map_flatMap]
    rfl
  rw [Diff.lines, FileHeaders.lines, List.map_append, hhunks] at hlines
  cases hpreamble : diff.headers.preamble with
  | some index =>
    rw [hpreamble, FileHeaders.preambleLines, List.cons_append, List.map_cons, List.cons_append] at hlines
    obtain ⟨tail, htail⟩ := startswith_iff.mp (gitLine_start target)
    have hd : "diff --git ".toList.head? = some 'd' := rfl
    rw [← (List.cons.inj hlines).1, htail, List.append_assoc, List.head?_append, hd,
      Option.some_or] at hold
    exact absurd hold (by decide)
  | none =>
    rw [hpreamble] at hlines
    exact (List.cons.inj (List.cons.inj hlines).2).2

section Candidate

variable {grouped : GroupedOpcodes} {fromstring : Fromstring} {original edited : Bytes}
  {before after target : Text} {n : Nat} {patch : ParsedPatch}
  (hgroups : Groups (splitlines before) (splitlines after) 0 0
    (grouped (splitlines before) (splitlines after) n))
  (hwhole : ∀ ops ∈ grouped (splitlines before) (splitlines after) n,
    WholeLines (splitlines before) (splitlines after) ops)
  (horiginal : EditorText original before) (hedited : EditorText edited after)
  (hplain : '\n' ∉ target ∧ Plain target)

include hgroups hwhole horiginal hedited hplain

/-- The parser refuses a candidate with an open piece. -/
theorem takes_of_parse
    (hparse : parse fromstring (candidate grouped before after target n) target = .ok patch) :
    ∀ ops ∈ grouped (splitlines before) (splitlines after) n,
      Takes (splitlines before) (splitlines after) ops := by
  rcases eq_or_ne (grouped (splitlines before) (splitlines after) n) [] with hnil | hne
  · rw [hnil]
    simp
  obtain ⟨diff, crlf, hvalid, hraw, hsize, -, -⟩ := exists_diff_of_parse hparse
  have htext := hvalid.text_render (hraw ▸ hsize)
  rw [← hraw] at htext
  have hlines := lines_candidate hgroups.spans horiginal hedited hplain htext rfl
    fun l hl => (hvalid.plain l hl).2
  have hpiece : ∀ p ∈ candidateLines grouped before after target n, OutputPiece p :=
    fun p hp => outputPiece_candidate hgroups.spans horiginal hedited hplain hp
  rw [candidateLines, unifiedDiff_eq hgroups.spans hne] at hlines hpiece
  simp only [List.forall_mem_cons] at hpiece
  obtain ⟨hfirst, hsecond, hbody⟩ := hpiece
  have hbare : ∀ {x : Text}, OutputPiece (x ++ ['\n']) → '\n' ∉ x := fun h => by
    have hbare := h.bare
    rwa [List.dropLast_concat] at hbare
  have ha : ∀ p ∈ splitlines before, Piece p := fun p hp => horiginal.piece hp
  have hb : ∀ p ∈ splitlines after, Piece p := fun p hp => hedited.piece hp
  have hheader : ∀ ops ∈ grouped (splitlines before) (splitlines after) n,
      '\n' ∉ (rangeHeader (hunkRange ops)).text := fun ops hops =>
    hbare (hbody _ (List.mem_flatMap.mpr ⟨ops, hops, List.mem_cons_self⟩))
  rw [List.flatten_cons, List.flatten_cons, lines_line_append (hbare hfirst),
    lines_line_append (hbare hsecond), lines_groups hheader fun ops hops =>
      ends_of_getLast (hgroups.spans ops hops) (hwhole ops hops) (fun p hp => (ha p hp).ne_nil)
        fun p hp => (hb p hp).ne_nil] at hlines
  -- The lines that start a hunk are those of its header.
  have hat : ∀ header : DiffHeader, (header.text ++ ['\n']).head? = some '@' := fun header => by
    have hat : "@@ -".toList = ['@', '@', ' ', '-'] := rfl
    rw [DiffHeader.text, hat]
    rfl
  have hsections := lines_of_head hlines (by
    have hstart : "--- ".toList = ['-', '-', '-', ' '] := rfl
    rw [hstart]
    rfl)
  have hnot : ∀ ops, ∀ l ∈ lines '\n' ((groupMarks (splitlines before) (splitlines after) ops).map
      marked).flatten, l.head? ≠ some '@' := by
    intro ops l hl
    obtain ⟨mark, hmark⟩ := head_marked ha hb hl
    rw [hmark]
    cases mark <;> decide
  intro ops hops
  obtain ⟨hunk, hhunk, hhead, htail⟩ := exists_section (P := fun l : Text => l.head? = some '@')
    (fun hunk _ => ⟨hat _, head_body hunk.body⟩) (fun ops _ => ⟨hat _, hnot ops⟩) hsections ops hops
  obtain ⟨oldStart, newStart, hvalidHunk⟩ := hvalid.ordered.valid hunk hhunk
  exact takes_of_lines ha hb htail ⟨horiginal.length_splitlines, hedited.length_splitlines⟩
    (hgroups.spans ops hops) (hwhole ops hops) hvalidHunk (List.append_cancel_right hhead)

/-- A round of whole lines that proves its candidate is clean. -/
theorem clean_of_leads (hne : before ≠ after) (htarget : path target = .ok target)
    (haccepts : Accepts fromstring)
    (hsize : (candidate grouped before after target n).length ≤ maxPatchBytes)
    (hleads : leadsThereAndBack fromstring original edited target
      (candidate grouped before after target n) = .ok true) :
    Clean original edited (splitlines before) (splitlines after)
      (grouped (splitlines before) (splitlines after) n) := by
  obtain ⟨patch, hparse, hforward, hback⟩ := leads_iff_outputs.mp hleads
  have htakes := takes_of_parse hgroups hwhole horiginal hedited hplain hparse
  rw [parse_of_takes hgroups horiginal hedited hne htarget hplain haccepts hsize htakes] at hparse
  obtain rfl := Except.ok.inj hparse
  obtain ⟨hold, hapart⟩ := found_of_output horiginal hforward
  obtain ⟨hnew, hapart'⟩ := found_of_output hedited hback
  rw [List.map_map] at hapart hapart'
  rw [List.forall_mem_map] at hold hnew
  refine ⟨htakes, fun ops hops => ?_, hapart, hapart'⟩
  have hspans := hgroups.spans ops hops
  exact ⟨foundAt_of_unique (by rw [flatten_splitlines, horiginal.eq]) hspans.old hspans.within.1
      (fun p hp => (horiginal.piece hp).ne_nil) (hwhole ops hops).old (hold ops hops),
    foundAt_of_unique (by rw [flatten_splitlines, hedited.eq]) hspans.new hspans.within.2
      (fun p hp => (hedited.piece hp).ne_nil) (hwhole ops hops).new (hnew ops hops)⟩

end Candidate

end Hapatchy.PatchBuilder
