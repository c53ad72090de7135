import Mathlib.Data.Bool.AllAny
import Hapatchy.PatchBuilder.Hunks

/-!
# Rounds

A round proves its candidate when its hunks are made of whole lines and stand
where they are for, and nowhere else.
-/

open Blocks Results

namespace Hapatchy.PatchBuilder

open PatchEngine Difflib

/-! ## Accepted edits -/

/-- A text that the editor takes. -/
structure EditorText (data : Bytes) (t : Text) : Prop where
  eq : data = Utf8.encode t
  size : data.length ≤ maxEditorBytes
  plain : Plain t
  ends : Ends '\n' t

theorem editorText_of_validate {data : Bytes} {t : Text} (h : validateEditorText data = .ok t) :
    EditorText data t := by
  rw [validateEditorText] at h
  split at h
  · cases h
  rename_i hsize
  split at h
  · cases h
  split at h
  · cases h
  rename_i value hdecode
  split at h
  · cases h
  rename_i hnul
  split at h
  · cases h
  rename_i hformat
  obtain rfl := pure_eq_ok.mp h
  simp only [not_or, not_not] at hformat
  exact ⟨Utf8.decode_eq_some_iff.mp hdecode, Nat.not_lt.mp hsize, ⟨hformat.1, hnul⟩, hformat.2⟩

namespace EditorText

variable {data : Bytes} {t : Text} (h : EditorText data t)

include h

theorem piece {p : Text} (hp : p ∈ splitlines t) : Piece p := by
  obtain ⟨hne, hbare⟩ := pieces_splitlines h.plain.1 p hp
  have hmem : ∀ c ∈ p, c ∈ t := by
    intro c hc
    rw [← flatten_splitlines t]
    exact List.mem_flatten.mpr ⟨p, hp, hc⟩
  exact ⟨hne, hbare, fun hc => h.plain.1 (hmem _ hc), fun hc => h.plain.2 (hmem _ hc)⟩

theorem splitlines_ne_nil : splitlines t ≠ [] := fun hnil => by
  have hends := h.ends
  rw [splitlines_eq_nil hnil] at hends
  exact not_ends_nil hends

theorem length_splitlines : (splitlines t).length + 1 < 10 ^ 7 := by
  have hpieces := length_le_length_flatten fun p hp => (h.piece hp).ne_nil
  have hbytes : t.length ≤ data.length := by
    rw [h.eq]
    exact Utf8.length_le_encode t
  have hsize := h.size
  rw [flatten_splitlines] at hpieces
  rw [maxEditorBytes] at hsize
  omega

theorem cr_not_mem : 13 ∉ data := by
  rw [h.eq, cr_mem_encode_iff]
  exact h.plain.1

theorem acceptable : Acceptable data maxTargetBytes := by
  have hsize := h.size
  have hmax : maxEditorBytes ≤ maxTargetBytes := by decide
  have hnul : 0 ∉ data := by
    rw [h.eq, nul_mem_encode_iff]
    exact h.plain.2
  have hbare : withEndings false data = data := rfl
  rw [← hbare]
  exact acceptable_withEndings (hsize.trans hmax) (h.eq ▸ Utf8.valid_encode t) h.cr_not_mem hnul

theorem normalised_eq : normalised data = data :=
  (normalised_withEndings h.cr_not_mem : normalised (withEndings false data) = data)

theorem hasCrlf_eq : hasCrlf data = false :=
  (hasCrlf_withEndings h.cr_not_mem : hasCrlf (withEndings false data) = false)

theorem ends_bytes : Ends lf data := by
  obtain ⟨init, hinit⟩ := List.getLast?_eq_some_iff.mp h.ends
  rw [h.eq, hinit, Utf8.encode_append]
  exact Ends.append_left _ rfl

end EditorText

/-! ## Proved candidates -/

section Leads

variable {fromstring : Fromstring} {original edited raw : Bytes} {target : Text}

theorem leadsThereAndBack_eq_true : leadsThereAndBack fromstring original edited target raw =
    .ok true ↔ ∃ patch, parse fromstring raw target = .ok patch ∧
      (inspect patch original).status = .applicable ∧
      (inspect patch original).forwardOutput = some edited ∧
      (inspect patch edited).status = .applied ∧
      (inspect patch edited).reverseOutput = some original := by
  rw [leadsThereAndBack]
  cases hparse : parse fromstring raw target with
  | error error =>
    simp only [reduceCtorEq, false_and, exists_false, iff_false]
    split <;> simp
  | ok parsed =>
    simp only [pure_eq_ok, decide_eq_true_eq, Except.ok.injEq, exists_eq_left']

/-- The two outputs say the rest. -/
theorem leads_iff_outputs : leadsThereAndBack fromstring original edited target raw = .ok true ↔
    ∃ patch, parse fromstring raw target = .ok patch ∧
      (inspect patch original).output false = some edited ∧
      (inspect patch edited).output true = some original := by
  rw [leadsThereAndBack_eq_true]
  refine exists_congr fun patch => and_congr_right fun _ => ?_
  constructor
  · rintro ⟨-, hforward, -, hback⟩
    exact ⟨hforward, hback⟩
  · rintro ⟨hforward, hback⟩
    exact ⟨status_of_output hforward, hforward, status_of_output hback, hback⟩

end Leads

/-! ## Where the hunks stand -/

/-- The bytes before line `i`. -/
abbrev linesBefore (ls : List Text) (i : Nat) : Bytes := Utf8.encode (ls.take i).flatten

/-- The two sides of a hunk stand where their lines are, and nowhere else. -/
def Found (original edited : Bytes) (a b : List Text) (ops : List Opcode) : Prop :=
  FoundAt lf original (groupHunk a b ops).before (linesBefore a (hunkRange ops).i1).length ∧
    FoundAt lf edited (groupHunk a b ops).after (linesBefore b (hunkRange ops).j1).length

/-- The hunks of a round are made of whole lines, stand in each file where they are for and
nowhere else, and do not stand there turned round. -/
structure Clean (original edited : Bytes) (a b : List Text) (groups : List (List Opcode)) :
    Prop where
  takes : ∀ ops ∈ groups, Takes a b ops
  found : ∀ ops ∈ groups, Found original edited a b ops
  apart : ¬ Placeable lf original (groups.map fun ops => (groupHunk a b ops).after) ∧
    ¬ Placeable lf edited (groups.map fun ops => (groupHunk a b ops).before)

theorem linesBefore_append {ls : List Text} {i j : Nat} (h : i ≤ j) :
    linesBefore ls i ++ Utf8.encode (ls.extract i j).flatten = linesBefore ls j := by
  rw [linesBefore, ← Utf8.encode_append, ← List.flatten_append, take_append_extract h]

theorem linesBefore_groupHunk {a b : List Text} {ops : List Opcode} (h : Spans a b ops) :
    linesBefore a (hunkRange ops).i1 ++ (groupHunk a b ops).before =
        linesBefore a (hunkRange ops).i2 ∧
      linesBefore b (hunkRange ops).j1 ++ (groupHunk a b ops).after =
        linesBefore b (hunkRange ops).j2 :=
  ⟨linesBefore_append h.old.le, linesBefore_append h.new.le⟩

theorem linesBefore_drop {ls : List Text} {i : Nat} :
    linesBefore ls i ++ Utf8.encode (ls.drop i).flatten = Utf8.encode ls.flatten := by
  rw [linesBefore, ← Utf8.encode_append, ← List.flatten_append, List.take_append_drop]

section Located

variable {original edited : Bytes} {a b : List Text} {groups : List (List Opcode)}
  (ha : original = Utf8.encode a.flatten) (hb : edited = Utf8.encode b.flatten)

include ha hb

/-- Hunks found where they are for cut both files into the same gaps. -/
theorem located_groups {i j : Nat} (hgroups : Groups a b i j groups)
    (hfound : ∀ ops ∈ groups, Found original edited a b ops) :
    ∃ g segs, segs.map Prod.fst = groups.map (groupHunk a b) ∧
      LocatedFrom lf (Hunk.side false) original (linesBefore a i) g segs ∧
      LocatedFrom lf (Hunk.side true) edited (linesBefore b j) g segs := by
  induction groups generalizing i j with
  | nil =>
    refine ⟨Utf8.encode (a.drop i).flatten, [], rfl, ?_, ?_⟩
    · rw [LocatedFrom, linesBefore_drop, ha]
    · rw [LocatedFrom, show a.drop i = b.drop j from hgroups, linesBefore_drop, hb]
  | cons ops groups ih =>
    obtain ⟨hi, hj, hgap, hspans, hrest⟩ := hgroups
    rw [List.forall_mem_cons] at hfound
    obtain ⟨g, segs, hhunks, hold, hnew⟩ := ih hrest hfound.2
    refine ⟨Utf8.encode (a.extract i (hunkRange ops).i1).flatten, (groupHunk a b ops, g) :: segs,
      by rw [List.map_cons, List.map_cons, hhunks], ⟨?_, ?_⟩, ?_, ?_⟩
    · rw [linesBefore_append hi]
      exact hfound.1.1
    · rw [linesBefore_append hi]
      exact (linesBefore_groupHunk hspans).1 ▸ hold
    · rw [hgap, linesBefore_append hj]
      exact hfound.1.2
    · rw [hgap, linesBefore_append hj]
      exact (linesBefore_groupHunk hspans).2 ▸ hnew

end Located

section Output

variable {patch : ParsedPatch} {data other : Bytes} {t u : Text} {reverse : Bool}

theorem output_of_located {g : Bytes} {segs : List (Hunk × Bytes)} (hdata : EditorText data t)
    (hnew : EditorText other u) (hhunks : segs.map Prod.fst = patch.hunks)
    (hlocated : Located lf (Hunk.side reverse) data g segs)
    (hother : Located lf (Hunk.side !reverse) other g segs)
    (hapart : ¬ Placeable lf data (patch.hunks.map (Hunk.side !reverse))) :
    (inspect patch data).output reverse = some other := by
  have hmax : maxEditorBytes ≤ maxTargetBytes := by decide
  refine output_eq_some_iff.mpr ⟨g, segs, ⟨hdata.acceptable, hhunks, ?_⟩, ?_, ?_, hnew.size.trans hmax⟩
  · rw [hdata.normalised_eq]
    exact hlocated
  · rintro ⟨is, his⟩
    rw [SidePlaced, hdata.normalised_eq] at his
    exact hapart ⟨is, his⟩
  · rw [hdata.hasCrlf_eq, exchanged, ← hother.eq]
    rfl

/-- Each block of a placed side is found somewhere. -/
theorem exists_found_of_placed {c : Nat} {blocks : List Bytes} {is : List Nat}
    (h : PlacedFrom lf data c blocks is) : ∀ block ∈ blocks, ∃ i, FoundAt lf data block i := by
  induction blocks generalizing c is with
  | nil => simp
  | cons block blocks ih =>
    match is, h with
    | i :: is, ⟨_, hfound, hrest⟩ =>
      rw [List.forall_mem_cons]
      exact ⟨⟨i, hfound⟩, ih hrest⟩

theorem found_of_output (hdata : EditorText data t)
    (h : (inspect patch data).output reverse = some other) :
    (∀ hunk ∈ patch.hunks, ∃ i, FoundAt lf data (hunk.side reverse) i) ∧
      ¬ Placeable lf data (patch.hunks.map (Hunk.side !reverse)) := by
  obtain ⟨g, segs, houtput⟩ := output_eq_some_iff.mp h
  have hlocated := houtput.located
  have hother := houtput.other
  rw [SidePlaceable] at hother
  simp only [SidePlaced] at hother
  rw [hdata.normalised_eq] at hlocated hother
  refine ⟨fun hunk hhunk => ?_, hother⟩
  have hplaced := LocatedFrom.placed hlocated
  refine exists_found_of_placed hplaced _ ?_
  rw [← houtput.hunks] at hhunk
  obtain ⟨s, hs, rfl⟩ := List.mem_map.mp hhunk
  exact List.mem_map.mpr ⟨s, hs, rfl⟩

end Output

/-! ## Candidates -/

theorem path_of_relativeParts {target : Text} {internal : Bool} {parts : List Text}
    (h : relativeParts target internal = .ok parts) :
    path target = .ok target ∧ '\n' ∉ target ∧ Plain target := by
  rw [relativeParts] at h
  split at h
  · cases h
  rename_i hsafe
  simp only [Bool.or_eq_true, not_or, Bool.not_eq_true] at hsafe
  obtain ⟨hparts, hchars⟩ := hsafe
  have hnot : ∀ c ∈ ['\\', '\x00', '\n', '\r', '\t'], c ∉ target := by
    intro c hc hmem
    rw [containsAny, List.any_eq_false] at hchars
    exact hchars c hc (decide_eq_true hmem)
  have hne : target ≠ [] := by
    rintro rfl
    revert hparts
    decide
  refine ⟨?_, hnot _ (by decide), hnot _ (by decide), hnot _ (by decide)⟩
  rw [path, if_neg (not_or.mpr ⟨hne, by rw [hparts]; exact Bool.false_ne_true⟩), if_neg]
  · rfl
  · rw [containsAny, List.any_eq_true]
    rintro ⟨c, hc, hmem⟩
    refine hnot c ?_ (of_decide_eq_true hmem)
    clear hmem
    revert c
    exact List.all_iff_forall_prop.mp (by decide)

/-- The lines that `difflib` writes for a candidate. -/
abbrev candidateLines (grouped : GroupedOpcodes) (before after target : Text) (n : Nat) :
    List Text :=
  unifiedDiff grouped (splitlines before) (splitlines after) ("a/".toList ++ target)
    ("b/".toList ++ target) n

section Candidates

variable {grouped : GroupedOpcodes} {fromstring : Fromstring} {original edited : Bytes}
  {before after target : Text} {n : Nat}
  (hspans : ∀ ops ∈ grouped (splitlines before) (splitlines after) n,
    Spans (splitlines before) (splitlines after) ops)
  (horiginal : EditorText original before) (hedited : EditorText edited after)
  (htarget : '\n' ∉ target ∧ Plain target)

include hspans horiginal hedited htarget

theorem outputPiece_candidate {p : Text} (hp : p ∈ candidateLines grouped before after target n) :
    OutputPiece p := by
  have hslash : Plain "a/".toList ∧ Plain "b/".toList :=
    ⟨⟨by decide, by decide⟩, by decide, by decide⟩
  exact outputPiece_of_mem_unifiedDiff hspans (fun p hp => horiginal.piece hp)
    (fun p hp => hedited.piece hp) ⟨horiginal.length_splitlines, hedited.length_splitlines⟩
    ⟨by simp [htarget.1], plain_append.mpr ⟨hslash.1, htarget.2⟩⟩
    ⟨by simp [htarget.1], plain_append.mpr ⟨hslash.2, htarget.2⟩⟩ hp

/-- The parser reads a candidate as the text that was written. -/
theorem text_candidate {t : Text} {crlf : Bool}
    (h : text (candidate grouped before after target n) maxPatchBytes = .ok (t, crlf)) :
    crlf = false ∧ t = (candidateLines grouped before after target n).flatten := by
  have hplain : Plain (candidateLines grouped before after target n).flatten := by
    simp only [Plain, List.mem_flatten, not_exists, not_and]
    constructor <;> intro p hp
    · exact (outputPiece_candidate hspans horiginal hedited htarget hp).plain.1
    · exact (outputPiece_candidate hspans horiginal hedited htarget hp).plain.2
  have hread : text (candidate grouped before after target n) maxPatchBytes =
      .ok ((candidateLines grouped before after target n).flatten, false) :=
    text_eq_ok_iff.mpr ⟨rfl, (text_eq_ok_iff.mp h).2.1, hplain, Bool.noConfusion⟩
  rw [hread] at h
  obtain ⟨rfl, rfl⟩ := Prod.mk.inj (Except.ok.inj h)
  exact ⟨rfl, rfl⟩

/-- The lines of a candidate start where `difflib` started lines. -/
theorem lines_candidate {t : Text} {crlf : Bool} {ls : List Text}
    (h : text (candidate grouped before after target n) maxPatchBytes = .ok (t, crlf))
    (hlines : t = unlines '\n' ls) (hbare : ∀ l ∈ ls, '\n' ∉ l) :
    ls.map (· ++ ['\n']) = lines '\n' (candidateLines grouped before after target n).flatten := by
  rw [← (text_candidate hspans horiginal hedited htarget h).2, hlines, lines_unlines hbare]

/-- No hunk header of a candidate has a long numeral: nothing but a `PatchError` is raised. -/
theorem exists_leads_candidate : ∃ leads, leadsThereAndBack fromstring original edited target
    (candidate grouped before after target n) = .ok leads := by
  rw [leadsThereAndBack]
  cases hparse : parse fromstring (candidate grouped before after target n) target with
  | ok parsed => exact ⟨_, rfl⟩
  | error e =>
    rcases parse_eq_error hparse with ⟨error, rfl⟩ | ⟨-, t, crlf, ht, hlast, line, hline, hstart, hlong⟩
    · exact ⟨false, rfl⟩
    exfalso
    obtain ⟨-, hlines, hbare⟩ := splitOn_unlines_iff.mp ⟨hlast, rfl⟩
    have hmem := List.mem_map_of_mem (f := (· ++ ['\n'])) hline
    rw [lines_candidate hspans horiginal hedited htarget ht hlines hbare] at hmem
    have hpieces : ∀ p ∈ candidateLines grouped before after target n, OutputPiece p :=
      fun p hp => outputPiece_candidate hspans horiginal hedited htarget hp
    obtain ⟨p, hp, x, heq, hx⟩ :=
      exists_piece_of_mem_lines (fun p hp => ⟨(hpieces p hp).ne_nil, (hpieces p hp).bare⟩) hmem
    have hhead : p.head? = some '@' := by
      have hat : "@@ -".toList = ['@', '@', ' ', '-'] := rfl
      obtain ⟨rest, rfl⟩ := startswith_iff.mp hstart
      have hheads := congrArg List.head? heq
      rw [hat, List.head?_append_of_ne_nil _ (hpieces p hp).ne_nil] at hheads
      exact hheads.symm
    obtain ⟨hends, hshort⟩ := (hpieces p hp).header hhead
    have hlength := congrArg List.length heq
    rw [hx hends, List.append_nil, List.length_append] at hlength
    omega

end Candidates

/-! ## Clean rounds -/

/-- The third-party parser takes every valid diff. -/
def Accepts (fromstring : Fromstring) : Prop :=
  ∀ (diff : Diff) (target : Text), diff.Valid target → Reports fromstring diff target

section Clean

variable {grouped : GroupedOpcodes} {fromstring : Fromstring} {original edited : Bytes}
  {before after target : Text} {n : Nat}
  (hgroups : Groups (splitlines before) (splitlines after) 0 0
    (grouped (splitlines before) (splitlines after) n))
  (horiginal : EditorText original before) (hedited : EditorText edited after)
  (hne : before ≠ after) (htarget : path target = .ok target) (hplain : '\n' ∉ target ∧ Plain target)
  (haccepts : Accepts fromstring)
  (hsize : (candidate grouped before after target n).length ≤ maxPatchBytes)

include hgroups horiginal hedited hne htarget hplain haccepts hsize

/-- The parser takes hunks of whole lines for what they are. -/
theorem parse_of_takes (htakes : ∀ ops ∈ grouped (splitlines before) (splitlines after) n,
    Takes (splitlines before) (splitlines after) ops) :
    parse fromstring (candidate grouped before after target n) target = .ok ⟨target,
      (grouped (splitlines before) (splitlines after) n).map
        (groupHunk (splitlines before) (splitlines after))⟩ := by
  have hgroups_ne : grouped (splitlines before) (splitlines after) n ≠ [] := by
    intro hnil
    rw [hnil] at hgroups
    exact hne (splitlines_injective hgroups)
  have hvalid := valid_diffOf (fun p hp => horiginal.piece hp) (fun p hp => hedited.piece hp)
    ⟨horiginal.length_splitlines, hedited.length_splitlines⟩ hgroups hgroups_ne htakes htarget hplain
  have hrender : candidate grouped before after target n = (diffOf (splitlines before)
      (splitlines after) (grouped (splitlines before) (splitlines after) n)).render target false := by
    rw [candidate, unifiedDiff_eq_lines hgroups hgroups_ne htakes]
    rfl
  rw [hrender] at hsize ⊢
  rw [parse_render hvalid hsize (haccepts _ _ hvalid), Diff.patch, diffOf, List.map_map]
  refine congrArg (fun hunks => Except.ok (ParsedPatch.mk target hunks)) ?_
  refine List.map_congr_left fun ops hops => ?_
  obtain ⟨hold, hnew⟩ := (hgroups.spans ops hops).sides (htakes ops hops).ends
  rw [Function.comp_apply, DiffHunk.sides, hold, hnew]
  rfl

theorem leads_of_clean (h : Clean original edited (splitlines before) (splitlines after)
    (grouped (splitlines before) (splitlines after) n)) :
    leadsThereAndBack fromstring original edited target
      (candidate grouped before after target n) = .ok true := by
  obtain ⟨g, segs, hhunks, hold, hnew⟩ := located_groups
    (by rw [flatten_splitlines, horiginal.eq]) (by rw [flatten_splitlines, hedited.eq]) hgroups h.found
  refine leads_iff_outputs.mpr ⟨_, parse_of_takes hgroups horiginal hedited hne htarget hplain
    haccepts hsize h.takes, output_of_located horiginal hedited hhunks hold hnew ?_,
    output_of_located hedited horiginal hhunks hnew hold ?_⟩
  · rw [List.map_map]
    exact h.apart.1
  · rw [List.map_map]
    exact h.apart.2

end Clean

end Hapatchy.PatchBuilder
