import Hapatchy.PatchBuilder.Open

/-!
# When an edit gets a patch

The loop ends with the hunk of the two whole files. Where newlines are the only
line boundaries, it leads from one to the other and back, unless one of them is
found in the other.
-/

open Blocks Results

namespace Hapatchy.PatchBuilder

open PatchEngine Difflib

/-! ## The last round -/

/-- One of the two files, line for line, is a block of the other. -/
def Contained (original edited : Bytes) : Prop :=
  lines lf original <:+: lines lf edited ∨ lines lf edited <:+: lines lf original

section LastRound

variable {grouped : GroupedOpcodes} {original edited : Bytes} {before after : Text} {n : Nat}
  (horiginal : EditorText original before) (hedited : EditorText edited after)

/-- The only hunk of two whole files is not found the other way round. -/
theorem not_placeable_of_apart {data other : Bytes} {u : Text} (hnew : EditorText other u)
    (hapart : ¬ lines lf other <:+: lines lf data) : ¬ Placeable lf data [other] := by
  rintro ⟨is, his⟩
  cases is with
  | nil => exact his
  | cons i is => exact hapart (infix_lines_of_occursAt his.2.1.1 hnew.ends_bytes)

include horiginal hedited

/-- Without other line boundaries, the last round is clean. -/
theorem clean_of_bare (hdoc : Documented grouped) (hne : before ≠ after) (hbefore : Bare before)
    (hafter : Bare after) (hn : 0 < n ∧ maximum before after ≤ n)
    (hapart : ¬ Contained original edited) :
    Clean original edited (splitlines before) (splitlines after)
      (grouped (splitlines before) (splitlines after) n) := by
  have hlines := splitlines_injective.ne hne
  obtain ⟨ops, hgrouped, hcovers⟩ := hdoc.whole (splitlines before) (splitlines after) n hlines
    ((Nat.le_max_left _ _).trans hn.2) ((Nat.le_max_right _ _).trans hn.2)
  have hops : ops ≠ [] := by
    rintro rfl
    exact horiginal.splitlines_ne_nil (List.eq_nil_of_length_eq_zero hcovers.1.symm)
  have hrange := hcovers.hunkRange_eq hops
  have hhunk : groupHunk (splitlines before) (splitlines after) ops = ⟨original, edited⟩ := by
    rw [groupHunk, hrange, horiginal.eq, hedited.eq]
    simp [flatten_splitlines]
  rw [Contained, not_or] at hapart
  rw [hgrouped]
  refine ⟨?_, ?_, ?_⟩ <;> simp only [List.forall_mem_singleton, List.map_singleton, hhunk]
  · refine ⟨fun line hline => ?_, ?_⟩
    · obtain ⟨op, -, hmem⟩ := List.mem_flatMap.mp hline
      rcases mem_of_mem_opcodeMarks hmem with hmem | hmem
      · exact ends_of_mem_lines horiginal.ends (splitlines_of_bare hbefore ▸ hmem)
      · exact ends_of_mem_lines hedited.ends (splitlines_of_bare hafter ▸ hmem)
    · simpa [hrange] using hlines
  · rw [Found, hhunk, hrange]
    exact ⟨foundAt_self original, foundAt_self edited⟩
  · exact ⟨not_placeable_of_apart hedited hapart.2,
      not_placeable_of_apart horiginal hapart.1⟩

end LastRound

/-! ## The loop -/

/-- The contexts of the rounds from one on: each doubles it, until it is all of the files. -/
inductive Round (maximum : Nat) : Nat → Nat → Prop
  | here (context : Nat) : Round maximum context context
  | later {context n : Nat} (h : context < maximum)
    (hrest : Round maximum (min maximum (context * 2)) n) : Round maximum context n

namespace Round

variable {maximum context n : Nat}

theorem pos (h : Round maximum context n) (hcontext : 0 < context) : 0 < n := by
  induction h with
  | here => exact hcontext
  | later h _ ih => exact ih (by omega)

theorem cases_of_lt (h : Round maximum context n) (hcontext : maximum ≤ context) : n = context := by
  cases h with
  | here => rfl
  | later h => omega

/-- The last round has all the context there is. -/
theorem exists_last (hcontext : 0 < context) : ∃ n, Round maximum context n ∧ maximum ≤ n := by
  induction hleft : maximum - context using Nat.strong_induction_on generalizing context with
  | _ left ih =>
    rcases Nat.lt_or_ge context maximum with h | h
    · obtain ⟨n, hn, hmax⟩ := ih (maximum - min maximum (context * 2)) (by omega) (by omega) rfl
      exact ⟨n, .later h hn, hmax⟩
    · exact ⟨context, .here context, h⟩

end Round

/-- How the loop ends: with a candidate that was checked, one that is too large, or with all of
them refused. -/
inductive Outcome (candidate : Nat → Bytes) (leads : Bytes → Except Exc Bool)
    (maximum context : Nat) : Except Exc Bytes → Prop
  | proved (n : Nat) (hn : Round maximum context n) (hsize : (candidate n).length ≤ maxPatchBytes)
    (h : leads (candidate n) = .ok true) : Outcome candidate leads maximum context (.ok (candidate n))
  | oversize (n : Nat) (hn : Round maximum context n) (h : maxPatchBytes < (candidate n).length) :
    Outcome candidate leads maximum context (.error (.patch ⟨.sizeLimit, .invalidPatch⟩))
  | refused (h : ∀ n, Round maximum context n → (candidate n).length ≤ maxPatchBytes ∧
      leads (candidate n) = .ok false) :
    Outcome candidate leads maximum context
      (.error (.patch ⟨.editorContextNotUnique, .invalidPatch⟩))

section Loop

variable {grouped : GroupedOpcodes} {fromstring : Fromstring} {original edited : Bytes}
  {before after target : Text}

/-- Every round doubles the context, until it is all of the files. -/
theorem rounds_ends
    (hleads : ∀ n, 0 < n → ∃ leads, leadsThereAndBack fromstring original edited target
      (candidate grouped before after target n) = .ok leads) {fuel context : Nat}
    (hcontext : 0 < context) (hfuel : 0 < fuel ∧ maximum before after < fuel + context) :
    ∃ result, rounds grouped fromstring original edited before after target fuel context =
      some result ∧ Outcome (candidate grouped before after target)
        (leadsThereAndBack fromstring original edited target) (maximum before after) context
        result := by
  induction fuel generalizing context with
  | zero => exact absurd hfuel.1 (Nat.lt_irrefl 0)
  | succ fuel ih =>
    rw [rounds]
    split
    · rename_i hsize
      exact ⟨_, rfl, .oversize context (.here context) hsize⟩
    rename_i hsize
    obtain ⟨leads, hlead⟩ := hleads context hcontext
    rw [hlead]
    cases leads with
    | true => exact ⟨_, rfl, .proved context (.here context) (Nat.not_lt.mp hsize) hlead⟩
    | false =>
      dsimp only
      split
      · rename_i hmax
        refine ⟨_, rfl, .refused fun n hn => ?_⟩
        rw [hn.cases_of_lt hmax]
        exact ⟨Nat.not_lt.mp hsize, hlead⟩
      · rename_i hmax
        have hlt := Nat.lt_of_not_le hmax
        obtain ⟨result, hresult, hend⟩ :=
          @ih (min (maximum before after) (context * 2)) (by omega) (by omega)
        refine ⟨result, hresult, ?_⟩
        cases hend with
        | proved n hn hsize h => exact .proved n (.later hlt hn) hsize h
        | oversize n hn h => exact .oversize n (.later hlt hn) h
        | refused h =>
          refine .refused fun n hn => ?_
          cases hn with
          | here => exact ⟨Nat.not_lt.mp hsize, hlead⟩
          | later _ hrest => exact h n hrest

end Loop

/-! ## A parser of bodies -/

/-- Reads the bodies of the hunks, wherever the first one starts. -/
def readBodies (raw : Bytes) : Option (List (List NgHunk)) :=
  match Utf8.decode raw with
  | none => none
  | some t =>
    let lines := t.dropLast.splitOn '\n'
    match readHunks lines.length (lines.dropWhile fun line => !startswith line "@@ -") 0 0 with
    | .ok records => some [records.map fun record => ⟨false, record.2⟩]
    | .error _ => none

theorem not_hunk_of_mem_headers {fileHeaders : FileHeaders} {target : Text}
    (hvalid : fileHeaders.Valid) :
    ∀ line ∈ fileHeaders.lines target, startswith line "@@ -" = false := by
  have hat : "@@ -".toList.head? = some '@' := rfl
  have hother : ∀ {line : Text} {start : String} {c : Char}, startswith line start = true →
      start.toList.head? = some c → '@' ≠ c → startswith line "@@ -" = false := by
    intro line start c hline hc hne
    obtain ⟨rest, rfl⟩ := startswith_iff.mp hline
    exact startswith_of_ne hat (by rw [List.head?_append, hc, Option.some_or]) hne
  intro line hline
  rcases List.mem_append.mp hline with hline | hline
  · cases hpreamble : fileHeaders.preamble with
    | none =>
      rw [hpreamble] at hline
      cases hline
    | some index =>
      rw [hpreamble, FileHeaders.preambleLines, List.mem_cons, Option.mem_toList] at hline
      rcases hline with rfl | hline
      · exact hother (gitLine_start target) (rfl : _ = some 'd') (by decide)
      · exact hother (isIndexLine_start (hvalid line (hpreamble.trans (congrArg some hline))))
          (rfl : _ = some 'i') (by decide)
  · rw [List.mem_cons, List.mem_singleton] at hline
    rcases hline with rfl | rfl
    · exact hother (startswith_append _ _) (rfl : _ = some '-') (by decide)
    · exact hother (startswith_append _ _) (rfl : _ = some '+') (by decide)

/-- It takes every valid diff. -/
theorem accepts_readBodies : Accepts readBodies := by
  intro diff target hvalid
  obtain ⟨ngHunks, hng, hall⟩ := reports_report diff target
  refine ⟨ngHunks, ?_, hall⟩
  rw [← hng, readBodies, Utf8.decode_encode]
  dsimp only
  have hskip : (diff.lines target).dropWhile (fun line => !startswith line "@@ -") =
      diff.hunks.flatMap DiffHunk.lines := by
    rw [Diff.lines, List.dropWhile_append_of_pos fun line hline => by
      rw [not_hunk_of_mem_headers hvalid.headers line hline]
      rfl]
    obtain ⟨hunk, hunks, hhunks⟩ := List.exists_cons_of_ne_nil hvalid.hunks
    have hstart : startswith hunk.header.text "@@ -" = true := startswith_append _ _
    rw [hhunks, List.flatMap_cons, DiffHunk.lines, List.cons_append,
      List.dropWhile_cons_of_neg (by rw [hstart]; exact Bool.false_ne_true)]
  have hhunks : readHunks (diff.lines target).length (diff.hunks.flatMap DiffHunk.lines) 0 0 =
      .ok (diff.hunks.map fun hunk => (hunk.sides, hunk.bytes)) :=
    (readHunks_eq_ok (by rw [Diff.lines, List.length_append]; omega)).mpr
      ⟨diff.hunks, rfl, hvalid.ordered, rfl⟩
  rw [hvalid.lines_text.2, hskip, hhunks]
  dsimp only
  rw [List.map_map]
  rfl

/-! ## Exactness -/

/-- `build_patch` returns a proved patch, and refuses only an edit whose two files contain one
another, or one with a candidate that is too large. -/
structure Exact (grouped : GroupedOpcodes) (fromstring : Fromstring) (original edited : Bytes)
    (before after target : Text) : Prop where
  returns : ∃ result, buildPatch grouped fromstring original edited target = some result
  leads : ∀ raw, buildPatch grouped fromstring original edited target = some (.ok raw) →
    ∃ patch, parse fromstring raw target = .ok patch ∧
      (inspect patch original).status = .applicable ∧
      (inspect patch original).forwardOutput = some edited ∧
      (inspect patch edited).status = .applied ∧
      (inspect patch edited).reverseOutput = some original
  refuses : ∀ e, buildPatch grouped fromstring original edited target = some (.error e) →
    e = .patch ⟨.editorContextNotUnique, .invalidPatch⟩ ∧ Contained original edited ∨
      e = .patch ⟨.sizeLimit, .invalidPatch⟩ ∧
        ∃ n, Round (maximum before after) 3 n ∧
          maxPatchBytes < (candidate grouped before after target n).length

/-- The edits that `build_patch` settles: newlines are the only line boundaries of the two files,
or one file contains the other, or some round has a candidate that is too large or clean hunks. -/
def Settles (grouped : GroupedOpcodes) (original edited : Bytes) (before after target : Text) :
    Prop :=
  Bare before ∧ Bare after ∨ Contained original edited ∨
    ∃ n, Round (maximum before after) 3 n ∧
      (maxPatchBytes < (candidate grouped before after target n).length ∨
        Clean original edited (splitlines before) (splitlines after)
          (grouped (splitlines before) (splitlines after) n))

theorem before_ne_after {original edited : Bytes} {before after : Text}
    (horiginal : validateEditorText original = .ok before)
    (hedited : validateEditorText edited = .ok after) (hne : original ≠ edited) :
    before ≠ after := by
  rintro rfl
  exact hne ((editorText_of_validate horiginal).eq.trans (editorText_of_validate hedited).eq.symm)

section Exact

variable {grouped : GroupedOpcodes} {original edited : Bytes} {before after target : Text}
  {parts : List Text} (horiginal : validateEditorText original = .ok before)
  (hedited : validateEditorText edited = .ok after) (hne : original ≠ edited)
  (htarget : relativeParts target = .ok parts) (hdoc : Documented grouped)

include horiginal hedited hdoc

theorem groups_of_documented {n : Nat} (hn : 0 < n) : Groups (splitlines before) (splitlines after)
    0 0 (grouped (splitlines before) (splitlines after) n) :=
  hdoc.groups _ _ n hn (editorText_of_validate horiginal).splitlines_ne_nil
    (editorText_of_validate hedited).splitlines_ne_nil

include hne htarget

theorem buildPatch_ends (fromstring : Fromstring) :
    ∃ result, buildPatch grouped fromstring original edited target = some result ∧
      Outcome (candidate grouped before after target)
        (leadsThereAndBack fromstring original edited target) (maximum before after) 3 result := by
  have hcheck : checkEdit original edited target = .ok (before, after) := by
    simp only [checkEdit, bind_eq_ok]
    refine ⟨parts, htarget, before, horiginal, after, hedited, ?_⟩
    rw [if_neg (before_ne_after horiginal hedited hne)]
    rfl
  rw [buildPatch, hcheck]
  exact rounds_ends (fun n hn => exists_leads_candidate
    (groups_of_documented horiginal hedited hdoc hn).spans (editorText_of_validate horiginal)
    (editorText_of_validate hedited) (path_of_relativeParts htarget).2) (by decide)
    ⟨Nat.succ_pos _, by omega⟩

variable {fromstring : Fromstring} (haccepts : Accepts fromstring)

include haccepts

theorem exact_of_settles (h : Settles grouped original edited before after target) :
    Exact grouped fromstring original edited before after target := by
  have hbefore := editorText_of_validate horiginal
  have hafter := editorText_of_validate hedited
  have hchanges := before_ne_after horiginal hedited hne
  obtain ⟨hpath, hplain⟩ := path_of_relativeParts htarget
  obtain ⟨result, hresult, hend⟩ := buildPatch_ends horiginal hedited hne htarget hdoc fromstring
  refine ⟨⟨result, hresult⟩, fun raw hraw => ?_, fun e he => ?_⟩
  · obtain rfl := Option.some.inj (hresult.symm.trans hraw)
    cases hend with
    | proved n _ _ hlead => exact leadsThereAndBack_eq_true.mp hlead
  · obtain rfl := Option.some.inj (hresult.symm.trans he)
    cases hend with
    | oversize n hn hsize => exact Or.inr ⟨rfl, n, hn, hsize⟩
    | refused hall =>
      refine Or.inl ⟨rfl, ?_⟩
      have hclean : ∀ n, Round (maximum before after) 3 n → ¬ Clean original edited
          (splitlines before) (splitlines after)
          (grouped (splitlines before) (splitlines after) n) := by
        intro n hn hclean
        obtain ⟨hsize, hlead⟩ := hall n hn
        have hgroups := groups_of_documented horiginal hedited hdoc (hn.pos (by decide))
        rw [leads_of_clean hgroups hbefore hafter hchanges hpath hplain haccepts hsize hclean] at hlead
        cases hlead
      rcases h with ⟨hbare, hbare'⟩ | hcontained | ⟨n, hn, hlarge | hround⟩
      · by_contra hapart
        obtain ⟨n, hn, hmax⟩ := @Round.exists_last (maximum before after) 3 (by decide)
        exact hclean n hn (clean_of_bare hbefore hafter hdoc hchanges hbare hbare'
          ⟨hn.pos (by decide), hmax⟩ hapart)
      · exact hcontained
      · exact absurd hlarge (Nat.not_lt.mpr (hall n hn).1)
      · exact absurd hround (hclean n hn)

theorem settles_of_exact
    (hwhole : ∀ n, Round (maximum before after) 3 n →
      ∀ ops ∈ grouped (splitlines before) (splitlines after) n,
        WholeLines (splitlines before) (splitlines after) ops)
    (h : Exact grouped fromstring original edited before after target) :
    Settles grouped original edited before after target := by
  obtain ⟨hpath, hplain⟩ := path_of_relativeParts htarget
  obtain ⟨result, hresult, hend⟩ := buildPatch_ends horiginal hedited hne htarget hdoc fromstring
  cases hend with
  | proved n hn hsize hlead =>
    refine Or.inr (Or.inr ⟨n, hn, Or.inr ?_⟩)
    exact clean_of_leads (groups_of_documented horiginal hedited hdoc (hn.pos (by decide)))
      (hwhole n hn) (editorText_of_validate horiginal) (editorText_of_validate hedited) hplain
      (before_ne_after horiginal hedited hne) hpath haccepts hsize hlead
  | oversize n hn hsize => exact Or.inr (Or.inr ⟨n, hn, Or.inl hsize⟩)
  | refused =>
    rcases h.refuses _ hresult with ⟨-, hcontained⟩ | ⟨heq, -⟩
    · exact Or.inr (Or.inl hcontained)
    · cases heq

end Exact

/-- `difflib` where the two texts have no line in common. -/
def wholeOpcodes : GroupedOpcodes := fun a b _ =>
  if a = b then [] else [[⟨.replace, 0, a.length, 0, b.length⟩]]

theorem covers_whole (a b : List Text) :
    Covers a b a.length b.length 0 0 [⟨.replace, 0, a.length, 0, b.length⟩] :=
  ⟨rfl, rfl, ⟨⟨Nat.zero_le _, Nat.le_refl _⟩, Nat.zero_le _, Nat.le_refl _⟩, nofun, nofun, nofun,
    rfl, rfl⟩

theorem documented_wholeOpcodes : Documented wholeOpcodes where
  groups a b n _ ha hb := by
    rw [wholeOpcodes]
    split
    · rename_i heq
      rw [heq]
      exact rfl
    · refine ⟨Nat.zero_le _, Nat.zero_le _, rfl, ⟨List.length_pos_iff.mpr ha,
        List.length_pos_iff.mpr hb, covers_whole a b⟩, ?_⟩
      rw [Groups]
      simp [hunkRange]
  whole a b n hne _ _ := ⟨_, if_neg hne, covers_whole a b⟩

def formFeedOriginal : Bytes := Utf8.encode "a\x0cb\n".toList

def formFeedEdited : Bytes := Utf8.encode "c\n".toList

def farOriginal : Text := "a\x0cb\n0\n1\n2\n3\n4\n5\n6\n7\n8\n9\n".toList

def farEdited : Text := "a\x0cb\n0\n1\n2\n3\n4\n5\n6\n7\n8\nz\n".toList

/-- `difflib` where the last of twelve lines is replaced. -/
def farOpcodes : GroupedOpcodes := fun a b n =>
  if a = splitlines farOriginal ∧ b = splitlines farEdited then
    [[⟨.equal, 11 - n, 11, 11 - n, 11⟩, ⟨.replace, 11, 12, 11, 12⟩]]
  else wholeOpcodes a b n

theorem extract_far {i j : Nat} (h : j ≤ 11) :
    (splitlines farOriginal).extract i j = (splitlines farEdited).extract i j := by
  have htake : (splitlines farOriginal).take 11 = (splitlines farEdited).take 11 := by decide
  have hcut : ∀ l : List Text, l.extract i j = (l.take 11).extract i j := fun l => by
    rw [List.extract_eq_take_drop, List.extract_eq_take_drop, List.drop_take, List.take_take,
      Nat.min_eq_left (by omega)]
  rw [hcut, htake, ← hcut]

theorem covers_far (n : Nat) : Covers (splitlines farOriginal) (splitlines farEdited) 12 12
    (11 - n) (11 - n) [⟨.equal, 11 - n, 11, 11 - n, 11⟩, ⟨.replace, 11, 12, 11, 12⟩] := by
  have hlength : (splitlines farOriginal).length = 12 ∧ (splitlines farEdited).length = 12 := by
    decide
  refine ⟨rfl, rfl, ⟨?_, ?_⟩, fun _ => extract_far (Nat.le_refl 11), nofun, nofun, rfl, rfl,
    ⟨?_, ?_⟩, nofun, nofun, nofun, rfl, rfl⟩ <;> dsimp only <;> omega

theorem documented_farOpcodes : Documented farOpcodes where
  groups a b n hn ha hb := by
    rw [farOpcodes]
    split
    · rename_i heq
      obtain ⟨rfl, rfl⟩ := heq
      have hrest : (splitlines farOriginal).drop 12 = (splitlines farEdited).drop 12 := by
        decide
      have hlt : 11 - n < 12 := by omega
      exact ⟨Nat.zero_le _, Nat.zero_le _, extract_far (Nat.sub_le 11 n), ⟨hlt, hlt, covers_far n⟩,
        hrest⟩
    · exact documented_wholeOpcodes.groups a b n hn ha hb
  whole a b n hne ha hb := by
    rw [farOpcodes]
    split
    · rename_i heq
      obtain ⟨rfl, rfl⟩ := heq
      have hlength : (splitlines farOriginal).length = 12 ∧ (splitlines farEdited).length = 12 := by
        decide
      have hcovers := covers_far n
      rw [show 11 - n = 0 by omega] at hcovers ⊢
      rw [hlength.1, hlength.2]
      exact ⟨_, rfl, hcovers⟩
    · exact documented_wholeOpcodes.whole a b n hne ha hb

/-- The first round of the edit. -/
def farHunk : List Opcode := [⟨.equal, 8, 11, 8, 11⟩, ⟨.replace, 11, 12, 11, 12⟩]

theorem settles_far : Settles farOpcodes (Utf8.encode farOriginal) (Utf8.encode farEdited)
    farOriginal farEdited "f".toList := by
  have hgroups : farOpcodes (splitlines farOriginal) (splitlines farEdited) 3 = [farHunk] :=
    if_pos ⟨rfl, rfl⟩
  refine Or.inr (Or.inr ⟨3, .here 3, Or.inr ?_⟩)
  rw [hgroups]
  refine ⟨?_, ?_, ?_, ?_⟩ <;> simp only [List.forall_mem_singleton, List.map_singleton]
  · exact ⟨by decide, by decide⟩
  · exact ⟨uniqueLocation_eq_some_iff.mp (by decide +kernel),
      uniqueLocation_eq_some_iff.mp (by decide +kernel)⟩
  · exact @direction_eq_none_iff _ [groupHunk _ _ farHunk] true |>.mp (by decide +kernel)
  · exact @direction_eq_none_iff _ [groupHunk _ _ farHunk] false |>.mp (by decide +kernel)

theorem wholeLines_far (n : Nat) (hn : Round (maximum farOriginal farEdited) 3 n) :
    ∀ ops ∈ farOpcodes (splitlines farOriginal) (splitlines farEdited) n,
      WholeLines (splitlines farOriginal) (splitlines farEdited) ops := by
  have hmax : maximum farOriginal farEdited = 12 := by decide
  have hgroups : farOpcodes (splitlines farOriginal) (splitlines farEdited) n =
      [[⟨.equal, 11 - n, 11, 11 - n, 11⟩, ⟨.replace, 11, 12, 11, 12⟩]] := if_pos ⟨rfl, rfl⟩
  rw [hmax] at hn
  rw [hgroups, List.forall_mem_singleton]
  have hrounds : n = 3 ∨ n = 6 ∨ n = 12 := by
    cases hn with
    | here => exact Or.inl rfl
    | later _ hn =>
      cases hn with
      | here => exact Or.inr (Or.inl rfl)
      | later _ hn => exact Or.inr (Or.inr (hn.cases_of_lt (by decide)))
  rcases hrounds with rfl | rfl | rfl <;>
    exact ⟨⟨by decide, by decide⟩, by decide, by decide⟩

end Hapatchy.PatchBuilder
