import Mathlib.Data.Bool.AllAny
import Hapatchy.PatchEngine.Parsed

/-!
# Numerals that `int` refuses

A hunk header matches numerals of any length, and `int` raises a plain
`ValueError` for one of more than 4300 digits.
-/

open Newlines

namespace Hapatchy.PatchEngine

theorem text_encode {t : Text} {limit : Nat} (hlen : (Utf8.encode t).length ≤ limit)
    (hcr : '\r' ∉ t) (hnul : '\x00' ∉ t) : text (Utf8.encode t) limit = .ok (t, false) := by
  have hpair : ¬ ['\r', '\n'] <:+: t := fun h => hcr (h.subset List.mem_cons_self)
  rw [text, if_neg (by omega), Utf8.decode_eq_some_iff.mpr rfl]
  simp only [hnul, if_false, hpair, decide_false, replacePair_of_not_infix hpair, hcr,
    Bool.false_eq_true, false_and, or_false]
  rfl

theorem stripPrefix_append (start : String) (rest : Text) :
    stripPrefix start (start.toList ++ rest) = some rest := by
  have hstart : startswith (start.toList ++ rest) start = true :=
    List.isPrefixOf_iff_prefix.mpr (List.prefix_append _ _)
  rw [stripPrefix, if_pos hstart, ← String.length_toList, List.drop_left]

/-- Nothing more of a numeral follows. -/
def EndsNumeral (rest : Text) : Prop := ∀ c ∈ rest.head?, (digitValue c).isSome = false

theorem matchDigits_append {digits rest : Text} (hne : digits ≠ [])
    (hdigits : ∀ c ∈ digits, (digitValue c).isSome) (hrest : EndsNumeral rest) :
    matchDigits (digits ++ rest) = some (digits, rest) := by
  have hstop : rest.takeWhile (digitValue · |>.isSome) = [] ∧
      rest.dropWhile (digitValue · |>.isSome) = rest := by
    cases rest with
    | nil => exact ⟨rfl, rfl⟩
    | cons c rest =>
      have hc := hrest c rfl
      simp [hc]
  rw [matchDigits, List.span_eq_takeWhile_dropWhile, List.takeWhile_append_of_pos hdigits,
    List.dropWhile_append_of_pos hdigits, hstop.1, hstop.2, List.append_nil]
  cases digits with
  | nil => exact absurd rfl hne
  | cons => rfl

/-- The numeral `1`. -/
theorem matchDigits_one {rest : Text} (hrest : EndsNumeral rest) :
    matchDigits (['1'] ++ rest) = some (['1'], rest) :=
  matchDigits_append (List.cons_ne_nil _ _) (List.all_iff_forall_prop.mp (by decide)) hrest

theorem endsNumeral_append {start : String} {rest : Text}
    (h : ∃ c t, start.toList = c :: t ∧ (digitValue c).isSome = false) :
    EndsNumeral (start.toList ++ rest) := by
  obtain ⟨c, t, hstart, hc⟩ := h
  rw [hstart]
  rintro d ⟨⟩
  exact hc

/-- `@@ -1 +1,` and a count. -/
def countLine (digits : Text) : Text :=
  "@@ -".toList ++ (['1'] ++ (" +".toList ++ (['1'] ++ (",".toList ++ (digits ++ " @@".toList)))))

theorem matchHunk_countLine {digits : Text} (hne : digits ≠ [])
    (hdigits : ∀ c ∈ digits, (digitValue c).isSome) :
    matchHunk (countLine digits) = some (['1'], none, ['1'], some digits) := by
  have hplus : EndsNumeral (" +".toList ++ (['1'] ++ (",".toList ++ (digits ++ " @@".toList)))) :=
    endsNumeral_append ⟨' ', ['+'], by decide, by decide⟩
  have hcomma : EndsNumeral (",".toList ++ (digits ++ " @@".toList)) :=
    endsNumeral_append ⟨',', [], by decide, by decide⟩
  have hend : EndsNumeral " @@".toList := by
    rw [← List.append_nil " @@".toList]
    exact endsNumeral_append ⟨' ', ['@', '@'], by decide, by decide⟩
  have hnone : ∀ rest, matchCount (" +".toList ++ rest) = (none, " +".toList ++ rest) := by
    intro rest
    have hplus : " +".toList = [' ', '+'] := rfl
    have hcomma : ",".toList = [','] := rfl
    rw [matchCount, stripPrefix, startswith, hplus, hcomma]
    rfl
  have hsome : ∀ {digits rest} rest', matchDigits rest = some (digits, rest') →
      matchCount (",".toList ++ rest) = (some digits, rest') := by
    intro digits rest rest' hmatch
    rw [matchCount, stripPrefix_append, Option.bind_some, hmatch]
  have hlast : stripPrefix " @@" " @@".toList = some [] := by
    rw [← List.append_nil " @@".toList]
    exact stripPrefix_append _ _
  simp only [matchHunk, countLine, stripPrefix_append, Option.bind_eq_bind, Option.bind_some,
    matchDigits_one hplus, hnone, matchDigits_one hcomma,
    hsome _ (matchDigits_append hne hdigits hend), hlast]
  rfl

/-- A count of too many digits raises a plain `ValueError`. -/
theorem hunkHeader_countLine {digits : Text} (hdigits : ∀ c ∈ digits, (digitValue c).isSome)
    (hlong : maxStrDigits < digits.length) : hunkHeader (countLine digits) = .error .value := by
  have hne : digits ≠ [] := List.ne_nil_of_length_pos (Nat.zero_lt_of_lt hlong)
  have hint : int digits = .error .value := by
    rw [int, if_pos hlong]
    rfl
  have hone : int ['1'] = .ok 1 := by decide
  have hdefault : int "1".toList = .ok 1 := by decide
  rw [hunkHeader, matchHunk_countLine hne hdigits]
  simp only [Option.getD_none, Option.getD_some, hone, hdefault, hint]
  rfl

/-- A patch of `f/g` whose one hunk header has the count `digits`. -/
def countLines (digits : Text) : List Text :=
  ["--- f/g".toList, "+++ f/g".toList, countLine digits, "-x".toList, "+y".toList]

def countText (digits : Text) : Text := ['\n'].intercalate (countLines digits) ++ ['\n']

theorem headers_countLines (digits : Text) :
    headers (countLines digits) "f/g".toList = .ok 2 := by
  have hnot : startswith "--- f/g".toList "diff --git " = false := by decide
  have hgit : ∀ rest, gitPreamble ("--- f/g".toList :: rest) "f/g".toList = .ok 0 := by
    intro rest
    rw [gitPreamble, hnot]
    rfl
  have hsame : headers (countLines digits) "f/g".toList =
      headers ["--- f/g".toList, "+++ f/g".toList, [], []] "f/g".toList := by
    rw [headers, headers, countLines, hgit, hgit]
    rfl
  rw [hsame]
  decide

/-- What stands around the count. -/
def countFrame : Text × Text :=
  ("--- f/g\n+++ f/g\n@@ -1 +1,".toList, " @@\n-x\n+y\n".toList)

theorem countText_eq (digits : Text) : countText digits = countFrame.1 ++ digits ++ countFrame.2 := by
  have hbefore : countFrame.1 = "--- f/g".toList ++ (['\n'] ++ ("+++ f/g".toList ++ (['\n'] ++
      ("@@ -".toList ++ (['1'] ++ (" +".toList ++ (['1'] ++ ",".toList))))))) := by decide
  have hafter : countFrame.2 = " @@".toList ++ (['\n'] ++ ("-x".toList ++ (['\n'] ++
      ("+y".toList ++ ['\n'])))) := by decide
  rw [hbefore, hafter, countText, countLines, countLine]
  simp only [List.intercalate, List.intersperse, List.flatten_cons, List.flatten_nil,
    List.append_assoc, List.append_nil]

theorem newline_not_mem {digits : Text} (hdigits : ∀ c ∈ digits, (digitValue c).isSome) :
    ∀ line ∈ countLines digits, '\n' ∉ line := by
  have hline : '\n' ∉ countLine digits := by
    have hfixed : ∀ t ∈ ["@@ -", "1", " +", ",", " @@"], '\n' ∉ t.toList := by decide
    have hnot : '\n' ∉ digits := fun h => by
      have := hdigits _ h
      revert this
      decide
    simp only [countLine, List.mem_append, not_or]
    exact ⟨hfixed "@@ -" (by simp), hfixed "1" (by simp), hfixed " +" (by simp),
      hfixed "1" (by simp), hfixed "," (by simp), hnot, hfixed " @@" (by simp)⟩
  have hfixed : ∀ t ∈ ["--- f/g", "+++ f/g", "-x", "+y"], '\n' ∉ t.toList := by decide
  simp only [countLines, List.forall_mem_cons]
  exact ⟨hfixed "--- f/g" (by simp), hfixed "+++ f/g" (by simp), hline, hfixed "-x" (by simp),
    hfixed "+y" (by simp), by simp⟩

theorem parse_countText {fromstring : Fromstring} {digits : Text}
    (hdigits : ∀ c ∈ digits, (digitValue c).isSome) (hlong : maxStrDigits < digits.length)
    (hsize : digits.length ≤ 100000) :
    parse fromstring (Utf8.encode (countText digits)) "f/g".toList = .error .value := by
  have hplain : ∀ c, (digitValue c).isSome = false → c ∉ countFrame.1 → c ∉ countFrame.2 →
      c ∉ countText digits := by
    intro c hc hbefore hafter hmem
    rw [countText_eq, List.append_assoc, List.mem_append, List.mem_append] at hmem
    rcases hmem with hmem | hmem | hmem
    · exact hbefore hmem
    · rw [hdigits c hmem] at hc
      cases hc
    · exact hafter hmem
  have htext : text (Utf8.encode (countText digits)) maxPatchBytes =
      .ok (countText digits, false) := by
    have hframe : countFrame.1.length + countFrame.2.length ≤ 100 := by decide
    have hlength := Utf8.length_encode_le (countText digits)
    rw [countText_eq, List.length_append, List.length_append, ← countText_eq] at hlength
    refine text_encode (by rw [maxPatchBytes]; omega) ?_ ?_ <;>
      exact hplain _ (by decide) (by decide) (by decide)
  have hpath : path "f/g".toList = .ok "f/g".toList := by decide
  have hlast : (countText digits).getLast? = some '\n' := List.getLast?_concat
  have hlines : (countText digits).dropLast.splitOn '\n' = countLines digits := by
    rw [countText, List.dropLast_concat, List.splitOn_intercalate _ (newline_not_mem hdigits)
      (List.cons_ne_nil _ _)]
  have hhunks : readHunks (countLines digits).length ((countLines digits).drop 2) 0 0 =
      .error .value := by
    have hheader := hunkHeader_countLine hdigits hlong
    rw [countLines, List.length_cons, List.drop_succ_cons, List.drop_succ_cons, List.drop_zero,
      readHunks, hheader]
    rfl
  rw [parse, hpath, htext]
  simp only [Except.mapError, bind, Except.bind, hlast, hlines, headers_countLines, hhunks]
  rfl

end Hapatchy.PatchEngine
