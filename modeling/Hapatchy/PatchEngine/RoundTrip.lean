import Mathlib.Data.List.Forall2
import Hapatchy.PatchEngine.Output
import Hapatchy.PatchEngine.Rendering

/-!
# Diffs and the parser

The parser accepts exactly the rendered diffs, and returns the sides that were
rendered.
-/

open Newlines Results

namespace Hapatchy.PatchEngine

/-! ## File headers -/

/-- The lines before the hunks. -/
structure FileHeaders where
  /-- The `diff --git` line, and an `index` line after it. -/
  preamble : Option (Option Text) := none
  /-- The paths have the prefixes `a/` and `b/`. -/
  prefixed : Bool := false
  oldSuffix : Option Text := none
  newSuffix : Option Text := none
  deriving DecidableEq, Repr

namespace FileHeaders

variable (headers : FileHeaders) (target : Text)

def gitLine : Text := "diff --git a/".toList ++ target ++ " b/".toList ++ target

def preambleLines : Option (Option Text) → List Text
  | none => []
  | some index => gitLine target :: index.toList

/-- What may follow a path: a tab, and anything. -/
def suffixText : Option Text → Text
  | some suffix => '\t' :: suffix
  | none => []

def oldPath : Text := (if headers.prefixed then "a/".toList else []) ++ target

def newPath : Text := (if headers.prefixed then "b/".toList else []) ++ target

def oldLine : Text := "--- ".toList ++ (headers.oldPath target ++ suffixText headers.oldSuffix)

def newLine : Text := "+++ ".toList ++ (headers.newPath target ++ suffixText headers.newSuffix)

def lines : List Text :=
  preambleLines target headers.preamble ++ [headers.oldLine target, headers.newLine target]

def Valid : Prop := ∀ line, headers.preamble = some (some line) → isIndexLine line = true

end FileHeaders

theorem path_eq_ok {p q : Text} (h : path p = .ok q) : q = p := by
  rw [path] at h
  split at h
  · cases h
  split at h
  · cases h
  · exact (pure_eq_ok.mp h).symm

theorem tab_not_mem_of_path {p q : Text} (h : path p = .ok q) : '\t' ∉ p := by
  rw [path] at h
  split at h
  · cases h
  split at h
  · cases h
  · rename_i hchars
    rw [containsAny, List.any_eq_true] at hchars
    exact fun hmem => hchars ⟨'\t', by simp, by simpa using hmem⟩

theorem startswith_of_ne {line : Text} {start : String} {c d : Char}
    (hstart : start.toList.head? = some c) (hline : line.head? = some d) (hne : c ≠ d) :
    startswith line start = false := by
  rw [← Bool.not_eq_true]
  intro h
  obtain ⟨rest, rfl⟩ := startswith_iff.mp h
  rw [List.head?_append, hstart, Option.some_or, Option.some.injEq] at hline
  exact hne hline

theorem startswith_append (start : String) (rest : Text) :
    startswith (start.toList ++ rest) start = true := startswith_iff.mpr ⟨rest, rfl⟩

theorem oldLine_head {headers : FileHeaders} {target : Text} :
    (headers.oldLine target).head? = some '-' := by
  have hold : "--- ".toList = ['-', '-', '-', ' '] := rfl
  rw [FileHeaders.oldLine, hold]
  rfl

theorem startswith_append_left {a : Text} {start : String} (h : startswith a start = true)
    (b : Text) : startswith (a ++ b) start = true := by
  obtain ⟨rest, rfl⟩ := startswith_iff.mp h
  rw [List.append_assoc]
  exact startswith_append _ _

theorem gitLine_start (target : Text) :
    startswith (FileHeaders.gitLine target) "diff --git " = true := by
  have hstart : startswith "diff --git a/".toList "diff --git " = true := by decide
  exact startswith_append_left (startswith_append_left (startswith_append_left hstart _) _) _

theorem isIndexLine_start {line : Text} (h : isIndexLine line = true) :
    startswith line "index " = true := by
  rw [isIndexLine, Bool.and_eq_true] at h
  exact h.1

/-- The preamble is read as it stands. -/
theorem gitPreamble_lines {preamble : Option (Option Text)} {target line : Text} {rest : List Text}
    (h : ∀ index, preamble = some (some index) → isIndexLine index = true)
    (hline : line.head? = some '-') :
    gitPreamble (FileHeaders.preambleLines target preamble ++ line :: rest) target =
      .ok (FileHeaders.preambleLines target preamble).length := by
  have hgit : startswith line "diff --git " = false :=
    startswith_of_ne (by decide : _ = some 'd') hline (by decide)
  have hindex : isIndexLine line = false := by
    rw [← Bool.not_eq_true]
    intro hindex
    have hstart := isIndexLine_start hindex
    rw [startswith_of_ne (by decide : _ = some 'i') hline (by decide)] at hstart
    cases hstart
  have hstart := gitLine_start target
  cases preamble with
  | none =>
    rw [FileHeaders.preambleLines, List.nil_append, gitPreamble, hgit]
    rfl
  | some index =>
    cases index with
    | none =>
      rw [FileHeaders.preambleLines, Option.toList_none, List.singleton_append, gitPreamble,
        if_pos hstart, if_neg (fun hne => hne rfl), List.head?_cons, Option.any_some, hindex]
      rfl
    | some index =>
      rw [FileHeaders.preambleLines, Option.toList_some, List.cons_append, List.singleton_append,
        gitPreamble, if_pos hstart, if_neg (fun hne => hne rfl), List.head?_cons, Option.any_some,
        h index rfl]
      rfl

theorem gitPreamble_eq_ok {lines : List Text} {target : Text} {start : Nat}
    (h : gitPreamble lines target = .ok start) : ∃ preamble : Option (Option Text),
      (∀ index, preamble = some (some index) → isIndexLine index = true) ∧
        lines = FileHeaders.preambleLines target preamble ++ lines.drop start ∧
        start = (FileHeaders.preambleLines target preamble).length := by
  cases lines with
  | nil =>
    obtain rfl := pure_eq_ok.mp h
    exact ⟨none, by simp, rfl, rfl⟩
  | cons line rest =>
    rw [gitPreamble] at h
    split at h
    · split at h
      · cases h
      rename_i hline
      rw [not_not] at hline
      obtain rfl := pure_eq_ok.mp h
      split
      · rename_i hindex
        rw [Option.any_eq_true] at hindex
        obtain ⟨index, hhead, hindex⟩ := hindex
        obtain ⟨rest', rfl⟩ := List.head?_eq_some_iff.mp hhead
        refine ⟨some (some index), ?_, ?_, rfl⟩
        · rintro _ ⟨⟩
          exact hindex
        · rw [hline]
          rfl
      · refine ⟨some none, by simp, ?_, rfl⟩
        rw [hline]
        rfl
    · obtain rfl := pure_eq_ok.mp h
      exact ⟨none, by simp, rfl, rfl⟩

theorem headerPath_append {start : String} {p : Text} {suffix : Option Text}
    (hstart : start.toList.length = 4) (hp : '\t' ∉ p) :
    headerPath (start.toList ++ (p ++ FileHeaders.suffixText suffix)) = p := by
  have hall : ∀ c ∈ p, decide (c ≠ '\t') = true := fun c hc =>
    decide_eq_true fun heq => hp (heq ▸ hc)
  have hend : (FileHeaders.suffixText suffix).takeWhile (· ≠ '\t') = [] := by
    cases suffix <;> simp [FileHeaders.suffixText]
  rw [headerPath, ← hstart, List.drop_left, List.takeWhile_append_of_pos hall, hend,
    List.append_nil]

/-- A header line is its path and a suffix. -/
theorem headerLine_eq {start : String} {line : Text} (hstart : start.toList.length = 4)
    (h : startswith line start = true) : ∃ suffix,
      line = start.toList ++ (headerPath line ++ FileHeaders.suffixText suffix) := by
  obtain ⟨rest, rfl⟩ := startswith_iff.mp h
  have hend : ∃ suffix, rest.dropWhile (· ≠ '\t') = FileHeaders.suffixText suffix := by
    rcases hdrop : rest.dropWhile (· ≠ '\t') with _ | ⟨c, cs⟩
    · exact ⟨none, rfl⟩
    · have hnot := List.head?_dropWhile_not (· ≠ '\t') rest
      rw [hdrop] at hnot
      obtain rfl : c = '\t' := by simpa using hnot
      exact ⟨some cs, rfl⟩
  obtain ⟨suffix, hsuffix⟩ := hend
  refine ⟨suffix, ?_⟩
  rw [headerPath, ← hstart, List.drop_left, ← hsuffix, List.takeWhile_append_dropWhile]

/-- `_headers` reads the headers of the target. -/
theorem headers_eq_ok {lines : List Text} {target : Text} {n : Nat}
    (htarget : path target = .ok target) : headers lines target = .ok n ↔
      ∃ fileHeaders : FileHeaders, fileHeaders.Valid ∧ ∃ rest, rest ≠ [] ∧
        lines = fileHeaders.lines target ++ rest ∧ n = (fileHeaders.lines target).length := by
  have ha : "a/".toList = ['a', '/'] := rfl
  have hb : "b/".toList = ['b', '/'] := rfl
  have hold : "--- ".toList.length = 4 := rfl
  have hnew : "+++ ".toList.length = 4 := rfl
  constructor
  · intro h
    simp only [headers, bind_eq_ok] at h
    obtain ⟨start, hgit, h⟩ := h
    obtain ⟨preamble, hindex, hlines, hlength⟩ := gitPreamble_eq_ok hgit
    split at h
    · rename_i oldLine newLine first rest hdrop
      split at h
      · cases h
      rename_i hstarts
      simp only [Bool.or_eq_true, Bool.not_eq_true', not_or, Bool.not_eq_false] at hstarts
      obtain ⟨oldSuffix, holdLine⟩ := headerLine_eq hold hstarts.1
      obtain ⟨newSuffix, hnewLine⟩ := headerLine_eq hnew hstarts.2
      simp only [bind_eq_ok] at h
      obtain ⟨old, holdPath, h⟩ := h
      split at h
      · cases h
      rename_i holdTarget
      simp only [bind_eq_ok] at h
      obtain ⟨new, hnewPath, h⟩ := h
      split at h
      · cases h
      rename_i hnewTarget
      obtain rfl := pure_eq_ok.mp h
      rw [not_not] at holdTarget hnewTarget
      have hold' := path_eq_ok holdPath
      have hnew' := path_eq_ok hnewPath
      rw [holdTarget] at hold'
      rw [hnewTarget] at hnew'
      have hpaths : ∃ prefixed : Bool,
          headerPath oldLine = (if prefixed then "a/".toList else []) ++ target ∧
            headerPath newLine = (if prefixed then "b/".toList else []) ++ target := by
        split at hold' <;> rename_i hpaired
        · rw [if_pos hpaired] at hnew'
          rw [Bool.and_eq_true] at hpaired
          obtain ⟨p, hp⟩ := startswith_iff.mp hpaired.1
          obtain ⟨q, hq⟩ := startswith_iff.mp hpaired.2
          rw [hp, ha] at hold'
          rw [hq, hb] at hnew'
          refine ⟨true, ?_, ?_⟩
          · rw [hp, hold']
            rfl
          · rw [hq, hnew']
            rfl
        · rw [if_neg hpaired] at hnew'
          exact ⟨false, hold'.symm, hnew'.symm⟩
      obtain ⟨prefixed, holdPath', hnewPath'⟩ := hpaths
      refine ⟨⟨preamble, prefixed, oldSuffix, newSuffix⟩, hindex, first :: rest,
        List.cons_ne_nil _ _, ?_, ?_⟩
      · rw [holdPath'] at holdLine
        rw [hnewPath'] at hnewLine
        rw [hlines, hdrop, holdLine, hnewLine, FileHeaders.lines, List.append_assoc _ [_, _]]
        rfl
      · rw [FileHeaders.lines, List.length_append, ← hlength]
        rfl
    · cases h
  · rintro ⟨fileHeaders, hvalid, rest, hne, rfl, rfl⟩
    obtain ⟨first, rest, rfl⟩ := List.exists_cons_of_ne_nil hne
    have htab := tab_not_mem_of_path htarget
    have hpath : ∀ p : List Char, '\t' ∉ p → '\t' ∉ p ++ target := fun p hp hmem =>
      (List.mem_append.mp hmem).elim hp htab
    have holdPath : headerPath (fileHeaders.oldLine target) = fileHeaders.oldPath target :=
      headerPath_append hold (hpath _ (by split <;> decide))
    have hnewPath : headerPath (fileHeaders.newLine target) = fileHeaders.newPath target :=
      headerPath_append hnew (hpath _ (by split <;> decide))
    simp only [headers, bind_eq_ok]
    rw [FileHeaders.lines, List.append_assoc]
    refine ⟨_, gitPreamble_lines hvalid oldLine_head, ?_⟩
    rw [List.drop_left]
    have hstarts : startswith (fileHeaders.oldLine target) "--- " = true ∧
        startswith (fileHeaders.newLine target) "+++ " = true :=
      ⟨startswith_append _ _, startswith_append _ _⟩
    simp only [List.cons_append, List.nil_append, hstarts, holdPath, hnewPath, Bool.not_true,
      Bool.or_self, Bool.false_eq_true, if_false]
    have hpaired : (startswith (fileHeaders.oldPath target) "a/" &&
        startswith (fileHeaders.newPath target) "b/") = fileHeaders.prefixed := by
      rw [FileHeaders.oldPath, FileHeaders.newPath]
      cases fileHeaders.prefixed with
      | true =>
        rw [if_pos rfl, if_pos rfl, startswith_append, startswith_append]
        rfl
      | false =>
        rw [if_neg Bool.false_ne_true, if_neg Bool.false_ne_true, List.nil_append,
          Bool.and_eq_false_iff]
        by_contra hboth
        simp only [not_or, Bool.not_eq_false] at hboth
        obtain ⟨p, hp⟩ := startswith_iff.mp hboth.1
        obtain ⟨q, hq⟩ := startswith_iff.mp hboth.2
        rw [hp, ha, hb] at hq
        cases hq
    have hold' : (if fileHeaders.prefixed = true then (fileHeaders.oldPath target).drop 2
        else fileHeaders.oldPath target) = target := by
      rw [FileHeaders.oldPath]
      cases fileHeaders.prefixed with
      | true =>
        rw [if_pos rfl, if_pos rfl, ha]
        rfl
      | false => rfl
    have hnew' : (if fileHeaders.prefixed = true then (fileHeaders.newPath target).drop 2
        else fileHeaders.newPath target) = target := by
      rw [FileHeaders.newPath]
      cases fileHeaders.prefixed with
      | true =>
        rw [if_pos rfl, if_pos rfl, hb]
        rfl
      | false => rfl
    rw [hpaired, hold', hnew', htarget]
    simp only [bind_eq_ok]
    refine ⟨target, rfl, ?_⟩
    rw [if_neg (fun hne => hne rfl)]
    simp only [bind_eq_ok]
    refine ⟨target, rfl, ?_⟩
    rw [if_neg (fun hne => hne rfl), List.length_append]
    rfl

/-! ## Text -/

/-- `_text` accepts plain text with endings of one kind. -/
theorem text_eq_ok_iff {raw : Bytes} {limit : Nat} {t : Text} {crlf : Bool} :
    text raw limit = .ok (t, crlf) ↔ raw = withEndings crlf (Utf8.encode t) ∧
      raw.length ≤ limit ∧ Plain t ∧ (crlf → '\n' ∈ t) := by
  have hlf : (10 : UInt8) ∈ Utf8.encode t ↔ '\n' ∈ t := Utf8.mem_encode_iff (c := '\n') (by decide)
  constructor
  · intro h
    have hraw := acceptable_of_text h
    have hcr := cr_not_mem_text h
    obtain ⟨hencode, rfl⟩ := encode_text h
    have heq := withEndings_normalised hraw
    rw [← hencode] at heq
    refine ⟨heq.symm, hraw.size, ⟨hcr, nul_not_mem_text h⟩, fun hcrlf => ?_⟩
    rw [← heq, hasCrlf_withEndings (cr_mem_encode_iff.not.mpr hcr), Bool.and_eq_true,
      decide_eq_true_eq] at hcrlf
    exact hlf.mp hcrlf.2
  · rintro ⟨rfl, hsize, ⟨hcr, hnul⟩, hends⟩
    have hcr' := cr_mem_encode_iff.not.mpr hcr
    have hraw := acceptable_withEndings hsize (Utf8.valid_encode t) hcr'
      (nul_mem_encode_iff.not.mpr hnul)
    obtain ⟨t', htext, hencode⟩ := text_of_acceptable hraw
    rw [normalised_withEndings hcr'] at hencode
    obtain rfl := Utf8.encode_injective hencode
    have hcrlf : hasCrlf (withEndings crlf (Utf8.encode t')) = crlf := by
      rw [hasCrlf_withEndings hcr']
      cases crlf with
      | true => exact decide_eq_true (hlf.mpr (hends rfl))
      | false => rfl
    rw [htext, hcrlf]

/-! ## Diffs -/

/-- A unified diff of one file. -/
structure Diff where
  headers : FileHeaders
  hunks : List DiffHunk
  deriving DecidableEq, Repr

namespace Diff

variable (diff : Diff) (target : Text)

def lines : List Text := diff.headers.lines target ++ diff.hunks.flatMap DiffHunk.lines

def text : Text := Blocks.unlines '\n' (diff.lines target)

/-- The bytes of the diff, with LF or with CRLF endings. -/
def render (crlf : Bool) : Bytes := withEndings crlf (Utf8.encode (diff.text target))

def patch : ParsedPatch := ⟨target, diff.hunks.map DiffHunk.sides⟩

structure Valid : Prop where
  accepted : path target = .ok target
  headers : diff.headers.Valid
  hunks : diff.hunks ≠ []
  ordered : Ordered 0 0 diff.hunks
  plain : ∀ line ∈ diff.lines target, Plain line ∧ '\n' ∉ line

end Diff

/-- The third-party parser reports the body of every hunk. -/
def Reports (fromstring : Fromstring) (diff : Diff) (target : Text) : Prop :=
  ∃ hunks, fromstring (Utf8.encode (diff.text target)) = some [hunks] ∧
    List.Forall₂ (fun (hunk : NgHunk) body => hunk.invalid = false ∧
      hunk.text.filter (·.head? ≠ some 92) = body) hunks (diff.hunks.map DiffHunk.bytes)

theorem checkParser_eq_ok {parsed : Option (List (List NgHunk))} {bodies : List (List Bytes)} :
    checkParser parsed bodies = .ok () ↔ ∃ hunks, parsed = some [hunks] ∧
      List.Forall₂ (fun (hunk : NgHunk) body => hunk.invalid = false ∧
        hunk.text.filter (·.head? ≠ some 92) = body) hunks bodies := by
  rw [checkParser.eq_def]
  constructor
  · intro h
    split at h
    · rename_i hunks
      split at h
      · cases h
      rename_i hlength
      split at h
      · cases h
      rename_i hall
      refine ⟨hunks, rfl, List.forall₂_iff_zip.mpr ⟨not_not.mp hlength, fun hmem => ?_⟩⟩
      rw [List.any_eq_true, not_exists] at hall
      have hpair := not_and.mp (hall _) hmem
      simpa using hpair
    · cases h
  · rintro ⟨hunks, rfl, hall⟩
    obtain ⟨hlength, hall⟩ := List.forall₂_iff_zip.mp hall
    dsimp only
    rw [if_neg (not_not.mpr hlength), if_neg]
    · rfl
    · rw [List.any_eq_true]
      rintro ⟨⟨hunk, body⟩, hmem, hbad⟩
      obtain ⟨hvalid, hbody⟩ := hall hmem
      rw [hvalid, hbody] at hbad
      simp at hbad

/-- A diff is plain where its lines are. -/
theorem plain_text_iff {ls : List Text} : Plain (Blocks.unlines '\n' ls) ↔ ∀ line ∈ ls, Plain line := by
  simp only [Plain, Blocks.unlines, List.mem_flatMap, List.mem_append, List.mem_singleton,
    not_exists, not_and, not_or]
  constructor
  · rintro ⟨hcr, hnul⟩ line hline
    exact ⟨(hcr line hline).1, (hnul line hline).1⟩
  · intro h
    exact ⟨fun line hline => ⟨(h line hline).1, by decide⟩,
      fun line hline => ⟨(h line hline).2, by decide⟩⟩

variable {fromstring : Fromstring} {raw : Bytes} {target : Text} {patch : ParsedPatch}

/-- Every accepted diff is a rendering, with nothing left over. -/
theorem exists_diff_of_parse (h : parse fromstring raw target = .ok patch) :
    ∃ (diff : Diff) (crlf : Bool), diff.Valid target ∧ raw = diff.render target crlf ∧
      raw.length ≤ maxPatchBytes ∧ Reports fromstring diff target ∧ patch = diff.patch target := by
  obtain ⟨t, crlf, index, records, htarget, ht, hlast, hindex, hrecords, hne, hcheck, rfl⟩ :=
    parse_eq_ok h
  obtain ⟨hraw, hsize, hplain, -⟩ := text_eq_ok_iff.mp ht
  obtain ⟨hnil, hlines, hbare⟩ := Blocks.splitOn_unlines_iff.mp ⟨hlast, rfl⟩
  generalize t.dropLast.splitOn '\n' = ls at hindex hrecords hnil hlines hbare
  obtain ⟨fileHeaders, hheaders, rest, hrest, rfl, rfl⟩ := (headers_eq_ok htarget).mp hindex
  rw [List.drop_left] at hrecords
  obtain ⟨hunks, rfl, hordered, rfl⟩ :=
    (readHunks_eq_ok (by rw [List.length_append]; omega)).mp hrecords
  rw [hlines, plain_text_iff] at hplain
  refine ⟨⟨fileHeaders, hunks⟩, crlf, ⟨htarget, hheaders, ?_, hordered,
    fun line hline => ⟨hplain line hline, hbare line hline⟩⟩, ?_, hsize, ?_, ?_⟩
  · rintro rfl
    exact hne rfl
  · rw [hraw, hlines]
    rfl
  · obtain ⟨ngHunks, hng, hall⟩ := checkParser_eq_ok.mp hcheck
    rw [hlines] at hng
    rw [List.map_map] at hall
    exact ⟨ngHunks, hng, hall⟩
  · rw [List.map_map]
    rfl

namespace Diff.Valid

variable {diff : Diff} {crlf : Bool} (hvalid : diff.Valid target)

include hvalid

theorem hunkLines_ne_nil : diff.hunks.flatMap DiffHunk.lines ≠ [] := by
  obtain ⟨hunk, hunks, hhunks⟩ := List.exists_cons_of_ne_nil hvalid.hunks
  rw [hhunks]
  exact List.cons_ne_nil _ _

theorem lines_text : (diff.text target).getLast? = some '\n' ∧
    (diff.text target).dropLast.splitOn '\n' = diff.lines target :=
  Blocks.splitOn_unlines_iff.mpr ⟨List.append_ne_nil_of_right_ne_nil _ hvalid.hunkLines_ne_nil,
    rfl, fun line hline => (hvalid.plain line hline).2⟩

theorem text_render (hsize : (diff.render target crlf).length ≤ maxPatchBytes) :
    PatchEngine.text (diff.render target crlf) maxPatchBytes = .ok (diff.text target, crlf) :=
  text_eq_ok_iff.mpr ⟨rfl, hsize,
    plain_text_iff.mpr fun line hline => (hvalid.plain line hline).1,
    fun _ => List.mem_of_getLast? hvalid.lines_text.1⟩

end Diff.Valid

/-- The rendering of a valid diff is read back as its hunks. -/
theorem parse_render {diff : Diff} {crlf : Bool} (hvalid : diff.Valid target)
    (hsize : (diff.render target crlf).length ≤ maxPatchBytes)
    (hreports : Reports fromstring diff target) :
    parse fromstring (diff.render target crlf) target = .ok (diff.patch target) := by
  obtain ⟨ngHunks, hng, hall⟩ := hreports
  have hrest := hvalid.hunkLines_ne_nil
  obtain ⟨hlast, hsplit⟩ := hvalid.lines_text
  have htext := hvalid.text_render hsize
  have hheaders := (headers_eq_ok hvalid.accepted).mpr
    ⟨diff.headers, hvalid.headers, _, hrest, rfl, rfl⟩
  have hhunks : readHunks (diff.lines target).length
      ((diff.lines target).drop (diff.headers.lines target).length) 0 0 =
        .ok (diff.hunks.map fun hunk => (hunk.sides, hunk.bytes)) := by
    rw [Diff.lines, List.drop_left]
    exact (readHunks_eq_ok (by rw [List.length_append]; omega)).mpr
      ⟨diff.hunks, rfl, hvalid.ordered, rfl⟩
  simp only [parse, bind_eq_ok, mapError_eq_ok, Prod.exists]
  refine ⟨target, hvalid.accepted, _, _, htext, ?_⟩
  rw [if_neg (not_not.mpr hlast)]
  simp only [bind_eq_ok, mapError_eq_ok]
  rw [hsplit]
  refine ⟨_, hheaders, _, hhunks, ?_⟩
  rw [if_neg (by simpa using hvalid.hunks)]
  simp only [bind_eq_ok, mapError_eq_ok]
  refine ⟨(), checkParser_eq_ok.mpr ⟨ngHunks, hng, ?_⟩, ?_⟩
  · rw [List.map_map]
    exact hall
  · rw [List.map_map]
    rfl

/-- `parse` accepts the renderings of the valid diffs that the third-party parser reports, and
returns the sides of their hunks. -/
theorem parse_eq_ok_iff_render : parse fromstring raw target = .ok patch ↔
    ∃ (diff : Diff) (crlf : Bool), diff.Valid target ∧ raw = diff.render target crlf ∧
      raw.length ≤ maxPatchBytes ∧ Reports fromstring diff target ∧
      patch = diff.patch target := by
  constructor
  · exact exists_diff_of_parse
  · rintro ⟨diff, crlf, hvalid, rfl, hsize, hreports, rfl⟩
    exact parse_render hvalid hsize hreports

/-- The third-party parser only accepts or refuses. -/
theorem parse_unique {fromstring' : Fromstring} {patch' : ParsedPatch}
    (h : parse fromstring raw target = .ok patch) (h' : parse fromstring' raw target = .ok patch') :
    patch = patch' := by
  obtain ⟨t, crlf, index, records, -, ht, -, hindex, hrecords, -, -, rfl⟩ := parse_eq_ok h
  obtain ⟨t', crlf', index', records', -, ht', -, hindex', hrecords', -, -, rfl⟩ := parse_eq_ok h'
  obtain ⟨rfl, -⟩ := Prod.mk.inj (Except.ok.inj (ht.symm.trans ht'))
  obtain rfl := Except.ok.inj (hindex.symm.trans hindex')
  obtain rfl := Except.ok.inj (hrecords.symm.trans hrecords')
  rfl

/-- The report of a parser that takes every hunk as it is. -/
def DiffHunk.report (hunk : DiffHunk) : NgHunk := ⟨false, hunk.bytes⟩

theorem head?_bytes (line : DiffLine) : line.bytes.head? ≠ some 92 := by
  obtain ⟨mark, text, terminated⟩ := line
  intro h
  have hmark : mark.char ≠ '\\' := by cases mark <;> decide
  refine hmark ?_
  have hhead := (Utf8.head?_encode_iff (c := '\\') (by decide)).mp h
  exact Option.some.inj hhead

theorem reports_report (diff : Diff) (target : Text) :
    Reports (fun _ => some [diff.hunks.map DiffHunk.report]) diff target := by
  refine ⟨_, rfl, ?_⟩
  rw [List.forall₂_map_left_iff, List.forall₂_map_right_iff]
  refine List.forall₂_same.mpr fun hunk _ => ⟨rfl, List.filter_eq_self.mpr fun line hline => ?_⟩
  obtain ⟨diffLine, -, rfl⟩ := List.mem_map.mp hline
  exact decide_eq_true (head?_bytes diffLine)

def headingSource : Bytes := Utf8.encode "--- f\n+++ f\n@@ -1 +1 @@ f\n-x\n+z\n".toList

/-- A hunk header may go on after its second `@@`. -/
theorem parse_headingSource :
    (∃ patch, parse (fun _ => some [[⟨false, ["-x\n", "+z\n"].map (Utf8.encode ·.toList)⟩]])
      headingSource "f".toList = .ok patch) ∧
    ¬ ∃ (diff : Diff) (crlf : Bool), diff.Valid "f".toList ∧
      (∀ hunk ∈ diff.hunks, hunk.header.heading = none) ∧
      headingSource = diff.render "f".toList crlf := by
  refine ⟨⟨⟨"f".toList, [⟨Utf8.encode "x\n".toList, Utf8.encode "z\n".toList⟩]⟩,
    by decide +kernel⟩, ?_⟩
  rintro ⟨diff, crlf, hvalid, hheading, hsource⟩
  obtain ⟨hunk, hunks, hhunks⟩ := List.exists_cons_of_ne_nil hvalid.hunks
  have hmem : hunk.header.text ∈ diff.lines "f".toList := by
    rw [Diff.lines, hhunks, List.flatMap_cons]
    exact List.mem_append_right _ List.mem_cons_self
  have hsize : headingSource.length ≤ maxPatchBytes := by decide +kernel
  have hread : text headingSource maxPatchBytes =
      .ok ("--- f\n+++ f\n@@ -1 +1 @@ f\n-x\n+z\n".toList, false) := by decide +kernel
  have hlines : ∀ line ∈ ("--- f\n+++ f\n@@ -1 +1 @@ f\n-x\n+z\n".toList.dropLast.splitOn '\n'),
      startswith line "@@ -" = true → line.getLast? ≠ some '@' := by decide +kernel
  rw [hsource] at hsize hread
  rw [hvalid.text_render hsize] at hread
  obtain ⟨htext, -⟩ := Prod.mk.inj (Except.ok.inj hread)
  rw [← htext, hvalid.lines_text.2] at hlines
  refine hlines _ hmem (startswith_append _ _) ?_
  have hat : " @@".toList = [' ', '@', '@'] := rfl
  rw [DiffHeader.text, hheading hunk (hhunks ▸ List.mem_cons_self), DiffHeader.headingText, hat]
  simp only [List.append_nil, ← List.append_assoc]
  rw [List.getLast?_append]
  rfl

end Hapatchy.PatchEngine
