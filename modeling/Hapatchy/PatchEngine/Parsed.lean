import Hapatchy.Lib.Results
import Hapatchy.PatchEngine.Inspect

/-!
# What a parsed patch is made of

The lines of a hunk come from the diff, and the diff has no carriage return
once `_text` accepted it.
-/

open Newlines Results

namespace Hapatchy.PatchEngine

/-! ## Accepted diffs -/

theorem acceptable_of_text {raw : Bytes} {limit : Nat} {t : Text} {crlf : Bool}
    (h : text raw limit = .ok (t, crlf)) : Acceptable raw limit := by
  by_contra hbad
  obtain ⟨reason, hreason⟩ := text_of_not_acceptable hbad
  rw [hreason] at h
  cases h

theorem cr_not_mem_normalised {raw : Bytes} {limit : Nat} (h : Acceptable raw limit) :
    13 ∉ normalised raw := cr_not_mem_replacePair (by decide) h.noLoneCr

theorem cr_mem_encode_iff {t : Text} : (13 : UInt8) ∈ Utf8.encode t ↔ '\r' ∈ t :=
  Utf8.mem_encode_iff (c := '\r') (by decide)

theorem encode_text {raw : Bytes} {limit : Nat} {t : Text} {crlf : Bool}
    (h : text raw limit = .ok (t, crlf)) : Utf8.encode t = normalised raw ∧ crlf = hasCrlf raw := by
  obtain ⟨t', ht', hencode⟩ := text_of_acceptable (acceptable_of_text h)
  rw [h] at ht'
  cases ht'
  exact ⟨hencode, rfl⟩

theorem cr_not_mem_text {raw : Bytes} {limit : Nat} {t : Text} {crlf : Bool}
    (h : text raw limit = .ok (t, crlf)) : '\r' ∉ t := by
  rw [← cr_mem_encode_iff, (encode_text h).1]
  exact cr_not_mem_normalised (acceptable_of_text h)

theorem nul_not_mem_normalised {raw : Bytes} {limit : Nat} (h : Acceptable raw limit) :
    0 ∉ normalised raw := not_mem_replacePair h.noNul (by simp)

theorem nul_not_mem_text {raw : Bytes} {limit : Nat} {t : Text} {crlf : Bool}
    (h : text raw limit = .ok (t, crlf)) : '\x00' ∉ t := by
  rw [← nul_mem_encode_iff, (encode_text h).1]
  exact nul_not_mem_normalised (acceptable_of_text h)

/-- Splitting only drops separators. -/
theorem mem_of_mem_splitOn {α : Type*} [BEq α] {a x : α} {xs line : List α}
    (hline : line ∈ xs.splitOn a) (hx : x ∈ line) : x ∈ xs := by
  induction xs generalizing line with
  | nil => simp_all
  | cons y ys ih =>
    rw [List.splitOn_cons_eq_if_modifyHead] at hline
    split at hline
    · rcases List.mem_cons.mp hline with rfl | hline
      · cases hx
      · exact List.mem_cons_of_mem _ (ih hline hx)
    · obtain ⟨first, rest, hsplit⟩ := List.exists_cons_of_ne_nil (List.splitOn_ne_nil a ys)
      rw [hsplit, List.modifyHead_cons] at hline
      rcases List.mem_cons.mp hline with rfl | hline
      · rcases List.mem_cons.mp hx with rfl | hx
        · exact List.mem_cons_self
        · exact List.mem_cons_of_mem _ (ih (by simp [hsplit]) hx)
      · exact List.mem_cons_of_mem _ (ih (by simp [hsplit, hline]) hx)

/-! ## The lines of a hunk -/

/-- `P` holds of every line read on either side. -/
structure HunkSides.All (P : Text → Prop) (sides : HunkSides) : Prop where
  old : ∀ l ∈ sides.old, P l
  new : ∀ l ∈ sides.new, P l

/-- `P` holds of what the diff line `mark :: value` can add to a side. -/
def Reads (P : Text → Prop) (line : Text) : Prop :=
  ∀ mark value, line = mark :: value → P value ∧ P (value ++ ['\n'])

variable {P : Text → Prop}

theorem appendLine_eq_ok {lines lines' : List Text} {value : Text}
    (h : appendLine lines value = .ok lines') : lines' = lines ++ [value] := by
  simp only [appendLine] at h
  split at h
  · split at h
    · exact (pure_eq_ok.mp h).symm
    · simp at h
  · rename_i hlast
    obtain rfl := List.getLast?_eq_none_iff.mp hlast
    exact (pure_eq_ok.mp h).symm

/-- One side after a diff line that may add to it. -/
theorem forall_of_append {adds : Prop} [Decidable adds] {lines lines' : List Text} {value : Text}
    (h : (if adds then appendLine lines value else pure lines) = .ok lines')
    (hlines : ∀ l ∈ lines, P l) (hvalue : P value) : ∀ l ∈ lines', P l := by
  split at h
  · obtain rfl := appendLine_eq_ok h
    intro l hl
    rcases List.mem_append.mp hl with hl | hl
    · exact hlines l hl
    · obtain rfl := List.mem_singleton.mp hl
      exact hvalue
  · obtain rfl := pure_eq_ok.mp h
    exact hlines

theorem HunkSides.push_eq_ok {sides sides' : HunkSides} {mark : Char} {line value : Text}
    (h : sides.push mark line value = .ok sides') :
    (if mark = ' ' ∨ mark = '-' then appendLine sides.old value else pure sides.old) =
        .ok sides'.old ∧
      (if mark = ' ' ∨ mark = '+' then appendLine sides.new value else pure sides.new) =
        .ok sides'.new ∧
      sides'.body = sides.body ++ [Utf8.encode (line ++ ['\n'])] := by
  simp only [HunkSides.push] at h
  split at h <;> rename_i hminus <;> split at h <;> rename_i hplus <;>
    (obtain ⟨old, hold, h⟩ := bind_eq_ok.mp h
     obtain ⟨new, hnew, h⟩ := bind_eq_ok.mp h
     obtain rfl := pure_eq_ok.mp h
     simp only [hminus, hplus, if_true, if_false]
     exact ⟨hold, hnew, trivial⟩)

theorem HunkSides.All.push {sides sides' : HunkSides} {mark : Char} {line value : Text}
    (hs : sides.All P) (hvalue : P value) (h : sides.push mark line value = .ok sides') :
    sides'.All P := by
  obtain ⟨hold, hnew, -⟩ := push_eq_ok h
  exact ⟨forall_of_append hold hs.old hvalue, forall_of_append hnew hs.new hvalue⟩

/-- What one turn of the loop of `_read_hunk` does. -/
theorem readSides_cons_eq_ok {line : Text} {rest : List Text} {sides : HunkSides}
    {out : HunkSides × List Text} (h : readSides (line :: rest) sides = .ok out) :
    (startswith line "@@ " ∧ out = (sides, line :: rest)) ∨
      ∃ mark value, line = mark :: value ∧ ¬ startswith line "@@ " ∧ mark ∈ [' ', '+', '-'] ∧
        ((∃ rest' pushed, rest = noNewline :: rest' ∧ sides.push mark line value = .ok pushed ∧
            readSides rest' pushed = .ok out) ∨
          ∃ pushed, rest.head? ≠ some noNewline ∧
            sides.push mark line (value ++ ['\n']) = .ok pushed ∧
            readSides rest pushed = .ok out) := by
  rw [readSides.eq_def] at h
  split at h
  · simp_all
  rename_i line' rest' sides' heq
  obtain ⟨rfl, rfl⟩ := List.cons.inj heq
  split at h
  · rename_i hstart
    exact Or.inl ⟨hstart, (pure_eq_ok.mp h).symm⟩
  rename_i hstart
  split at h
  · simp at h
  rename_i mark value
  split at h
  · simp at h
  rename_i hmark
  refine Or.inr ⟨mark, value, rfl, hstart, not_not.mp hmark, ?_⟩
  split at h
  · obtain ⟨pushed, hpush, h⟩ := bind_eq_ok.mp h
    exact Or.inr ⟨pushed, by simp, hpush, h⟩
  rename_i next rest'
  split at h <;> rename_i hnext
  · obtain ⟨pushed, hpush, h⟩ := bind_eq_ok.mp h
    exact Or.inl ⟨rest', pushed, by rw [hnext], hpush, h⟩
  · obtain ⟨pushed, hpush, h⟩ := bind_eq_ok.mp h
    exact Or.inr ⟨pushed, by simpa using hnext, hpush, h⟩

/-- The loop of `_read_hunk` keeps the lines of the diff, and leaves some of them. -/
theorem readSides_all {lines rest : List Text} {sides sides' : HunkSides}
    (h : readSides lines sides = .ok (sides', rest)) (hlines : ∀ line ∈ lines, Reads P line)
    (hs : sides.All P) : sides'.All P ∧ rest <:+ lines := by
  induction hn : lines.length using Nat.strong_induction_on generalizing lines sides with
  | _ n ih =>
    match lines with
    | [] =>
      obtain ⟨rfl, rfl⟩ : sides = sides' ∧ [] = rest := by simpa [readSides] using h
      exact ⟨hs, List.suffix_refl _⟩
    | line :: lines' =>
      simp only [List.length_cons] at hn
      rcases readSides_cons_eq_ok h with ⟨-, hout⟩ | ⟨mark, value, rfl, -, -, hturn⟩
      · obtain ⟨rfl, rfl⟩ := Prod.mk.inj hout
        exact ⟨hs, List.suffix_refl _⟩
      have hvalue := hlines _ List.mem_cons_self mark value rfl
      rcases hturn with ⟨rest', pushed, rfl, hpush, h⟩ | ⟨pushed, -, hpush, h⟩
      · obtain ⟨hall, hrest⟩ := ih rest'.length (by simp at hn; omega) h
          (fun line hline => hlines line (by simp [hline])) (hs.push hvalue.1 hpush) rfl
        exact ⟨hall, hrest.trans ((List.suffix_cons _ _).trans (List.suffix_cons _ _))⟩
      · obtain ⟨hall, hrest⟩ := ih lines'.length (by omega) h
          (fun line hline => hlines line (List.mem_cons_of_mem _ hline))
          (hs.push hvalue.2 hpush) rfl
        exact ⟨hall, hrest.trans (List.suffix_cons _ _)⟩

/-! ## The hunks of a diff -/

/-- The lines of the two sides of a hunk. -/
structure HunkLines (P : Text → Prop) (hunk : Hunk) (old new : List Text) : Prop where
  before : hunk.before = Utf8.encode old.flatten
  after : hunk.after = Utf8.encode new.flatten
  changes : old ≠ new
  allOld : ∀ l ∈ old, P l
  allNew : ∀ l ∈ new, P l

theorem readHunk_lines {lines rest : List Text} {oldCount newCount : Nat} {hunk : Hunk}
    {body : List Bytes} (h : readHunk lines oldCount newCount = .ok (hunk, body, rest))
    (hlines : ∀ line ∈ lines, Reads P line) :
    (∃ old new, HunkLines P hunk old new ∧ old.length = oldCount ∧ new.length = newCount) ∧
      rest <:+ lines := by
  simp only [readHunk, bind_eq_ok, Prod.exists] at h
  obtain ⟨sides, rest', hread, h⟩ := h
  obtain ⟨hall, hrest⟩ := readSides_all hread hlines ⟨by simp, by simp⟩
  split at h
  · simp at h
  rename_i hcounts
  split at h
  · simp at h
  rename_i hne
  simp only [pure_eq_ok, Prod.mk.injEq] at h
  obtain ⟨rfl, -, rfl⟩ := h
  simp only [not_or, not_not] at hcounts
  exact ⟨⟨_, _, ⟨rfl, rfl, hne, hall.old, hall.new⟩, hcounts⟩, hrest⟩

theorem hunkHeader_pos {line : Text} {header : HunkHeader} (h : hunkHeader line = .ok header) :
    1 ≤ header.oldStart ∧ 1 ≤ header.oldCount ∧ 1 ≤ header.newStart ∧ 1 ≤ header.newCount := by
  simp only [hunkHeader] at h
  split at h
  · simp at h
  simp only [bind_eq_ok] at h
  obtain ⟨oldStart, -, oldCount, -, newStart, -, newCount, -, h⟩ := h
  split at h
  · simp at h
  rename_i hmin
  obtain rfl := pure_eq_ok.mp h
  simp only at hmin ⊢
  omega

/-- Every record the hunk loop makes has lines of the diff, at least one on each side. -/
theorem readHunks_lines {fuel : Nat} {lines : List Text} {previousOld previousNew : Nat}
    {records : List (Hunk × List Bytes)}
    (h : readHunks fuel lines previousOld previousNew = .ok records)
    (hlines : ∀ line ∈ lines, Reads P line) :
    ∀ record ∈ records, ∃ old new, HunkLines P record.1 old new ∧ old ≠ [] ∧ new ≠ [] := by
  induction fuel generalizing lines previousOld previousNew records with
  | zero =>
    cases lines with
    | nil =>
      obtain rfl : [] = records := by simpa [readHunks] using h
      simp
    | cons line rest => simp [readHunks] at h
  | succ fuel ih =>
    cases lines with
    | nil =>
      obtain rfl : [] = records := by simpa [readHunks] using h
      simp
    | cons line rest =>
      simp only [readHunks, bind_eq_ok] at h
      obtain ⟨header, hheader, h⟩ := h
      have hpos := hunkHeader_pos hheader
      split at h
      · simp at h
      simp only [bind_eq_ok, mapError_eq_ok, Prod.exists] at h
      obtain ⟨record, body, rest', hread, records', hrecords, h⟩ := h
      obtain rfl := pure_eq_ok.mp h
      obtain ⟨⟨old, new, hl, hold, hnew⟩, hrest⟩ :=
        readHunk_lines hread fun line hline => hlines line (List.mem_cons_of_mem _ hline)
      intro r hr
      rcases List.mem_cons.mp hr with rfl | hr
      · exact ⟨old, new, hl, List.ne_nil_of_length_pos (by omega),
          List.ne_nil_of_length_pos (by omega)⟩
      · exact ih hrecords
          (fun line hline => hlines line (List.mem_cons_of_mem _ (hrest.subset hline))) r hr

/-! ## Accepted patches -/

variable {fromstring : Fromstring} {raw : Bytes} {target : Text} {patch : ParsedPatch}

theorem parse_eq_ok (h : parse fromstring raw target = .ok patch) :
    ∃ t crlf index records, path target = .ok target ∧ text raw maxPatchBytes = .ok (t, crlf) ∧
      t.getLast? = some '\n' ∧ headers (t.dropLast.splitOn '\n') target = .ok index ∧
      readHunks (t.dropLast.splitOn '\n').length ((t.dropLast.splitOn '\n').drop index) 0 0 =
        .ok records ∧
      records ≠ [] ∧ checkParser (fromstring (Utf8.encode t)) (records.map Prod.snd) = .ok () ∧
      patch = ⟨target, records.map Prod.fst⟩ := by
  simp only [parse, bind_eq_ok, mapError_eq_ok, Prod.exists] at h
  obtain ⟨target', htarget, t, crlf, ht, h⟩ := h
  obtain rfl : target' = target := by
    simp only [path] at htarget
    repeat' split at htarget
    all_goals simp at htarget
    exact htarget.symm
  split at h
  · simp at h
  rename_i hlast
  simp only [bind_eq_ok, mapError_eq_ok] at h
  obtain ⟨index, hindex, records, hrecords, h⟩ := h
  split at h
  · simp at h
  rename_i hne
  simp only [bind_eq_ok, mapError_eq_ok] at h
  obtain ⟨⟨⟩, hcheck, h⟩ := h
  exact ⟨t, crlf, index, records, htarget, ht, not_not.mp hlast, hindex, hrecords, hne, hcheck,
    (pure_eq_ok.mp h).symm⟩

/-- A line with neither carriage return nor NUL. -/
def Plain (line : Text) : Prop := '\r' ∉ line ∧ '\x00' ∉ line

/-- Every hunk of an accepted diff has plain lines, at least one on each side. -/
theorem parse_hunk_lines (h : parse fromstring raw target = .ok patch) :
    ∀ hunk ∈ patch.hunks, ∃ old new, HunkLines Plain hunk old new ∧ old ≠ [] ∧ new ≠ [] := by
  obtain ⟨t, crlf, index, records, -, ht, -, -, hrecords, -, -, rfl⟩ := parse_eq_ok h
  intro hunk hhunk
  obtain ⟨record, hrecord, rfl⟩ := List.mem_map.mp hhunk
  refine readHunks_lines hrecords ?_ record hrecord
  rintro line hline mark value rfl
  have hmem : ∀ c ∈ value, c ∈ t := fun c hc => List.mem_of_mem_dropLast <|
    mem_of_mem_splitOn (List.mem_of_mem_drop hline) (List.mem_cons_of_mem _ hc)
  have hcr : '\r' ∉ value := fun hc => cr_not_mem_text ht (hmem _ hc)
  have hnul : '\x00' ∉ value := fun hc => nul_not_mem_text ht (hmem _ hc)
  exact ⟨⟨hcr, hnul⟩, by simp [hcr], by simp [hnul]⟩

/-- Both sides of a parsed hunk are plain text. -/
theorem parse_side (h : parse fromstring raw target = .ok patch) {hunk : Hunk}
    (hhunk : hunk ∈ patch.hunks) (reverse : Bool) :
    ∃ t, hunk.side reverse = Utf8.encode t ∧ Plain t := by
  obtain ⟨old, new, hl, -, -⟩ := parse_hunk_lines h hunk hhunk
  have hplain : ∀ lines : List Text, (∀ l ∈ lines, Plain l) → Plain lines.flatten := by
    intro lines hall
    simp only [Plain, List.mem_flatten, not_exists, not_and]
    exact ⟨fun l hl => (hall l hl).1, fun l hl => (hall l hl).2⟩
  cases reverse
  · exact ⟨_, hl.before, hplain old hl.allOld⟩
  · exact ⟨_, hl.after, hplain new hl.allNew⟩

theorem parse_cr_not_mem_side (h : parse fromstring raw target = .ok patch) {hunk : Hunk}
    (hhunk : hunk ∈ patch.hunks) (reverse : Bool) : 13 ∉ hunk.side reverse := by
  obtain ⟨t, hside, hplain⟩ := parse_side h hhunk reverse
  rw [hside, cr_mem_encode_iff]
  exact hplain.1

theorem parse_nul_not_mem_side (h : parse fromstring raw target = .ok patch) {hunk : Hunk}
    (hhunk : hunk ∈ patch.hunks) (reverse : Bool) : 0 ∉ hunk.side reverse := by
  obtain ⟨t, hside, hplain⟩ := parse_side h hhunk reverse
  rw [hside, nul_mem_encode_iff]
  exact hplain.2

end Hapatchy.PatchEngine
