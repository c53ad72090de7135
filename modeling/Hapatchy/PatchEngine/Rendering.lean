import Mathlib.Data.Bool.AllAny
import Mathlib.Data.List.TakeWhile
import Hapatchy.PatchEngine.Numerals

/-!
# Unified diffs

What a single-file unified diff is, line by line, and that each part of the
parser reads exactly its part of one.
-/

open Newlines Results

namespace Hapatchy.PatchEngine

/-! ## Hunk headers -/

/-- Decimal digits, as many as `int` takes. -/
def Numeral (digits : Text) (n : Nat) : Prop :=
  digits ≠ [] ∧ (∀ c ∈ digits, (digitValue c).isSome) ∧ int digits = .ok n

/-- The texts in a hunk header. -/
structure DiffHeader where
  oldStart : Text
  oldCount : Option Text := none
  newStart : Text
  newCount : Option Text := none
  heading : Option Text := none
  deriving DecidableEq, Repr

namespace DiffHeader

def count : Option Text → Text
  | some digits => ",".toList ++ digits
  | none => []

def headingText : Option Text → Text
  | some heading => ' ' :: heading
  | none => []

def text (header : DiffHeader) : Text :=
  "@@ -".toList ++ (header.oldStart ++ (count header.oldCount ++ (" +".toList ++
    (header.newStart ++ (count header.newCount ++ (" @@".toList ++ headingText header.heading))))))

/-- The texts stand for the numbers, which are all positive. -/
structure Means (header : DiffHeader) (numbers : HunkHeader) : Prop where
  oldStart : Numeral header.oldStart numbers.oldStart
  oldCount : Numeral (header.oldCount.getD "1".toList) numbers.oldCount
  newStart : Numeral header.newStart numbers.newStart
  newCount : Numeral (header.newCount.getD "1".toList) numbers.newCount
  positive : 1 ≤ numbers.oldStart ∧ 1 ≤ numbers.oldCount ∧ 1 ≤ numbers.newStart ∧
    1 ≤ numbers.newCount

end DiffHeader

theorem startswith_iff {line : Text} {start : String} :
    startswith line start = true ↔ ∃ rest, line = start.toList ++ rest := by
  rw [startswith, List.isPrefixOf_iff_prefix]
  exact exists_congr fun _ => eq_comm

theorem stripPrefix_eq_some {start : String} {t rest : Text} :
    stripPrefix start t = some rest ↔ t = start.toList ++ rest := by
  constructor
  · intro h
    rw [stripPrefix] at h
    split at h
    · rename_i hstart
      obtain ⟨rest', rfl⟩ := startswith_iff.mp hstart
      rw [← String.length_toList, List.drop_left] at h
      rw [Option.some.inj h]
    · cases h
  · rintro rfl
    exact stripPrefix_append _ _

theorem matchDigits_eq_some {t digits rest : Text} : matchDigits t = some (digits, rest) ↔
    t = digits ++ rest ∧ (digits ≠ [] ∧ ∀ c ∈ digits, (digitValue c).isSome) ∧
      EndsNumeral rest := by
  constructor
  · intro h
    rw [matchDigits, List.span_eq_takeWhile_dropWhile] at h
    rcases htake : t.takeWhile (digitValue · |>.isSome) with _ | ⟨c, cs⟩
    · rw [htake] at h
      cases h
    · rw [htake] at h
      obtain ⟨rfl, rfl⟩ := Prod.mk.inj (Option.some.inj h)
      refine ⟨htake ▸ List.takeWhile_append_dropWhile.symm, ⟨List.cons_ne_nil _ _, fun d hd => ?_⟩,
        fun d hd => ?_⟩
      · rw [← htake] at hd
        exact @List.mem_takeWhile_imp _ (digitValue · |>.isSome) _ _ hd
      · have hnot := List.head?_dropWhile_not (digitValue · |>.isSome) t
        rw [Option.mem_def.mp hd] at hnot
        simpa using hnot
  · rintro ⟨rfl, ⟨hne, hdigits⟩, hrest⟩
    exact matchDigits_append hne hdigits hrest

theorem endsNumeral_of {c : Char} {rest : Text} (h : (digitValue c).isSome = false) :
    EndsNumeral (c :: rest) := by
  rintro d ⟨⟩
  exact h

/-- The character after a numeral in a hunk header. -/
theorem endsNumeral_space {rest : Text} : EndsNumeral (' ' :: rest) :=
  endsNumeral_of (by decide)

theorem endsNumeral_count {count : Option Text} {rest : Text} :
    EndsNumeral (DiffHeader.count count ++ ' ' :: rest) := by
  cases count with
  | none => exact endsNumeral_space
  | some digits =>
    rw [DiffHeader.count, List.append_assoc]
    exact endsNumeral_append ⟨',', [], by decide, by decide⟩

theorem matchCount_count {count : Option Text} {rest : Text}
    (h : ∀ digits ∈ count, digits ≠ [] ∧ ∀ c ∈ digits, (digitValue c).isSome) :
    matchCount (DiffHeader.count count ++ ' ' :: rest) = (count, ' ' :: rest) := by
  cases count with
  | none =>
    have hcomma : stripPrefix "," (' ' :: rest) = none := by
      rw [stripPrefix, if_neg]
      intro h
      obtain ⟨rest', h⟩ := startswith_iff.mp h
      have hcomma : ",".toList = [','] := rfl
      rw [hcomma] at h
      cases h
    rw [DiffHeader.count, List.nil_append, matchCount, hcomma]
    rfl
  | some digits =>
    obtain ⟨hne, hdigits⟩ := h digits rfl
    rw [DiffHeader.count, List.append_assoc, matchCount, stripPrefix_append, Option.bind_some,
      matchDigits_append hne hdigits endsNumeral_space]

theorem matchCount_eq {t rest : Text} {count : Option Text} (h : matchCount t = (count, rest)) :
    t = DiffHeader.count count ++ rest ∧
      ∀ digits ∈ count, digits ≠ [] ∧ ∀ c ∈ digits, (digitValue c).isSome := by
  rw [matchCount] at h
  split at h
  · rename_i digits rest' hmatch
    cases h
    obtain ⟨t', hstrip, hdigits⟩ := Option.bind_eq_some_iff.mp hmatch
    obtain ⟨rfl, hrun, -⟩ := matchDigits_eq_some.mp hdigits
    refine ⟨?_, by rintro _ ⟨⟩; exact hrun⟩
    rw [stripPrefix_eq_some.mp hstrip, DiffHeader.count, List.append_assoc]
  · cases h
    exact ⟨rfl, by simp⟩

/-- The groups that `_HUNK` finds. -/
theorem matchHunk_eq_some {line oldStart newStart : Text} {oldCount newCount : Option Text} :
    matchHunk line = some (oldStart, oldCount, newStart, newCount) ↔
      (∃ heading, line = DiffHeader.text ⟨oldStart, oldCount, newStart, newCount, heading⟩) ∧
        ∀ digits, (digits = oldStart ∨ digits = newStart ∨ digits ∈ oldCount ∨ digits ∈ newCount) →
          digits ≠ [] ∧ ∀ c ∈ digits, (digitValue c).isSome := by
  have hplus : " +".toList = [' ', '+'] := rfl
  have hat : " @@".toList = [' ', '@', '@'] := rfl
  constructor
  · intro h
    simp only [matchHunk, Option.bind_eq_bind, Option.bind_eq_some_iff, Prod.exists] at h
    obtain ⟨t₁, h₁, os, t₂, h₂, t₃, h₃, ns, t₄, h₄, t₅, h₅, h⟩ := h
    rcases hc₂ : matchCount t₂ with ⟨oc, r₂⟩
    rcases hc₄ : matchCount t₄ with ⟨nc, r₄⟩
    rw [hc₂] at h₃ h
    rw [hc₄] at h₅ h
    dsimp only at h₃ h₅ h
    split at h
    · rename_i hend
      cases h
      obtain ⟨rfl, hos, -⟩ := matchDigits_eq_some.mp h₂
      obtain ⟨rfl, hns, -⟩ := matchDigits_eq_some.mp h₄
      obtain ⟨ht₂, hoc⟩ := matchCount_eq hc₂
      obtain ⟨ht₄, hnc⟩ := matchCount_eq hc₄
      refine ⟨?_, ?_⟩
      · obtain ⟨heading, hheading⟩ : ∃ heading, t₅ = DiffHeader.headingText heading := by
          rcases hend with rfl | hhead
          · exact ⟨none, rfl⟩
          · obtain ⟨rest, rfl⟩ := List.head?_eq_some_iff.mp hhead
            exact ⟨some rest, rfl⟩
        refine ⟨heading, ?_⟩
        rw [stripPrefix_eq_some.mp h₁, ht₂, stripPrefix_eq_some.mp h₃, ht₄,
          stripPrefix_eq_some.mp h₅, hheading]
        simp only [DiffHeader.text]
      · rintro digits (rfl | rfl | hd | hd)
        · exact hos
        · exact hns
        · exact hoc _ hd
        · exact hnc _ hd
    · cases h
  · rintro ⟨⟨heading, rfl⟩, hruns⟩
    obtain ⟨hos, hosd⟩ := hruns oldStart (Or.inl rfl)
    obtain ⟨hns, hnsd⟩ := hruns newStart (Or.inr (Or.inl rfl))
    have hoc : ∀ digits ∈ oldCount, digits ≠ [] ∧ ∀ c ∈ digits, (digitValue c).isSome :=
      fun digits hd => hruns digits (Or.inr (Or.inr (Or.inl hd)))
    have hnc : ∀ digits ∈ newCount, digits ≠ [] ∧ ∀ c ∈ digits, (digitValue c).isSome :=
      fun digits hd => hruns digits (Or.inr (Or.inr (Or.inr hd)))
    have hhead : DiffHeader.headingText heading = [] ∨
        (DiffHeader.headingText heading).head? = some ' ' := by
      cases heading with
      | none => exact Or.inl rfl
      | some _ => exact Or.inr rfl
    have hold : ∀ rest, matchDigits (oldStart ++ (DiffHeader.count oldCount ++ (" +".toList ++ rest))) =
        some (oldStart, DiffHeader.count oldCount ++ (" +".toList ++ rest)) := fun rest => by
      rw [hplus]
      exact matchDigits_append hos hosd endsNumeral_count
    have hnew : ∀ rest, matchDigits (newStart ++ (DiffHeader.count newCount ++ (" @@".toList ++ rest))) =
        some (newStart, DiffHeader.count newCount ++ (" @@".toList ++ rest)) := fun rest => by
      rw [hat]
      exact matchDigits_append hns hnsd endsNumeral_count
    have holdCount : ∀ rest, matchCount (DiffHeader.count oldCount ++ (" +".toList ++ rest)) =
        (oldCount, " +".toList ++ rest) := fun rest => by
      rw [hplus]
      exact matchCount_count hoc
    have hnewCount : ∀ rest, matchCount (DiffHeader.count newCount ++ (" @@".toList ++ rest)) =
        (newCount, " @@".toList ++ rest) := fun rest => by
      rw [hat]
      exact matchCount_count hnc
    simp only [matchHunk, DiffHeader.text, stripPrefix_append, Option.bind_eq_bind,
      Option.bind_some, hold, holdCount, hnew, hnewCount, if_pos hhead]

theorem numeral_one {n : Nat} : Numeral "1".toList n ↔ n = 1 := by
  have hint : int "1".toList = .ok 1 := by decide
  constructor
  · rintro ⟨-, -, h⟩
    rw [hint] at h
    exact (Except.ok.inj h).symm
  · rintro rfl
    exact ⟨by decide, List.all_iff_forall_prop.mp (by decide), hint⟩

/-- A hunk header is read for what it says. -/
theorem hunkHeader_eq_ok {line : Text} {numbers : HunkHeader} :
    hunkHeader line = .ok numbers ↔ ∃ header : DiffHeader, line = header.text ∧ header.Means numbers := by
  have hone : "1".toList ≠ [] ∧ ∀ c ∈ "1".toList, (digitValue c).isSome :=
    ⟨by decide, List.all_iff_forall_prop.mp (by decide)⟩
  constructor
  · intro h
    rw [hunkHeader] at h
    split at h
    · cases h
    · rename_i oldStart oldCount newStart newCount hmatch
      obtain ⟨⟨heading, hline⟩, hruns⟩ := matchHunk_eq_some.mp hmatch
      simp only [bind_eq_ok] at h
      obtain ⟨os, hos, oc, hoc, ns, hns, nc, hnc, h⟩ := h
      split at h
      · cases h
      · rename_i hmin
        obtain rfl := pure_eq_ok.mp h
        have hget : ∀ count : Option Text, (∀ digits ∈ count, digits ≠ [] ∧
            ∀ c ∈ digits, (digitValue c).isSome) → count.getD "1".toList ≠ [] ∧
              ∀ c ∈ count.getD "1".toList, (digitValue c).isSome := by
          intro count hcount
          cases count with
          | none => exact hone
          | some digits => exact hcount digits rfl
        have hold := hget oldCount fun d hd => hruns d (Or.inr (Or.inr (Or.inl hd)))
        have hnew := hget newCount fun d hd => hruns d (Or.inr (Or.inr (Or.inr hd)))
        have hstart := hruns oldStart (Or.inl rfl)
        have hstart' := hruns newStart (Or.inr (Or.inl rfl))
        refine ⟨_, hline, ⟨hstart.1, hstart.2, hos⟩, ⟨hold.1, hold.2, hoc⟩,
          ⟨hstart'.1, hstart'.2, hns⟩, ⟨hnew.1, hnew.2, hnc⟩, ?_⟩
        simp only at hmin ⊢
        omega
  · rintro ⟨⟨oldStart, oldCount, newStart, newCount, heading⟩, rfl, hos, hoc, hns, hnc, hpos⟩
    have hmatch : matchHunk (DiffHeader.text ⟨oldStart, oldCount, newStart, newCount, heading⟩) =
        some (oldStart, oldCount, newStart, newCount) := by
      refine matchHunk_eq_some.mpr ⟨⟨heading, rfl⟩, ?_⟩
      rintro digits (rfl | rfl | hd | hd)
      · exact ⟨hos.1, hos.2.1⟩
      · exact ⟨hns.1, hns.2.1⟩
      · obtain rfl := Option.mem_def.mp hd
        exact ⟨hoc.1, hoc.2.1⟩
      · obtain rfl := Option.mem_def.mp hd
        exact ⟨hnc.1, hnc.2.1⟩
    rw [hunkHeader, hmatch]
    simp only [bind_eq_ok]
    refine ⟨_, hos.2.2, _, hoc.2.2, _, hns.2.2, _, hnc.2.2, ?_⟩
    rw [if_neg (by omega)]
    rfl

/-! ## Hunk bodies -/

inductive Mark where
  | context
  | delete
  | insert
  deriving DecidableEq, Repr

def Mark.char : Mark → Char
  | .context => ' '
  | .delete => '-'
  | .insert => '+'

/-- A line of a hunk: a newline ends it, or a marker says that none does. -/
structure DiffLine where
  mark : Mark
  text : Text
  terminated : Bool := true
  deriving DecidableEq, Repr

namespace DiffLine

variable (line : DiffLine)

/-- The line on the sides that have it. -/
def value : Text := if line.terminated then line.text ++ ['\n'] else line.text

def shown : Text := line.mark.char :: line.text

/-- The lines that it takes in a diff. -/
def lines : List Text := if line.terminated then [line.shown] else [line.shown, noNewline]

def bytes : Bytes := Utf8.encode (line.shown ++ ['\n'])

end DiffLine

def oldLines (body : List DiffLine) : List Text :=
  (body.filter (·.mark ≠ .insert)).map DiffLine.value

def newLines (body : List DiffLine) : List Text :=
  (body.filter (·.mark ≠ .delete)).map DiffLine.value

/-- Only the last line of a side may lack its newline. -/
def EndsLast (side : List Text) : Prop := ∀ line ∈ side.dropLast, line.getLast? = some '\n'

theorem EndsLast.of_append {a b : List Text} (h : EndsLast (a ++ b)) : EndsLast a := by
  rcases eq_or_ne b [] with rfl | hb
  · rwa [List.append_nil] at h
  · intro line hline
    refine h line ?_
    rw [List.dropLast_append_of_ne_nil hb]
    exact List.mem_append_left _ (List.mem_of_mem_dropLast hline)

theorem appendLine_eq_ok_iff {side side' : List Text} {value : Text} (h : EndsLast side) :
    appendLine side value = .ok side' ↔ side' = side ++ [value] ∧ EndsLast (side ++ [value]) := by
  have hends : EndsLast (side ++ [value]) ↔ ∀ line ∈ side, line.getLast? = some '\n' := by
    rw [EndsLast, List.dropLast_concat]
  rw [hends, appendLine]
  rcases hlast : side.getLast? with _ | last
  · obtain rfl := List.getLast?_eq_none_iff.mp hlast
    simp only [List.nil_append, List.not_mem_nil, false_implies, implies_true, and_true]
    exact pure_eq_ok.trans eq_comm
  · obtain ⟨init, rfl⟩ := List.getLast?_eq_some_iff.mp hlast
    rw [EndsLast, List.dropLast_concat] at h
    dsimp only
    split
    · rename_i hterminated
      refine ⟨fun hok => ⟨(pure_eq_ok.mp hok).symm, fun line hline => ?_⟩, fun hok => hok.1 ▸ rfl⟩
      rcases List.mem_append.mp hline with hline | hline
      · exact h line hline
      · rwa [List.mem_singleton.mp hline]
    · rename_i hopen
      constructor
      · intro hok
        cases hok
      · rintro ⟨-, hall⟩
        exact absurd (hall last (List.mem_append_right _ List.mem_cons_self)) hopen

/-- The sides after the lines `body`. -/
def HunkSides.extend (sides : HunkSides) (body : List DiffLine) : HunkSides :=
  ⟨sides.old ++ oldLines body, sides.new ++ newLines body, sides.body ++ body.map DiffLine.bytes⟩

def HunkSides.EndLast (sides : HunkSides) : Prop := EndsLast sides.old ∧ EndsLast sides.new

theorem HunkSides.extend_nil (sides : HunkSides) : sides.extend [] = sides := by
  simp [extend, oldLines, newLines]

theorem HunkSides.extend_append (sides : HunkSides) (body rest : List DiffLine) :
    sides.extend (body ++ rest) = (sides.extend body).extend rest := by
  simp [extend, oldLines, newLines]

theorem HunkSides.EndLast.of_extend {sides : HunkSides} {body : List DiffLine}
    (h : (sides.extend body).EndLast) : sides.EndLast := ⟨h.1.of_append, h.2.of_append⟩

theorem HunkSides.push_eq_ok_iff {sides sides' : HunkSides} (line : DiffLine)
    (h : sides.EndLast) : sides.push line.mark.char line.shown line.value = .ok sides' ↔
      sides' = sides.extend [line] ∧ (sides.extend [line]).EndLast := by
  obtain ⟨hold, hnew⟩ := h
  obtain ⟨mark, text, terminated⟩ := line
  have hspace : (' ' = '-') = False ∧ (' ' = '+') = False ∧ ('-' = ' ') = False ∧
      ('-' = '+') = False ∧ ('+' = ' ') = False ∧ ('+' = '-') = False := by decide
  cases mark <;>
    simp only [push, Mark.char, hspace, or_true, or_false, if_true, if_false, bind_eq_ok,
      pure_eq_ok, appendLine_eq_ok_iff hold, appendLine_eq_ok_iff hnew, extend, oldLines, newLines,
      HunkSides.EndLast, List.filter_cons, List.filter_nil, List.map_cons, List.map_nil,
      DiffLine.bytes, DiffLine.shown, DiffLine.value, ne_eq, reduceCtorEq, not_false_eq_true,
      not_true_eq_false, decide_true, decide_false, Bool.false_eq_true, List.append_nil]
  · constructor
    · rintro ⟨old, ⟨rfl, hold'⟩, new, ⟨rfl, hnew'⟩, rfl⟩
      exact ⟨rfl, hold', hnew'⟩
    · rintro ⟨rfl, hold', hnew'⟩
      exact ⟨_, ⟨rfl, hold'⟩, _, ⟨rfl, hnew'⟩, rfl⟩
  · constructor
    · rintro ⟨old, ⟨rfl, hold'⟩, new, rfl, rfl⟩
      exact ⟨rfl, hold', hnew⟩
    · rintro ⟨rfl, hold', -⟩
      exact ⟨_, ⟨rfl, hold'⟩, _, rfl, rfl⟩
  · constructor
    · rintro ⟨old, rfl, new, ⟨rfl, hnew'⟩, rfl⟩
      exact ⟨rfl, hold, hnew'⟩
    · rintro ⟨rfl, -, hnew'⟩
      exact ⟨_, rfl, _, ⟨rfl, hnew'⟩, rfl⟩

/-- A hunk ends where the next one begins, or with the diff. -/
def Stops (rest : List Text) : Prop := ∀ line ∈ rest.head?, startswith line "@@ " = true

theorem Mark.exists_char {c : Char} (h : c ∈ [' ', '+', '-']) : ∃ mark : Mark, mark.char = c := by
  rcases List.mem_cons.mp h with rfl | h
  · exact ⟨.context, rfl⟩
  rcases List.mem_cons.mp h with rfl | h
  · exact ⟨.insert, rfl⟩
  · exact ⟨.delete, (List.mem_singleton.mp h).symm⟩

theorem Mark.char_mem (mark : Mark) : mark.char ∈ [' ', '+', '-'] := by
  cases mark <;> decide

theorem shown_not_hunk (line : DiffLine) : startswith line.shown "@@ " = false := by
  rw [← Bool.not_eq_true]
  intro h
  obtain ⟨rest, h⟩ := startswith_iff.mp h
  have hat : "@@ ".toList = ['@', '@', ' '] := rfl
  rw [hat, DiffLine.shown] at h
  have hmem := line.mark.char_mem
  rw [(List.cons.inj h).1] at hmem
  revert hmem
  decide

theorem noNewline_head : noNewline.head? = some '\\' := rfl

theorem shown_ne_noNewline (line : DiffLine) : line.shown ≠ noNewline := by
  intro h
  have hhead := noNewline_head
  rw [← h, DiffLine.shown, List.head?_cons, Option.some.injEq] at hhead
  have hmem := line.mark.char_mem
  rw [hhead] at hmem
  revert hmem
  decide

theorem head_ne_noNewline {body : List DiffLine} {rest : List Text} (h : Stops rest) :
    (body.flatMap DiffLine.lines ++ rest).head? ≠ some noNewline := by
  cases body with
  | nil =>
    intro hhead
    rw [List.flatMap_nil, List.nil_append] at hhead
    obtain ⟨rest', heq⟩ := startswith_iff.mp (h _ hhead)
    have hnot := congrArg List.head? heq
    rw [noNewline_head, List.head?_append] at hnot
    have hat : "@@ ".toList = ['@', '@', ' '] := rfl
    rw [hat] at hnot
    cases hnot
  | cons line body =>
    rw [List.flatMap_cons, DiffLine.lines]
    have hne := shown_ne_noNewline line
    split <;> simpa using hne

/-- One line of a hunk is read as it stands. -/
theorem readSides_line {sides pushed : HunkSides} {line : DiffLine} {rest : List Text}
    (hrest : rest.head? ≠ some noNewline)
    (hpush : sides.push line.mark.char line.shown line.value = .ok pushed) :
    readSides (line.lines ++ rest) sides = readSides rest pushed := by
  obtain ⟨mark, text, terminated⟩ := line
  have hmark : mark.char ∈ [' ', '+', '-'] := mark.char_mem
  have hshown := shown_not_hunk ⟨mark, text, terminated⟩
  cases terminated with
  | true =>
    simp only [DiffLine.lines, DiffLine.shown, DiffLine.value, if_true] at hpush hshown ⊢
    rw [List.singleton_append, readSides.eq_def]
    simp only [hshown, Bool.false_eq_true, if_false, hmark, not_true_eq_false]
    cases rest with
    | nil =>
      simp only [hpush]
      rfl
    | cons next rest =>
      rw [List.head?_cons, ne_eq, Option.some.injEq] at hrest
      simp only [hrest, if_false, hpush]
      rfl
  | false =>
    simp only [DiffLine.lines, DiffLine.shown, DiffLine.value, Bool.false_eq_true, if_false]
      at hpush hshown ⊢
    rw [List.cons_append, List.singleton_append, readSides.eq_def]
    simp only [hshown, Bool.false_eq_true, if_false, hmark, not_true_eq_false, if_true, hpush]
    rfl

/-- `_read_hunk` reads the lines up to the next hunk. -/
theorem readSides_eq_ok {lines rest : List Text} {sides sides' : HunkSides} (h : sides.EndLast) :
    readSides lines sides = .ok (sides', rest) ↔
      ∃ body : List DiffLine, lines = body.flatMap DiffLine.lines ++ rest ∧ Stops rest ∧
        sides' = sides.extend body ∧ (sides.extend body).EndLast := by
  constructor
  · intro hread
    induction hn : lines.length using Nat.strong_induction_on generalizing lines sides with
    | _ n ih =>
      match lines with
      | [] =>
        obtain ⟨rfl, rfl⟩ : sides = sides' ∧ [] = rest := by simpa [readSides] using hread
        exact ⟨[], rfl, by simp [Stops], (sides.extend_nil).symm, by rwa [sides.extend_nil]⟩
      | line :: lines =>
        simp only [List.length_cons] at hn
        rcases readSides_cons_eq_ok hread with ⟨hstop, hout⟩ | ⟨c, value, rfl, -, hmark, hturn⟩
        · obtain ⟨rfl, rfl⟩ := Prod.mk.inj hout
          refine ⟨[], rfl, ?_, (sides'.extend_nil).symm, by rwa [sides'.extend_nil]⟩
          rintro _ ⟨⟩
          exact hstop
        obtain ⟨mark, rfl⟩ := Mark.exists_char hmark
        rcases hturn with ⟨rest', pushed, rfl, hpush, hread⟩ | ⟨pushed, -, hpush, hread⟩
        · obtain ⟨rfl, hend⟩ := (HunkSides.push_eq_ok_iff ⟨mark, value, false⟩ h).mp hpush
          obtain ⟨body, rfl, hstops, rfl, hbody⟩ :=
            ih rest'.length (by simp at hn; omega) hend hread rfl
          refine ⟨⟨mark, value, false⟩ :: body, rfl, hstops, ?_, ?_⟩
          · exact (sides.extend_append [_] body).symm
          · rw [← List.singleton_append, sides.extend_append]
            exact hbody
        · obtain ⟨rfl, hend⟩ := (HunkSides.push_eq_ok_iff ⟨mark, value, true⟩ h).mp hpush
          obtain ⟨body, rfl, hstops, rfl, hbody⟩ := ih lines.length (by omega) hend hread rfl
          refine ⟨⟨mark, value, true⟩ :: body, rfl, hstops, ?_, ?_⟩
          · exact (sides.extend_append [_] body).symm
          · rw [← List.singleton_append, sides.extend_append]
            exact hbody
  · rintro ⟨body, rfl, hstops, rfl, hend⟩
    induction body generalizing sides with
    | nil =>
      rw [sides.extend_nil, List.flatMap_nil, List.nil_append]
      cases rest with
      | nil => rfl
      | cons line rest =>
        rw [readSides.eq_def]
        simp only [hstops line rfl, if_true]
        rfl
    | cons line body ih =>
      rw [← List.singleton_append, sides.extend_append] at hend ⊢
      have hpush := (HunkSides.push_eq_ok_iff line h).mpr ⟨rfl, hend.of_extend⟩
      rw [List.flatMap_append, List.flatMap_singleton, List.append_assoc,
        readSides_line (head_ne_noNewline hstops) hpush]
      exact ih hend.of_extend hend

/-! ## Hunks -/

/-- A hunk of a diff. -/
structure DiffHunk where
  header : DiffHeader
  body : List DiffLine
  deriving DecidableEq, Repr

namespace DiffHunk

variable (hunk : DiffHunk)

def lines : List Text := hunk.header.text :: hunk.body.flatMap DiffLine.lines

/-- The two sides, as `parse` returns them. -/
def sides : Hunk :=
  ⟨Utf8.encode (oldLines hunk.body).flatten, Utf8.encode (newLines hunk.body).flatten⟩

def bytes : List Bytes := hunk.body.map DiffLine.bytes

/-- The header counts the lines of the two sides, which differ and are not empty. -/
structure Valid (oldStart newStart : Nat) : Prop where
  means : hunk.header.Means
    ⟨oldStart, (oldLines hunk.body).length, newStart, (newLines hunk.body).length⟩
  endsOld : EndsLast (oldLines hunk.body)
  endsNew : EndsLast (newLines hunk.body)
  changes : oldLines hunk.body ≠ newLines hunk.body

end DiffHunk

/-- The hunks are valid, in order, and apart from each other on both sides. -/
def Ordered : Nat → Nat → List DiffHunk → Prop
  | _, _, [] => True
  | previousOld, previousNew, hunk :: hunks => ∃ oldStart newStart,
    hunk.Valid oldStart newStart ∧ previousOld ≤ oldStart ∧ previousNew ≤ newStart ∧
      Ordered (oldStart + (oldLines hunk.body).length) (newStart + (newLines hunk.body).length)
        hunks

theorem readHunk_eq_ok {lines rest : List Text} {oldCount newCount : Nat} {hunk : Hunk}
    {bytes : List Bytes} : readHunk lines oldCount newCount = .ok (hunk, bytes, rest) ↔
      ∃ body : List DiffLine, lines = body.flatMap DiffLine.lines ++ rest ∧ Stops rest ∧
        EndsLast (oldLines body) ∧ EndsLast (newLines body) ∧ (oldLines body).length = oldCount ∧
        (newLines body).length = newCount ∧ oldLines body ≠ newLines body ∧
        hunk = ⟨Utf8.encode (oldLines body).flatten, Utf8.encode (newLines body).flatten⟩ ∧
        bytes = body.map DiffLine.bytes := by
  have hempty : HunkSides.EndLast {} := ⟨by simp [EndsLast], by simp [EndsLast]⟩
  have hextend : ∀ body, HunkSides.extend {} body =
      ⟨oldLines body, newLines body, body.map DiffLine.bytes⟩ := fun body => rfl
  rw [readHunk]
  simp only [bind_eq_ok, Prod.exists, readSides_eq_ok hempty, hextend]
  constructor
  · rintro ⟨sides, rest', ⟨body, hlines, hstops, rfl, hold, hnew⟩, h⟩
    split at h
    · cases h
    rename_i hcounts
    split at h
    · cases h
    rename_i hne
    simp only [pure_eq_ok, Prod.mk.injEq] at h
    obtain ⟨rfl, rfl, rfl⟩ := h
    simp only [not_or, not_not] at hcounts
    exact ⟨body, hlines, hstops, hold, hnew, hcounts.1, hcounts.2, hne, rfl, rfl⟩
  · rintro ⟨body, hlines, hstops, hold, hnew, rfl, rfl, hne, rfl, rfl⟩
    refine ⟨_, rest, ⟨body, hlines, hstops, rfl, hold, hnew⟩, ?_⟩
    simp only [ne_eq, not_true_eq_false, or_self, if_false, hne]
    rfl

theorem stops_hunks (hunks : List DiffHunk) : Stops (hunks.flatMap DiffHunk.lines) := by
  cases hunks with
  | nil => simp [Stops]
  | cons hunk hunks =>
    rintro _ ⟨⟩
    have hat : "@@ -".toList = "@@ ".toList ++ ['-'] := rfl
    rw [startswith_iff, DiffHeader.text, hat, List.append_assoc]
    exact ⟨_, rfl⟩

/-- The hunk loop reads exactly ordered hunks. -/
theorem readHunks_eq_ok {fuel : Nat} {lines : List Text} {previousOld previousNew : Nat}
    {records : List (Hunk × List Bytes)} (hfuel : lines.length ≤ fuel) :
    readHunks fuel lines previousOld previousNew = .ok records ↔
      ∃ hunks : List DiffHunk, lines = hunks.flatMap DiffHunk.lines ∧
        Ordered previousOld previousNew hunks ∧
        records = hunks.map fun hunk => (hunk.sides, hunk.bytes) := by
  induction fuel generalizing lines previousOld previousNew records with
  | zero =>
    obtain rfl := List.eq_nil_of_length_eq_zero (Nat.le_zero.mp hfuel)
    constructor
    · intro h
      obtain rfl : [] = records := by simpa [readHunks] using h
      exact ⟨[], rfl, trivial, rfl⟩
    · rintro ⟨hunks, hlines, -, rfl⟩
      cases hunks with
      | nil => rfl
      | cons hunk hunks => cases hlines
  | succ fuel ih =>
    cases lines with
    | nil =>
      constructor
      · intro h
        obtain rfl : [] = records := by simpa [readHunks] using h
        exact ⟨[], rfl, trivial, rfl⟩
      · rintro ⟨hunks, hlines, -, rfl⟩
        cases hunks with
        | nil => rfl
        | cons hunk hunks => cases hlines
    | cons line rest =>
      rw [List.length_cons] at hfuel
      simp only [readHunks, bind_eq_ok, hunkHeader_eq_ok]
      constructor
      · rintro ⟨numbers, ⟨header, rfl, hmeans⟩, h⟩
        split at h
        · cases h
        rename_i horder
        simp only [not_or, not_lt] at horder
        simp only [bind_eq_ok, mapError_eq_ok, Prod.exists, readHunk_eq_ok] at h
        obtain ⟨_, _, rest', ⟨body, rfl, -, hold, hnew, holdCount, hnewCount, hne, rfl, rfl⟩,
          records', hrecords, h⟩ := h
        obtain rfl := pure_eq_ok.mp h
        rw [List.length_append] at hfuel
        obtain ⟨hunks, rfl, hordered, rfl⟩ := (ih (by omega)).mp hrecords
        rw [← holdCount, ← hnewCount] at hordered
        obtain ⟨oldStart, oldCount, newStart, newCount⟩ := numbers
        subst holdCount hnewCount
        exact ⟨⟨header, body⟩ :: hunks, rfl,
          ⟨oldStart, newStart, ⟨hmeans, hold, hnew, hne⟩, horder.1, horder.2, hordered⟩, rfl⟩
      · rintro ⟨hunks, hlines, hordered, rfl⟩
        cases hunks with
        | nil => cases hlines
        | cons hunk hunks =>
          obtain ⟨header, body⟩ := hunk
          rw [List.flatMap_cons, DiffHunk.lines, List.cons_append] at hlines
          obtain ⟨rfl, rfl⟩ := List.cons.inj hlines
          obtain ⟨oldStart, newStart, hvalid, hold, hnew, hrest⟩ := hordered
          refine ⟨_, ⟨header, rfl, hvalid.means⟩, ?_⟩
          rw [if_neg (by simp only [not_or, not_lt]; exact ⟨hold, hnew⟩)]
          simp only [bind_eq_ok, mapError_eq_ok, Prod.exists, readHunk_eq_ok]
          rw [List.length_append] at hfuel
          refine ⟨_, _, hunks.flatMap DiffHunk.lines, ⟨body, rfl, stops_hunks hunks, hvalid.endsOld,
            hvalid.endsNew, rfl, rfl, hvalid.changes, rfl, rfl⟩, _,
            (ih (by omega)).mpr ⟨hunks, rfl, hrest, rfl⟩, rfl⟩

end Hapatchy.PatchEngine
