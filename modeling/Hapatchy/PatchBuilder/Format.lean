import Mathlib.Algebra.Group.Nat.Defs
import Mathlib.Data.Bool.AllAny
import Hapatchy.PatchBuilder
import Hapatchy.PatchEngine.Errors
import Hapatchy.PatchEngine.RoundTrip

/-!
# The diffs that `difflib` writes

Their lines as the parser splits them, and the pieces that `str.splitlines` made
of the two texts.
-/

open Blocks

namespace Hapatchy.Difflib

open PatchEngine

/-! ## Pieces of lines -/

/-- The only line boundaries are newlines. -/
def Bare (t : Text) : Prop := ∀ c ∈ t, c ∈ boundaries → c = '\n'

theorem splitlines_cons {c : Char} {rest : Text} (h : c ≠ '\r') :
    splitlines (c :: rest) = if c ∈ boundaries then [c] :: splitlines rest
      else match splitlines rest with
      | [] => [[c]]
      | line :: lines => (c :: line) :: lines := by
  rw [splitlines.eq_def]
  split
  · rename_i heq
    cases heq
  · rename_i heq
    exact absurd (List.cons.inj heq).1 h
  · rename_i heq
    obtain ⟨rfl, rfl⟩ := List.cons.inj heq
    rfl

theorem splitlines_eq_nil {t : Text} (h : splitlines t = []) : t = [] := by
  cases t with
  | nil => rfl
  | cons c rest =>
    rw [splitlines.eq_def] at h
    split at h
    · rename_i heq
      cases heq
    · cases h
    · split at h
      · cases h
      · split at h <;> cases h

theorem flatten_splitlines (t : Text) : (splitlines t).flatten = t := by
  fun_induction splitlines t with
  | case1 => rfl
  | case2 rest ih => rw [List.flatten_cons, ih]; rfl
  | case3 c rest _ _ ih => rw [List.flatten_cons, ih]; rfl
  | case4 c rest _ _ hnil ih =>
    rw [splitlines_eq_nil hnil]
    rfl
  | case5 c rest _ _ line lines hlines ih =>
    rw [hlines, List.flatten_cons] at ih
    rw [List.flatten_cons, List.cons_append, ih]

theorem splitlines_injective : Function.Injective splitlines := fun a b h => by
  rw [← flatten_splitlines a, h, flatten_splitlines]

theorem newline_mem_boundaries : '\n' ∈ boundaries := by decide

theorem pieces_splitlines {t : Text} (hcr : '\r' ∉ t) :
    ∀ p ∈ splitlines t, p ≠ [] ∧ '\n' ∉ p.dropLast := by
  induction t with
  | nil => simp [splitlines]
  | cons c rest ih =>
    rw [List.mem_cons, not_or] at hcr
    have hrest := ih hcr.2
    rw [splitlines_cons (Ne.symm hcr.1)]
    split
    · simp only [List.mem_cons, forall_eq_or_imp]
      exact ⟨by simp, hrest⟩
    · rename_i hc
      have hne : '\n' ≠ c := fun heq => hc (heq ▸ newline_mem_boundaries)
      split
      · simp
      · rename_i line lines hlines
        rw [hlines] at hrest
        simp only [List.mem_cons, forall_eq_or_imp] at hrest ⊢
        refine ⟨⟨List.cons_ne_nil _ _, ?_⟩, hrest.2⟩
        rw [List.dropLast_cons_of_ne_nil hrest.1.1, List.mem_cons, not_or]
        exact ⟨hne, hrest.1.2⟩

theorem splitlines_of_bare {t : Text} (h : Bare t) : splitlines t = lines '\n' t := by
  induction t with
  | nil => rfl
  | cons c rest ih =>
    have hrest := ih fun d hd => h d (List.mem_cons_of_mem _ hd)
    have hc : c ∈ boundaries ↔ c = '\n' :=
      ⟨h c List.mem_cons_self, fun heq => heq ▸ newline_mem_boundaries⟩
    have hcr : c ≠ '\r' := by
      rintro rfl
      exact absurd (hc.mp (by decide)) (by decide)
    rw [splitlines_cons hcr, lines, hrest]
    simp only [hc]
    split
    · rename_i heq
      rw [heq]
    · cases lines '\n' rest <;> rfl

/-! ## Numerals -/

theorem digitValue_of_isDigit {c : Char} (h : c.isDigit) : digitValue c = some (c.toNat - 48) := by
  have hbounds : 48 ≤ c.toNat ∧ c.toNat < 48 + 10 := by
    simp only [Char.isDigit, Bool.and_eq_true, decide_eq_true_eq] at h
    have h1 : (48 : UInt32).toNat ≤ c.val.toNat := UInt32.le_iff_toNat_le.mp h.1
    have h2 : c.val.toNat ≤ (57 : UInt32).toNat := UInt32.le_iff_toNat_le.mp h.2
    exact ⟨h1, Nat.lt_succ_of_le h2⟩
  rw [digitValue, digitZeros, List.find?_cons_of_pos (by simpa using hbounds)]
  rfl

theorem isDigit_of_mem_str {n : Nat} {c : Char} (h : c ∈ str n) : c.isDigit :=
  Nat.isDigit_of_mem_toDigits (by decide) (by decide) h

theorem numeral_str {n : Nat} (h : (str n).length ≤ maxStrDigits) : Numeral (str n) n := by
  have hdigits : ∀ c ∈ str n, c.isDigit := fun c hc => isDigit_of_mem_str hc
  refine ⟨Nat.toDigits_ne_nil, fun c hc => ?_, ?_⟩
  · rw [digitValue_of_isDigit (hdigits c hc)]
    rfl
  · have hfold : (str n).foldl (fun n c => 10 * n + (digitValue c).getD 0) 0 = n := by
      have hcongr : ∀ (l : List Char) (m : Nat), (∀ c ∈ l, c.isDigit) →
          l.foldl (fun n c => 10 * n + (digitValue c).getD 0) m = Nat.ofDigitChars 10 l m := by
        intro l
        induction l with
        | nil => exact fun m _ => Nat.ofDigitChars_nil.symm
        | cons c cs ih =>
          intro m hall
          rw [List.foldl_cons, ih _ fun d hd => hall d (List.mem_cons_of_mem _ hd),
            Nat.ofDigitChars_cons, digitValue_of_isDigit (hall c List.mem_cons_self)]
          rfl
      rw [hcongr _ _ hdigits]
      exact Nat.ofDigitChars_ten_toDigits
    rw [int, if_neg (Nat.not_lt.mpr h), hfold]
    rfl

theorem length_str_le {n k : Nat} (hk : 0 < k) (h : n < 10 ^ k) : (str n).length ≤ k :=
  (Nat.length_toDigits_le_iff (by decide) hk).mpr h

/-! ## Opcodes -/

/-- The lines of an opcode, with their marks. -/
def opcodeMarks (a b : List Text) (op : Opcode) : List (Mark × Text) :=
  if op.tag = .equal then (a.extract op.i1 op.i2).map (.context, ·)
  else
    (if op.tag = .replace ∨ op.tag = .delete then (a.extract op.i1 op.i2).map (.delete, ·) else []) ++
      (if op.tag = .replace ∨ op.tag = .insert then (b.extract op.j1 op.j2).map (.insert, ·) else [])

def marked (line : Mark × Text) : Text := line.1.char :: line.2

theorem opcodeLines_eq (a b : List Text) (op : Opcode) :
    opcodeLines a b op = (opcodeMarks a b op).map marked := by
  rw [opcodeLines, opcodeMarks]
  split
  · rw [List.map_map]
    rfl
  · rw [List.map_append]
    congr 1 <;> split
    · rw [List.map_map]
      rfl
    · rfl
    · rw [List.map_map]
      rfl
    · rfl

theorem mem_of_mem_extract {a : List Text} {i j : Nat} {l : Text} (h : l ∈ a.extract i j) : l ∈ a :=
  List.mem_of_mem_drop (List.mem_of_mem_take h)

theorem mem_of_mem_opcodeMarks {a b : List Text} {op : Opcode} {line : Mark × Text}
    (h : line ∈ opcodeMarks a b op) : line.2 ∈ a ∨ line.2 ∈ b := by
  rw [opcodeMarks] at h
  split at h
  · obtain ⟨l, hl, rfl⟩ := List.mem_map.mp h
    exact Or.inl (mem_of_mem_extract hl)
  · rcases List.mem_append.mp h with h | h <;> split at h
    · obtain ⟨l, hl, rfl⟩ := List.mem_map.mp h
      exact Or.inl (mem_of_mem_extract hl)
    · cases h
    · obtain ⟨l, hl, rfl⟩ := List.mem_map.mp h
      exact Or.inr (mem_of_mem_extract hl)
    · cases h

/-- The ranges of an opcode are in the texts. -/
structure Opcode.Within (a b : List Text) (op : Opcode) : Prop where
  old : op.i1 ≤ op.i2 ∧ op.i2 ≤ a.length
  new : op.j1 ≤ op.j2 ∧ op.j2 ≤ b.length

/-- The opcodes lead from `a[i:]` to `a[m:]`, and from `b[j:]` to `b[n:]`. -/
def Covers (a b : List Text) (m n : Nat) : Nat → Nat → List Opcode → Prop
  | i, j, [] => i = m ∧ j = n
  | i, j, op :: ops => op.i1 = i ∧ op.j1 = j ∧ op.Within a b ∧
    (op.tag = .equal → a.extract op.i1 op.i2 = b.extract op.j1 op.j2) ∧
    (op.tag = .delete → op.j1 = op.j2) ∧ (op.tag = .insert → op.i1 = op.i2) ∧
    Covers a b m n op.i2 op.j2 ops

/-- The lines of a hunk. -/
structure Range where
  i1 : Nat
  i2 : Nat
  j1 : Nat
  j2 : Nat
  deriving DecidableEq, Repr

def hunkRange (ops : List Opcode) : Range :=
  match ops.head?, ops.getLast? with
  | some first, some last => ⟨first.i1, last.i2, first.j1, last.j2⟩
  | _, _ => ⟨0, 0, 0, 0⟩

/-- The opcodes are those of a hunk with lines of both texts. -/
structure Spans (a b : List Text) (ops : List Opcode) : Prop where
  old : (hunkRange ops).i1 < (hunkRange ops).i2
  new : (hunkRange ops).j1 < (hunkRange ops).j2
  covers : Covers a b (hunkRange ops).i2 (hunkRange ops).j2 (hunkRange ops).i1 (hunkRange ops).j1 ops

/-- Hunks of `a[i:]` and `b[j:]`, in order. The lines between them are the same. -/
def Groups (a b : List Text) : Nat → Nat → List (List Opcode) → Prop
  | i, j, [] => a.drop i = b.drop j
  | i, j, ops :: groups => i ≤ (hunkRange ops).i1 ∧ j ≤ (hunkRange ops).j1 ∧
    a.extract i (hunkRange ops).i1 = b.extract j (hunkRange ops).j1 ∧ Spans a b ops ∧
    Groups a b (hunkRange ops).i2 (hunkRange ops).j2 groups

/-- What `difflib` documents: groups of opcodes with lines of context, and enough context gives
one hunk for all of them. -/
structure Documented (grouped : GroupedOpcodes) : Prop where
  groups : ∀ a b n, 0 < n → a ≠ [] → b ≠ [] → Groups a b 0 0 (grouped a b n)
  whole : ∀ a b n, a ≠ b → a.length ≤ n → b.length ≤ n →
    ∃ ops, grouped a b n = [ops] ∧ Covers a b a.length b.length 0 0 ops

section Covers

variable {a b : List Text}

theorem extract_append_extract {l : List Text} {i j k : Nat} (hij : i ≤ j) (hjk : j ≤ k) :
    l.extract i j ++ l.extract j k = l.extract i k := by
  have htake := List.take_add (l := l.drop i) (i := j - i) (j := k - j)
  rw [List.drop_drop, Nat.add_sub_of_le hij, show j - i + (k - j) = k - i by omega] at htake
  exact htake.symm

theorem take_append_extract {l : List Text} {i j : Nat} (h : i ≤ j) :
    l.take i ++ l.extract i j = l.take j := extract_append_extract (Nat.zero_le i) h

theorem filter_marks {mark other : Mark} {side : List Text} :
    (((side.map (mark, ·)).filter fun line => !decide (line.1 = other)).map Prod.snd) =
      if mark = other then [] else side := by
  split
  · rename_i h
    simp [List.filter_map, Function.comp_def, h]
  · rename_i h
    simp [List.filter_map, Function.comp_def, h]

theorem Covers.le {m n i j : Nat} {ops : List Opcode} (h : Covers a b m n i j ops) :
    i ≤ m ∧ j ≤ n := by
  induction ops generalizing i j with
  | nil => exact ⟨h.1.le, h.2.le⟩
  | cons op ops ih =>
    obtain ⟨rfl, rfl, hwithin, -, -, -, hrest⟩ := h
    exact ⟨hwithin.old.1.trans (ih hrest).1, hwithin.new.1.trans (ih hrest).2⟩

/-- The two sides of opcodes are the lines that they lead over. -/
theorem Covers.sides {m n i j : Nat} {ops : List Opcode} (h : Covers a b m n i j ops) :
    ((ops.flatMap (opcodeMarks a b)).filter (·.1 ≠ .insert)).map Prod.snd = a.extract i m ∧
      ((ops.flatMap (opcodeMarks a b)).filter (·.1 ≠ .delete)).map Prod.snd = b.extract j n := by
  induction ops generalizing i j with
  | nil =>
    obtain ⟨rfl, rfl⟩ := h
    simp
  | cons op ops ih =>
    obtain ⟨rfl, rfl, hwithin, hequal, hdelete, hinsert, hrest⟩ := h
    obtain ⟨hold, hnew⟩ := ih hrest
    rw [List.flatMap_cons, List.filter_append, List.filter_append, List.map_append, List.map_append,
      hold, hnew, ← extract_append_extract hwithin.old.1 hrest.le.1,
      ← extract_append_extract hwithin.new.1 hrest.le.2, List.append_left_inj, List.append_left_inj]
    have hnone : ∀ {l : List Text} {m n : Nat}, m = n → l.extract m n = [] := by
      rintro l m _ rfl
      simp
    have hnoNew := fun htag => @hnone b _ _ (hdelete htag)
    have hnoOld := fun htag => @hnone a _ _ (hinsert htag)
    rw [opcodeMarks]
    generalize a.extract op.i1 op.i2 = old at hequal hnoOld ⊢
    generalize b.extract op.j1 op.j2 = new at hequal hnoNew ⊢
    cases htag : op.tag with
    | equal => simp [filter_marks, hequal htag]
    | replace => simp [filter_marks]
    | delete => simp [filter_marks, hnoNew htag]
    | insert => simp [filter_marks, hnoOld htag]

theorem Covers.last {m n i j : Nat} {ops : List Opcode} (h : Covers a b m n i j ops)
    (hne : ops ≠ []) : ∃ last, ops.getLast? = some last ∧ last.i2 = m ∧ last.j2 = n ∧
      last.Within a b := by
  induction ops generalizing i j with
  | nil => exact absurd rfl hne
  | cons op ops ih =>
    obtain ⟨-, -, hwithin, -, -, -, hrest⟩ := h
    rcases eq_or_ne ops [] with rfl | hops
    · exact ⟨op, rfl, hrest.1, hrest.2, hwithin⟩
    · obtain ⟨last, hlast, hends⟩ := ih hrest hops
      exact ⟨last, by rw [List.getLast?_cons_of_ne_nil hops, hlast], hends⟩

theorem Covers.hunkRange_eq {a b : List Text} {m n i j : Nat} {ops : List Opcode}
    (h : Covers a b m n i j ops) (hne : ops ≠ []) : hunkRange ops = ⟨i, m, j, n⟩ := by
  obtain ⟨last, hlast, rfl, rfl, -⟩ := h.last hne
  obtain ⟨first, rest, rfl⟩ := List.exists_cons_of_ne_nil hne
  rw [hunkRange, hlast, List.head?_cons, ← h.1, ← h.2.1]

namespace Spans

variable {ops : List Opcode} (h : Spans a b ops)

include h

theorem ends : ∃ first last, ops.head? = some first ∧ ops.getLast? = some last ∧
    hunkRange ops = ⟨first.i1, last.i2, first.j1, last.j2⟩ := by
  have hold := h.old
  unfold hunkRange at hold ⊢
  split at hold
  · rename_i first last hfirst hlast
    exact ⟨first, last, hfirst, hlast, rfl⟩
  · exact absurd hold (Nat.lt_irrefl 0)

theorem within : (hunkRange ops).i2 ≤ a.length ∧ (hunkRange ops).j2 ≤ b.length := by
  obtain ⟨first, last, hfirst, -⟩ := h.ends
  have hne : ops ≠ [] := by
    rintro rfl
    cases hfirst
  obtain ⟨last, -, hold, hnew, hwithin⟩ := h.covers.last hne
  exact ⟨hold ▸ hwithin.old.2, hnew ▸ hwithin.new.2⟩

end Spans

theorem Groups.spans {i j : Nat} {groups : List (List Opcode)} (h : Groups a b i j groups) :
    ∀ ops ∈ groups, Spans a b ops := by
  induction groups generalizing i j with
  | nil => simp
  | cons ops groups ih =>
    obtain ⟨-, -, -, hspans, hrest⟩ := h
    rw [List.forall_mem_cons]
    exact ⟨hspans, ih hrest⟩

end Covers

/-! ## Output lines -/

/-- A line of the output, as far as it goes: a hunk header is short and ends its line. -/
structure OutputPiece (p : Text) : Prop where
  ne_nil : p ≠ []
  bare : '\n' ∉ p.dropLast
  plain : Plain p
  header : p.head? = some '@' → Ends '\n' p ∧ p.length ≤ maxStrDigits

theorem plain_append {s t : Text} : Plain (s ++ t) ↔ Plain s ∧ Plain t := by
  simp only [Plain, List.mem_append, not_or]
  tauto

theorem plain_cons {c : Char} {t : Text} (hc : c ≠ '\r' ∧ c ≠ '\x00') : Plain (c :: t) ↔ Plain t := by
  simp only [Plain, List.mem_cons, not_or]
  exact ⟨fun h => ⟨h.1.2, h.2.2⟩, fun h => ⟨⟨hc.1.symm, h.1⟩, hc.2.symm, h.2⟩⟩

theorem outputPiece_of_line {t : Text} (hbare : '\n' ∉ t) (hplain : Plain t)
    (hhead : t.head? ≠ some '@') (hne : t ≠ []) : OutputPiece (t ++ ['\n']) where
  ne_nil := List.append_ne_nil_of_left_ne_nil hne _
  bare := by rwa [List.dropLast_concat]
  plain := plain_append.mpr ⟨hplain, by decide, by decide⟩
  header h := by
    rw [List.head?_append_of_ne_nil _ hne] at h
    exact absurd h hhead

theorem outputPiece_marked {line : Mark × Text} (hne : line.2 ≠ []) (hbare : '\n' ∉ line.2.dropLast)
    (hplain : Plain line.2) : OutputPiece (marked line) where
  ne_nil := List.cons_ne_nil _ _
  bare := by
    rw [marked, List.dropLast_cons_of_ne_nil hne, List.mem_cons, not_or]
    refine ⟨?_, hbare⟩
    cases line.1 <;> decide
  plain := by
    refine (plain_cons ?_).mpr hplain
    cases line.1 <;> decide
  header h := by
    rw [marked, List.head?_cons, Option.some.injEq] at h
    have hmark : line.1.char ≠ '@' := by cases line.1 <;> decide
    exact absurd h hmark

/-- The numbers of lines that these bounds are for stay below `10 ^ 7`. -/
theorem length_formatRangeUnified_le {start stop : Nat} (hstart : start + 1 < 10 ^ 7)
    (hstop : stop < 10 ^ 7) : (formatRangeUnified start stop).length ≤ 15 := by
  have hnumber : ∀ {n : Nat}, n < 10 ^ 7 → (str n).length ≤ 7 := length_str_le (by decide)
  have hfirst : (if stop - start = 0 then start else start + 1) < 10 ^ 7 := by split <;> omega
  rw [formatRangeUnified]
  split
  · exact (hnumber hstart).trans (by decide)
  · have hlength := hnumber (show stop - start < 10 ^ 7 by omega)
    have hlength' := hnumber hfirst
    rw [List.length_append, List.length_cons]
    omega

theorem mem_formatRangeUnified {start stop : Nat} {c : Char}
    (h : c ∈ formatRangeUnified start stop) : c.isDigit ∨ c = ',' := by
  rw [formatRangeUnified] at h
  split at h
  · exact Or.inl (isDigit_of_mem_str h)
  · rw [List.mem_append, List.mem_cons] at h
    rcases h with h | h | h
    · exact Or.inl (isDigit_of_mem_str h)
    · exact Or.inr h
    · exact Or.inl (isDigit_of_mem_str h)

theorem outputPiece_groupHeader {first last : Opcode}
    (hfirst : first.i1 + 1 < 10 ^ 7 ∧ first.j1 + 1 < 10 ^ 7)
    (hlast : last.i2 < 10 ^ 7 ∧ last.j2 < 10 ^ 7) : OutputPiece (groupHeader first last) := by
  have hold := length_formatRangeUnified_le hfirst.1 hlast.1
  have hnew := length_formatRangeUnified_le hfirst.2 hlast.2
  have hnot : ∀ c ∈ ['\n', '\r', '\x00'], ∀ start stop, c ∉ formatRangeUnified start stop := by
    intro c hc start stop hmem
    have hkind := mem_formatRangeUnified hmem
    clear hmem
    revert c
    exact List.all_iff_forall_prop.mp (by decide)
  have hat : "@@ -".toList = ['@', '@', ' ', '-'] := rfl
  have hplus : " +".toList = [' ', '+'] := rfl
  have hend : " @@\n".toList = [' ', '@', '@'] ++ ['\n'] := rfl
  unfold groupHeader
  rw [hat, hplus, hend, ← List.append_assoc]
  refine ⟨List.cons_ne_nil _ _, ?_, ⟨?_, ?_⟩, fun _ => ⟨List.getLast?_concat, ?_⟩⟩
  · rw [List.dropLast_concat]
    simp [hnot '\n' (by decide)]
  · simp [hnot '\r' (by decide)]
  · simp [hnot '\x00' (by decide)]
  · simp only [List.length_append, List.length_cons, List.length_nil, maxStrDigits]
    omega

/-- A piece of a plain text. -/
structure Piece (p : Text) : Prop where
  ne_nil : p ≠ []
  bare : '\n' ∉ p.dropLast
  plain : Plain p

section Output

variable {grouped : GroupedOpcodes} {a b : List Text} {fromfile tofile : Text} {n : Nat}
  (hspans : ∀ ops ∈ grouped a b n, Spans a b ops) (ha : ∀ p ∈ a, Piece p)
  (hb : ∀ p ∈ b, Piece p) (hlength : a.length + 1 < 10 ^ 7 ∧ b.length + 1 < 10 ^ 7)

include ha hb hlength

theorem outputPiece_of_mem_groupLines {ops : List Opcode} (h : Spans a b ops) {p : Text}
    (hp : p ∈ groupLines a b ops) : OutputPiece p := by
  obtain ⟨first, last, hfirst, hlast, hrange⟩ := h.ends
  rw [groupLines, hfirst, hlast] at hp
  rcases List.mem_cons.mp hp with rfl | hp
  · have hwithin := h.within
    have hold := h.old
    have hnew := h.new
    simp only [hrange] at hwithin hold hnew
    exact outputPiece_groupHeader ⟨by omega, by omega⟩ ⟨by omega, by omega⟩
  · obtain ⟨op, -, hp⟩ := List.mem_flatMap.mp hp
    rw [opcodeLines_eq] at hp
    obtain ⟨line, hline, rfl⟩ := List.mem_map.mp hp
    have hpiece : Piece line.2 := (mem_of_mem_opcodeMarks hline).elim (ha _) (hb _)
    exact outputPiece_marked hpiece.ne_nil hpiece.bare hpiece.plain

include hspans

theorem outputPiece_of_mem_unifiedDiff (hfrom : '\n' ∉ fromfile ∧ Plain fromfile)
    (hto : '\n' ∉ tofile ∧ Plain tofile) {p : Text}
    (hp : p ∈ unifiedDiff grouped a b fromfile tofile n) : OutputPiece p := by
  have hminus : "--- ".toList = ['-', '-', '-', ' '] := rfl
  have hplus : "+++ ".toList = ['+', '+', '+', ' '] := rfl
  rw [unifiedDiff] at hp
  split at hp
  · cases hp
  rcases List.mem_cons.mp hp with rfl | hp
  · rw [hminus]
    exact outputPiece_of_line (by simpa using hfrom.1)
      (plain_append.mpr ⟨⟨by decide, by decide⟩, hfrom.2⟩) (by simp) (List.cons_ne_nil _ _)
  rcases List.mem_cons.mp hp with rfl | hp
  · rw [hplus]
    exact outputPiece_of_line (by simpa using hto.1)
      (plain_append.mpr ⟨⟨by decide, by decide⟩, hto.2⟩) (by simp) (List.cons_ne_nil _ _)
  obtain ⟨ops, hops, hp⟩ := List.mem_flatMap.mp hp
  exact outputPiece_of_mem_groupLines ha hb hlength (hspans ops hops) hp

end Output

end Hapatchy.Difflib
