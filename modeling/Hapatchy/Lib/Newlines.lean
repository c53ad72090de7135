import Mathlib.Data.List.Infix

/-!
# Line endings of two symbols

`cr` followed by `lf` against a bare `lf`, over any alphabet.
-/

namespace Newlines

variable {α : Type*}

/-- A `cr` with no `lf` right after it. -/
def LoneCr (cr lf : α) (xs : List α) : Prop :=
  ∃ pre post, xs = pre ++ cr :: post ∧ post.head? ≠ some lf

/-- An `lf` with no `cr` right before it. -/
def LoneLf (cr lf : α) (xs : List α) : Prop :=
  ∃ pre post, xs = pre ++ lf :: post ∧ pre.getLast? ≠ some cr

variable {a b cr lf : α} {new : List α}

/-! ## Lone symbols -/

theorem loneCr_cons {x : α} {xs : List α} :
    LoneCr cr lf (x :: xs) ↔ (x = cr ∧ xs.head? ≠ some lf) ∨ LoneCr cr lf xs := by
  constructor
  · rintro ⟨_ | ⟨p, pre⟩, post, h, hpost⟩
    · simp only [List.nil_append, List.cons.injEq] at h
      obtain ⟨rfl, rfl⟩ := h
      exact Or.inl ⟨rfl, hpost⟩
    · simp only [List.cons_append, List.cons.injEq] at h
      exact Or.inr ⟨pre, post, h.2, hpost⟩
  · rintro (⟨rfl, hx⟩ | ⟨pre, post, rfl, hpost⟩)
    · exact ⟨[], xs, rfl, hx⟩
    · exact ⟨x :: pre, post, rfl, hpost⟩

theorem not_loneCr_nil : ¬ LoneCr cr lf [] := by
  rintro ⟨pre, post, h, -⟩
  simp at h

theorem not_loneCr_of_not_mem {xs : List α} (h : cr ∉ xs) : ¬ LoneCr cr lf xs := by
  rintro ⟨pre, post, rfl, -⟩
  simp at h

theorem loneLf_pair (h : cr ≠ lf) {rest : List α} :
    LoneLf cr lf (cr :: lf :: rest) ↔ LoneLf cr lf rest := by
  constructor
  · rintro ⟨_ | ⟨p, _ | ⟨q, pre⟩⟩, post, heq, hpre⟩
    · simp [h] at heq
    · simp at heq
      simp [heq.1] at hpre
    · simp only [List.cons_append, List.cons.injEq] at heq
      refine ⟨pre, post, heq.2.2, ?_⟩
      rcases eq_or_ne pre [] with rfl | hne
      · simp
      · simpa [List.getLast?_cons_of_ne_nil, hne] using hpre
  · rintro ⟨pre, post, rfl, hpre⟩
    refine ⟨cr :: lf :: pre, post, rfl, ?_⟩
    rcases eq_or_ne pre [] with rfl | hne
    · simpa using h.symm
    · simpa [List.getLast?_cons_of_ne_nil, hne] using hpre

theorem loneLf_cons {x : α} {xs : List α} (hx : x = cr → xs.head? ≠ some lf) :
    LoneLf cr lf (x :: xs) ↔ x = lf ∨ LoneLf cr lf xs := by
  constructor
  · rintro ⟨_ | ⟨p, pre⟩, post, heq, hpre⟩
    · simp only [List.nil_append, List.cons.injEq] at heq
      exact Or.inl heq.1
    · simp only [List.cons_append, List.cons.injEq] at heq
      obtain ⟨rfl, rfl⟩ := heq
      refine Or.inr ⟨pre, post, rfl, ?_⟩
      rcases eq_or_ne pre [] with rfl | hne
      · simp
      · simpa [List.getLast?_cons_of_ne_nil, hne] using hpre
  · rintro (rfl | ⟨pre, post, rfl, hpre⟩)
    · exact ⟨[], xs, rfl, by simp⟩
    · refine ⟨x :: pre, post, rfl, ?_⟩
      rcases eq_or_ne pre [] with rfl | hne
      · intro hlast
        exact hx (by simpa using hlast) rfl
      · simpa [List.getLast?_cons_of_ne_nil, hne] using hpre

variable [DecidableEq α]

/-! ## Replacing pairs -/

/-- Replaces each `a b`, from the left and without overlap. -/
def replacePair (a b : α) (new : List α) : List α → List α
  | x :: y :: rest =>
    if x = a ∧ y = b then new ++ replacePair a b new rest else x :: replacePair a b new (y :: rest)
  | xs => xs

theorem replacePair_pair (rest : List α) :
    replacePair a b new (a :: b :: rest) = new ++ replacePair a b new rest := by
  simp [replacePair]

theorem replacePair_cons {x : α} {xs : List α} (h : x = a → xs.head? ≠ some b) :
    replacePair a b new (x :: xs) = x :: replacePair a b new xs := by
  cases xs with
  | nil => rfl
  | cons y rest =>
    rw [replacePair, if_neg]
    rintro ⟨hx, rfl⟩
    exact h hx rfl

/-- A list is empty, starts with the pair, or starts with a symbol that stays. -/
theorem pair_cases (a b : α) (xs : List α) :
    xs = [] ∨ (∃ rest, xs = a :: b :: rest) ∨
      ∃ x rest, xs = x :: rest ∧ (x = a → rest.head? ≠ some b) := by
  match xs with
  | [] => exact Or.inl rfl
  | [x] => exact Or.inr (Or.inr ⟨x, [], rfl, by simp⟩)
  | x :: y :: rest =>
    by_cases h : x = a ∧ y = b
    · obtain ⟨rfl, rfl⟩ := h
      exact Or.inr (Or.inl ⟨rest, rfl⟩)
    · refine Or.inr (Or.inr ⟨x, y :: rest, rfl, ?_⟩)
      intro hx hy
      exact h ⟨hx, by simpa using hy⟩

/-- Induction along the pairs of a list. -/
theorem pair_induction (a b : α) {motive : List α → Prop} (nil : motive [])
    (pair : ∀ rest, motive rest → motive (a :: b :: rest))
    (cons : ∀ x rest, (x = a → rest.head? ≠ some b) → motive rest → motive (x :: rest))
    (xs : List α) : motive xs := by
  induction hn : xs.length using Nat.strong_induction_on generalizing xs with
  | _ n ih =>
    rcases pair_cases a b xs with rfl | ⟨rest, rfl⟩ | ⟨x, rest, rfl, hx⟩
    · exact nil
    · exact pair rest (ih rest.length (by simp at hn; omega) rest rfl)
    · exact cons x rest hx (ih rest.length (by simp at hn; omega) rest rfl)

theorem replacePair_append_of_not_mem {xs ys : List α} (h : a ∉ xs) :
    replacePair a b new (xs ++ ys) = xs ++ replacePair a b new ys := by
  induction xs with
  | nil => rfl
  | cons x xs ih =>
    simp only [List.mem_cons, not_or] at h
    rw [List.cons_append, replacePair_cons (fun hx => absurd hx.symm h.1), ih h.2, List.cons_append]

theorem length_replacePair_le (xs : List α) : (replacePair a b [] xs).length ≤ xs.length := by
  induction xs using pair_induction a b with
  | nil => rfl
  | pair rest ih => rw [replacePair_pair]; simp; omega
  | cons x rest hx ih => rw [replacePair_cons hx]; simpa using ih

theorem infix_iff_replacePair_ne (xs : List α) : [a, b] <:+: xs ↔ replacePair a b [] xs ≠ xs := by
  induction xs using pair_induction a b with
  | nil => simp [replacePair]
  | pair rest ih =>
    refine iff_of_true ⟨[], rest, rfl⟩ ?_
    rw [replacePair_pair]
    intro h
    have := length_replacePair_le (a := a) (b := b) rest
    have := congrArg List.length h
    simp at this
    omega
  | cons x rest hx ih =>
    rw [replacePair_cons hx, List.infix_cons_iff, ih]
    simp only [ne_eq, List.cons.injEq, true_and, or_iff_right_iff_imp]
    intro hp
    obtain ⟨post, hpost⟩ := hp
    simp only [List.cons_append, List.nil_append, List.cons.injEq] at hpost
    obtain ⟨rfl, rfl⟩ := hpost
    exact absurd rfl (hx rfl)

/-- Removing the pairs leaves a `cr` exactly when one stood alone. -/
theorem mem_replacePair_cr (h : cr ≠ lf) (xs : List α) :
    cr ∈ replacePair cr lf [] xs ↔ LoneCr cr lf xs := by
  induction xs using pair_induction cr lf with
  | nil => simp [replacePair, not_loneCr_nil]
  | pair rest ih =>
    rw [replacePair_pair, List.nil_append, ih, loneCr_cons, loneCr_cons]
    simp [h.symm]
  | cons x rest hx ih =>
    rw [replacePair_cons hx, List.mem_cons, ih, loneCr_cons]
    constructor
    · rintro (rfl | hr)
      · exact Or.inl ⟨rfl, hx rfl⟩
      · exact Or.inr hr
    · rintro (⟨rfl, -⟩ | hr)
      · exact Or.inl rfl
      · exact Or.inr hr

/-- Removing the pairs leaves an `lf` exactly when one stood alone. -/
theorem mem_replacePair_lf (h : cr ≠ lf) (xs : List α) :
    lf ∈ replacePair cr lf [] xs ↔ LoneLf cr lf xs := by
  induction xs using pair_induction cr lf with
  | nil =>
    refine iff_of_false (by simp [replacePair]) ?_
    rintro ⟨pre, post, heq, -⟩
    simp at heq
  | pair rest ih => rw [replacePair_pair, List.nil_append, ih, loneLf_pair h]
  | cons x rest hx ih => rw [replacePair_cons hx, List.mem_cons, ih, loneLf_cons hx, eq_comm]

theorem not_mem_replacePair {x : α} {xs : List α} (hx : x ∉ xs) (hnew : x ∉ new) :
    x ∉ replacePair a b new xs := by
  induction xs using pair_induction a b with
  | nil => simp [replacePair]
  | pair rest ih =>
    simp only [List.mem_cons, not_or] at hx
    rw [replacePair_pair, List.mem_append, not_or]
    exact ⟨hnew, ih hx.2.2⟩
  | cons y rest hy ih =>
    simp only [List.mem_cons, not_or] at hx
    rw [replacePair_cons hy, List.mem_cons, not_or]
    exact ⟨hx.1, ih hx.2⟩

/-! ## Normal form and back -/

/-- Puts `cr` before every `lf`. -/
def toCrlf (cr lf : α) (xs : List α) : List α :=
  xs.flatMap fun x => if x = lf then [cr, lf] else [x]

@[simp] theorem toCrlf_nil : toCrlf cr lf [] = [] := rfl

theorem toCrlf_cons (x : α) (xs : List α) :
    toCrlf cr lf (x :: xs) = (if x = lf then [cr, lf] else [x]) ++ toCrlf cr lf xs := rfl

theorem toCrlf_append (xs ys : List α) :
    toCrlf cr lf (xs ++ ys) = toCrlf cr lf xs ++ toCrlf cr lf ys := by
  simp [toCrlf]

/-- Every `lf` of a normal form came from a pair. -/
theorem toCrlf_replacePair (h : cr ≠ lf) {xs : List α} (hlf : ¬ LoneLf cr lf xs) :
    toCrlf cr lf (replacePair cr lf [lf] xs) = xs := by
  induction xs using pair_induction cr lf with
  | nil => rfl
  | pair rest ih =>
    rw [loneLf_pair h] at hlf
    rw [replacePair_pair, List.singleton_append, toCrlf_cons, ih hlf]
    simp
  | cons x rest hx ih =>
    rw [loneLf_cons hx, not_or] at hlf
    rw [replacePair_cons hx, toCrlf_cons, ih hlf.2]
    simp [hlf.1]

theorem replacePair_toCrlf {xs : List α} (hcr : cr ∉ xs) :
    replacePair cr lf new (toCrlf cr lf xs) =
      xs.flatMap fun x => if x = lf then new else [x] := by
  induction xs with
  | nil => rfl
  | cons x xs ih =>
    simp only [List.mem_cons, not_or] at hcr
    rw [toCrlf_cons, List.flatMap_cons, ← ih hcr.2]
    split
    · exact replacePair_pair _
    · rw [List.singleton_append, replacePair_cons (fun hx => absurd hx.symm hcr.1),
        List.singleton_append]

/-- Text without `cr` comes back from its two-symbol form. -/
theorem replacePair_toCrlf_self {xs : List α} (hcr : cr ∉ xs) :
    replacePair cr lf [lf] (toCrlf cr lf xs) = xs := by
  rw [replacePair_toCrlf hcr]
  have : ∀ x ∈ xs, (if x = lf then [lf] else [x]) = [x] := by
    intro x _
    split <;> simp_all
  rw [List.flatMap_congr this]
  simp

theorem mem_toCrlf {x : α} {xs : List α} (hx : x ≠ cr) : x ∈ toCrlf cr lf xs ↔ x ∈ xs := by
  induction xs with
  | nil => simp
  | cons y ys ih =>
    rw [toCrlf_cons, List.mem_append, ih, List.mem_cons]
    split <;> simp_all

/-- In the two-symbol form of text without `cr`, the symbols never stand alone. -/
theorem not_loneCr_toCrlf (h : cr ≠ lf) {xs : List α} (hcr : cr ∉ xs) :
    ¬ LoneCr cr lf (toCrlf cr lf xs) := by
  rw [← mem_replacePair_cr h, replacePair_toCrlf hcr, List.mem_flatMap]
  rintro ⟨x, hx, hmem⟩
  split at hmem
  · cases hmem
  · exact hcr (List.mem_singleton.mp hmem ▸ hx)

theorem not_loneLf_toCrlf (h : cr ≠ lf) {xs : List α} (hcr : cr ∉ xs) :
    ¬ LoneLf cr lf (toCrlf cr lf xs) := by
  rw [← mem_replacePair_lf h, replacePair_toCrlf hcr, List.mem_flatMap]
  rintro ⟨x, hx, hmem⟩
  split at hmem
  · cases hmem
  · rename_i hne
    exact hne (List.mem_singleton.mp hmem).symm

theorem toCrlf_of_not_mem {xs : List α} (h : lf ∉ xs) : toCrlf cr lf xs = xs := by
  induction xs with
  | nil => rfl
  | cons x xs ih =>
    simp only [List.mem_cons, not_or] at h
    rw [toCrlf_cons, ih h.2, if_neg (fun hx => h.1 hx.symm), List.singleton_append]

theorem pair_infix_toCrlf {xs : List α} (h : lf ∈ xs) : [cr, lf] <:+: toCrlf cr lf xs := by
  obtain ⟨pre, post, rfl⟩ := List.append_of_mem h
  refine ⟨toCrlf cr lf pre, toCrlf cr lf post, ?_⟩
  simp [toCrlf]

theorem replacePair_of_not_infix {xs : List α} (h : ¬ [a, b] <:+: xs) :
    replacePair a b new xs = xs := by
  induction xs using pair_induction a b with
  | nil => rfl
  | pair rest ih => exact absurd ⟨[], rest, rfl⟩ h
  | cons x rest hx ih =>
    rw [replacePair_cons hx, ih fun hr => h (hr.trans (List.suffix_cons x rest).isInfix)]

theorem cr_not_mem_replacePair (h : cr ≠ lf) {xs : List α} (hcr : ¬ LoneCr cr lf xs) :
    cr ∉ replacePair cr lf [lf] xs := by
  induction xs using pair_induction cr lf with
  | nil => simp [replacePair]
  | pair rest ih =>
    rw [replacePair_pair]
    have hrest : ¬ LoneCr cr lf rest := fun hr =>
      hcr (loneCr_cons.mpr (Or.inr (loneCr_cons.mpr (Or.inr hr))))
    simp [h, ih hrest]
  | cons x rest hx ih =>
    rw [loneCr_cons, not_or] at hcr
    rw [replacePair_cons hx, List.mem_cons, not_or]
    refine ⟨?_, ih hcr.2⟩
    rintro rfl
    exact hcr.1 ⟨rfl, hx rfl⟩

end Newlines
