import Hapatchy.Lib.Effects

/-!
# Recursion within a budget

A recursive program counts its calls, and makes none once the count is at its
limit. Its equation then has one solution, which any large enough number of
unfoldings gives, whatever stands at their end.
-/

namespace Effects

namespace Prog

variable {ε σ α β ι : Type}

/-! ## Counting -/

/-- The program does not lower the count. -/
abbrev Counts (count : σ → Nat) (m : Prog ε σ α) : Prop := Runs (fun s s' => count s ≤ count s') m

/-- The programs agree where the count is at least `k`. -/
def AgreeFrom (count : σ → Nat) (k : Nat) (m m' : Prog ε σ α) : Prop :=
  ∀ s, k ≤ count s → m s = m' s

variable {count : σ → Nat} {k : Nat} {m m' : Prog ε σ α} {f f' : α → Prog ε σ β} {s s' : σ}

theorem Counts.le (h : Counts count m) {out : Except ε α} (hrun : m s = (out, s')) :
    count s ≤ count s' := by
  have hsteps := h.of_eq hrun
  clear hrun
  induction hsteps with
  | refl => exact Nat.le_refl _
  | tail _ hstep ih => exact Nat.le_trans ih hstep

theorem agree_refl : AgreeFrom count k m m := fun _ _ => rfl

theorem agree_bind (hm : Counts count m) (h : AgreeFrom count k m m')
    (hf : ∀ a, AgreeFrom count k (f a) (f' a)) : AgreeFrom count k (m >>= f) (m' >>= f') := by
  intro s hs
  rw [bind_run, bind_run, ← h s hs]
  rcases hrun : m s with ⟨e | a, t⟩
  · rfl
  · exact hf a t (Nat.le_trans hs (hm.le hrun))

theorem agree_rescue {handler handler' : ε → Prog ε σ α} (hm : Counts count m)
    (h : AgreeFrom count k m m') (hh : ∀ e, AgreeFrom count k (handler e) (handler' e)) :
    AgreeFrom count k (rescue m handler) (rescue m' handler') := by
  intro s hs
  rw [rescue, rescue, ← h s hs]
  rcases hrun : m s with ⟨e | a, t⟩
  · exact hh e t (Nat.le_trans hs (hm.le hrun))
  · rfl

theorem agree_ensure {cleanup : Except ε α → Prog ε σ Unit} (h : AgreeFrom count k m m') :
    AgreeFrom count k (ensure m cleanup) (ensure m' cleanup) := by
  intro s hs
  rw [ensure, ensure, ← h s hs]

theorem agree_ite {c : Prop} [Decidable c] {n n' : Prog ε σ α} (h : c → AgreeFrom count k m m')
    (h' : ¬ c → AgreeFrom count k n n') :
    AgreeFrom count k (if c then m else n) (if c then m' else n') := by
  split
  · exact h ‹_›
  · exact h' ‹_›

theorem agree_forM {γ : Type} {xs : List γ} {body body' : γ → Prog ε σ PUnit}
    (hbody : ∀ x ∈ xs, Counts count (body x))
    (h : ∀ x ∈ xs, AgreeFrom count k (body x) (body' x)) :
    AgreeFrom count k (xs.forM body) (xs.forM body') := by
  induction xs with
  | nil => exact agree_refl
  | cons x xs ih =>
    change AgreeFrom count k (body x >>= fun _ => xs.forM body) (body' x >>= fun _ => xs.forM body')
    exact agree_bind (hbody x List.mem_cons_self) (h x List.mem_cons_self) fun _ =>
      ih (fun y hy => hbody y (List.mem_cons_of_mem _ hy)) fun y hy => h y (List.mem_cons_of_mem _ hy)

theorem agree_foldlM {γ : Type} {xs : List γ} {body body' : α → γ → Prog ε σ α} {a : α}
    (hbody : ∀ a, ∀ x ∈ xs, Counts count (body a x))
    (h : ∀ a, ∀ x ∈ xs, AgreeFrom count k (body a x) (body' a x)) :
    AgreeFrom count k (xs.foldlM body a) (xs.foldlM body' a) := by
  induction xs generalizing a with
  | nil => exact agree_refl
  | cons x xs ih =>
    rw [List.foldlM_cons, List.foldlM_cons]
    exact agree_bind (hbody a x List.mem_cons_self) (h a x List.mem_cons_self) fun b =>
      ih (fun a y hy => hbody a y (List.mem_cons_of_mem _ hy)) fun a y hy =>
        h a y (List.mem_cons_of_mem _ hy)

/-- Two sequences agree at `s`, where they agree after their first part. -/
theorem bind_run_congr (h : ∀ a s', m s = (.ok a, s') → f a s' = f' a s') :
    (m >>= f) s = (m >>= f') s := by
  rw [bind_run, bind_run]
  rcases hrun : m s with ⟨e | a, t⟩
  · rfl
  · exact h a t hrun

/-! ## Unfoldings -/

/-- The recursion `F`, unfolded `n` times over `bottom`. -/
def unfolded (F : (ι → Prog ε σ α) → ι → Prog ε σ α) (bottom : ι → Prog ε σ α) :
    Nat → ι → Prog ε σ α
  | 0 => bottom
  | n + 1 => F (unfolded F bottom n)

section

variable {F : (ι → Prog ε σ α) → ι → Prog ε σ α} {bottom : ι → Prog ε σ α}

/-- What the body keeps of its calls holds of all unfoldings. -/
theorem unfolded_of {C : (ι → Prog ε σ α) → Prop} (hF : ∀ call, C call → C (F call))
    (hbottom : C bottom) (n : Nat) : C (unfolded F bottom n) := by
  induction n with
  | zero => exact hbottom
  | succ n ih => exact hF _ ih

theorem unfolded_induction {C : Prog ε σ α → Prop}
    (hF : ∀ call, (∀ i, C (call i)) → ∀ i, C (F call i)) (hbottom : ∀ i, C (bottom i)) (n : Nat)
    (i : ι) : C (unfolded F bottom n i) :=
  unfolded_of (C := fun call => ∀ i, C (call i)) hF hbottom n i

end

/-- `F` makes its calls after it has counted, and none once the count is at the limit. -/
structure Budgeted (F : (ι → Prog ε σ α) → ι → Prog ε σ α) (count : σ → Nat) (limit : Nat) :
    Prop where
  counts : ∀ call, (∀ i, Counts count (call i)) → ∀ i, Counts count (F call i)
  agrees : ∀ call call' i s, (∀ i, Counts count (call i)) →
    (count s < limit → ∀ j, AgreeFrom count (count s + 1) (call j) (call' j)) →
    F call i s = F call' i s

variable {F : (ι → Prog ε σ α) → ι → Prog ε σ α} {limit : Nat} {bottom bottom' : ι → Prog ε σ α}

theorem Budgeted.counts_unfolded (h : Budgeted F count limit) (hbottom : ∀ i, Counts count (bottom i))
    (n : Nat) (i : ι) : Counts count (unfolded F bottom n i) :=
  unfolded_induction h.counts hbottom n i

/-- Unfoldings that cover what is left of the budget agree. -/
theorem Budgeted.unfolded_eq (h : Budgeted F count limit) (hbottom : ∀ i, Counts count (bottom i))
    {n m : Nat} {i : ι} {s : σ} (hn : limit ≤ n + count s) (hm : limit ≤ m + count s) :
    unfolded F bottom (n + 1) i s = unfolded F bottom' (m + 1) i s := by
  induction n generalizing m i s with
  | zero => exact h.agrees _ _ i s hbottom fun hlt => absurd hlt (by omega)
  | succ n ih =>
    refine h.agrees _ _ i s (h.counts_unfolded hbottom _) fun hlt j t ht => ?_
    cases m with
    | zero => omega
    | succ m => exact ih (by omega) (by omega)

/-- One unfolding more gives the same. -/
theorem Budgeted.solves (h : Budgeted F count limit) (hbottom : ∀ i, Counts count (bottom i)) :
    F (unfolded F bottom (limit + 1)) = unfolded F bottom (limit + 1) := by
  funext i s
  exact h.unfolded_eq hbottom (n := limit + 1) (by omega) (by omega)

/-- What stands at the end of the unfoldings is never reached. -/
theorem Budgeted.unfolded_bottom (h : Budgeted F count limit)
    (hbottom : ∀ i, Counts count (bottom i)) :
    unfolded F bottom (limit + 1) = unfolded F bottom' (limit + 1) := by
  funext i s
  exact h.unfolded_eq hbottom (by omega) (by omega)

end Prog

end Effects
