import Mathlib.Logic.Basic

/-!
# Runs of a machine

A machine takes labelled steps where it can. What every step that meets a
condition keeps, a run of such steps keeps.
-/

namespace Traces

variable {σ ℓ : Type} (step : σ → ℓ → Option σ)

/-- The state after the steps `ls`, if all of them can be taken. -/
def after : σ → List ℓ → Option σ
  | s, [] => some s
  | s, l :: ls => (step s l).bind fun t => after t ls

/-- Every step of the run meets `P`. -/
def Every (P : σ → ℓ → σ → Prop) : σ → List ℓ → Prop
  | _, [] => True
  | s, l :: ls => ∀ t, step s l = some t → P s l t ∧ Every P t ls

variable {step} {s t : σ} {l : ℓ} {ls ls' : List ℓ} {P Q : σ → ℓ → σ → Prop}

@[simp] theorem after_nil : after step s [] = some s := rfl

theorem after_cons : after step s (l :: ls) = some t ↔
    ∃ u, step s l = some u ∧ after step u ls = some t := by
  rw [after, Option.bind_eq_some_iff]

theorem after_append : after step s (ls ++ ls') = some t ↔
    ∃ u, after step s ls = some u ∧ after step u ls' = some t := by
  induction ls generalizing s with
  | nil => simp
  | cons l ls ih =>
    rw [List.cons_append, after_cons]
    simp only [ih, after_cons]
    constructor
    · rintro ⟨u, hu, v, hv, hrest⟩
      exact ⟨v, ⟨u, hu, hv⟩, hrest⟩
    · rintro ⟨v, ⟨u, hu, hv⟩, hrest⟩
      exact ⟨u, hu, v, hv, hrest⟩

/-- What the steps that meet `P` keep, a run of them keeps. -/
theorem invariant {I : σ → Prop} (hstep : ∀ s l t, I s → step s l = some t → P s l t → I t)
    (hs : I s) (hevery : Every step P s ls) (hrun : after step s ls = some t) : I t := by
  induction ls generalizing s with
  | nil =>
    cases hrun
    exact hs
  | cons l ls ih =>
    obtain ⟨u, hu, hrest⟩ := after_cons.mp hrun
    obtain ⟨hP, hevery⟩ := hevery u hu
    exact ih (hstep s l u hs hu hP) hevery hrest

theorem every_of_mem (h : ∀ l ∈ ls, ∀ s t, P s l t) : Every step P s ls := by
  induction ls generalizing s with
  | nil => trivial
  | cons l ls ih =>
    intro u _
    exact ⟨h l (List.mem_cons_self ..) s u, ih fun l hl => h l (List.mem_cons_of_mem _ hl)⟩

theorem every_of_forall_mem {R : ℓ → Prop} (h : ∀ l ∈ ls, R l) :
    Every step (fun _ l _ => R l) s ls :=
  every_of_mem fun l hl _ _ => h l hl

theorem Every.mono (hP : Every step P s ls)
    (h : ∀ s l t, step s l = some t → P s l t → Q s l t) : Every step Q s ls := by
  induction ls generalizing s with
  | nil => trivial
  | cons l ls ih =>
    intro u hu
    exact ⟨h s l u hu (hP u hu).1, ih (hP u hu).2⟩

theorem Every.and (hP : Every step P s ls) (hQ : Every step Q s ls) :
    Every step (fun s l t => P s l t ∧ Q s l t) s ls := by
  induction ls generalizing s with
  | nil => trivial
  | cons l ls ih =>
    intro u hu
    exact ⟨⟨(hP u hu).1, (hQ u hu).1⟩, ih (hP u hu).2 (hQ u hu).2⟩

theorem every_append : Every step P s (ls ++ ls') ↔
    Every step P s ls ∧ ∀ t, after step s ls = some t → Every step P t ls' := by
  induction ls generalizing s with
  | nil => simp [Every]
  | cons l ls ih =>
    simp only [List.cons_append, Every, ih, after_cons]
    constructor
    · intro h
      refine ⟨fun u hu => ⟨(h u hu).1, (h u hu).2.1⟩, ?_⟩
      rintro t ⟨u, hu, hrest⟩
      exact (h u hu).2.2 t hrest
    · rintro ⟨h, hrest⟩ u hu
      exact ⟨(h u hu).1, (h u hu).2, fun t ht => hrest t ⟨u, hu, ht⟩⟩

/-- Where a step without `P` leads to `D` for good, a run that does not end in `D` has none. -/
theorem every_of_not_reached {I D : σ → Prop} (hI : ∀ s l t, I s → step s l = some t → Q s l t → I t)
    (hbad : ∀ s l t, I s → step s l = some t → ¬ P s l t → D t)
    (hD : ∀ s l t, D s → step s l = some t → D t)
    (hs : I s) (hevery : Every step Q s ls) (hrun : after step s ls = some t) (hnot : ¬ D t) :
    Every step P s ls := by
  induction ls generalizing s with
  | nil => trivial
  | cons l ls ih =>
    intro u hu
    obtain ⟨v, hv, hrest⟩ := after_cons.mp hrun
    cases hu.symm.trans hv
    obtain ⟨hQ, hevery⟩ := hevery u hu
    refine ⟨?_, ih (hI s l u hs hu hQ) hevery hrest⟩
    refine Classical.byContradiction fun hP => hnot ?_
    exact invariant (fun s l t h hstep _ => hD s l t h hstep) (hbad s l u hs hu hP)
      (every_of_forall_mem (R := fun _ => True) fun _ _ => trivial) hrest

instance Every.decidable [∀ s l t, Decidable (P s l t)] :
    (s : σ) → (ls : List ℓ) → Decidable (Every step P s ls)
  | _, [] => isTrue trivial
  | s, l :: ls =>
    match h : step s l with
    | none => isTrue fun t ht => by rw [h] at ht; cases ht
    | some u =>
      have := Every.decidable u ls
      decidable_of_iff (P s l u ∧ Every step P u ls)
        ⟨fun hu t ht => by cases h.symm.trans ht; exact hu, fun hevery => hevery u h⟩

/-- What the invariant says of a step that meets `P`, it says of each of a run. -/
theorem every_of_invariant {I : σ → Prop} (hstep : ∀ s l t, I s → step s l = some t → P s l t → I t)
    (hQ : ∀ s l t, I s → step s l = some t → P s l t → Q s l t)
    (hs : I s) (hevery : Every step P s ls) : Every step Q s ls := by
  induction ls generalizing s with
  | nil => trivial
  | cons l ls ih =>
    intro u hu
    obtain ⟨hP, hevery⟩ := hevery u hu
    exact ⟨hQ s l u hs hu hP, ih (hstep s l u hs hu hP) hevery⟩

/-- Two runs with the same steps in `p` end with the same view, where the view is all that the steps
in `p` act on, and the others leave it alone. -/
theorem view_eq {α : Type} {f : σ → α} {p : ℓ → Bool} {I : σ → Prop}
    (hI : ∀ s l t, I s → step s l = some t → I t)
    (hskip : ∀ s l t, I s → step s l = some t → p l = false → f t = f s)
    (hsame : ∀ s s' l t t', I s → I s' → f s = f s' → step s l = some t → step s' l = some t' →
      p l = true → f t = f t')
    {s' t' : σ} (hs : I s) (hs' : I s') (hview : f s = f s') (hrun : after step s ls = some t)
    (hrun' : after step s' ls' = some t') (hfilter : ls.filter p = ls'.filter p) :
    f t = f t' := by
  have hskips {l' : List ℓ} (hnone : ∀ x ∈ l', ¬ p x = true) {s u : σ} (hs : I s)
      (hrun : after step s l' = some u) : I u ∧ f u = f s := by
    refine invariant (I := fun u => I u ∧ f u = f s) (fun a l b ha hstep hl => ?_) ⟨hs, rfl⟩
      (every_of_forall_mem (R := fun x => ¬ p x = true) hnone) hrun
    exact ⟨hI a l b ha.1 hstep, (hskip a l b ha.1 hstep (Bool.eq_false_iff.mpr hl)).trans ha.2⟩
  induction ls generalizing s s' ls' with
  | nil =>
    cases hrun
    rw [List.filter_nil, eq_comm, List.filter_eq_nil_iff] at hfilter
    exact hview.trans (hskips hfilter hs' hrun').2.symm
  | cons l ls ih =>
    obtain ⟨u, hu, hrest⟩ := after_cons.mp hrun
    cases hp : p l with
    | false =>
      rw [List.filter_cons_of_neg (by rw [hp]; nofun)] at hfilter
      exact ih (hI s l u hs hu) hs' ((hskip s l u hs hu hp).trans hview) hrest hrun' hfilter
    | true =>
      rw [List.filter_cons_of_pos hp, eq_comm, List.filter_eq_cons_iff] at hfilter
      obtain ⟨before, later, rfl, hbefore, -, hfilter⟩ := hfilter
      obtain ⟨v, hv, hlater⟩ := after_append.mp hrun'
      obtain ⟨w, hw, hlater⟩ := after_cons.mp hlater
      obtain ⟨hIv, hviewv⟩ := hskips hbefore hs' hv
      exact ih (hI s l u hs hu) (hI v l w hIv hw)
        (hsame s v l u w hs hIv (hview.trans hviewv.symm) hu hw hp) hrest hlater hfilter.symm

/-! ## Simulation -/

section Simulation

variable {α τ : Type}

/-- What a second machine is offered along the run. -/
def offers (step : σ → ℓ → Option σ) (offer : σ → ℓ → Option α) : σ → List ℓ → List α
  | _, [] => []
  | s, l :: ls => (offer s l).toList ++ ((step s l).map fun t => offers step offer t ls).getD []

/-- Where each step leaves the abstract state or takes what is offered to it, a run takes some of what
it is offered, in its order. -/
theorem simulated {R : σ → τ → Prop} {take : τ → α → τ} {offer : σ → ℓ → Option α}
    (hstep : ∀ s l t a, R s a → step s l = some t → P s l t →
      R t a ∨ ∃ x, offer s l = some x ∧ R t (take a x))
    {a : τ} (hs : R s a) (hevery : Every step P s ls) (hrun : after step s ls = some t) :
    ∃ xs : List α, xs.Sublist (offers step offer s ls) ∧ R t (xs.foldl take a) := by
  induction ls generalizing s a with
  | nil =>
    cases hrun
    exact ⟨[], List.Sublist.refl _, hs⟩
  | cons l ls ih =>
    obtain ⟨u, hu, hrest⟩ := after_cons.mp hrun
    obtain ⟨hP, hevery⟩ := hevery u hu
    have hoffers : offers step offer s (l :: ls) = (offer s l).toList ++ offers step offer u ls := by
      rw [offers, hu]
      rfl
    rw [hoffers]
    rcases hstep s l u a hs hu hP with hstay | ⟨x, hx, htaken⟩
    · obtain ⟨xs, hxs, hR⟩ := ih hstay hevery hrest
      exact ⟨xs, hxs.trans (List.sublist_append_right _ _), hR⟩
    · obtain ⟨xs, hxs, hR⟩ := ih htaken hevery hrest
      refine ⟨x :: xs, ?_, hR⟩
      rw [hx]
      exact hxs.cons_cons x

end Simulation

end Traces
