import Mathlib.Logic.Relation

/-!
# Programs that raise and keep their state

A program over a state returns or raises, and its changes to the state stay
either way. Its steps are the pairs of a relation that need not be named.
-/

namespace Effects

/-- A program that returns an `α` or raises an `ε`, over a state `σ`. -/
def Prog (ε σ α : Type) := σ → Except ε α × σ

namespace Prog

variable {ε σ α β : Type}

protected def pure (a : α) : Prog ε σ α := fun s => (.ok a, s)

def raise (e : ε) : Prog ε σ α := fun s => (.error e, s)

protected def bind (m : Prog ε σ α) (f : α → Prog ε σ β) : Prog ε σ β := fun s =>
  match m s with
  | (.ok a, s') => f a s'
  | (.error e, s') => (.error e, s')

instance : Monad (Prog ε σ) where
  pure := Prog.pure
  bind := Prog.bind

/-- The state as it is. -/
def read : Prog ε σ σ := fun s => (.ok s, s)

/-- A change of state that cannot fail. -/
def change (f : σ → σ) : Prog ε σ Unit := fun s => (.ok (), f s)

def lift (x : Except ε α) : Prog ε σ α := fun s => (x, s)

/-- `try: body except: handler`. -/
def rescue (body : Prog ε σ α) (handler : ε → Prog ε σ α) : Prog ε σ α := fun s =>
  match body s with
  | (.ok a, s') => (.ok a, s')
  | (.error e, s') => handler e s'

/-- `try: body finally: cleanup`. What the cleanup raises takes the place of the outcome. -/
def ensure (body : Prog ε σ α) (cleanup : Except ε α → Prog ε σ Unit) : Prog ε σ α := fun s =>
  match body s with
  | (out, s') =>
    match cleanup out s' with
    | (.ok (), s'') => (out, s'')
    | (.error e, s'') => (.error e, s'')

/-! ## Outcomes -/

variable {m : Prog ε σ α} {f : α → Prog ε σ β} {s s' s'' : σ}

theorem pure_run {a : α} : (pure a : Prog ε σ α) s = (.ok a, s) := rfl

@[simp] theorem pure_eq_iff {a : α} {out : Except ε α} :
    (pure a : Prog ε σ α) s = (out, s') ↔ out = .ok a ∧ s' = s := by
  rw [pure_run, Prod.mk.injEq, eq_comm, @eq_comm _ s]

@[simp] theorem raise_eq_iff {e : ε} {out : Except ε α} :
    (raise e : Prog ε σ α) s = (out, s') ↔ out = .error e ∧ s' = s := by
  rw [raise, Prod.mk.injEq, eq_comm, @eq_comm _ s]

@[simp] theorem change_eq_iff {g : σ → σ} {out : Except ε Unit} :
    (change g : Prog ε σ Unit) s = (out, s') ↔ out = .ok () ∧ s' = g s := by
  rw [change, Prod.mk.injEq, eq_comm, @eq_comm _ (g s)]

@[simp] theorem read_eq_iff {out : Except ε σ} :
    (read : Prog ε σ σ) s = (out, s') ↔ out = .ok s ∧ s' = s := by
  rw [read, Prod.mk.injEq, eq_comm, @eq_comm _ s]

@[simp] theorem lift_eq_iff {x out : Except ε α} :
    (lift x : Prog ε σ α) s = (out, s') ↔ out = x ∧ s' = s := by
  rw [lift, Prod.mk.injEq, eq_comm, @eq_comm _ s]

theorem read_bind {g : σ → Prog ε σ α} : (read >>= g) s = g s s := rfl

theorem bind_run : (m >>= f) s =
    match m s with
    | (.ok a, s') => f a s'
    | (.error e, s') => (.error e, s') := rfl

/-- A sequence either raised in its first part, or its outcome is that of the second. -/
theorem bind_eq_iff {out : Except ε β} :
    (m >>= f) s = (out, s'') ↔
      (∃ e, m s = (.error e, s'') ∧ out = .error e) ∨
        ∃ a s', m s = (.ok a, s') ∧ f a s' = (out, s'') := by
  rw [bind_run]
  rcases h : m s with ⟨e | a, t⟩
  · constructor
    · rintro ⟨rfl, rfl⟩
      exact Or.inl ⟨e, rfl, rfl⟩
    · rintro (⟨e', ⟨rfl, rfl⟩, rfl⟩ | ⟨_, _, ⟨⟩, _⟩)
      rfl
  · constructor
    · exact fun hf => Or.inr ⟨a, t, rfl, hf⟩
    · rintro (⟨_, ⟨⟩, _⟩ | ⟨_, _, ⟨rfl, rfl⟩, hf⟩)
      exact hf

theorem bind_ok_iff {b : β} :
    (m >>= f) s = (.ok b, s'') ↔ ∃ a s', m s = (.ok a, s') ∧ f a s' = (.ok b, s'') := by
  simp [bind_eq_iff]

theorem rescue_eq_iff {handler : ε → Prog ε σ α} {out : Except ε α} :
    rescue m handler s = (out, s'') ↔
      (∃ a, m s = (.ok a, s'') ∧ out = .ok a) ∨
        ∃ e s', m s = (.error e, s') ∧ handler e s' = (out, s'') := by
  rw [rescue]
  rcases h : m s with ⟨e | a, t⟩
  · constructor
    · exact fun hh => Or.inr ⟨e, t, rfl, hh⟩
    · rintro (⟨_, ⟨⟩, _⟩ | ⟨_, _, ⟨rfl, rfl⟩, hh⟩)
      exact hh
  · constructor
    · rintro ⟨rfl, rfl⟩
      exact Or.inl ⟨a, rfl, rfl⟩
    · rintro (⟨a', ⟨rfl, rfl⟩, rfl⟩ | ⟨_, _, ⟨⟩, _⟩)
      rfl

/-- What the cleanup raises takes the place of the outcome of the body. -/
theorem ensure_eq_iff {cleanup : Except ε α → Prog ε σ Unit} {out : Except ε α} :
    ensure m cleanup s = (out, s'') ↔
      ∃ out' s', m s = (out', s') ∧
        ((cleanup out' s' = (.ok (), s'') ∧ out = out') ∨
          ∃ e, cleanup out' s' = (.error e, s'') ∧ out = .error e) := by
  rcases h : m s with ⟨out', t⟩
  have hrun : ensure m cleanup s = match cleanup out' t with
      | (.ok (), s'') => (out', s'')
      | (.error e, s'') => (.error e, s'') := by
    rw [ensure, h]
  rw [hrun]
  rcases h' : cleanup out' t with ⟨e | u, t'⟩
  · constructor
    · rintro ⟨rfl, rfl⟩
      exact ⟨_, _, rfl, Or.inr ⟨e, h', rfl⟩⟩
    · rintro ⟨_, _, ⟨rfl, rfl⟩, ⟨hc, -⟩ | ⟨e', hc, rfl⟩⟩ <;> rw [h'] at hc <;> cases hc
      rfl
  · constructor
    · rintro ⟨rfl, rfl⟩
      exact ⟨_, _, rfl, Or.inl ⟨h', rfl⟩⟩
    · rintro ⟨_, _, ⟨rfl, rfl⟩, ⟨hc, rfl⟩ | ⟨e', hc, rfl⟩⟩ <;> rw [h'] at hc <;> cases hc
      rfl

/-! ## Steps -/

/-- `m` goes from its first state to its last in steps of `S`, also when it raises. -/
def Runs (S : σ → σ → Prop) (m : Prog ε σ α) : Prop := ∀ s, Relation.ReflTransGen S s (m s).2

variable {S : σ → σ → Prop}

theorem Runs.of_eq (h : Runs S m) {out : Except ε α} (hrun : m s = (out, s')) :
    Relation.ReflTransGen S s s' := by
  simpa [hrun] using h s

theorem Runs.mono {S' : σ → σ → Prop} (h : Runs S m) (hS : ∀ s s', S s s' → S' s s') :
    Runs S' m := fun s => Relation.ReflTransGen.mono hS _ _ (h s)

theorem runs_pure {a : α} : Runs S (pure a : Prog ε σ α) := fun _ => .refl

theorem runs_raise {e : ε} : Runs S (raise e : Prog ε σ α) := fun _ => .refl

theorem runs_read : Runs S (read : Prog ε σ σ) := fun _ => .refl

theorem runs_lift {x : Except ε α} : Runs S (lift x : Prog ε σ α) := fun _ => .refl

theorem runs_change {g : σ → σ} (h : ∀ s, S s (g s)) : Runs S (change g : Prog ε σ Unit) :=
  fun s => .single (h s)

/-- The same, where the second part is only known to keep to `S` for what the first returns. -/
theorem runs_bind_of (hm : Runs S m) (hf : ∀ a s s', m s = (.ok a, s') → Runs S (f a)) :
    Runs S (m >>= f) := by
  intro s
  have hs := hm s
  rw [bind_run]
  rcases h : m s with ⟨e | a, t⟩ <;> rw [h] at hs
  · exact hs
  · exact hs.trans (hf a s t h t)

theorem runs_bind (hm : Runs S m) (hf : ∀ a, Runs S (f a)) : Runs S (m >>= f) :=
  runs_bind_of hm fun a _ _ _ => hf a

theorem runs_rescue {handler : ε → Prog ε σ α} (hm : Runs S m) (hh : ∀ e, Runs S (handler e)) :
    Runs S (rescue m handler) := by
  intro s
  have hs := hm s
  rw [rescue]
  rcases h : m s with ⟨e | a, t⟩ <;> rw [h] at hs
  · exact hs.trans (hh e t)
  · exact hs

theorem runs_ensure {cleanup : Except ε α → Prog ε σ Unit} (hm : Runs S m)
    (hc : ∀ out, Runs S (cleanup out)) : Runs S (ensure m cleanup) := by
  intro s
  rcases h : ensure m cleanup s with ⟨out, t⟩
  obtain ⟨out', s', hm', ⟨hc', -⟩ | ⟨e, hc', -⟩⟩ := ensure_eq_iff.mp h
  · exact (hm.of_eq hm').trans ((hc out').of_eq hc')
  · exact (hm.of_eq hm').trans ((hc out').of_eq hc')

theorem runs_ite {c : Prop} [Decidable c] {m' : Prog ε σ α} (h : c → Runs S m)
    (h' : ¬ c → Runs S m') : Runs S (if c then m else m') := by
  split
  · exact h ‹_›
  · exact h' ‹_›

theorem runs_forM {γ : Type} {xs : List γ} {body : γ → Prog ε σ PUnit}
    (h : ∀ x ∈ xs, Runs S (body x)) : Runs S (xs.forM body) := by
  induction xs with
  | nil => exact runs_pure
  | cons x xs ih =>
    change Runs S (body x >>= fun _ => xs.forM body)
    exact runs_bind (h x List.mem_cons_self) fun _ => ih fun y hy => h y (List.mem_cons_of_mem _ hy)

theorem runs_foldlM {γ : Type} {xs : List γ} {body : α → γ → Prog ε σ α} {a : α}
    (h : ∀ a, ∀ x ∈ xs, Runs S (body a x)) : Runs S (xs.foldlM body a) := by
  induction xs generalizing a with
  | nil => exact runs_pure
  | cons x xs ih =>
    rw [List.foldlM_cons]
    exact runs_bind (h a x List.mem_cons_self) fun _ =>
      ih fun b y hy => h b y (List.mem_cons_of_mem _ hy)

/-- What every step keeps, the program keeps. -/
theorem Runs.invariant {P : σ → Prop} (h : Runs S m) (hS : ∀ s s', S s s' → P s → P s')
    {out : Except ε α} (hrun : m s = (out, s')) (hs : P s) : P s' := by
  have hsteps := h.of_eq hrun
  clear hrun
  induction hsteps with
  | refl => exact hs
  | tail _ hstep ih => exact hS _ _ hstep ih

/-- Where a loop returns, each of its passes has returned, and what these have established is
still there. -/
theorem forM_ok {γ : Type} {xs : List γ} {body : γ → Prog ε σ PUnit} {P : γ → σ → Prop}
    (hbody : ∀ x ∈ xs, Runs S (body x))
    (hpost : ∀ x ∈ xs, ∀ s s', body x s = (.ok ⟨⟩, s') → P x s')
    (hkeeps : ∀ x s s', S s s' → P x s → P x s')
    (hrun : xs.forM body s = (.ok ⟨⟩, s')) : ∀ x ∈ xs, P x s' := by
  induction xs generalizing s with
  | nil => simp
  | cons x xs ih =>
    obtain ⟨_, t, hfirst, hrest⟩ := bind_ok_iff.mp hrun
    have hruns : Runs S (xs.forM body) :=
      runs_forM fun y hy => hbody y (List.mem_cons_of_mem _ hy)
    intro y hy
    rcases List.mem_cons.mp hy with rfl | hy
    · exact hruns.invariant (hkeeps y) hrest (hpost y List.mem_cons_self _ _ hfirst)
    · exact ih (fun z hz => hbody z (List.mem_cons_of_mem _ hz))
        (fun z hz => hpost z (List.mem_cons_of_mem _ hz)) hrest y hy

/-! ## Kept up to an exception -/

section

variable {P : σ → Prop} {Q : ε → σ → Prop}

/-- A return in `P`, or an `e` in `Q e`. -/
def Ends (P : σ → Prop) (Q : ε → σ → Prop) : Except ε α × σ → Prop
  | (.ok _, s) => P s
  | (.error e, s) => Q e s

/-- From `P`, the program returns in `P` or raises some `e` in `Q e`. -/
def Keeps (P : σ → Prop) (Q : ε → σ → Prop) (m : Prog ε σ α) : Prop := ∀ s, P s → Ends P Q (m s)

theorem keeps_of_runs (h : Runs S m) (hS : ∀ s s', S s s' → P s → P s')
    (hQ : ∀ e s, P s → Q e s) : Keeps P Q m := by
  intro s hs
  rcases hrun : m s with ⟨e | a, t⟩
  · exact hQ e t (h.invariant hS hrun hs)
  · exact h.invariant hS hrun hs

theorem keeps_pure {a : α} : Keeps P Q (pure a : Prog ε σ α) := fun _ hs => hs

theorem keeps_read : Keeps P Q (read : Prog ε σ σ) := fun _ hs => hs

theorem keeps_bind (hm : Keeps P Q m) (hf : ∀ a, Keeps P Q (f a)) : Keeps P Q (m >>= f) := by
  intro s hs
  have hend := hm s hs
  rw [bind_run]
  rcases hrun : m s with ⟨e | a, t⟩ <;> rw [hrun] at hend
  · exact hend
  · exact hf a t hend

theorem keeps_bind_of (hm : Keeps P Q m) (hf : ∀ a s s', P s → m s = (.ok a, s') → Keeps P Q (f a)) :
    Keeps P Q (m >>= f) := by
  intro s hs
  have hend := hm s hs
  rw [bind_run]
  rcases hrun : m s with ⟨e | a, t⟩ <;> rw [hrun] at hend
  · exact hend
  · exact hf a s t hs hrun t hend

theorem keeps_rescue {handler : ε → Prog ε σ α} (hm : Keeps P Q m)
    (hh : ∀ e s, Q e s → Ends P Q (handler e s)) : Keeps P Q (rescue m handler) := by
  intro s hs
  have hend := hm s hs
  rw [rescue]
  rcases hrun : m s with ⟨e | a, t⟩ <;> rw [hrun] at hend
  · exact hh e t hend
  · exact hend

theorem keeps_ensure_change {g : σ → σ} (hm : Keeps P Q m) (hP : ∀ s, P s → P (g s))
    (hQ : ∀ e s, Q e s → Q e (g s)) : Keeps P Q (ensure m fun _ => change g) := by
  intro s hs
  have hend := hm s hs
  rw [ensure]
  rcases hrun : m s with ⟨e | a, t⟩ <;> rw [hrun] at hend
  · exact hQ e t hend
  · exact hP t hend

theorem keeps_ite {c : Prop} [Decidable c] {m' : Prog ε σ α} (h : c → Keeps P Q m)
    (h' : ¬ c → Keeps P Q m') : Keeps P Q (if c then m else m') := by
  split
  · exact h ‹_›
  · exact h' ‹_›

theorem keeps_forM {γ : Type} {xs : List γ} {body : γ → Prog ε σ PUnit}
    (h : ∀ x ∈ xs, Keeps P Q (body x)) : Keeps P Q (xs.forM body) := by
  induction xs with
  | nil => exact keeps_pure
  | cons x xs ih =>
    change Keeps P Q (body x >>= fun _ => xs.forM body)
    exact keeps_bind (h x List.mem_cons_self) fun _ => ih fun y hy => h y (List.mem_cons_of_mem _ hy)

end

/-! ## What can be raised -/

/-- Whatever `m` raises satisfies `P`. -/
def Raises (P : ε → Prop) (m : Prog ε σ α) : Prop := ∀ s e s', m s = (.error e, s') → P e

variable {P : ε → Prop}

theorem raises_pure {a : α} : Raises P (pure a : Prog ε σ α) := by
  intro s e s' h
  cases (pure_eq_iff.mp h).1

theorem raises_raise {e : ε} (h : P e) : Raises P (raise e : Prog ε σ α) := by
  intro s e' s' hrun
  cases (raise_eq_iff.mp hrun).1
  exact h

theorem raises_read : Raises P (read : Prog ε σ σ) := by
  intro s e s' h
  cases (read_eq_iff.mp h).1

theorem raises_change {g : σ → σ} : Raises P (change g : Prog ε σ Unit) := by
  intro s e s' h
  cases (change_eq_iff.mp h).1

theorem raises_lift {x : Except ε α} (h : ∀ e, x = .error e → P e) :
    Raises P (lift x : Prog ε σ α) := by
  intro s e s' hrun
  exact h e (lift_eq_iff.mp hrun).1.symm

/-- The same, where the second part is only known for what the first returns. -/
theorem raises_bind_of (hm : Raises P m) (hf : ∀ a s s', m s = (.ok a, s') → Raises P (f a)) :
    Raises P (m >>= f) := by
  intro s e s' h
  rcases bind_eq_iff.mp h with ⟨e', hm', heq⟩ | ⟨a, t, hm', hf'⟩
  · cases heq
    exact hm _ _ _ hm'
  · exact hf a _ _ hm' _ _ _ hf'

theorem raises_bind (hm : Raises P m) (hf : ∀ a, Raises P (f a)) : Raises P (m >>= f) :=
  raises_bind_of hm fun a _ _ _ => hf a

theorem raises_ite {c : Prop} [Decidable c] {m' : Prog ε σ α} (h : c → Raises P m)
    (h' : ¬ c → Raises P m') : Raises P (if c then m else m') := by
  split
  · exact h ‹_›
  · exact h' ‹_›

theorem raises_rescue {Q : ε → Prop} {handler : ε → Prog ε σ α} (hm : Raises Q m)
    (hh : ∀ e, Q e → Raises P (handler e)) : Raises P (rescue m handler) := by
  intro s e s' h
  rcases rescue_eq_iff.mp h with ⟨a, -, heq⟩ | ⟨e', t, hm', hh'⟩
  · cases heq
  · exact hh e' (hm _ _ _ hm') _ _ _ hh'

theorem raises_ensure {cleanup : Except ε α → Prog ε σ Unit} (hm : Raises P m)
    (hc : ∀ out, Raises P (cleanup out)) : Raises P (ensure m cleanup) := by
  intro s e s' h
  obtain ⟨out', t, hm', ⟨-, rfl⟩ | ⟨e', hc', heq⟩⟩ := ensure_eq_iff.mp h
  · exact hm _ _ _ hm'
  · cases heq
    exact hc _ _ _ _ hc'

theorem Raises.mono {Q : ε → Prop} (h : Raises Q m) (hQ : ∀ e, Q e → P e) : Raises P m :=
  fun s e s' hrun => hQ e (h s e s' hrun)

theorem raises_forM {γ : Type} {xs : List γ} {body : γ → Prog ε σ PUnit}
    (h : ∀ x ∈ xs, Raises P (body x)) : Raises P (xs.forM body) := by
  induction xs with
  | nil => exact raises_pure
  | cons x xs ih =>
    change Raises P (body x >>= fun _ => xs.forM body)
    exact raises_bind (h x List.mem_cons_self) fun _ =>
      ih fun y hy => h y (List.mem_cons_of_mem _ hy)

theorem raises_foldlM {γ : Type} {xs : List γ} {body : α → γ → Prog ε σ α} {a : α}
    (h : ∀ a, ∀ x ∈ xs, Raises P (body a x)) : Raises P (xs.foldlM body a) := by
  induction xs generalizing a with
  | nil => exact raises_pure
  | cons x xs ih =>
    rw [List.foldlM_cons]
    exact raises_bind (h a x List.mem_cons_self) fun _ =>
      ih fun b y hy => h b y (List.mem_cons_of_mem _ hy)

end Prog

end Effects
