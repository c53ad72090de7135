import Mathlib.Data.List.AList

/-!
# Dictionaries

Association lists with one value type, by what `lookup` finds in them.
-/

/-- A dictionary from `κ` to `α`. -/
abbrev Dict (κ α : Type) := AList fun _ : κ => α

namespace Dict

variable {κ α β : Type} [DecidableEq κ]

/-- The same keys, with `f` of each value. -/
def mapValues (f : κ → α → β) (m : Dict κ α) : Dict κ β where
  entries := m.entries.map fun entry => ⟨entry.1, f entry.1 entry.2⟩
  nodupKeys := by
    have hkeys : (m.entries.map fun entry => (⟨entry.1, f entry.1 entry.2⟩ : Σ _ : κ, β)).keys =
        m.entries.keys := by
      rw [List.keys, List.map_map]
      rfl
    rw [List.NodupKeys, hkeys]
    exact m.nodupKeys

theorem dlookup_map (f : κ → α → β) (k : κ) (l : List (Σ _ : κ, α)) :
    List.dlookup k (l.map fun entry => (⟨entry.1, f entry.1 entry.2⟩ : Σ _ : κ, β)) =
      (List.dlookup k l).map (f k) := by
  induction l with
  | nil => rfl
  | cons entry l ih =>
    obtain ⟨k', v⟩ := entry
    by_cases hk : k' = k
    · subst hk
      simp [List.dlookup_cons_eq]
    · rw [List.map_cons, List.dlookup_cons_ne _ _ (Ne.symm hk), List.dlookup_cons_ne _ _ (Ne.symm hk),
        ih]

@[simp] theorem lookup_mapValues (f : κ → α → β) (m : Dict κ α) (k : κ) :
    (mapValues f m).lookup k = (m.lookup k).map (f k) := dlookup_map f k m.entries

omit [DecidableEq κ] in
@[simp] theorem keys_mapValues (f : κ → α → β) (m : Dict κ α) : (mapValues f m).keys = m.keys := by
  simp [mapValues, AList.keys, List.keys]

/-- The two dictionaries are equal: they hold the same, in any order. -/
def Same (m m' : Dict κ α) : Prop :=
  (∀ k ∈ m.keys, m'.lookup k = m.lookup k) ∧ ∀ k ∈ m'.keys, k ∈ m.keys

instance [DecidableEq α] (m m' : Dict κ α) : Decidable (Same m m') :=
  inferInstanceAs (Decidable (_ ∧ _))

theorem same_iff {m m' : Dict κ α} : Same m m' ↔ ∀ k, m'.lookup k = m.lookup k := by
  constructor
  · rintro ⟨hsame, hsub⟩ k
    by_cases hk : k ∈ m.keys
    · exact hsame k hk
    · rw [AList.lookup_eq_none.mpr hk, AList.lookup_eq_none.mpr fun hk' => hk (hsub k hk')]
  · refine fun h => ⟨fun k _ => h k, fun k hk => ?_⟩
    rw [← AList.mem_keys, ← AList.lookup_isSome] at hk ⊢
    rwa [← h k]

end Dict
