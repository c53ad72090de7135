import Hapatchy.Lib.Results
import Hapatchy.Os.Steps

/-!
# What a call that succeeds has done

For paths that the other programs leave alone.
-/

open Effects Prog

namespace Hapatchy

variable {env : Env} {α : Type} {p : Path} {w w' : World}

@[simp] theorem arrive_progress : (arrive env w).progress = w.progress := by
  rw [arrive]
  split <;> rfl

@[simp] theorem arrive_log : (arrive env w).log = w.log ++ [.call] := by
  rw [arrive]
  split <;> rfl

@[simp] theorem arrive_step : (arrive env w).step = w.step + 1 := by
  rw [arrive]
  split <;> rfl

theorem look_ok {act : Nat → Fs → Except OsError α} {a : α}
    (h : look env act w = (.ok a, w')) : act w.step w'.fs = .ok a ∧ w' = arrive env w := by
  rw [look] at h
  split at h
  · cases h
  · simp only [Prod.mk.injEq] at h
    obtain ⟨h, rfl⟩ := h
    exact ⟨Results.mapError_eq_ok.mp h, rfl⟩

theorem alter_ok {act : Nat → Fs → Except OsError (Option Node)} {u : Unit}
    (h : alter env p act w = (.ok u, w')) :
    ∃ x, act w.step (arrive env w).fs = .ok x ∧ w' = (arrive env w).edit p x := by
  rw [alter] at h
  split at h
  · cases h
  · split at h
    · rename_i x hx
      cases h
      exact ⟨x, hx, rfl⟩
    · cases h

@[simp] theorem World.edit_lookup {x : Option Node} : (w.edit p x).fs.lookup p = x := Fs.lookup_put

theorem World.edit_lookup_ne {x : Option Node} {q : Path} (h : q ≠ p) :
    (w.edit p x).fs.lookup q = w.fs.lookup q := Fs.lookup_put_ne h

theorem Fs.mem_iff {fs : Fs} : p ∈ fs ↔ (fs.lookup p).isSome := AList.lookup_isSome.symm

/-- A new directory is empty, and it is in one that is there. -/
theorem mkdir_ok {u : Unit} (h : mkdir env p w = (.ok u, w')) :
    w'.fs.lookup p = some (fresh env w.step .directory 0o700) ∧
      (∀ name, w'.fs.lookup (p ++ [name]) = none) ∧ (w'.fs.lookup p.dropLast).isSome := by
  obtain ⟨x, hx, rfl⟩ := alter_ok h
  split at hx
  · cases hx
  rename_i hnew
  split at hx
  · cases hx
  rename_i hparent
  cases Results.pure_eq_ok.mp hx
  refine ⟨World.edit_lookup, fun name => ?_, ?_⟩
  · rw [World.edit_lookup_ne (by simp)]
    by_contra hne
    have hname : name ∈ (arrive env w).fs.names p :=
      Fs.mem_names_iff.mpr (Option.ne_none_iff_isSome.mp hne)
    exact hnew (Or.inr (List.ne_nil_of_mem hname))
  · by_cases heq : p.dropLast = p
    · rw [heq, World.edit_lookup]
      rfl
    · rw [World.edit_lookup_ne heq]
      exact Fs.mem_iff.mp (not_not.mp hparent)

/-- A new directory was not there. -/
theorem mkdir_new {u : Unit} (h : mkdir env p w = (.ok u, w')) : p ∉ (arrive env w).fs := by
  obtain ⟨x, hx, -⟩ := alter_ok h
  split at hx
  · cases hx
  · exact fun hp => ‹¬ _› (Or.inl hp)

theorem alter_error {act : Nat → Fs → Except OsError (Option Node)} {e : Exc}
    (h : alter env p act w = (.error e, w')) : w' = arrive env w := by
  rw [alter] at h
  split at h
  · cases h
    rfl
  · split at h <;> cases h
    rfl

theorem mkdir_error {e : Exc} (h : mkdir env p w = (.error e, w')) : w' = arrive env w :=
  alter_error h

/-- An exclusive creation was of a file that was not there. -/
theorem createExclusive_ok {handle : Handle} (h : createExclusive env p w = (.ok handle, w')) :
    handle = ⟨p, (env.stamp w.step).ino⟩ ∧ (arrive env w).fs.lookup p = none ∧
      w' = (arrive env w).edit p (some (fresh env w.step .file 0o600)) := by
  obtain ⟨w₀, t, hread, h⟩ := bind_ok_iff.mp h
  obtain ⟨⟨⟩, rfl⟩ := read_eq_iff.mp hread
  obtain ⟨u, t', halter, h⟩ := bind_ok_iff.mp h
  obtain ⟨⟨⟩, rfl⟩ := pure_eq_iff.mp h
  obtain ⟨x, hx, rfl⟩ := alter_ok halter
  split at hx
  · cases hx
  rename_i hnew
  split at hx
  · cases hx
  cases Results.pure_eq_ok.mp hx
  rw [Fs.mem_iff, Bool.not_eq_true, Option.isSome_eq_false_iff, Option.isNone_iff_eq_none] at hnew
  exact ⟨rfl, hnew, rfl⟩

/-- An exclusive creation that fails has created nothing. -/
theorem createExclusive_error {e : Exc} (h : createExclusive env p w = (.error e, w')) :
    w' = arrive env w := by
  rcases bind_eq_iff.mp h with ⟨e', hread, -⟩ | ⟨w₀, t, hread, h⟩
  · cases (read_eq_iff.mp hread).1
  obtain ⟨⟨⟩, rfl⟩ := read_eq_iff.mp hread
  rcases bind_eq_iff.mp h with ⟨e', halter, -⟩ | ⟨u, t', -, h⟩
  · exact alter_error halter
  · cases (pure_eq_iff.mp h).1

section Spared

variable (henv : env.Spares p)

include henv

theorem modify_ok {f : Stamp → Node → Node} {node : Node} {u : Unit}
    (h : modify env p f w = (.ok u, w')) (hnode : w.fs.lookup p = some node) :
    w'.fs.lookup p = some (f (env.stamp w.step) node) := by
  obtain ⟨x, hx, rfl⟩ := alter_ok h
  rw [Results.pure_eq_ok, arrive_lookup henv, hnode] at hx
  rw [World.edit_lookup, ← hx]
  rfl

theorem write_ok {data : Bytes} {node : Node} {u : Unit} (h : write env p data w = (.ok u, w'))
    (hnode : w.fs.lookup p = some node) :
    w'.fs.lookup p = some (node.appended data (env.stamp w.step)) := by
  rw [write] at h
  split at h
  · cases h
  · exact modify_ok henv h hnode

theorem fsync_ok {node : Node} {u : Unit} (h : fsync env p w = (.ok u, w'))
    (hnode : w.fs.lookup p = some node) :
    ∃ names, w'.fs.lookup p = some { node with synced := some (node.data, names) } ∧
      (∀ name, name ∈ names ↔ (w'.fs.lookup (p ++ [name])).isSome) ∧
      w'.log = w.log ++ [.call, .synced p] := by
  rw [fsync] at h
  split at h
  · cases h
  · cases h
    refine ⟨(arrive env w).fs.names p, ?_, fun name => ?_, by simp⟩
    · rw [Fs.lookup_put, arrive_lookup henv, hnode]
      rfl
    · rw [Fs.mem_names_iff, Fs.lookup_put_ne (by simp)]

end Spared

/-- A replacement that succeeds is recorded. -/
theorem replace_ok {source target : Path} {u : Unit}
    (h : replace env source target w = (.ok u, w')) :
    ∃ node, (arrive env w).fs.lookup source = some node ∧ w' = { arrive env w with
      fs := ((arrive env w).fs.put source none).put target (some node)
      log := (arrive env w).log ++
        [.replaced ⟨target, (arrive env w).fs, node, (arrive env w).disturbed⟩] } := by
  rw [replace] at h
  split at h
  · cases h
  split at h
  · cases h
  rename_i hnode
  split at h
  · cases h
  · cases h
    exact ⟨_, hnode, rfl⟩

/-- A replacement that fails has no effect. -/
theorem replace_error {source target : Path} {e : Exc}
    (h : replace env source target w = (.error e, w')) : w' = arrive env w := by
  rw [replace] at h
  split at h
  · cases h
    rfl
  split at h
  · cases h
    rfl
  split at h
  · cases h
    rfl
  · cases h

/-- After an `unlink`, the file is gone or its removal has failed. -/
theorem unlink_gone {out : Except Exc Unit} (h : unlink env p w = (out, w')) :
    w'.fs.lookup p = none ∨ w'.log = w.log ++ [.call, .unlinkFailed p] := by
  rw [unlink] at h
  split at h
  · cases h
    exact Or.inr (by simp)
  split at h
  · rename_i hnone
    cases h
    exact Or.inl hnone
  split at h
  · cases h
    exact Or.inr (by simp)
  · cases h
    exact Or.inl World.edit_lookup

end Hapatchy
