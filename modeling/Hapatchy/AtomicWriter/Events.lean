import Hapatchy.AtomicWriter.Specs

/-!
# What a commit leaves in the log

Nothing is assumed of the other programs here. The outcome of a commit says
whether it has replaced its target, and whether the directory was synced then.
-/

open Effects Prog

namespace Hapatchy

variable {env : Env} {L : Label → Prop} {w w' : World} {target : GuardedFile} {snapshot : Snapshot}
  {output : Bytes} {beforeReplace : Option (Io Unit)} {beforeCommit : Io Unit} {temp : Handle}

/-- Labels of steps that replace nothing and leave the record alone. -/
def Plain : Label → Prop
  | .replace _ _ => False
  | .record => False
  | _ => True

theorem Looks.plain {l : Label} (h : Looks l) : Plain l := by
  cases l <;> trivial

/-- Steps that replace nothing leave no replacement in the log. -/
theorem Steps.unreplaced (h : Steps env L w w') (hL : ∀ source target, ¬ L (.replace source target)) :
    ∃ new, w'.log = w.log ++ new ∧ replacements new = [] := by
  obtain ⟨new, hlog, hall⟩ := h.log
  refine ⟨new, hlog, List.eq_nil_iff_forall_not_mem.mpr fun r hr => ?_⟩
  obtain ⟨source, hs⟩ := hall _ (mem_replacements.mp hr)
  exact hL _ _ hs

theorem Steps.plain (h : Steps env Plain w w') :
    ∃ new, w'.log = w.log ++ new ∧ replacements new = [] := h.unreplaced fun _ _ => id

theorem replace_log {source target : Path} {u : Unit}
    (h : replace env source target w = (.ok u, w')) :
    ∃ r, w'.log = w.log ++ [.call, .replaced r] := by
  obtain ⟨node, -, rfl⟩ := replace_ok h
  refine ⟨⟨target, (arrive env w).fs, node, (arrive env w).disturbed⟩, ?_⟩
  rw [arrive_log, List.append_assoc]
  rfl

theorem commitErrorOnOs_fsync {p : Path} {reason : Reason} {replaced : Bool}
    {out : Except Exc Unit} (h : commitErrorOnOs reason replaced (fsync env p) w = (out, w')) :
    (out = .ok () ∧ w'.log = w.log ++ [.call, .synced p]) ∨
      (out = .error (.commit reason replaced) ∧ w'.log = w.log ++ [.call]) := by
  rw [commitErrorOnOs, rescueOs, rescue, fsync] at h
  split at h
  · rename_i hsync
    split at hsync <;> cases hsync
    obtain ⟨⟩ := h
    refine Or.inl ⟨rfl, ?_⟩
    change (arrive env w).log ++ _ = _
    rw [arrive_log, List.append_assoc]
    rfl
  · rename_i hsync
    split at hsync <;> cases hsync
    obtain ⟨rfl, rfl⟩ := raise_eq_iff.mp h
    exact Or.inr ⟨rfl, arrive_log⟩

/-- No replacement, and an exception that says so. -/
def Unreplaced {α : Type} (w w' : World) (out : Except Exc α) : Prop :=
  (∃ new, w'.log = w.log ++ new ∧ replacements new = []) ∧ ∃ e, out = .error e ∧ e.Unreplaced

theorem Unreplaced.of_plain {α : Type} {e : Exc} (h : Steps env Plain w w') (he : e.Unreplaced) :
    Unreplaced w w' (.error e : Except Exc α) := ⟨h.plain, e, rfl, he⟩

section Commit

variable (hbefore : ∀ before ∈ beforeReplace, Does env Plain before)
  (hcheck : Does env Plain beforeCommit) (hdenies : Raises Exc.IsPatch beforeCommit)

include hbefore hcheck hdenies

/-- The block up to the replacement, with the cleanup after a failure. -/
theorem replaceBlock_events {out : Except Exc Unit}
    (h : onError (commitErrorOnOs .commitFailed false (do
        prepare env target snapshot output beforeReplace beforeCommit temp
        replace env temp.path target.path)) (unlinkTemp env temp.path) w = (out, w')) :
    Unreplaced w w' out ∨ out = .ok () ∧
      ∃ a r, w'.log = w.log ++ (a ++ [.replaced r]) ∧ replacements a = [] := by
  have hprepares : Does env Plain
      (prepare env target snapshot output beforeReplace beforeCommit temp) :=
    does_prepare trivial trivial ⟨trivial, trivial⟩ hbefore hcheck
  rcases rescue_eq_iff.mp h with ⟨u, hblock, rfl⟩ | ⟨e, t, hblock, hcleanup⟩
  · rcases rescueOs_ok hblock with hbody | ⟨_, _, -, hraise⟩
    · obtain ⟨_, t, hprepare, hreplace⟩ := bind_ok_iff.mp hbody
      obtain ⟨a, hlog, hnone⟩ := Steps.plain (hprepares.of_eq hprepare)
      obtain ⟨r, hreplaced⟩ := replace_log hreplace
      refine Or.inr ⟨rfl, a ++ [.call], r, ?_, by rw [replacements_append, hnone]; rfl⟩
      rw [hreplaced, hlog]
      simp only [List.append_assoc, List.cons_append, List.nil_append]
    · cases (raise_eq_iff.mp hraise).1
  · have hfailed : e.Unreplaced := by
      refine raises_commitErrorOnOs (P := Exc.Unreplaced) ?_ rfl _ _ _ hblock
      exact raises_bind ((raises_prepare hdenies).mono fun _ => Or.inl) fun _ =>
        raises_replace fun _ => Or.inr trivial
    have hsteps : Steps env Plain w t := by
      obtain ⟨e', hbody⟩ := commitErrorOnOs_error hblock
      rcases bind_eq_iff.mp hbody with ⟨_, hprepare, -⟩ | ⟨_, t', hprepare, hreplace⟩
      · exact hprepares.of_eq hprepare
      · rw [replace_error hreplace]
        exact (hprepares.of_eq hprepare).tail ⟨.call, trivial, .call t'⟩
    have hunlinks : Does env Plain (unlinkTemp env temp.path) :=
      does_rescueOs (does_unlink trivial trivial trivial) fun e => by
        cases e <;> first | exact runs_pure | exact runs_raise
    rcases bind_eq_iff.mp hcleanup with ⟨e', hunlink, rfl⟩ | ⟨_, t', hunlink, hraise⟩
    · refine Or.inl (Unreplaced.of_plain (hsteps.trans (hunlinks.of_eq hunlink)) ?_)
      exact raises_unlinkTemp (fun _ => trivial) _ _ _ hunlink
    · obtain ⟨rfl, rfl⟩ := raise_eq_iff.mp hraise
      exact Or.inl (Unreplaced.of_plain (hsteps.trans (hunlinks.of_eq hunlink)) hfailed)

/-- The three ways a commit ends: without its replacement, with one that is synced, and with one
that is not. -/
theorem commit_events {out : Except Exc Unit}
    (h : commit env target snapshot output beforeReplace beforeCommit w = (out, w')) :
    Unreplaced w w' out ∨
      ∃ a r, replacements a = [] ∧
        ((out = .ok () ∧
            w'.log = w.log ++ (a ++ [.replaced r, .call, .synced target.parent])) ∨
          (out = .error (.commit .durabilityUnconfirmed true) ∧
            w'.log = w.log ++ (a ++ [.replaced r, .call]))) := by
  rw [commit, read_bind] at h
  have hverifies : Does env Plain (commitErrorOnOs .commitFailed false
      (target.verifySnapshot env snapshot)) :=
    does_commitErrorOnOs (does_verifySnapshot trivial trivial)
  rcases bind_eq_iff.mp h with ⟨e, hverify, rfl⟩ | ⟨_, t₁, hverify, h⟩
  · refine Or.inl (Unreplaced.of_plain (hverifies.of_eq hverify) ?_)
    exact raises_commitErrorOnOs (P := Exc.Unreplaced)
      (raises_verifySnapshot.mono fun _ he => Or.inl he.unreplaced) rfl _ _ _ hverify
  have hcreates : ∀ path, Does env Plain (rescueOs (createExclusive env path) fun _ =>
      raise (.commit .commitFailed false)) := fun _ =>
    does_rescueOs (does_createExclusive trivial trivial) fun _ => runs_raise
  have hverified := hverifies.of_eq hverify
  rcases bind_eq_iff.mp h with ⟨e, hcreate, rfl⟩ | ⟨temp, t₂, hcreate, h⟩
  · refine Or.inl (Unreplaced.of_plain (hverified.trans ((hcreates _).of_eq hcreate)) ?_)
    refine raises_rescueOs (P := Exc.Unreplaced) (raises_createExclusive fun _ => Or.inr trivial)
      (fun _ => raises_raise ?_) _ _ _ hcreate
    rfl
  have hcreated := hverified.trans ((hcreates _).of_eq hcreate)
  have hpath : temp.path = target.parent ++ [tempName (env.uuid w.step)] := by
    rcases rescueOs_ok hcreate with hok | ⟨_, _, -, hraise⟩
    · obtain ⟨rfl, -, -⟩ := createExclusive_ok hok
      rfl
    · cases (raise_eq_iff.mp hraise).1
  rw [← hpath] at h
  obtain ⟨new, hlog, hnone⟩ := Steps.plain hcreated
  rcases bind_eq_iff.mp h with ⟨e, hblock, rfl⟩ | ⟨_, t₃, hblock, hsync⟩
  · rcases replaceBlock_events hbefore hcheck hdenies hblock with ⟨⟨new', hlog', hnone'⟩, he⟩ | ⟨⟨⟩, -⟩
    refine Or.inl ⟨⟨new ++ new', by rw [hlog', hlog, List.append_assoc], ?_⟩, ?_⟩
    · rw [replacements_append, hnone, hnone', List.append_nil]
    · obtain ⟨e', heq, he'⟩ := he
      cases heq
      exact ⟨e, rfl, he'⟩
  · rcases replaceBlock_events hbefore hcheck hdenies hblock with ⟨-, _, ⟨⟩, -⟩ | ⟨-, a, r, hlog', hnone'⟩
    refine Or.inr ⟨new ++ a, r, by rw [replacements_append, hnone, hnone', List.append_nil], ?_⟩
    have hreplaced : t₃.log = w.log ++ (new ++ a ++ [.replaced r]) := by
      rw [hlog', hlog]
      simp only [List.append_assoc]
    rcases commitErrorOnOs_fsync hsync with ⟨rfl, hend⟩ | ⟨rfl, hend⟩
    · refine Or.inl ⟨rfl, ?_⟩
      rw [hend, hreplaced]
      simp only [List.append_assoc, List.cons_append, List.nil_append]
    · refine Or.inr ⟨rfl, ?_⟩
      rw [hend, hreplaced]
      simp only [List.append_assoc, List.cons_append, List.nil_append]

end Commit

end Hapatchy
