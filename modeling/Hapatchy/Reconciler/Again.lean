import Hapatchy.PatchEngine.Reapply
import Hapatchy.Reconciler.Inspected
import Hapatchy.Reconciler.Stored

/-!
# A second run

What the runs after a run that has replaced the target find there, and when
they replace it once more.
-/

open Effects Prog

namespace Hapatchy

variable {env : Env} {reconciler : Reconciler} {job : Job} {w w' : World} {raw output : Bytes}
  {patch : PatchEngine.ParsedPatch}

theorem Alone.leaves (h : Alone env job.target) (hcalm : env.Calm) : env.Leaves job.target where
  spares := hcalm.spares
  fresh n hn := h.fresh ⟨n, (List.dropLast_append_getLast? _ hn).symm⟩

/-- A run that nobody interferes with has found `raw` in the target and replaced it. -/
structure Replaces (env : Env) (reconciler : Reconciler) (job : Job) (raw : Bytes) (w w' : World) :
    Prop where
  alone : Alone env job.target
  calm : env.Calm
  injective : Function.Injective env.sha256
  run : ∃ pendingDurability out, run env reconciler job pendingDurability w = (out, w')
  found : w.fs.bytes job.target = some raw
  replaced : ∃ new r, w'.log = w.log ++ new ∧ r ∈ replacements new

/-- No run for the same definition and source, other than a revert, replaces a target with these
bytes. -/
def Settled (reconciler : Reconciler) (job : Job) (bytes : Option Bytes) : Prop :=
  ∀ (env : Env) (again : Job) (pendingDurability : Bool) (v v' : World)
    (out : Except Exc ReconcileResult), again.definition = job.definition →
    again.source = job.source → again.action ≠ .revert → Alone env again.target → env.Calm →
    Function.Injective env.sha256 → v.fs.bytes again.target = bytes →
    run env reconciler again pendingDurability v = (out, v') →
    ∃ new, v'.log = v.log ++ new ∧ replacements new = []

theorem outputForAction_forward {definition : PatchDefinition} {inspection : PatchInspection}
    {action : Action} (haction : action ≠ .revert)
    (h : outputForAction definition inspection action = some output) :
    inspection.output false = some output := by
  cases action with
  | apply => exact h
  | revert => exact absurd rfl haction
  | reconcile =>
    rw [outputForAction] at h
    split at h
    · exact h
    · cases h
  | refreshSource => cases h

/-- An output of an action other than a revert is the forward output. -/
theorem Gives.forward {data : Bytes} (h : Gives reconciler job data output)
    (haction : job.action ≠ .revert)
    (hparse : PatchEngine.parse reconciler.fromstring job.source job.definition.targetPath =
      .ok patch) :
    (PatchEngine.inspect patch data).output false = some output := by
  obtain ⟨parsed, hparsed, houtput⟩ := h
  obtain rfl : patch = parsed := Except.ok.inj (hparse.symm.trans hparsed)
  exact outputForAction_forward haction houtput

section Parsed

variable (hparse : PatchEngine.parse reconciler.fromstring job.source job.definition.targetPath =
  .ok patch)

include hparse

/-- The target holds what the run has put in. -/
theorem Replaces.bytes (h : Replaces env reconciler job raw w w') (haction : job.action ≠ .revert)
    (hforward : (PatchEngine.inspect patch raw).output false = some output) :
    w'.fs.bytes job.target = some output := by
  obtain ⟨pendingDurability, out, hrun⟩ := h.run
  obtain ⟨new, r, hlog, hr⟩ := h.replaced
  rcases run_ending h.alone h.injective hrun with ⟨new', _, -, -, hending⟩ | ⟨-, -, -, hvalue⟩
  swap
  · cases hparse.symm.trans hvalue
  obtain rfl : new = new' := List.append_cancel_left (hlog.symm.trans hending.segment.log)
  obtain ⟨a, ha, -, hlast, hfirst⟩ := Steps.target_bytes (does_writes.of_eq hrun)
    (h.alone.leaves h.calm) (run_external h.alone hrun hlog hr).external
  obtain rfl : new = a := List.append_cancel_left (hlog.symm.trans ha)
  -- The one replacement of the run has found `raw`.
  obtain ⟨r', hone⟩ := List.length_eq_one_iff.mp
    (Nat.le_antisymm hending.once (List.length_pos_of_mem hr))
  obtain rfl : r = r' := by simpa [hone] using hr
  rw [hone] at hlast hfirst
  obtain ⟨node, hfaithful⟩ := (hending.faithful r hr).2 (Or.inr h.calm)
  have hbefore := (hfirst r rfl).trans h.found
  rw [Fs.bytes, hfaithful.lookup, Option.map_some, Option.some_inj] at hbefore
  have houtput := hfaithful.output.forward haction hparse
  rw [hbefore, hforward] at houtput
  rw [hlast r rfl, houtput]

/-- A run replaces nothing if its patch is not applicable to what it finds. -/
theorem settled_of_not_applicable
    (h : (PatchEngine.inspect patch output).status ≠ .applicable) :
    Settled reconciler job (some output) := by
  intro env again pendingDurability v v' out hdefinition hsource haction halone hcalm hsha hbytes
    hrun
  rw [← hdefinition, ← hsource] at hparse
  rcases run_ending halone hsha hrun with ⟨new, _, -, -, hending⟩ | ⟨-, -, -, hvalue⟩
  · refine ⟨new, hending.segment.log, ?_⟩
    by_contra hne
    obtain ⟨data, output', hgives, hheld⟩ := hending.idle (Or.inr hne)
    obtain ⟨node, hnode, rfl⟩ := hheld hcalm
    have hsame : some node.data = some output := by
      rw [← hbytes, Fs.bytes]
      exact (congrArg (Option.map Node.data) hnode).symm
    obtain rfl := Option.some_inj.mp hsame
    exact h (PatchEngine.status_of_output (hgives.forward haction hparse))
  · cases hparse.symm.trans hvalue

end Parsed

/-! ## Two runs on small trees -/

section Small

open PatchEngine

theorem exists_steady_run {hunks : List (List NgHunk)} {job : Job} {data : Bytes}
    (h : (replacements
      (run steadyEnv (steadyReconciler hunks) job false (steadyWorld data)).2.log).length = 1) :
    ∃ out w' r, run steadyEnv (steadyReconciler hunks) job false (steadyWorld data) = (out, w') ∧
      r ∈ replacements w'.log := by
  rcases hrun : run steadyEnv (steadyReconciler hunks) job false (steadyWorld data) with ⟨out, w'⟩
  rw [hrun] at h
  obtain ⟨r, hr⟩ := List.exists_mem_of_length_pos (h ▸ Nat.one_pos)
  exact ⟨out, w', r, rfl, hr⟩

theorem parse_exchangeJob : parse (steadyReconciler exchangeHunks).fromstring
    (exchangeJob ['1']).source (exchangeJob ['1']).definition.targetPath =
      .ok ⟨"f/g".toList, [⟨Utf8.encode "x\n".toList, Utf8.encode "y\n".toList⟩]⟩ := by
  decide +kernel

def repeatingJob : Job := steadyJob repeatingSource .apply

theorem parse_repeatingJob : parse (steadyReconciler repeatingHunks).fromstring repeatingJob.source
    repeatingJob.definition.targetPath = .ok repeatingPatch := by decide +kernel

theorem repeatingJob_deletes : (replacements (run steadyEnv (steadyReconciler repeatingHunks)
    repeatingJob false (steadyWorld repeatedLines)).2.log).length = 1 := by decide +kernel

theorem repeatingJob_deletes_again : (replacements (run steadyEnv (steadyReconciler repeatingHunks)
    repeatingJob false (steadyWorld fewerLines)).2.log).length = 1 := by decide +kernel

end Small

end Hapatchy
