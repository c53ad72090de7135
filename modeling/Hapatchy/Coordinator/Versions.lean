import Hapatchy.Coordinator.Statuses
import Hapatchy.PatchEngine.Output

/-!
# Two versions of a target

For the patch of one target: the target is the original or it is patched, each
action takes all of its effect or none, and the actions take it in the order in
which they run.
-/

open Effects Prog

namespace Hapatchy

open PatchEngine

/-! ## Versions -/

/-- Two contents of a target that the patch takes into each other. -/
structure Versions (parsed : ParsedPatch) where
  original : Bytes
  patched : Bytes
  forward : (inspect parsed original).forwardOutput = some patched
  reverse : (inspect parsed patched).reverseOutput = some original

inductive Version where
  | original
  | patched
  deriving DecidableEq, Repr

/-- What an action makes of a version, for a patch that is applied by itself or not. -/
def Version.after (version : Version) (autoApply : Bool) : Action → Version
  | .apply => .patched
  | .revert => .original
  | .reconcile => if autoApply then .patched else version
  | .refreshSource => version

def Versions.bytes {parsed : ParsedPatch} (versions : Versions parsed) : Version → Bytes
  | .original => versions.original
  | .patched => versions.patched

variable {env : Env} {reconciler : Reconciler} {parsed : ParsedPatch} {versions : Versions parsed}

theorem not_both_outputs {raw forward reverse : Bytes}
    (hforward : (inspect parsed raw).forwardOutput = some forward)
    (hreverse : (inspect parsed raw).reverseOutput = some reverse) : False := by
  have hforward : (inspect parsed raw).output false = some forward := hforward
  have hreverse : (inspect parsed raw).output true = some reverse := hreverse
  have happlicable := status_of_output hforward
  have happlied := status_of_output hreverse
  cases happlicable.symm.trans happlied

theorem Versions.reverse_original :
    (inspect parsed versions.original).reverseOutput = none :=
  Option.eq_none_iff_forall_ne_some.mpr fun _ h => not_both_outputs versions.forward h

theorem Versions.forward_patched :
    (inspect parsed versions.patched).forwardOutput = none :=
  Option.eq_none_iff_forall_ne_some.mpr fun _ h => not_both_outputs h versions.reverse

/-- The output of an action for a version is the version that the action makes of it. -/
theorem Versions.output {definition : PatchDefinition} {action : Action} {version : Version}
    {output : Bytes} (h : outputForAction definition (inspect parsed (versions.bytes version)) action =
      some output) : output = versions.bytes (version.after definition.autoApply action) := by
  have hforward {version : Version} {output : Bytes}
      (h : (inspect parsed (versions.bytes version)).forwardOutput = some output) :
      output = versions.patched := by
    cases version with
    | original => exact Option.some_inj.mp (h.symm.trans versions.forward)
    | patched => cases h.symm.trans versions.forward_patched
  cases action with
  | apply => exact hforward h
  | revert =>
    cases version with
    | original => cases h.symm.trans versions.reverse_original
    | patched => exact Option.some_inj.mp (h.symm.trans versions.reverse)
  | reconcile =>
    have h : (if definition.autoApply then
      (inspect parsed (versions.bytes version)).forwardOutput else none) = some output := h
    split at h
    · rename_i hauto
      unfold Version.after
      rw [hauto]
      exact hforward h
    · cases h
  | refreshSource => cases h

/-! ## Runs -/

/-- A run leaves the bytes of its target, or it writes the output for them. -/
theorem run_target {job : Job} {w w' : World} {pendingDurability : Bool}
    {out : Except Exc ReconcileResult} (hcalm : env.Calm) (hsha : Function.Injective env.sha256)
    (hleaves : env.Leaves job.target) (hexternal : ¬ Internal job.target)
    (h : run env reconciler job pendingDurability w = (out, w')) :
    w'.fs.bytes job.target = w.fs.bytes job.target ∨ ∃ data output,
      w.fs.bytes job.target = some data ∧ Gives reconciler job data output ∧
        w'.fs.bytes job.target = some output := by
  have halone : Alone env job.target := ⟨fun _ _ => hcalm.spares, hleaves.not_temp⟩
  obtain ⟨new, hlog, hkept, hlast, hfirst⟩ :=
    Steps.target_bytes (does_writes.of_eq h) hleaves hexternal
  rcases run_ending halone hsha h with ⟨new', result, -, -, hending⟩ | ⟨rfl, -, -⟩
  · obtain rfl : new = new' := List.append_cancel_left (hlog.symm.trans hending.segment.log)
    cases hnew : replacements new with
    | nil => exact Or.inl (hkept hnew)
    | cons r later =>
      have honce := hending.once
      rw [hnew, List.length_cons] at honce
      obtain rfl : later = [] := List.eq_nil_of_length_eq_zero (by omega)
      obtain ⟨-, hfaithful⟩ := hending.faithful r (by rw [hnew]; exact List.mem_singleton.mpr rfl)
      obtain ⟨node, hnode⟩ := hfaithful (Or.inr hcalm)
      refine Or.inr ⟨node.data, r.installed.data, ?_, hnode.output, hlast r (by rw [hnew]; rfl)⟩
      rw [← hfirst r (by rw [hnew]; rfl)]
      unfold Fs.bytes
      rw [hnode.lookup, Option.map_some]
  · obtain ⟨new', hlog', hnone⟩ := System.run_unreplaced h
    obtain rfl := List.append_cancel_left (hlog.symm.trans hlog')
    exact Or.inl (hkept hnone)

namespace System

variable {system after : System} {held : Held} {runtime : PatchManagerRuntime} {T : Path}

/-- The target holds a version. -/
def Holds (T : Path) (versions : Versions parsed) (system : System) (version : Version) : Prop :=
  system.world.fs.bytes T = some (versions.bytes version)

/-- The sources of the patch of `T` are parsed as `parsed`, if at all. -/
def Sourced (reconciler : Reconciler) (T : Path) (parsed : ParsedPatch) (system : System)
    (_move : Move) (_after : System) : Prop :=
  ∀ held source, system.holder = some held → held.phase = .running source →
    held.definition.target = T → ∀ parsed',
      parse reconciler.fromstring source held.definition.targetPath = .ok parsed' → parsed' = parsed

/-- The action on `T` that has run, and whether its patch is applied by itself. -/
def ranAt (T : Path) (system : System) : Move → Option (Bool × Action)
  | .ran _ => (system.holder.filter fun held => held.definition.target = T).map fun held =>
      (held.definition.autoApply, held.action)
  | _ => none

section

variable (hcalm : env.Calm) (hsha : Function.Injective env.sha256) (hleaves : env.Leaves T)
  (hexternal : ¬ Internal T)

include hcalm hsha hleaves hexternal

/-- A move leaves the version, or an action on the target that has run takes its effect. -/
theorem holds_step {move : Move} {version : Version} (h : Holds T versions system version)
    (hstep : system.step env reconciler move = some after)
    (hsourced : Sourced reconciler T parsed system move after) :
    Holds T versions after version ∨ ∃ ran, ranAt T system move = some ran ∧
      Holds T versions after (version.after ran.1 ran.2) := by
  have hsame {next : System} (hbytes : next.world.fs.bytes T = system.world.fs.bytes T) :
      Holds T versions next version := hbytes.trans h
  -- An action has run, and the world is `world` then.
  have hran {world : World} {out : Except Exc ReconcileResult} {source : Bytes} {update : Update}
      {held : Held} {runtime : PatchManagerRuntime} (hholder : system.holder = some held)
      (hphase : held.phase = .running source)
      (hrun : run env reconciler (job runtime held source) held.pending system.world = (out, world))
      {next : System} (hworld : next.world = world) :
      Holds T versions next version ∨ ∃ ran, ranAt T system (.ran update) = some ran ∧
        Holds T versions next (version.after ran.1 ran.2) := by
    by_cases htarget : held.definition.target = T
    · subst htarget
      have hleaves : env.Leaves (job runtime held source).target := hleaves
      rcases run_target hcalm hsha hleaves hexternal hrun with hkept | ⟨data, output, hdata,
        ⟨parsed', hparsed, houtput⟩, hwritten⟩
      · exact Or.inl (hsame (hworld ▸ hkept))
      · refine Or.inr ⟨(held.definition.autoApply, held.action), ?_, ?_⟩
        · unfold ranAt
          rw [hholder]
          simp
        · obtain rfl := hsourced held source hholder hphase rfl parsed' hparsed
          obtain rfl : data = versions.bytes version := Option.some_inj.mp (hdata.symm.trans h)
          have hversion : output =
            versions.bytes (version.after held.definition.autoApply held.action) :=
            versions.output houtput
          unfold Holds
          rw [hworld, ← hversion]
          exact hwritten
    · exact Or.inl (hsame (hworld ▸ run_beside hrun hleaves hexternal (Ne.symm htarget)))
  have hlooks {world : World} (hsteps : Steps env Looks system.world world) :
      world.fs.bytes T = system.world.fs.bytes T := hsteps.looks_bytes hleaves.spares
  have hchecks {definition : PatchDefinition} : Does env Looks
      (reconciler.policy.checkDefinition env definition) :=
    PathPolicy.does_checkDefinition.mono fun _ => PathPolicy.Checks.looks
  cases moves hstep with
  | acted hruntime hheld hacts =>
    have hholder := (holder_of_runtime hruntime).trans hheld
    cases hacts with
    | checked _ hcheck => exact Or.inl (hsame (hlooks (hchecks.of_eq hcheck)))
    | concluded hends hconcludes =>
      cases hends with
      | checked _ hcheck =>
        exact Or.inl (hsame (hconcludes.world ▸ hlooks (hchecks.of_eq hcheck)))
      | loaded => exact Or.inl (hsame (by rw [hconcludes.world]))
      | ran hphase hrun => exact hran hholder hphase hrun hconcludes.world
    | raised hbreaks =>
      cases hbreaks with
      | checked _ hcheck => exact Or.inl (hsame (hlooks (hchecks.of_eq hcheck)))
      | loaded => exact Or.inl h
      | ran hphase hrun => exact hran hholder hphase hrun rfl
    | _ => exact Or.inl h
  | @began runtime index patchId action =>
    rcases begin_cases system runtime patchId action (runtime.waiting.eraseIdx index) with
      heq | ⟨_, heq, -⟩
    · rw [heq]
      exact Or.inl h
    · rw [heq]
      exact Or.inl h
  | beside _ _ hworld => exact Or.inl (hsame (by rw [hworld]))
  | _ => exact Or.inl h

/-- In every run without other programs: some of the actions on a target that have run have taken
their effect, each of them as a whole, and no other move has changed it. -/
theorem versions_simulated {moves : List Move} {version : Version}
    (hholds : Holds T versions system version)
    (hsourced : Traces.Every (System.step env reconciler) (Sourced reconciler T parsed) system moves)
    (hrun : Traces.after (System.step env reconciler) system moves = some after) :
    ∃ ran : List (Bool × Action),
      ran.Sublist (Traces.offers (System.step env reconciler) (ranAt T) system moves) ∧
      Holds T versions after (ran.foldl (fun version x => version.after x.1 x.2) version) :=
  Traces.simulated (R := Holds T versions)
    (fun _ _ _ _ h hstep hsourced => holds_step hcalm hsha hleaves hexternal h hstep hsourced)
    hholds hsourced hrun

end

/-! ## A revert and a refresh -/

def exchangeParsed : ParsedPatch :=
  ⟨"f/g".toList, [⟨Utf8.encode "x\n".toList, Utf8.encode "y\n".toList⟩]⟩

def exchangeVersions : Versions exchangeParsed where
  original := Utf8.encode "x\n".toList
  patched := Utf8.encode "y\n".toList
  forward := by decide +kernel
  reverse := by decide +kernel

theorem versions_simulated_refreshed : ∃ after, ∃ ran : List (Bool × Action),
    armedRun (refreshMoves ++ [.ran .done]) = some after ∧
    ran.Sublist (Traces.offers (step steadyEnv (steadyReconciler exchangeHunks))
      (ranAt armedDefinition.target) armedSystem (refreshMoves ++ [.ran .done])) ∧
    Holds armedDefinition.target exchangeVersions after
      (ran.foldl (fun version x => version.after x.1 x.2) .patched) := by
  have hrun : (armedRun (refreshMoves ++ [.ran .done])).isSome := by decide +kernel
  obtain ⟨after, hafter⟩ := Option.isSome_iff_exists.mp hrun
  have hexternal : ¬ Internal armedDefinition.target := by
    unfold Internal
    decide +kernel
  have hparse : (parse (steadyReconciler exchangeHunks).fromstring (exchangeJob ['1']).source
      armedDefinition.targetPath).toOption = some exchangeParsed := by decide +kernel
  have hholds : Holds armedDefinition.target exchangeVersions armedSystem .patched := by
    unfold Holds
    decide +kernel
  -- Each run finds the source of the patch, and its target.
  have hloads : Traces.Every (step steadyEnv (steadyReconciler exchangeHunks))
      (fun system _ _ => (system.holder.all fun held =>
        decide (held.definition.targetPath = armedDefinition.targetPath ∧ (held.phase.Early →
          held.phase ∈ [.checking, .loading, .running (exchangeJob ['1']).source]))) = true)
      armedSystem (refreshMoves ++ [.ran .done]) := by decide +kernel
  have hsourced : Traces.Every (step steadyEnv (steadyReconciler exchangeHunks))
      (Sourced (steadyReconciler exchangeHunks) armedDefinition.target exchangeParsed)
      armedSystem (refreshMoves ++ [.ran .done]) := by
    apply hloads.mono
    intro system move next _ hload held source hheld hphase _ parsed' hparsed
    rw [hheld, Option.all_some, decide_eq_true_eq, hphase] at hload
    obtain ⟨htarget, hearly⟩ := hload
    obtain rfl : source = (exchangeJob ['1']).source := by simpa using hearly trivial
    rw [htarget] at hparsed
    rw [hparsed] at hparse
    exact Option.some_inj.mp hparse
  obtain ⟨ran, hran, hversion⟩ := versions_simulated (fun _ => rfl) steady_injective steady_leaves
    hexternal hholds hsourced hafter
  exact ⟨after, ran, hafter, hran, hversion⟩

end System

end Hapatchy
