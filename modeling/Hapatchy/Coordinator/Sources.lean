import Hapatchy.Coordinator.Reloads
import Hapatchy.Coordinator.Statuses
import Hapatchy.PatchSource
import Hapatchy.Reconciler.Authority

/-!
# Where a write comes from

In every run, a replaced target is one that the operator has granted, and what
is written was made from a source that has passed its checks.
-/

open Effects Prog

namespace Hapatchy.System

variable {env : Env} {network : Network} {reconciler : Reconciler} {system after : System}
  {held : Held} {runtime : PatchManagerRuntime}

variable (env) in
/-- A source is what `PatchSourceClient.load` reads, whatever has happened to the files. -/
def Fetches (network : Network) (system : System) (move : Move) (_after : System) : Prop :=
  ∀ held out update, system.holder = some held → move = .loaded out update →
    ∃ w w', fetchSource env network held.definition w = (out, w')

/-- The client has read `source` for the definition, with the files and the network as they were. -/
def Fetched (env : Env) (network : Network) (definition : PatchDefinition) (source : Bytes) : Prop :=
  ∃ w w', fetchSource env network definition w = (.ok source, w')

variable (env) in
/-- An action that runs has a source that was read for its definition. -/
def Provided (network : Network) (system : System) : Prop :=
  ∀ held source, system.holder = some held → held.phase = .running source →
    Fetched env network held.definition source

/-- The reconciler of a runtime over the grants. -/
def granted (grants : LoadedGrants) (root : Path) (fromstring : PatchEngine.Fromstring) : Reconciler :=
  ⟨grants.pathPolicy root, fromstring⟩

/-- Where the replacement `r` of a move comes from, which came after the events `before`. -/
structure Accounted (env : Env) (grants : LoadedGrants) (root : Path)
    (scan : Nat → Option SourceGraph) (fromstring : PatchEngine.Fromstring) (network : Network)
    (system : System) (runtime : PatchManagerRuntime) (held : Held) (source : Bytes)
    (before : List Event) (r : Replacement) : Prop where
  running : held.phase = .running source
  fetched : Fetched (env.withGrants grants scan) network held.definition source
  supplied : Supplied (env.withGrants grants scan) held.definition source
  target : r.target = held.definition.target
  /-- The check that authorises the target is the last thing that is done before. -/
  authorized : ∃ earlier policy,
    before = earlier ++ [.call, .call, .call, .checked held.definition, .call] ∧
    Authorized env grants root scan held.definition (system.world.step + calls earlier) policy
  /-- Where nobody else acts, what is written is what the patch in `source` makes of the target. -/
  faithful : Alone (env.withGrants grants scan) held.definition.target →
    Function.Injective env.sha256 → r.disturbed = false ∨ env.Calm → ∃ node,
      Faithful (env.withGrants grants scan) (granted grants root fromstring)
        (job runtime held source) r node

/-! ## Sources -/

theorem provided_of_runtime (hafter : after.runtime = some runtime)
    (h : ∀ held source, runtime.holder = some held → held.phase = .running source →
      Fetched env network held.definition source) : after.Provided env network := by
  intro held source hheld
  rw [holder_of_runtime hafter] at hheld
  exact h held source hheld

theorem provided_of_idle (hafter : after.runtime = some runtime)
    (h : ∀ held source, runtime.holder = some held → held.phase ≠ .running source) :
    after.Provided env network :=
  provided_of_runtime hafter fun held source hheld hphase => absurd hphase (h held source hheld)

theorem provided_recordAndSave {result : ReconcileResult} :
    (system.recordAndSave env runtime held result).Provided env network := by
  apply provided_of_idle rfl
  intro held' source hheld hphase
  cases hheld
  cases hphase

theorem provided_release : (system.release runtime).Provided env network :=
  provided_of_idle rfl fun _ _ hheld => by cases hheld

theorem Concludes.provided {result : ReconcileResult} {update : Update}
    (h : Concludes env system runtime held result update after) : after.Provided env network := by
  cases h with
  | settled =>
    unfold settle
    split
    · apply provided_of_idle rfl
      intro held' source hheld hphase
      cases hheld
      cases hphase
    · exact provided_recordAndSave
  | raised => exact provided_release
  | disarmed => exact provided_recordAndSave
  | gated => exact provided_recordAndSave

theorem loadSource_ok {out : Except Exc Bytes} {source : Bytes} (h : loadSource out = .ok source) :
    out = .ok source := by
  unfold loadSource at h
  split at h
  · exact h
  · cases h
  · cases h
  · cases h
  · split at h <;> cases h

theorem provided_step {move : Move} (h : system.Provided env network)
    (hstep : system.step env reconciler move = some after)
    (hfetches : Fetches env network system move after) : after.Provided env network := by
  have hkept {runtime : PatchManagerRuntime} (hruntime : system.runtime = some runtime) :
      ∀ held source, runtime.holder = some held → held.phase = .running source →
        Fetched env network held.definition source := by
    intro held source hheld
    exact h held source ((holder_of_runtime hruntime).trans hheld)
  cases moves hstep with
  | @request runtime _ _ hruntime =>
    have hkept := hkept hruntime
    exact provided_of_runtime rfl hkept
  | @began runtime index patchId action =>
    rcases begin_cases system runtime patchId action (runtime.waiting.eraseIdx index) with
      heq | ⟨held, heq, -, -, hbegun⟩
    · rw [heq]
      exact provided_release
    · rw [heq]
      apply provided_of_idle rfl
      intro held' source hheld hphase
      cases hheld
      cases hbegun.phase.symm.trans hphase
  | acted hruntime hheld hacts =>
    cases hacts with
    | checked =>
      apply provided_of_idle rfl
      intro held' source hheld hphase
      cases hheld
      cases hphase
    | loaded hphase hload =>
      apply provided_of_runtime rfl
      intro held' source hheld' hphase'
      cases hheld'
      cases hphase'
      obtain ⟨w, w', hfetch⟩ := hfetches _ _ _ ((holder_of_runtime hruntime).trans hheld) rfl
      rw [loadSource_ok hload] at hfetch
      exact ⟨w, w', hfetch⟩
    | concluded _ hconcludes => exact hconcludes.provided
    | raised => exact provided_release
    | refreshed => exact provided_recordAndSave
    | unrefreshed => exact provided_release
    | saved => exact provided_release
  | watched hruntime =>
    have hkept := hkept hruntime
    exact provided_of_runtime rfl hkept
  | denied hruntime =>
    have hkept := hkept hruntime
    exact provided_of_runtime rfl hkept
  | closing hruntime =>
    have hkept := hkept hruntime
    exact provided_of_runtime rfl hkept
  | closed =>
    intro held source hheld
    cases hheld
  | loaded hunloaded hmake =>
    apply provided_of_idle rfl
    intro held source hheld
    cases (make_eq hmake).1.symm.trans hheld
  | beside _ hruntime =>
    intro held source hheld
    rw [holder_congr hruntime] at hheld
    exact h held source hheld

/-! ## Writes -/

section Writes

variable {env : Env} {grants : LoadedGrants} {root : Path} {scan : Nat → Option SourceGraph}
  {fromstring : PatchEngine.Fromstring}

/-- Every replacement of a run is accounted for. -/
theorem accounted_run {source : Bytes} {out : Except Exc ReconcileResult} {w' : World}
    {pendingDurability : Bool} (hphase : held.phase = .running source)
    (hfetched : Fetched (env.withGrants grants scan) network held.definition source)
    (hrun : run (env.withGrants grants scan) (granted grants root fromstring)
      (job runtime held source) pendingDurability system.world = (out, w')) :
    ∃ new, w'.log = system.world.log ++ new ∧ ∀ before r later,
      new = before ++ .replaced r :: later →
      Accounted env grants root scan fromstring network system runtime held source before r := by
  obtain ⟨new, hlog, hchecked, -⟩ := run_authorized env grants root scan fromstring
    (job runtime held source) pendingDurability system.world
  have hend : (run (env.withGrants grants scan) (granted grants root fromstring)
      (job runtime held source) pendingDurability system.world).2.log = system.world.log ++ new :=
    hlog
  rw [hrun] at hend
  obtain ⟨_, _, hfetch⟩ := hfetched
  refine ⟨new, hend, fun before r later hsplit => ?_⟩
  obtain ⟨htarget, hauthorized⟩ := hchecked before r later hsplit
  refine ⟨hphase, ⟨_, _, hfetch⟩, fetchSource_ok hfetch, htarget, hauthorized,
    fun halone hsha hquiet => ?_⟩
  have hr : r ∈ replacements new := mem_replacements.mpr (by rw [hsplit]; simp)
  have halone : Alone (env.withGrants grants scan) (job runtime held source).target := halone
  rcases run_ending halone hsha hrun with ⟨new', result, -, -, hending⟩ | ⟨rfl, -, -⟩
  · obtain rfl : new = new' := List.append_cancel_left (hend.symm.trans hending.segment.log)
    exact (hending.faithful r hr).2 hquiet
  · obtain ⟨new', hlog', hnone⟩ := run_unreplaced hrun
    obtain rfl := List.append_cancel_left (hend.symm.trans hlog')
    rw [hnone] at hr
    cases hr

/-- Every target that a move replaces is accounted for. -/
def Accounts (env : Env) (grants : LoadedGrants) (root : Path) (scan : Nat → Option SourceGraph)
    (fromstring : PatchEngine.Fromstring) (network : Network) (system : System) (_move : Move)
    (after : System) : Prop :=
  ∃ new, after.world.log = system.world.log ++ new ∧ ∀ before r later,
    new = before ++ .replaced r :: later →
    ∃ runtime held source, system.runtime = some runtime ∧ runtime.holder = some held ∧
      Accounted env grants root scan fromstring network system runtime held source before r

theorem accounts_of_unreplaced {move : Move} (h : ∃ new,
    after.world.log = system.world.log ++ new ∧ replacements new = []) :
    Accounts env grants root scan fromstring network system move after := by
  obtain ⟨new, hlog, hnone⟩ := h
  refine ⟨new, hlog, fun before r later hsplit => ?_⟩
  have hr : r ∈ replacements new := mem_replacements.mpr (by rw [hsplit]; simp)
  rw [hnone] at hr
  cases hr

theorem accounts_of_world {move : Move} (h : after.world = system.world) :
    Accounts env grants root scan fromstring network system move after :=
  accounts_of_unreplaced ⟨[], by rw [h, List.append_nil], rfl⟩

/-- A move replaces nothing, or it is the run of an action with a source. -/
theorem accounts_step {move : Move} (h : system.Provided (env.withGrants grants scan) network)
    (hstep : system.step (env.withGrants grants scan) (granted grants root fromstring) move =
      some after) : Accounts env grants root scan fromstring network system move after := by
  have hran {runtime : PatchManagerRuntime} {held : Held} {source : Bytes} {world : World}
      {out : Except Exc ReconcileResult} {update : Update} (hruntime : system.runtime = some runtime)
      (hheld : runtime.holder = some held) (hphase : held.phase = .running source)
      (hrun : run (env.withGrants grants scan) (granted grants root fromstring)
        (job runtime held source) held.pending system.world = (out, world)) {next : System}
      (hworld : next.world = world) :
      Accounts env grants root scan fromstring network system (.ran update) next := by
    have hfetched := h held source ((holder_of_runtime hruntime).trans hheld) hphase
    obtain ⟨new, hlog, hall⟩ := accounted_run hphase hfetched hrun
    exact ⟨new, hworld ▸ hlog, fun before r later hsplit =>
      ⟨runtime, held, source, hruntime, hheld, hall before r later hsplit⟩⟩
  cases moves hstep with
  | acted hruntime hheld hacts =>
    cases hacts with
    | checked _ hcheck => exact accounts_of_unreplaced (checkDefinition_unreplaced hcheck)
    | concluded hends hconcludes =>
      cases hends with
      | checked _ hcheck =>
        apply accounts_of_unreplaced
        rw [hconcludes.world]
        exact checkDefinition_unreplaced hcheck
      | loaded => exact accounts_of_world hconcludes.world
      | ran hphase hrun => exact hran hruntime hheld hphase hrun hconcludes.world
    | raised hbreaks =>
      cases hbreaks with
      | checked _ hcheck => exact accounts_of_unreplaced (checkDefinition_unreplaced hcheck)
      | loaded => exact accounts_of_world rfl
      | ran hphase hrun => exact hran hruntime hheld hphase hrun rfl
    | _ => exact accounts_of_world rfl
  | @began runtime index patchId action =>
    rcases begin_cases system runtime patchId action (runtime.waiting.eraseIdx index) with
      heq | ⟨_, heq, -⟩
    · rw [heq]
      exact accounts_of_world rfl
    · rw [heq]
      exact accounts_of_world rfl
  | beside _ _ hworld => exact accounts_of_world hworld
  | _ => exact accounts_of_world rfl

end Writes

/-! ## An address with a digest -/

/-- A patch from an address, with the digest of its bytes. -/
def pinnedDefinition : PatchDefinition :=
  { armedDefinition with
    sourceType := "url".toList
    source := "https://example.org/p".toList
    sourceSha256 := some (steadyEnv.sha256 (exchangeJob ['1']).source) }

def pinnedSystem : System where
  world := steadyWorld (Utf8.encode "x\n".toList)
  subentries := AList.singleton ['p'] pinnedDefinition
  backupRetention := 5

def emptyGraph : SourceGraph := ⟨[], [], [], []⟩

/-- The target is the one file that is granted. -/
def oneGrant : LoadedGrants := .yaml ⟨["f/g".toList], [[]], emptyGraph⟩

def pinnedStep : System → Move → Option System :=
  System.step (steadyEnv.withGrants oneGrant fun _ => some emptyGraph)
    (granted oneGrant [] fun _ => some exchangeHunks)

/-- The address gives the patch in two chunks. -/
def pinnedNetwork : Network := fun _ _ =>
  .response 200 [(exchangeJob ['1']).source.take 5, (exchangeJob ['1']).source.drop 5] true

def pinnedMoves : List Move := .setup none :: actionMoves .apply ++ [.ran .done]

end Hapatchy.System
