import Hapatchy.Coordinator.NativeEdits

/-!
# Rechecks

Refreshes of the watcher do not take the operation lock, so the root of a patch
can go and come back while an action on it has read the target and not yet
recorded what it found.
-/

open Effects Prog

namespace Hapatchy

/-! ## The executor -/

/-- The target was read: its digest is there, but for a target that could not be read again after it
was replaced. -/
def ReconcileResult.read (result : ReconcileResult) : Bool :=
  result.targetSha256.isSome || result.mutated

def Phase.refreshes : Phase → Bool
  | .refreshing _ => true
  | _ => false

/-- The system, with the executor apart from the event loop. -/
structure Watched where
  system : System
  /-- What `Reconciler.run` has returned or raised, on its way to the event loop. -/
  outcome : Option (Except Exc ReconcileResult) := none
  /-- The number of moves. -/
  clock : Nat := 0
  /-- When a refresh last published the root of a patch as available. -/
  published : Text → Option Nat := fun _ => none
  /-- When the action that holds the lock has read its target, until its result is recorded. -/
  readAt : Option Nat := none

inductive RecheckMove where
  /-- Any move but `ran`. -/
  | move (move : Move)
  /-- `Reconciler.run` in the executor, at the time of its last read. -/
  | execute
  /-- The event loop goes on with what `Reconciler.run` has returned. -/
  | delivered (update : Update)

namespace Watched

variable (env : Env) (reconciler : Reconciler) (watched : Watched)

def execute : Option Watched := do
  let runtime ← watched.system.runtime
  let held ← runtime.holder
  match held.phase, watched.outcome with
  | .running source, none =>
    let (out, world) := run env reconciler (System.job runtime held source) held.pending
      watched.system.world
    let read := match out with
      | .ok result => result.read
      | .error _ => false
    some { watched with
      system := { watched.system with world := world }
      outcome := some out
      clock := watched.clock + 1
      readAt := if read then some watched.clock else none }
  | _, _ => none

def delivered (update : Update) : Option Watched := do
  let runtime ← watched.system.runtime
  let held ← runtime.holder
  let out ← watched.outcome
  match held.phase with
  | .running _ =>
    let system := watched.system.continueWith env runtime held out update fun result =>
      watched.system.conclude env runtime held result update
    some { watched with
      system := system
      outcome := none
      clock := watched.clock + 1
      readAt := if system.holder.any (·.phase.refreshes) then watched.readAt else none }
  | _ => none

/-- The read that counts after a move of the event loop. -/
def readAfter : Move → Option Nat
  | .begin _ => none
  | .refreshed _ => none
  | _ => watched.readAt

def publishedAfter : Move → Text → Option Nat
  | .watchAvailable patchId true => Function.update watched.published patchId (some watched.clock)
  | _ => watched.published

def step : RecheckMove → Option Watched
  | .move (.ran _) => none
  | .move move => (watched.system.step env reconciler move).map fun system =>
    { watched with
      system := system
      clock := watched.clock + 1
      published := watched.publishedAfter move
      readAt := watched.readAfter move }
  | .execute => watched.execute env reconciler
  | .delivered update => watched.delivered env update

end Watched

/-! ## What is asked -/

namespace System

/-- The state of a patch in the runtime. -/
def state (system : System) (patchId : Text) : Option PatchRuntimeState :=
  system.runtime.bind fun runtime => runtime.states.lookup patchId

/-- The patch has to be checked again. -/
def Owes (system : System) (patchId : Text) : Prop :=
  ∃ state, system.state patchId = some state ∧ state.watcherRecheckRequired = true

/-- The patch need not be checked again. -/
def Free (system : System) (patchId : Text) : Prop :=
  ∃ state, system.state patchId = some state ∧ state.watcherRecheckRequired = false

/-- The root of the patch is published as available. -/
def Available (system : System) (patchId : Text) : Prop :=
  ∃ state, system.state patchId = some state ∧ state.watcherAvailable = true

end System

/-- A patch is freed only by an action on it that has read the target after a refresh last published
its root as available. -/
def Rechecked (watched : Watched) (_move : RecheckMove) (after : Watched) : Prop :=
  ∀ patchId, watched.system.Owes patchId → after.system.Free patchId →
    ∃ held n k, watched.system.holder = some held ∧ held.patchId = patchId ∧
      watched.readAt = some n ∧ watched.published patchId = some k ∧ k < n

/-- The result of an action that ends in a `PatchError`. -/
def failure {α : Type} (held : Held) : Except Exc α → Option ReconcileResult
  | .ok _ => none
  | .error error => error.patchError?.map (failedResult held.pending)

/-- The result that a move has for `_record_result`. -/
def Watched.records (env : Env) (reconciler : Reconciler) (watched : Watched) (held : Held) :
    RecheckMove → Option ReconcileResult
  | .move (.checked _) =>
    (failure held (reconciler.policy.checkDefinition env held.definition watched.system.world).1).filter
      (!haDenied ·)
  | .move (.loaded source _) => (failure held (loadSource source)).filter (!haDenied ·)
  | .move (.refreshed _) =>
    match held.phase with
    | .refreshing result => some result
    | _ => none
  | .delivered _ =>
    match watched.outcome with
    | some (.ok result) => some result |>.filter (!haDenied ·)
    | some (.error error) => (failure held (.error error : Except Exc Unit)).filter (!haDenied ·)
    | none => none
  | _ => none

/-- The patch whose root a move publishes as available. -/
def RecheckMove.publishes : RecheckMove → Option Text
  | .move (.watchAvailable patchId true) => some patchId
  | _ => none

/-- No refresh publishes the root of a patch as available between the read of an action on it and its
record, and an action with a recheck to make gets as far as the read. -/
structure Unraced (env : Env) (reconciler : Reconciler) (watched : Watched) (move : RecheckMove)
    (_after : Watched) : Prop where
  published : ∀ held, watched.system.holder = some held →
    move.publishes = some held.patchId → watched.readAt = none
  reads : ∀ held result, watched.system.holder = some held →
    watched.records env reconciler held move = some result → watched.system.Owes held.patchId →
    watched.system.Available held.patchId → watched.readAt.isSome

/-! ## States -/

namespace System

variable {env : Env} {reconciler : Reconciler} {system after : System} {held : Held}
  {runtime : PatchManagerRuntime} {patchId : Text}

theorem state_of_runtime (h : system.runtime = some runtime) :
    system.state patchId = runtime.states.lookup patchId := by
  unfold state
  rw [h]
  rfl

/-- The states stay, or a result is recorded for the patch of `held`. -/
inductive Noted (system : System) (held : Held) (recorded : Prop) (after : System) : Prop
  | same (states : ∀ patchId, after.state patchId = system.state patchId)
  | recorded (result : ReconcileResult) (checkedAt : Text) (record : recorded)
      (states : ∀ patchId, after.state patchId = (system.state patchId).map fun state =>
        if patchId = held.patchId then recordResult held result checkedAt state else state)

theorem noted_release (hruntime : system.runtime = some runtime) {recorded : Prop} :
    Noted system held recorded (system.release runtime) := by
  refine .same fun patchId => ?_
  rw [state_of_runtime hruntime]
  rfl

theorem noted_recordAndSave (hruntime : system.runtime = some runtime) {base : System}
    {runtime' : PatchManagerRuntime} (hstates : runtime'.states = runtime.states) {recorded : Prop}
    (hrecorded : recorded) (result : ReconcileResult) :
    Noted system held recorded (base.recordAndSave env runtime' held result) := by
  refine .recorded result (isoformat (env.now base.world.step)) hrecorded fun patchId => ?_
  rw [state_of_runtime hruntime, ← hstates]
  exact Dict.lookup_mapValues ..

theorem noted_settle (hruntime : system.runtime = some runtime) {base : System}
    {runtime' : PatchManagerRuntime} (hstates : runtime'.states = runtime.states) {recorded : Prop}
    {result : ReconcileResult} (hrecorded : haDenied result = false → recorded) :
    Noted system held recorded (base.settle env runtime' held result) := by
  unfold settle
  split
  · refine .same fun patchId => ?_
    rw [state_of_runtime hruntime]
    exact congrArg (AList.lookup patchId) hstates
  · rename_i hdenied
    exact noted_recordAndSave hruntime hstates (hrecorded (Bool.eq_false_iff.mpr hdenied)) result

theorem haDenied_of_ne {result : ReconcileResult} (h : result.inspection.status ≠ .securityError) :
    haDenied result = false := by
  unfold haDenied
  rw [decide_eq_false h, Bool.false_and]

theorem noted_conclude (hruntime : system.runtime = some runtime) {result : ReconcileResult}
    {recorded : Prop} (hrecorded : haDenied result = false → recorded) (update : Update) :
    Noted system held recorded (system.conclude env runtime held result update) := by
  unfold conclude
  split
  · rename_i hrevert
    have hrecords := hrecorded (haDenied_of_ne hrevert.2)
    have hraised : Noted system held recorded (system.release runtime) := noted_release hruntime
    unfold disableAutoApply
    cases hlookup : runtime.definitions.lookup held.patchId with
    | none => exact hraised
    | some previous =>
      cases update with
      | done =>
        by_cases hpresent : held.patchId ∈ system.subentries
        · simp only [hpresent, if_true]
          refine noted_settle hruntime ?_ fun _ => hrecords
          rfl
        · simp only [hpresent, if_false]
          exact hraised
      | failed =>
        by_cases hpresent : held.patchId ∈ system.subentries
        · simp only [hpresent, if_true]
          refine noted_settle hruntime ?_ fun _ => hrecords
          rfl
        · simp only [hpresent, if_false]
          exact hraised
      | raised => exact hraised
  · exact noted_settle hruntime rfl hrecorded

theorem noted_continueWith (hruntime : system.runtime = some runtime) {α : Type}
    {out : Except Exc α} {update : Update} {next : α → System} {recorded : Prop}
    (hnext : ∀ a, out = .ok a → Noted system held recorded (next a))
    (hfailure : ∀ result, failure held out = some result → haDenied result = false → recorded) :
    Noted system held recorded (system.continueWith env runtime held out update next) := by
  unfold continueWith
  split
  · exact hnext _ rfl
  · rename_i error
    split
    · rename_i e herror
      refine noted_conclude hruntime (hfailure _ ?_) update
      unfold failure
      simp only [herror, Option.map_some]
    · exact noted_release hruntime

/-! ## Moves -/

theorem Noted.congr {system' : System} {recorded : Prop} (h : Noted system' held recorded after)
    (hruntime : system'.runtime = system.runtime) : Noted system held recorded after := by
  have hstate (patchId : Text) : system'.state patchId = system.state patchId := by
    unfold state
    rw [hruntime]
  cases h with
  | same hsame => exact .same fun patchId => (hsame patchId).trans (hstate patchId)
  | recorded result checkedAt hrecorded hstates =>
    exact .recorded result checkedAt hrecorded fun patchId => hstate patchId ▸ hstates patchId

/-- A state that no refresh and no action has touched. -/
def Untouched (state : PatchRuntimeState) : Prop :=
  state.watcherRecheckRequired = false ∧ state.watcherAvailable = false

theorem untouched_restore {state : PatchRuntimeState} (h : Untouched state) (item : StateStore.Item) :
    Untouched (StateStore.restore state item) := h

theorem untouched_loadedState {state : PatchRuntimeState} (h : Untouched state) (restart : List Text)
    (patchId : Text) (definition : PatchDefinition) :
    Untouched (PatchManagerRuntime.loadedState restart patchId definition state) := by
  unfold PatchManagerRuntime.loadedState
  simp only
  split
  · exact h
  · split
    · exact h
    · exact h

theorem untouched_make {subentries : Dict Text PatchDefinition} {retention : Nat}
    {state : PatchRuntimeState} (h : PatchManagerRuntime.make subentries retention = .ok runtime)
    (hstate : runtime.states.lookup patchId = some state) : Untouched state := by
  unfold PatchManagerRuntime.make at h
  simp only at h
  split at h
  · cases h
  · split at h
    · cases h
    · cases h
      rw [Dict.lookup_mapValues] at hstate
      obtain ⟨definition, -, rfl⟩ := Option.map_eq_some_iff.mp hstate
      exact ⟨rfl, rfl⟩

theorem untouched_asyncLoad {restart : List Text} {data : Option (Dict Text StateStore.Item)}
    {state : PatchRuntimeState}
    (h : ∀ state, runtime.states.lookup patchId = some state → Untouched state)
    (hstate : (runtime.asyncLoad restart data).states.lookup patchId = some state) :
    Untouched state := by
  unfold PatchManagerRuntime.asyncLoad StateStore.load at hstate
  simp only [Dict.lookup_mapValues, Option.map_map] at hstate
  obtain ⟨before, hbefore, rfl⟩ := Option.map_eq_some_iff.mp hstate
  have hbefore := h before hbefore
  have hrestored := fun item => untouched_restore hbefore item
  simp only [Function.comp_apply]
  split
  · refine untouched_loadedState ?_ ..
    split
    · exact hrestored _
    · exact hbefore
  · split
    · exact hrestored _
    · exact hbefore

/-- What a move of the event loop does to the states. -/
inductive Marked (env : Env) (reconciler : Reconciler) (watched : Watched) : Move → System → Prop
  | same {move : Move} {after : System}
      (states : ∀ patchId, after.state patchId = watched.system.state patchId) :
      Marked env reconciler watched move after
  | gone {move : Move} {after : System} (states : ∀ patchId, after.state patchId = none) :
      Marked env reconciler watched move after
  | loaded {move : Move} {after : System} (unloaded : ∀ patchId, watched.system.state patchId = none)
      (states : ∀ patchId state, after.state patchId = some state → Untouched state) :
      Marked env reconciler watched move after
  | published {patchId : Text} {available : Bool} {after : System}
      (states : ∀ p, after.state p = (watched.system.state p).map fun state =>
        if p = patchId then { state with
          watcherAvailable := available
          watcherRecheckRequired := state.watcherRecheckRequired || !available } else state) :
      Marked env reconciler watched (.watchAvailable patchId available) after
  | denied {move : Move} {after : System} (f : Text → PatchRuntimeState → PatchRuntimeState)
      (states : ∀ p, after.state p = (watched.system.state p).map (f p))
      (flags : ∀ p state, ((f p state).watcherAvailable = true → state.watcherAvailable = true) ∧
        (state.watcherRecheckRequired = true → (f p state).watcherRecheckRequired = true)) :
      Marked env reconciler watched move after
  | noted {move : Move} {after : System} {held : Held} (holder : watched.system.holder = some held)
      (noted : Noted watched.system held
        (∃ result, watched.records env reconciler held (.move move) = some result) after) :
      Marked env reconciler watched move after

theorem marked_withRuntime {watched : Watched} {runtime' : PatchManagerRuntime} {move : Move}
    (hruntime : watched.system.runtime = some runtime) (hstates : runtime'.states = runtime.states) :
    Marked env reconciler watched move (watched.system.withRuntime runtime') := by
  refine .same fun patchId => ?_
  rw [state_of_runtime hruntime]
  exact congrArg (AList.lookup patchId) hstates

theorem marked_of_runtime {watched : Watched} {move : Move}
    (hruntime : after.runtime = watched.system.runtime) :
    Marked env reconciler watched move after := by
  refine .same fun patchId => ?_
  unfold state
  rw [hruntime]

theorem runtime_commitSave {save : Save} (h : system.commitSave save patchId = some after) :
    after.runtime = system.runtime := by
  unfold commitSave at h
  cases horiginal : save.original with
  | some original =>
    simp only [horiginal] at h
    split at h <;> cases h <;> rfl
  | none =>
    simp only [horiginal] at h
    split at h <;> cases h
    rfl

theorem marked {watched : Watched} {move : Move}
    (h : watched.system.step env reconciler move = some after) (hran : ∀ update, move ≠ .ran update) :
    Marked env reconciler watched move after := by
  cases move with
  | request patchId action =>
    obtain ⟨runtime, hruntime, h⟩ := Option.bind_eq_some_iff.mp h
    split at h
    · cases h
    · split at h
      · cases h
      · split at h
        · cases h
        · cases h
          exact marked_withRuntime hruntime rfl
  | begin index =>
    obtain ⟨runtime, hruntime, h⟩ := Option.bind_eq_some_iff.mp h
    obtain ⟨⟨patchId, action⟩, -, h⟩ := Option.bind_eq_some_iff.mp h
    simp only at h
    split at h
    · cases h
    · cases h
      obtain heq | ⟨held, heq, -⟩ :=
        begin_eq watched.system runtime patchId action (runtime.waiting.eraseIdx index)
      · rw [heq]
        exact marked_withRuntime hruntime rfl
      · rw [heq]
        exact marked_withRuntime hruntime rfl
  | checked update =>
    obtain ⟨runtime, hruntime, h⟩ := Option.bind_eq_some_iff.mp h
    obtain ⟨held, hheld, h⟩ := Option.bind_eq_some_iff.mp h
    split at h
    · cases h
    · obtain ⟨out, world, hout⟩ : ∃ out world,
          reconciler.policy.checkDefinition env held.definition watched.system.world =
            (out, world) := ⟨_, _, rfl⟩
      rw [hout] at h
      cases h
      have hfailed (result : ReconcileResult) (hfailure : failure held out = some result)
          (hdenied : haDenied result = false) :
          watched.records env reconciler held (.move (.checked update)) = some result := by
        unfold Watched.records
        simp only [hout, hfailure, Option.filter_some, hdenied, Bool.not_false, if_true]
      refine .noted ((holder_of_runtime hruntime).trans hheld) (Noted.congr
        (?_ : Noted { watched.system with world := world } held _ _) rfl)
      have hbase : { watched.system with world := world }.runtime = some runtime := hruntime
      refine noted_continueWith hbase (fun _ _ => .same fun patchId => ?_)
        fun result hfailure hdenied => ⟨result, hfailed result hfailure hdenied⟩
      exact (state_of_runtime hbase).symm
  | loaded source update =>
    obtain ⟨runtime, hruntime, h⟩ := Option.bind_eq_some_iff.mp h
    obtain ⟨held, hheld, h⟩ := Option.bind_eq_some_iff.mp h
    split at h
    · cases h
    · cases h
      refine .noted ((holder_of_runtime hruntime).trans hheld) (noted_continueWith
        hruntime (fun _ _ => .same fun patchId => ?_) fun result hfailure hdenied =>
          ⟨result, ?_⟩)
      · exact (state_of_runtime hruntime).symm
      · unfold Watched.records
        simp only [hfailure, Option.filter_some, hdenied, Bool.not_false, if_true]
  | ran update => exact absurd rfl (hran update)
  | refreshed returned =>
    obtain ⟨runtime, hruntime, h⟩ := Option.bind_eq_some_iff.mp h
    obtain ⟨held, hheld, h⟩ := Option.bind_eq_some_iff.mp h
    split at h
    · rename_i result hphase
      split at h
      · cases h
        refine .noted ((holder_of_runtime hruntime).trans hheld)
          (noted_recordAndSave hruntime rfl ⟨result, ?_⟩ result)
        unfold Watched.records
        simp only [hphase]
      · cases h
        exact .same fun patchId => (state_of_runtime hruntime).symm
    · cases h
  | saved returned =>
    obtain ⟨runtime, hruntime, h⟩ := Option.bind_eq_some_iff.mp h
    obtain ⟨held, hheld, h⟩ := Option.bind_eq_some_iff.mp h
    split at h
    · cases h
      exact .same fun patchId => (state_of_runtime hruntime).symm
    · cases h
  | watchAvailable patchId available =>
    obtain ⟨runtime, hruntime, h⟩ := Option.bind_eq_some_iff.mp h
    cases h
    refine .published fun p => ?_
    rw [state_of_runtime hruntime]
    exact Dict.lookup_mapValues ..
  | watchDenied patchId reason =>
    obtain ⟨runtime, hruntime, h⟩ := Option.bind_eq_some_iff.mp h
    split at h
    · cases h
    · cases h
      refine .denied (fun p state => if p = patchId then
        { state with
          watcherAvailable := false
          watcherRecheckRequired := true
          status := .securityError
          lastError := if state.lastError ≠ some .durabilityUnconfirmed then some reason
            else state.lastError } else state) (fun p => ?_) fun p state => ?_
      · rw [state_of_runtime hruntime]
        exact Dict.lookup_mapValues ..
      · split
        · exact ⟨nofun, fun _ => rfl⟩
        · exact ⟨id, id⟩
  | setClosing closing =>
    obtain ⟨runtime, hruntime, h⟩ := Option.bind_eq_some_iff.mp h
    cases h
    exact marked_withRuntime hruntime rfl
  | close stopped =>
    obtain ⟨runtime, hruntime, h⟩ := Option.bind_eq_some_iff.mp h
    split at h
    · cases h
    · cases h
      exact .gone fun _ => rfl
  | setup data =>
    unfold step at h
    simp only at h
    split at h
    · rename_i runtime hnone hmake
      cases h
      refine .loaded (fun patchId => ?_) fun patchId state hstate => ?_
      · unfold state
        rw [hnone]
        rfl
      · exact untouched_asyncLoad (fun _ => untouched_make hmake) hstate
    · cases h
  | save original definition =>
    cases h
    exact marked_of_runtime rfl
  | acquire index =>
    obtain ⟨save, -, h⟩ := Option.bind_eq_some_iff.mp h
    split at h
    · cases h
    · cases h
      exact marked_of_runtime rfl
  | drafted source =>
    obtain ⟨save, -, h⟩ := Option.bind_eq_some_iff.mp h
    split at h
    · cases h
    · cases h
      exact marked_of_runtime rfl
  | abandon =>
    obtain ⟨save, -, h⟩ := Option.bind_eq_some_iff.mp h
    cases h
    exact marked_of_runtime rfl
  | commit patchId =>
    obtain ⟨save, -, h⟩ := Option.bind_eq_some_iff.mp h
    split at h
    · cases h
    · exact marked_of_runtime (runtime_commitSave h)
  | update patchId definition =>
    unfold step at h
    simp only at h
    split at h
    · cases h
      exact marked_of_runtime rfl
    · cases h
  | remove patchId =>
    cases h
    exact marked_of_runtime rfl
  | setRetention retention =>
    cases h
    exact marked_of_runtime rfl

/-- Any move but `begin` leaves the lock with the action that has it, or takes it away. -/
theorem Changed.holder_of_ne {move : Move} (h : Changed system move after)
    (hbegin : ∀ index, move ≠ .begin index) (hheld : after.holder = some held) :
    ∃ before, system.holder = some before ∧ before.patchId = held.patchId := by
  cases h with
  | quiet hsubentries hsaving hrunning hholder => exact ⟨held, hholder ▸ hheld, rfl⟩
  | began => exact absurd rfl (hbegin _)
  | acted hruntime hbefore hacted =>
    obtain ⟨-, runtime', hruntime', hholder, -⟩ := hacted
    rw [holder_of_runtime hruntime'] at hheld
    obtain hnone | ⟨phase, hsome, -⟩ := hholder
    · cases hnone.symm.trans hheld
    · cases hsome.symm.trans hheld
      exact ⟨_, (holder_of_runtime hruntime).trans hbefore, rfl⟩
  | closed hsubentries hsaving hruntime =>
    unfold holder at hheld
    rw [hruntime] at hheld
    cases hheld
  | loaded hsubentries hsaving hnone =>
    cases hnone.symm.trans hheld
  | acquired hunlocked hsubentries hruntime => exact ⟨held, holder_congr hruntime ▸ hheld, rfl⟩
  | drafted hsave hsubentries hruntime => exact ⟨held, holder_congr hruntime ▸ hheld, rfl⟩
  | ended hsubentries hruntime => exact ⟨held, holder_congr hruntime ▸ hheld, rfl⟩
  | committed hsave hruntime => exact ⟨held, holder_congr hruntime ▸ hheld, rfl⟩
  | updated hruntime => exact ⟨held, holder_congr hruntime ▸ hheld, rfl⟩
  | removed hruntime => exact ⟨held, holder_congr hruntime ▸ hheld, rfl⟩

theorem recordResult_available (held : Held) (result : ReconcileResult) (checkedAt : Text)
    (state : PatchRuntimeState) :
    (recordResult held result checkedAt state).watcherAvailable = state.watcherAvailable := by
  unfold recordResult
  split <;> rfl

/-- A result frees a patch only while its root is available. -/
theorem available_of_recordResult {result : ReconcileResult} {checkedAt : Text}
    {state : PatchRuntimeState} (howes : state.watcherRecheckRequired = true)
    (hfree : (recordResult held result checkedAt state).watcherRecheckRequired = false) :
    state.watcherAvailable = true := by
  unfold recordResult at hfree
  split at hfree
  · cases howes.symm.trans hfree
  · simp only [howes, Bool.and_true, Bool.not_eq_false'] at hfree
    exact hfree

theorem Noted.available {recorded : Prop} (h : Noted system held recorded after)
    (havailable : after.Available patchId) : system.Available patchId := by
  obtain ⟨state, hstate, hflag⟩ := havailable
  cases h with
  | same hsame => exact ⟨state, hsame patchId ▸ hstate, hflag⟩
  | recorded result checkedAt hrecorded hstates =>
    rw [hstates] at hstate
    obtain ⟨before, hbefore, rfl⟩ := Option.map_eq_some_iff.mp hstate
    refine ⟨before, hbefore, ?_⟩
    split at hflag
    · exact recordResult_available held result checkedAt before ▸ hflag
    · exact hflag

theorem Noted.freed {recorded : Prop} (h : Noted system held recorded after)
    (howes : system.Owes patchId) (hfree : after.Free patchId) :
    recorded ∧ patchId = held.patchId ∧ system.Available patchId := by
  obtain ⟨before, hbefore, howes⟩ := howes
  obtain ⟨state, hstate, hfree⟩ := hfree
  cases h with
  | same hsame =>
    cases (hsame patchId ▸ hstate).symm.trans hbefore
    cases howes.symm.trans hfree
  | recorded result checkedAt hrecorded hstates =>
    rw [hstates, hbefore] at hstate
    cases hstate
    split at hfree
    · rename_i hpatch
      exact ⟨hrecorded, hpatch, before, hbefore, available_of_recordResult howes hfree⟩
    · cases howes.symm.trans hfree

/-- What a move can publish as available, but for `watchAvailable`. -/
theorem Marked.available {watched : Watched} {move : Move}
    (h : Marked env reconciler watched move after)
    (hpublish : move ≠ .watchAvailable patchId true) (havailable : after.Available patchId) :
    watched.system.Available patchId := by
  obtain ⟨state, hstate, hflag⟩ := havailable
  cases h with
  | same hsame => exact ⟨state, hsame patchId ▸ hstate, hflag⟩
  | gone hgone => cases (hgone patchId).symm.trans hstate
  | loaded hunloaded huntouched =>
    cases (huntouched patchId state hstate).2.symm.trans hflag
  | published hstates =>
    rename_i root available
    rw [hstates] at hstate
    obtain ⟨before, hbefore, rfl⟩ := Option.map_eq_some_iff.mp hstate
    refine ⟨before, hbefore, ?_⟩
    by_cases hroot : patchId = root
    · rw [if_pos hroot] at hflag
      cases hflag
      rw [hroot] at hpublish
      exact absurd rfl hpublish
    · rw [if_neg hroot] at hflag
      exact hflag
  | denied f hstates hflags =>
    rw [hstates] at hstate
    obtain ⟨before, hbefore, rfl⟩ := Option.map_eq_some_iff.mp hstate
    exact ⟨before, hbefore, (hflags patchId before).1 hflag⟩
  | noted hholder hnoted => exact hnoted.available ⟨state, hstate, hflag⟩

theorem Marked.freed {watched : Watched} {move : Move}
    (h : Marked env reconciler watched move after) (howes : watched.system.Owes patchId)
    (hfree : after.Free patchId) :
    ∃ held result, watched.system.holder = some held ∧
      watched.records env reconciler held (.move move) = some result ∧
      patchId = held.patchId ∧ watched.system.Available patchId := by
  obtain ⟨before, hbefore, howes'⟩ := howes
  obtain ⟨state, hstate, hfree'⟩ := hfree
  cases h with
  | same hsame =>
    cases (hsame patchId ▸ hstate).symm.trans hbefore
    cases howes'.symm.trans hfree'
  | gone hgone => cases (hgone patchId).symm.trans hstate
  | loaded hunloaded => cases (hunloaded patchId).symm.trans hbefore
  | published hstates =>
    rw [hstates, hbefore] at hstate
    cases hstate
    split at hfree'
    · simp only [howes', Bool.true_or] at hfree'
      cases hfree'
    · cases howes'.symm.trans hfree'
  | denied f hstates hflags =>
    rw [hstates, hbefore] at hstate
    cases hstate
    cases ((hflags patchId before).2 howes').symm.trans hfree'
  | noted hholder hnoted =>
    obtain ⟨⟨result, hrecords⟩, hpatch, havailable⟩ :=
      hnoted.freed ⟨before, hbefore, howes'⟩ ⟨state, hstate, hfree'⟩
    exact ⟨_, result, hholder, hrecords, hpatch, havailable⟩

end System

/-! ## Runs -/

namespace Watched

variable {env : Env} {reconciler : Reconciler} {watched after : Watched} {move : RecheckMove}
  {held : Held} {patchId : Text}

/-- The times of a run: a root that is available was published, and an action that has read its
target has done so after the last time. -/
structure Followed (watched : Watched) : Prop where
  available : ∀ patchId, watched.system.Available patchId → (watched.published patchId).isSome
  past : ∀ patchId k, watched.published patchId = some k → k < watched.clock
  current : ∀ n held k, watched.readAt = some n → watched.system.holder = some held →
    watched.published held.patchId = some k → k < n

/-- `Reconciler.run` changes nothing in the runtime, and reads its target now. -/
theorem execute_eq (h : watched.execute env reconciler = some after) :
    after.system.runtime = watched.system.runtime ∧ after.published = watched.published ∧
      after.clock = watched.clock + 1 ∧ ∀ n, after.readAt = some n → n = watched.clock := by
  obtain ⟨runtime, hruntime, h⟩ := Option.bind_eq_some_iff.mp h
  obtain ⟨held, hheld, h⟩ := Option.bind_eq_some_iff.mp h
  split at h
  · cases h
    refine ⟨rfl, rfl, rfl, fun n hn => ?_⟩
    exact (Option.some.inj (Option.ite_none_right_eq_some.mp hn).2).symm
  · cases h

/-- What the event loop does with what `Reconciler.run` has returned. -/
theorem delivered_eq (reconciler : Reconciler) {update : Update} (h : watched.delivered env update = some after) :
    ∃ held, watched.system.holder = some held ∧
      watched.system.Noted held
        (∃ result, watched.records env reconciler held (.delivered update) = some result)
        after.system ∧
      (∀ held', after.system.holder = some held' → held'.patchId = held.patchId) ∧
      after.published = watched.published ∧ after.clock = watched.clock + 1 ∧
      ∀ n, after.readAt = some n → watched.readAt = some n := by
  obtain ⟨runtime, hruntime, h⟩ := Option.bind_eq_some_iff.mp h
  obtain ⟨held, hheld, h⟩ := Option.bind_eq_some_iff.mp h
  obtain ⟨out, hout, h⟩ := Option.bind_eq_some_iff.mp h
  simp only at h
  split at h
  · rename_i source hphase
    cases h
    have hearly : held.phase.Early := by
      rw [hphase]
      trivial
    refine ⟨held, (System.holder_of_runtime hruntime).trans hheld, ?_, ?_, rfl, rfl, ?_⟩
    · refine System.noted_continueWith hruntime (fun result hok => ?_)
        fun result hfailure hdenied => ⟨result, ?_⟩
      · refine System.noted_conclude hruntime (fun hdenied => ⟨result, ?_⟩) update
        unfold records
        simp only [hout, hok, Option.filter_some, hdenied, Bool.not_false, if_true]
      · unfold records
        cases out with
        | ok result => cases hfailure
        | error error =>
          have hfailed : failure held (.error error : Except Exc Unit) = some result := hfailure
          simp only [hout, hfailed, Option.filter_some, hdenied, Bool.not_false, if_true]
    · intro held' hheld'
      obtain ⟨-, runtime', hruntime', hholder, -⟩ := System.acted_continueWith hearly out update
        fun _ => System.acted_conclude hearly _ update
      rw [System.holder_of_runtime hruntime'] at hheld'
      obtain hnone | ⟨phase, hsome, -⟩ := hholder
      · cases hnone.symm.trans hheld'
      · cases hsome.symm.trans hheld'
        rfl
    · intro n hn
      split at hn
      · exact hn
      · cases hn
  · cases h

theorem step_move {l : Move} (h : watched.step env reconciler (.move l) = some after) :
    watched.system.step env reconciler l = some after.system ∧ (∀ update, l ≠ .ran update) ∧
      after.clock = watched.clock + 1 ∧ after.published = watched.publishedAfter l ∧
      after.readAt = watched.readAfter l := by
  have hran : ∀ update, l ≠ .ran update := by
    rintro update rfl
    cases h
  have hstep : (watched.system.step env reconciler l).map (fun system =>
      { watched with
        system := system
        clock := watched.clock + 1
        published := watched.publishedAfter l
        readAt := watched.readAfter l }) = some after := by
    cases l with
    | ran update => exact absurd rfl (hran update)
    | _ => exact h
  obtain ⟨system, hsystem, rfl⟩ := Option.map_eq_some_iff.mp hstep
  exact ⟨hsystem, hran, rfl, rfl, rfl⟩

theorem followed_of_runtime_eq (h : watched.Followed)
    (hruntime : after.system.runtime = watched.system.runtime)
    (hpublished : after.published = watched.published) (hclock : after.clock = watched.clock + 1)
    (hread : ∀ n, after.readAt = some n → n = watched.clock) : after.Followed := by
  refine ⟨fun patchId havailable => ?_, fun patchId k hk => ?_, fun n held k hn hheld hk => ?_⟩
  · rw [hpublished]
    refine h.available patchId ?_
    unfold System.Available System.state at havailable ⊢
    rw [← hruntime]
    exact havailable
  · rw [hpublished] at hk
    rw [hclock]
    exact Nat.lt_succ_of_lt (h.past patchId k hk)
  · rw [hpublished] at hk
    rw [hread n hn]
    exact h.past held.patchId k hk

theorem followed_move {l : Move} (h : watched.Followed)
    (hstep : watched.step env reconciler (.move l) = some after)
    (hunraced : Unraced env reconciler watched (.move l) after) : after.Followed := by
  obtain ⟨hsystem, hran, hclock, hpublished, hread⟩ := step_move hstep
  have hmarked := System.marked hsystem hran
  by_cases hpublish : ∃ root, l = .watchAvailable root true
  · obtain ⟨root, rfl⟩ := hpublish
    have hupdate : after.published = Function.update watched.published root (some watched.clock) :=
      hpublished
    refine ⟨fun patchId havailable => ?_, fun patchId k hk => ?_, fun n held k hn hheld hk => ?_⟩
    · rw [hupdate]
      by_cases hroot : patchId = root
      · rw [hroot, Function.update_self]
        rfl
      · rw [Function.update_of_ne hroot]
        refine h.available patchId (hmarked.available (fun heq => hroot ?_) havailable)
        cases heq
        rfl
    · rw [hupdate] at hk
      rw [hclock]
      by_cases hroot : patchId = root
      · rw [hroot, Function.update_self] at hk
        cases hk
        exact Nat.lt_succ_self _
      · rw [Function.update_of_ne hroot] at hk
        exact Nat.lt_succ_of_lt (h.past patchId k hk)
    · obtain ⟨before, hbefore, hpatch⟩ := (System.changed hsystem).holder_of_ne nofun hheld
      rw [hread] at hn
      by_cases hroot : held.patchId = root
      · -- The action on this patch has not read its target yet.
        have hpublishes : RecheckMove.publishes (.move (.watchAvailable root true)) =
            some before.patchId := by
          rw [hpatch, hroot]
          rfl
        cases (hunraced.published before hbefore hpublishes).symm.trans hn
      · rw [hupdate, Function.update_of_ne hroot, ← hpatch] at hk
        exact h.current n before k hn hbefore hk
  · have hkept : after.published = watched.published := by
      rw [hpublished]
      unfold publishedAfter
      split
      · exact absurd ⟨_, rfl⟩ hpublish
      · rfl
    refine ⟨fun patchId havailable => ?_, fun patchId k hk => ?_, fun n held k hn hheld hk => ?_⟩
    · rw [hkept]
      exact h.available patchId (hmarked.available (fun heq => hpublish ⟨_, heq⟩) havailable)
    · rw [hkept] at hk
      rw [hclock]
      exact Nat.lt_succ_of_lt (h.past patchId k hk)
    · rw [hread] at hn
      unfold readAfter at hn
      split at hn
      · cases hn
      · cases hn
      · rename_i hbegin hrefreshed
        obtain ⟨before, hbefore, hpatch⟩ := (System.changed hsystem).holder_of_ne hbegin hheld
        rw [hkept, ← hpatch] at hk
        exact h.current n before k hn hbefore hk

/-- The times are kept by a move. -/
theorem followed_step (h : watched.Followed) (hstep : watched.step env reconciler move = some after)
    (hunraced : Unraced env reconciler watched move after) : after.Followed := by
  cases move with
  | move l => exact followed_move h hstep hunraced
  | execute =>
    obtain ⟨hruntime, hpublished, hclock, hread⟩ := execute_eq hstep
    exact followed_of_runtime_eq h hruntime hpublished hclock hread
  | delivered update =>
    obtain ⟨held, hheld, hnoted, hholder, hpublished, hclock, hread⟩ :=
      delivered_eq reconciler hstep
    refine ⟨fun patchId havailable => ?_, fun patchId k hk => ?_, fun n held' k hn hheld' hk => ?_⟩
    · rw [hpublished]
      exact h.available patchId (hnoted.available havailable)
    · rw [hpublished] at hk
      rw [hclock]
      exact Nat.lt_succ_of_lt (h.past patchId k hk)
    · rw [hpublished, hholder held' hheld'] at hk
      exact h.current n held k (hread n hn) hheld hk

/-- What frees a patch is a result for it, while its root is available. -/
theorem freed (hstep : watched.step env reconciler move = some after)
    (howes : watched.system.Owes patchId) (hfree : after.system.Free patchId) :
    ∃ held result, watched.system.holder = some held ∧
      watched.records env reconciler held move = some result ∧ patchId = held.patchId ∧
      watched.system.Available patchId := by
  cases move with
  | move l =>
    obtain ⟨hsystem, hran, -⟩ := step_move hstep
    exact (System.marked hsystem hran).freed howes hfree
  | execute =>
    obtain ⟨hruntime, -⟩ := execute_eq hstep
    obtain ⟨before, hbefore, howes⟩ := howes
    obtain ⟨state, hstate, hfree⟩ := hfree
    unfold System.state at hbefore hstate
    rw [hruntime, hbefore] at hstate
    cases hstate
    cases howes.symm.trans hfree
  | delivered update =>
    obtain ⟨held, hheld, hnoted, -⟩ := delivered_eq reconciler hstep
    obtain ⟨⟨result, hrecords⟩, hpatch, havailable⟩ := hnoted.freed howes hfree
    exact ⟨held, result, hheld, hrecords, hpatch, havailable⟩

theorem rechecked_step (h : watched.Followed)
    (hstep : watched.step env reconciler move = some after)
    (hunraced : Unraced env reconciler watched move after) : Rechecked watched move after := by
  intro patchId howes hfree
  obtain ⟨held, result, hheld, hrecords, rfl, havailable⟩ := freed hstep howes hfree
  obtain ⟨n, hn⟩ :=
    Option.isSome_iff_exists.mp (hunraced.reads held result hheld hrecords howes havailable)
  obtain ⟨k, hk⟩ := Option.isSome_iff_exists.mp (h.available _ havailable)
  exact ⟨held, n, k, hheld, rfl, hn, hk, h.current n held k hn hheld hk⟩

/-- Before the entry is set up. -/
def begun (system : System) : Watched := { system := system }

theorem followed_begun {system : System} (h : system.runtime = none) : (begun system).Followed := by
  refine ⟨fun patchId havailable => ?_, fun patchId k hk => ?_, fun n held k hn _ _ => ?_⟩
  · obtain ⟨state, hstate, -⟩ := havailable
    have hnone : (begun system).system.state patchId = none := by
      unfold System.state begun
      rw [h]
      rfl
    cases hnone.symm.trans hstate
  · cases hk
  · cases hn

/-- If no refresh publishes a root between the read and the record of an action on it, a patch is
freed only by an action that has read the target after its root came back. -/
theorem recheck_after_recovery {system : System} (hsystem : system.runtime = none)
    {moves : List RecheckMove}
    (hunraced : Traces.Every (step env reconciler) (Unraced env reconciler) (begun system) moves) :
    Traces.Every (step env reconciler) Rechecked (begun system) moves :=
  Traces.every_of_invariant (fun _ _ _ => followed_step) (fun _ _ _ => rechecked_step)
    (followed_begun hsystem) hunraced

instance {system : System} : Decidable (system.Owes patchId) :=
  inferInstanceAs (Decidable (∃ state ∈ system.state patchId, state.watcherRecheckRequired = true))

instance {system : System} : Decidable (system.Available patchId) :=
  inferInstanceAs (Decidable (∃ state ∈ system.state patchId, state.watcherAvailable = true))

instance : Decidable (Unraced env reconciler watched move after) :=
  decidable_of_iff
    ((∀ held ∈ watched.system.holder, move.publishes = some held.patchId → watched.readAt = none) ∧
      ∀ held ∈ watched.system.holder, ∀ result ∈ watched.records env reconciler held move,
        watched.system.Owes held.patchId → watched.system.Available held.patchId →
        watched.readAt.isSome)
    ⟨fun h => ⟨h.1, fun held result hheld hrecords => h.2 held hheld result hrecords⟩,
      fun h => ⟨h.1, fun held hheld result hrecords => h.2 held result hheld hrecords⟩⟩

/-- An entry with one patch that exchanges `x` for `y`. -/
def exchangeSystem : System :=
  { System.steadySystem with world := steadyWorld (Utf8.encode "x\n".toList) }

/-- The system after `moves`. -/
def exchangeRun (moves : List RecheckMove) : Option Watched :=
  Traces.after (step steadyEnv (steadyReconciler exchangeHunks)) (begun exchangeSystem) moves

/-- The patch has to be checked again, in the end. -/
def owing (moves : List RecheckMove) : Option Bool :=
  (exchangeRun moves).bind fun watched =>
    (watched.system.state ['p']).map PatchRuntimeState.watcherRecheckRequired

/-- An action, up to its result. -/
def checkMoves : List RecheckMove :=
  [.move (.request ['p'] .reconcile), .move (.begin 0), .move (.checked .done),
    .move (.loaded (.ok (exchangeJob ['1']).source) .done), .execute]

/-- The root of a patch goes, and comes back. -/
def recoveryMoves : List RecheckMove :=
  [.move (.watchAvailable ['p'] false), .move (.watchAvailable ['p'] true)]

/-- The root comes back, and then an action reads the target. -/
theorem recheck_after_recovery_checked :
    owing (.move (.setup none) :: recoveryMoves ++ checkMoves) = some true ∧
    owing (.move (.setup none) :: recoveryMoves ++ checkMoves ++ [.delivered .done]) = some false ∧
    Traces.Every (step steadyEnv (steadyReconciler exchangeHunks)) Rechecked (begun exchangeSystem)
      (.move (.setup none) :: recoveryMoves ++ checkMoves ++ [.delivered .done]) :=
  ⟨by decide +kernel, by decide +kernel, recheck_after_recovery rfl (by decide +kernel)⟩

/-- The root goes and comes back while an action is in the executor that has read the target, and the
action then frees the patch. -/
theorem recheck_before_recovery :
    owing (.move (.setup none) :: checkMoves ++ recoveryMoves) = some true ∧
    owing (.move (.setup none) :: checkMoves ++ recoveryMoves ++ [.delivered .done]) = some false ∧
    ¬ Traces.Every (step steadyEnv (steadyReconciler exchangeHunks)) Rechecked (begun exchangeSystem)
      (.move (.setup none) :: checkMoves ++ recoveryMoves ++ [.delivered .done]) := by
  have howing : owing (.move (.setup none) :: checkMoves ++ recoveryMoves) = some true := by
    decide +kernel
  have hfreed : owing (.move (.setup none) :: checkMoves ++ recoveryMoves ++ [.delivered .done]) =
      some false := by decide +kernel
  have htimes : (exchangeRun (.move (.setup none) :: checkMoves ++ recoveryMoves)).map
      (fun watched => (watched.readAt, watched.published ['p'])) = some (some 5, some 7) := by
    decide +kernel
  refine ⟨howing, hfreed, fun hevery => ?_⟩
  obtain ⟨final, hfinal, hfree⟩ := Option.bind_eq_some_iff.mp hfreed
  obtain ⟨before, hbefore, hlast⟩ := Traces.after_append.mp hfinal
  obtain ⟨after, hstep, hend⟩ := Traces.after_cons.mp hlast
  cases hend
  obtain ⟨watched, hwatched, howes⟩ := Option.bind_eq_some_iff.mp howing
  cases hbefore.symm.trans hwatched
  have hrechecked := ((Traces.every_append.mp hevery).2 before hbefore final hstep).1
  obtain ⟨state, hstate, howes⟩ := Option.map_eq_some_iff.mp howes
  obtain ⟨state', hstate', hfree⟩ := Option.map_eq_some_iff.mp hfree
  obtain ⟨held, n, k, -, hpatch, hread, hpublished, hlt⟩ :=
    hrechecked ['p'] ⟨state, hstate, howes⟩ ⟨state', hstate', hfree⟩
  obtain ⟨watched, hwatched, htimes⟩ := Option.map_eq_some_iff.mp htimes
  cases hbefore.symm.trans hwatched
  rw [Prod.mk.injEq] at htimes
  cases hread.symm.trans htimes.1
  cases hpublished.symm.trans htimes.2
  omega

end Watched

end Hapatchy
