import Hapatchy.Coordinator.Statuses
import Mathlib.Data.Finset.Basic

/-!
# Watched roots

`async_refresh` and `async_close` of `watcher.py`. A refresh holds its lock over
all the roots and awaits the executor in between, while actions go on.
-/

open Effects Prog

namespace Hapatchy

/-! ## Identities -/

/-- What `_root_identity` returns: `None`, a `PatchError`, or a device with an inode. -/
inductive RootIdentity where
  | missing
  | denied (reason : Reason)
  | directory (ino : Nat)
  deriving DecidableEq, Repr

section Identity

variable (env : Env) (policy : PathPolicy) (root : Text)

/-- `check_path` of a directory -/
def checkRoot : Io Unit := do
  PathPolicy.checkCurrent env
  policy.checkPath env root true

/-- The path is denied by the live check of Home Assistant, maybe only because it is gone. -/
def deniedIdentity (error : PatchError) : Io RootIdentity :=
  if error.reason ≠ .haPathNotAllowed then pure (.denied error.reason)
  else
    rescue
      (do
        let parts ← ofPatch (relativeParts root)
        withDirectory env parts false fun _ => pure ()
        pure (.denied error.reason))
      fun e =>
        match e with
        | .os .fileNotFound => pure .missing
        | .value => raise .value
        | .recursion => raise .recursion
        | _ => pure (.denied error.reason)

def directoryIdentity : Io RootIdentity :=
  rescue
    (do
      let parts ← ofPatch (relativeParts root)
      withDirectory env parts false fun directory =>
        match directory.handles.getLast? with
        | some handle => do
          let ino ← fstatDirectory env handle
          pure (.directory ino)
        | none => raise .value)
    fun e =>
      match e.patchError? with
      | some error => pure (.denied error.reason)
      | none => if e = .value ∨ e = .recursion then raise e else pure .missing

/-- `_root_identity` -/
def rootIdentity : Io RootIdentity := do
  let denied ← rescue
    (do
      checkRoot env policy root
      pure none)
    fun e =>
      match e.patchError? with
      | some error => pure (some error)
      | none => raise e
  match denied with
  | some error => deniedIdentity env root error
  | none => directoryIdentity env root

end Identity

/-! ## The watcher -/

/-- What a refresh awaits for the root at hand. -/
inductive RootAwait where
  | identifying
  | unscheduling (identity : RootIdentity)
  | scheduling (ino : Nat)
  deriving DecidableEq, Repr

/-- The refresh that has `_refresh_lock`, at `root` and before `rest`. -/
structure Refresh where
  root : Text
  rest : List Text
  await : RootAwait

structure RootWatcher where
  system : System
  /-- `sorted(self.roots)` -/
  roots : List Text
  /-- `_watches`: the identity that each root had when its watch was made. -/
  watches : Dict Text Nat := ∅
  /-- The roots that the observer watches. -/
  observed : Finset Text := ∅
  refresh : Option Refresh := none
  closed : Bool := false
  /-- `async_close` has stopped the observer. -/
  stopped : Bool := false

inductive RootMove where
  /-- A move of the system, but for what a refresh publishes, and the ends of the runtime. -/
  | system (move : Move)
  /-- `async_refresh` takes the lock. -/
  | refresh
  /-- `_root_identity` returns or raises. -/
  | identified
  /-- `observer.unschedule` returns, or it raises a `KeyError`. -/
  | unscheduled
  /-- `observer.schedule` returns, or it raises an `OSError`. -/
  | scheduled (returned : Bool)
  /-- What the refresh awaits raises another exception, and leaves the observer as it was. -/
  | raised
  /-- `async_close` begins. -/
  | close
  /-- It has the lock, and the observer has stopped. -/
  | stop

/-- `watch_denied` or `watch_available` -/
def PatchManagerRuntime.tell (runtime : PatchManagerRuntime) (available : Except Reason Bool)
    (patchId : Text) : PatchManagerRuntime :=
  match available with
  | .ok available => runtime.watchAvailable patchId available
  | .error reason => runtime.watchDenied patchId reason

/-- The enabled patches of a root. -/
def PatchManagerRuntime.patchesAt (runtime : PatchManagerRuntime) (root : Text) : List Text :=
  (runtime.definitions.entries.filter fun entry =>
    decide (entry.2.watchRoot = root) && entry.2.enabled).map (·.1)

/-- `_publish_root`, without the timers. -/
def PatchManagerRuntime.publishRoot (runtime : PatchManagerRuntime) (root : Text)
    (available : Except Reason Bool) : PatchManagerRuntime :=
  (runtime.patchesAt root).foldl (fun runtime patchId => runtime.tell available patchId) runtime

/-- The moves that are left to a refresh, or to the ends of the runtime. -/
def Move.ofWatcher : Move → Bool
  | .watchAvailable _ _ => true
  | .watchDenied _ _ => true
  | .setup _ => true
  | .close _ => true
  | _ => false

namespace RootWatcher

variable (env : Env) (reconciler : Reconciler) (watcher : RootWatcher)

/-- The refresh goes on with the next root, or it is over. -/
def next (watcher : RootWatcher) : List Text → RootWatcher
  | [] => { watcher with refresh := none }
  | root :: rest => { watcher with refresh := some ⟨root, rest, .identifying⟩ }

def publish (root : Text) (available : Except Reason Bool) : RootWatcher :=
  { watcher with system := { watcher.system with
      runtime := watcher.system.runtime.map fun runtime => runtime.publishRoot root available } }

/-- `_refresh_root` after the old watch is gone. -/
def renew (root : Text) (rest : List Text) : RootIdentity → RootWatcher
  | .denied reason => (watcher.publish root (.error reason)).next rest
  | .missing => (watcher.publish root (.ok false)).next rest
  | .directory ino => { watcher with refresh := some ⟨root, rest, .scheduling ino⟩ }

/-- `_refresh_root` with the identity of the root. -/
def compare (root : Text) (rest : List Text) (identity : RootIdentity) : RootWatcher :=
  match watcher.watches.lookup root with
  | none => watcher.renew root rest identity
  | some ino =>
    if identity = .directory ino then watcher.next rest
    else { watcher with refresh := some ⟨root, rest, .unscheduling identity⟩ }

def identified (root : Text) (rest : List Text) : RootWatcher :=
  match rootIdentity env reconciler.policy root watcher.system.world with
  | (.ok identity, world) =>
    compare { watcher with system := { watcher.system with world := world } } root rest identity
  | (.error _, world) =>
    { watcher with system := { watcher.system with world := world }, refresh := none }

def unscheduled (root : Text) (rest : List Text) (identity : RootIdentity) : RootWatcher :=
  renew { watcher with
    observed := watcher.observed.erase root
    watches := watcher.watches.erase root } root rest identity

def scheduled (root : Text) (rest : List Text) (ino : Nat) (returned : Bool) : RootWatcher :=
  if returned then
    (publish { watcher with
      observed := insert root watcher.observed
      watches := watcher.watches.insert root ino } root (.ok true)).next rest
  else (watcher.publish root (.ok false)).next rest

def step : RootMove → Option RootWatcher
  | .system move =>
    if move.ofWatcher then none
    else (watcher.system.step env reconciler move).map fun system => { watcher with system := system }
  | .refresh =>
    if watcher.refresh.isSome then none
    else if watcher.closed then some watcher
    else some (watcher.next watcher.roots)
  | .identified => do
    let refresh ← watcher.refresh
    match refresh.await with
    | .identifying => some (watcher.identified env reconciler refresh.root refresh.rest)
    | _ => none
  | .unscheduled => do
    let refresh ← watcher.refresh
    match refresh.await with
    | .unscheduling identity => some (watcher.unscheduled refresh.root refresh.rest identity)
    | _ => none
  | .scheduled returned => do
    let refresh ← watcher.refresh
    match refresh.await with
    | .scheduling ino => some (watcher.scheduled refresh.root refresh.rest ino returned)
    | _ => none
  | .raised => do
    let _ ← watcher.refresh
    some { watcher with refresh := none }
  | .close => some { watcher with closed := true }
  | .stop =>
    if !watcher.closed ∨ watcher.refresh.isSome then none
    else some { watcher with observed := ∅, watches := ∅, stopped := true }

end RootWatcher

/-! ## What the system keeps -/

namespace System

variable {env : Env} {reconciler : Reconciler} {system after : System} {patchId : Text}
  {runtime runtime' : PatchManagerRuntime} {held : Held}

/-- What the state of a patch says of its root. -/
def availableAt (system : System) (patchId : Text) : Option Bool :=
  (system.state patchId).map PatchRuntimeState.watcherAvailable

/-- What the watcher reads of a definition. -/
def watchedAs (system : System) (patchId : Text) : Option (Bool × Text) :=
  (system.definition patchId).map fun definition => (definition.enabled, definition.watchRoot)

theorem availableAt_of_states (hruntime : system.runtime = some runtime)
    (hafter : after.runtime = some runtime') (hstates : runtime'.states = runtime.states) :
    after.availableAt patchId = system.availableAt patchId := by
  unfold availableAt
  rw [state_of_runtime hruntime, state_of_runtime hafter, hstates]

theorem Notes.availableAt {result : ReconcileResult} (hruntime : system.runtime = some runtime)
    (h : Notes runtime held result after) :
    after.availableAt patchId = system.availableAt patchId := by
  obtain ⟨checkedAt, hstates⟩ := h
  unfold System.availableAt
  rw [hstates, state_of_runtime hruntime, Option.map_map]
  apply Option.map_congr
  intro state _
  simp only [Function.comp_apply]
  split
  · exact recordResult_available ..
  · rfl

theorem Acts.availableAt {move : Move} (hruntime : system.runtime = some runtime)
    (h : Acts env reconciler system runtime held move after) :
    after.availableAt patchId = system.availableAt patchId := by
  cases h with
  | checked => exact availableAt_of_states hruntime rfl rfl
  | loaded => exact availableAt_of_states hruntime rfl rfl
  | concluded _ hconcludes =>
    rcases hconcludes.notes with hnotes | hnotes | ⟨hsame, -⟩
    · exact hnotes.availableAt hruntime
    · exact hnotes.availableAt hruntime
    · unfold System.availableAt
      rw [hsame, state_of_runtime hruntime]
  | raised => exact availableAt_of_states hruntime rfl rfl
  | refreshed => exact Notes.availableAt hruntime (notes_recordAndSave rfl _)
  | unrefreshed => exact availableAt_of_states hruntime rfl rfl
  | saved => exact availableAt_of_states hruntime rfl rfl

theorem availableAt_step {move : Move} (hmove : move.ofWatcher = false)
    (h : system.step env reconciler move = some after) :
    after.availableAt patchId = system.availableAt patchId := by
  cases moves h with
  | request hruntime => exact availableAt_of_states hruntime rfl rfl
  | @began runtime index q action hruntime =>
    rcases begin_cases system runtime q action (runtime.waiting.eraseIdx index) with
      heq | ⟨_, heq, -⟩
    · rw [heq]
      exact availableAt_of_states hruntime rfl rfl
    · rw [heq]
      exact availableAt_of_states hruntime rfl rfl
  | acted hruntime _ hacts => exact hacts.availableAt hruntime
  | watched => cases hmove
  | denied => cases hmove
  | closing hruntime => exact availableAt_of_states hruntime rfl rfl
  | closed => cases hmove
  | loaded => cases hmove
  | beside _ hruntime =>
    unfold availableAt state
    rw [hruntime]

theorem watchedAs_step {move : Move} (hmove : move.ofWatcher = false)
    (h : system.step env reconciler move = some after) :
    after.watchedAs patchId = system.watchedAs patchId := by
  have hsame (hdefinition : after.definition = system.definition) :
      after.watchedAs patchId = system.watchedAs patchId := by
    unfold watchedAs
    rw [hdefinition]
  cases changed h with
  | quiet _ _ _ _ hdefinition => exact hsame hdefinition
  | began _ _ _ _ hdefinition => exact hsame hdefinition
  | acted hruntime hheld hacted =>
    obtain ⟨-, runtime', hruntime', -, hquiet | hwrote⟩ := hacted
    · apply hsame
      rw [definition_of_runtime hruntime', definition_of_runtime hruntime, hquiet.2]
    · rename_i runtime held
      obtain ⟨previous, hprevious, -, hdefinitions⟩ := hwrote.write
      unfold watchedAs
      rw [definition_of_runtime hruntime', definition_of_runtime hruntime, hdefinitions]
      simp only
      by_cases hpatch : patchId = held.patchId
      · subst hpatch
        rw [AList.lookup_insert, hprevious]
        rfl
      · rw [AList.lookup_insert_ne hpatch]
  | closed => cases hmove
  | loaded => cases hmove
  | acquired _ _ hruntime => exact hsame (definition_congr hruntime)
  | drafted _ _ hruntime => exact hsame (definition_congr hruntime)
  | ended _ hruntime => exact hsame (definition_congr hruntime)
  | committed _ hruntime => exact hsame (definition_congr hruntime)
  | updated hruntime => exact hsame (definition_congr hruntime)
  | removed hruntime => exact hsame (definition_congr hruntime)

end System

/-! ## What a refresh publishes -/

namespace PatchManagerRuntime

variable {runtime : PatchManagerRuntime} {available : Except Reason Bool} {p q root : Text}

/-- What a patch is told of its root. -/
def told : Except Reason Bool → Bool
  | .ok available => available
  | .error _ => false

theorem lookup_tell : ∃ f : PatchRuntimeState → PatchRuntimeState,
    (∀ state, (f state).watcherAvailable = told available) ∧
    (runtime.tell available q).states.lookup p =
      (runtime.states.lookup p).map fun state => if p = q then f state else state := by
  cases available with
  | ok available => exact ⟨_, fun _ => rfl, Dict.lookup_mapValues ..⟩
  | error reason => exact ⟨_, fun _ => rfl, Dict.lookup_mapValues ..⟩

theorem definitions_tell : (runtime.tell available q).definitions = runtime.definitions := by
  cases available <;> rfl

theorem definitions_foldl {l : List Text} :
    (l.foldl (fun runtime patchId => runtime.tell available patchId) runtime).definitions =
      runtime.definitions := by
  induction l generalizing runtime with
  | nil => rfl
  | cons q l ih =>
    rw [List.foldl_cons, ih]
    exact definitions_tell

/-- The patches that are told learn it, and the others keep what they know. -/
theorem available_foldl {l : List Text} :
    ((l.foldl (fun runtime patchId => runtime.tell available patchId) runtime).states.lookup p).map
        PatchRuntimeState.watcherAvailable =
      (runtime.states.lookup p).map fun state =>
        if p ∈ l then told available else state.watcherAvailable := by
  induction l generalizing runtime with
  | nil => simp
  | cons q l ih =>
    obtain ⟨f, hf, htell⟩ := lookup_tell (p := p) (q := q)
    rw [List.foldl_cons, ih, htell, Option.map_map]
    apply Option.map_congr
    intro state _
    by_cases hp : p = q
    · simp [hp, hf]
    · simp [hp]

theorem mem_patchesAt {definition : PatchDefinition}
    (h : runtime.definitions.lookup p = some definition) (henabled : definition.enabled = true) :
    p ∈ runtime.patchesAt root ↔ definition.watchRoot = root := by
  have hentry : ⟨p, definition⟩ ∈ runtime.definitions.entries := AList.mem_lookup_iff.mp h
  unfold patchesAt
  simp only [List.mem_map, List.mem_filter, Bool.and_eq_true, decide_eq_true_eq]
  constructor
  · rintro ⟨⟨q, other⟩, ⟨hother, hroot, -⟩, rfl⟩
    have hlookup : runtime.definitions.lookup q = some other := AList.mem_lookup_iff.mpr hother
    cases h.symm.trans hlookup
    exact hroot
  · intro hroot
    exact ⟨_, ⟨hentry, hroot, henabled⟩, rfl⟩

end PatchManagerRuntime

namespace RootWatcher

variable {env : Env} {reconciler : Reconciler} {watcher after : RootWatcher} {root : Text}
  {rest : List Text}

/-- The recorded watches are those of the observer, and each enabled patch knows whether its root has
one, but for the patches of the roots in `stale`. -/
structure Tells (watcher : RootWatcher) (stale : Text → Prop) : Prop where
  recorded : ∀ root, root ∈ watcher.observed ↔ root ∈ watcher.watches
  known : ∀ p enabled root available, watcher.system.watchedAs p = some (enabled, root) →
    enabled = true → ¬ stale root → watcher.system.availableAt p = some available →
    (available = true ↔ root ∈ watcher.observed)

theorem Tells.congr {stale stale' : Text → Prop} (h : watcher.Tells stale)
    (hobserved : after.observed = watcher.observed) (hwatches : after.watches = watcher.watches)
    (hwatched : ∀ p, after.system.watchedAs p = watcher.system.watchedAs p)
    (havailable : ∀ p, after.system.availableAt p = watcher.system.availableAt p)
    (hstale : ∀ root, stale root → stale' root) : after.Tells stale' := by
  constructor
  · intro root
    rw [hobserved, hwatches]
    exact h.recorded root
  · intro p enabled root available
    rw [hobserved, hwatched, havailable]
    intro hdefinition henabled hfresh
    exact h.known p enabled root available hdefinition henabled fun hroot => hfresh (hstale root hroot)

theorem watchedAs_publish {available : Except Reason Bool} {p : Text} :
    (watcher.publish root available).system.watchedAs p = watcher.system.watchedAs p := by
  unfold System.watchedAs System.definition publish
  simp only
  cases watcher.system.runtime with
  | none => rfl
  | some runtime =>
    simp only [Option.map_some, Option.bind_some]
    unfold PatchManagerRuntime.publishRoot
    rw [PatchManagerRuntime.definitions_foldl]

theorem availableAt_publish {available : Except Reason Bool} {p root' : Text} {enabled : Bool}
    (h : watcher.system.watchedAs p = some (enabled, root')) (henabled : enabled = true) :
    (watcher.publish root available).system.availableAt p =
      if root' = root then
        (watcher.system.availableAt p).map fun _ => PatchManagerRuntime.told available
      else watcher.system.availableAt p := by
  obtain ⟨definition, hdefinition, heq⟩ := Option.map_eq_some_iff.mp h
  obtain ⟨runtime, hruntime, hlookup⟩ := Option.bind_eq_some_iff.mp hdefinition
  cases heq
  have hpatches : p ∈ runtime.patchesAt root ↔ definition.watchRoot = root :=
    PatchManagerRuntime.mem_patchesAt hlookup henabled
  unfold System.availableAt System.state publish
  simp only [hruntime, Option.map_some, Option.bind_some]
  unfold PatchManagerRuntime.publishRoot
  rw [PatchManagerRuntime.available_foldl]
  simp only [hpatches]
  split
  · rw [Option.map_map]
    rfl
  · rfl

/-- A root that has been published is not stale. -/
theorem Tells.publish {available : Except Reason Bool} (h : watcher.Tells (· = root))
    (htold : PatchManagerRuntime.told available = true ↔ root ∈ watcher.observed) :
    (watcher.publish root available).Tells fun _ => False := by
  constructor
  · exact h.recorded
  · intro p enabled root' known hdefinition henabled _ hknown
    rw [watchedAs_publish] at hdefinition
    rw [availableAt_publish hdefinition henabled] at hknown
    by_cases hroot : root' = root
    · subst hroot
      rw [if_pos rfl] at hknown
      obtain ⟨_, -, rfl⟩ := Option.map_eq_some_iff.mp hknown
      exact htold
    · rw [if_neg hroot] at hknown
      exact h.known p enabled root' known hdefinition henabled hroot hknown

/-- The refresh awaits the observer for a new watch of the root. -/
def Scheduling (watcher : RootWatcher) (root : Text) : Prop :=
  ∃ refresh ino, watcher.refresh = some refresh ∧ refresh.root = root ∧
    refresh.await = .scheduling ino

/-- What holds between any two moves. -/
structure Sound (watcher : RootWatcher) : Prop where
  tells : watcher.stopped = false → watcher.Tells watcher.Scheduling
  unwatched : ∀ root, watcher.Scheduling root → root ∉ watcher.observed
  ended : watcher.stopped = true → watcher.closed = true ∧ watcher.refresh = none ∧
    watcher.observed = ∅ ∧ watcher.watches = ∅

theorem not_scheduling (h : ∀ refresh, watcher.refresh = some refresh →
    ∀ ino, refresh.await ≠ .scheduling ino) : ∀ root, ¬ watcher.Scheduling root := by
  rintro root ⟨refresh, ino, hrefresh, -, hawait⟩
  exact h refresh hrefresh ino hawait

/-- Where no root is stale, a refresh may go on to anything but a new watch. -/
theorem Tells.sound (h : watcher.Tells fun _ => False)
    (hobserved : after.observed = watcher.observed) (hwatches : after.watches = watcher.watches)
    (hwatched : ∀ p, after.system.watchedAs p = watcher.system.watchedAs p)
    (havailable : ∀ p, after.system.availableAt p = watcher.system.availableAt p)
    (hopen : after.stopped = false)
    (hawait : ∀ refresh, after.refresh = some refresh → ∀ ino, refresh.await ≠ .scheduling ino) :
    after.Sound := by
  refine ⟨fun _ => ?_, fun root hroot => absurd hroot (not_scheduling hawait root),
    fun hstopped => ?_⟩
  · exact h.congr hobserved hwatches hwatched havailable fun _ => False.elim
  · cases hopen.symm.trans hstopped

theorem Tells.next (h : watcher.Tells fun _ => False) (hopen : watcher.stopped = false) :
    (watcher.next rest).Sound := by
  cases rest with
  | nil =>
    refine h.sound rfl rfl (fun _ => rfl) (fun _ => rfl) hopen ?_
    rintro refresh ⟨⟩
  | cons root rest =>
    refine h.sound rfl rfl (fun _ => rfl) (fun _ => rfl) hopen ?_
    rintro refresh ⟨⟩ ino ⟨⟩

/-- Where the observer does not watch the root, a refresh publishes that or makes a watch. -/
theorem Tells.renew {identity : RootIdentity} (h : watcher.Tells (· = root))
    (hroot : root ∉ watcher.observed) (hopen : watcher.stopped = false) :
    (watcher.renew root rest identity).Sound := by
  have htold {available : Except Reason Bool} (ha : PatchManagerRuntime.told available = false) :
      PatchManagerRuntime.told available = true ↔ root ∈ watcher.observed := by
    rw [ha]
    simp [hroot]
  cases identity with
  | missing => exact (h.publish (htold rfl)).next hopen
  | denied reason => exact (h.publish (htold rfl)).next hopen
  | directory ino =>
    have htells : (watcher.renew root rest (.directory ino)).Tells (· = root) :=
      h.congr rfl rfl (fun _ => rfl) (fun _ => rfl) fun _ => id
    refine ⟨fun _ => ?_, ?_, fun hstopped => ?_⟩
    · apply htells.congr rfl rfl (fun _ => rfl) (fun _ => rfl)
      rintro _ rfl
      exact ⟨_, ino, rfl, rfl, rfl⟩
    · rintro root' ⟨refresh, ino', ⟨⟩, rfl, -⟩
      exact hroot
    · cases hopen.symm.trans hstopped

theorem sound_compare {identity : RootIdentity} (h : watcher.Tells fun _ => False)
    (hopen : watcher.stopped = false) : (watcher.compare root rest identity).Sound := by
  unfold compare
  split
  · rename_i hlookup
    have hroot : root ∉ watcher.observed := by
      rw [h.recorded]
      exact AList.lookup_eq_none.mp hlookup
    apply Tells.renew _ hroot hopen
    exact h.congr rfl rfl (fun _ => rfl) (fun _ => rfl) fun _ => False.elim
  · split
    · exact h.next hopen
    · refine h.sound rfl rfl (fun _ => rfl) (fun _ => rfl) hopen ?_
      rintro refresh ⟨⟩ ino ⟨⟩

theorem sound_identified (h : watcher.Tells fun _ => False) (hopen : watcher.stopped = false) :
    (watcher.identified env reconciler root rest).Sound := by
  unfold identified
  split
  · rename_i identity world hidentity
    have htells : ({ watcher with system := { watcher.system with world := world } } :
        RootWatcher).Tells fun _ => False :=
      h.congr rfl rfl (fun _ => rfl) (fun _ => rfl) fun _ => id
    exact sound_compare htells hopen
  · rename_i e world hidentity
    refine h.sound rfl rfl (fun _ => rfl) (fun _ => rfl) hopen ?_
    rintro refresh ⟨⟩

theorem sound_unscheduled {identity : RootIdentity} (h : watcher.Tells fun _ => False)
    (hopen : watcher.stopped = false) : (watcher.unscheduled root rest identity).Sound := by
  have htells : ({ watcher with
      observed := watcher.observed.erase root
      watches := watcher.watches.erase root } : RootWatcher).Tells (· = root) := by
    constructor
    · intro root'
      simp only [Finset.mem_erase, AList.mem_erase, h.recorded root']
    · intro p enabled root' available hdefinition henabled hother hknown
      rw [h.known p enabled root' available hdefinition henabled id hknown]
      simp only [Finset.mem_erase]
      exact ⟨fun hroot => ⟨hother, hroot⟩, And.right⟩
  exact htells.renew (by simp) hopen

theorem sound_scheduled {ino : Nat} {returned : Bool} (h : watcher.Tells (· = root))
    (hroot : root ∉ watcher.observed) (hopen : watcher.stopped = false) :
    (watcher.scheduled root rest ino returned).Sound := by
  unfold scheduled
  split
  · have htells : ({ watcher with
        observed := insert root watcher.observed
        watches := watcher.watches.insert root ino } : RootWatcher).Tells (· = root) := by
      constructor
      · intro root'
        simp only [Finset.mem_insert, AList.mem_insert, h.recorded root']
      · intro p enabled root' available hdefinition henabled hother hknown
        rw [h.known p enabled root' available hdefinition henabled hother hknown]
        simp only [Finset.mem_insert]
        exact ⟨Or.inr, fun hroot => hroot.resolve_left hother⟩
    have htold : PatchManagerRuntime.told (.ok true) = true ↔
        root ∈ insert root watcher.observed := by
      simp [PatchManagerRuntime.told]
    exact (htells.publish htold).next hopen
  · have htold : PatchManagerRuntime.told (.ok false) = true ↔ root ∈ watcher.observed := by
      simp [PatchManagerRuntime.told, hroot]
    exact (h.publish htold).next hopen

/-! ## Runs -/

/-- No call of the observer for a new watch raises what is no `OSError`. -/
def Schedules (watcher : RootWatcher) (move : RootMove) (_after : RootWatcher) : Prop :=
  move = .raised → ∀ root, ¬ watcher.Scheduling root

theorem Sound.fresh (h : watcher.Sound) (hopen : watcher.stopped = false)
    (hidle : ∀ root, ¬ watcher.Scheduling root) : watcher.Tells fun _ => False :=
  (h.tells hopen).congr rfl rfl (fun _ => rfl) (fun _ => rfl) hidle

theorem Sound.open_of_refresh {refresh : Refresh} (h : watcher.Sound)
    (hrefresh : watcher.refresh = some refresh) : watcher.stopped = false := by
  cases hstopped : watcher.stopped with
  | false => rfl
  | true =>
    obtain ⟨-, hnone, -, -⟩ := h.ended hstopped
    cases hnone.symm.trans hrefresh

theorem Sound.awaiting {refresh : Refresh} (h : watcher.Sound)
    (hrefresh : watcher.refresh = some refresh) (hawait : ∀ ino, refresh.await ≠ .scheduling ino) :
    watcher.Tells fun _ => False := by
  apply h.fresh (h.open_of_refresh hrefresh) (not_scheduling _)
  intro refresh' hrefresh'
  cases hrefresh.symm.trans hrefresh'
  exact hawait

theorem sound_step {move : RootMove} (h : watcher.Sound)
    (hstep : watcher.step env reconciler move = some after)
    (hschedules : Schedules watcher move after) : after.Sound := by
  cases move with
  | system move =>
    simp only [step] at hstep
    split at hstep
    · cases hstep
    rename_i hmove
    obtain ⟨system, hsystem, rfl⟩ := Option.map_eq_some_iff.mp hstep
    have hmove : move.ofWatcher = false := Bool.eq_false_iff.mpr hmove
    refine ⟨fun hopen => ?_, h.unwatched, h.ended⟩
    exact (h.tells hopen).congr rfl rfl (fun _ => System.watchedAs_step hmove hsystem)
      (fun _ => System.availableAt_step hmove hsystem) fun _ => id
  | refresh =>
    simp only [step] at hstep
    split at hstep
    · cases hstep
    rename_i hnone
    have hnone : watcher.refresh = none := by simpa using hnone
    split at hstep
    · cases hstep
      exact h
    · rename_i hunclosed
      cases hstep
      have hopen : watcher.stopped = false := by
        rw [← Bool.not_eq_true]
        intro hstopped
        exact hunclosed (h.ended hstopped).1
      apply Tells.next _ hopen
      apply h.fresh hopen (not_scheduling _)
      intro refresh hrefresh
      cases hnone.symm.trans hrefresh
  | identified =>
    obtain ⟨refresh, hrefresh, hstep⟩ := Option.bind_eq_some_iff.mp hstep
    cases hawait : refresh.await with
    | identifying =>
      simp only [hawait, Option.some.injEq] at hstep
      subst hstep
      apply sound_identified _ (h.open_of_refresh hrefresh)
      apply h.awaiting hrefresh
      rw [hawait]
      exact fun _ => RootAwait.noConfusion
    | unscheduling => simp only [hawait, reduceCtorEq] at hstep
    | scheduling => simp only [hawait, reduceCtorEq] at hstep
  | unscheduled =>
    obtain ⟨refresh, hrefresh, hstep⟩ := Option.bind_eq_some_iff.mp hstep
    cases hawait : refresh.await with
    | unscheduling identity =>
      simp only [hawait, Option.some.injEq] at hstep
      subst hstep
      apply sound_unscheduled _ (h.open_of_refresh hrefresh)
      apply h.awaiting hrefresh
      rw [hawait]
      exact fun _ => RootAwait.noConfusion
    | identifying => simp only [hawait, reduceCtorEq] at hstep
    | scheduling => simp only [hawait, reduceCtorEq] at hstep
  | scheduled returned =>
    obtain ⟨refresh, hrefresh, hstep⟩ := Option.bind_eq_some_iff.mp hstep
    cases hawait : refresh.await with
    | scheduling ino =>
      simp only [hawait, Option.some.injEq] at hstep
      subst hstep
      have hopen := h.open_of_refresh hrefresh
      have hscheduling : watcher.Scheduling refresh.root := ⟨refresh, ino, hrefresh, rfl, hawait⟩
      apply sound_scheduled _ (h.unwatched _ hscheduling) hopen
      apply (h.tells hopen).congr rfl rfl (fun _ => rfl) (fun _ => rfl)
      rintro root ⟨refresh', ino', hrefresh', rfl, -⟩
      cases hrefresh.symm.trans hrefresh'
      rfl
    | identifying => simp only [hawait, reduceCtorEq] at hstep
    | unscheduling => simp only [hawait, reduceCtorEq] at hstep
  | raised =>
    obtain ⟨refresh, hrefresh, hstep⟩ := Option.bind_eq_some_iff.mp hstep
    cases hstep
    have hopen := h.open_of_refresh hrefresh
    refine (h.fresh hopen (hschedules rfl)).sound rfl rfl (fun _ => rfl) (fun _ => rfl) hopen ?_
    rintro refresh ⟨⟩
  | close =>
    cases hstep
    refine ⟨fun hopen => ?_, h.unwatched, fun hstopped => ⟨rfl, (h.ended hstopped).2⟩⟩
    exact (h.tells hopen).congr rfl rfl (fun _ => rfl) (fun _ => rfl) fun _ => id
  | stop =>
    simp only [step] at hstep
    split at hstep
    · cases hstep
    rename_i hready
    cases hstep
    rw [not_or] at hready
    have hclosed : watcher.closed = true := by simpa using hready.1
    have hnone : watcher.refresh = none := by simpa using hready.2
    refine ⟨fun hopen => Bool.noConfusion hopen, fun root _ => Finset.notMem_empty root, fun _ =>
      ⟨hclosed, hnone, rfl, rfl⟩⟩

theorem sound_setup {start system : System} {data : Option (Dict Text StateStore.Item)}
    {roots : List Text} (hsetup : start.step env reconciler (.setup data) = some system) :
    ({ system := system, roots := roots } : RootWatcher).Sound := by
  have huntouched : ∀ p, system.availableAt p ≠ some true := by
    intro p hp
    obtain ⟨state, hstate, htrue⟩ := Option.map_eq_some_iff.mp hp
    cases System.moves hsetup with
    | acted _ _ hacts =>
      cases hacts with
      | concluded hends => cases hends
      | raised hbreaks => cases hbreaks
    | loaded _ hmake =>
      obtain ⟨-, hfalse⟩ := System.untouched_asyncLoad
        (fun _ hlookup => System.untouched_make hmake hlookup) hstate
      cases hfalse.symm.trans htrue
    | beside hbeside => exact hbeside.elim
  have htells : ({ system := system, roots := roots } : RootWatcher).Tells fun _ => False := by
    constructor
    · intro root
      simp
    · intro p enabled root available _ _ _ hknown
      have hfalse : available ≠ true := fun htrue => huntouched p (htrue ▸ hknown)
      simp [hfalse]
  refine htells.sound rfl rfl (fun _ => rfl) (fun _ => rfl) rfl ?_
  rintro refresh ⟨⟩

/-- In every run of a watcher from a setup whose observer raises only an `OSError` for a new watch: the
watches that are recorded are those of the observer, none is left after `async_close` has stopped it,
and until then each enabled patch says that its root is available exactly where the observer watches
it, unless a refresh just awaits that. -/
theorem roots_truthful {start system : System} {data : Option (Dict Text StateStore.Item)}
    {roots : List Text} {moves : List RootMove} {final : RootWatcher}
    (hsetup : start.step env reconciler (.setup data) = some system)
    (hschedules : Traces.Every (step env reconciler) Schedules
      { system := system, roots := roots } moves)
    (hrun : Traces.after (step env reconciler) { system := system, roots := roots } moves =
      some final) :
    (∀ root, root ∈ final.observed ↔ root ∈ final.watches) ∧
      (final.stopped = true → final.refresh = none ∧ final.observed = ∅) ∧
      (final.stopped = false → ∀ p definition state, final.system.definition p = some definition →
        definition.enabled = true → final.system.state p = some state →
        ¬ final.Scheduling definition.watchRoot →
        (state.watcherAvailable = true ↔ definition.watchRoot ∈ final.observed)) := by
  have hsound : final.Sound := Traces.invariant
    (fun _ _ _ h hstep hmeets => sound_step h hstep hmeets) (sound_setup hsetup) hschedules hrun
  refine ⟨fun root => ?_, fun hstopped => ?_, fun hopen => ?_⟩
  · cases hstopped : final.stopped with
    | false => exact (hsound.tells hstopped).recorded root
    | true =>
      obtain ⟨-, -, hobserved, hwatches⟩ := hsound.ended hstopped
      rw [hobserved, hwatches]
      simp
  · obtain ⟨-, hnone, hobserved, -⟩ := hsound.ended hstopped
    exact ⟨hnone, hobserved⟩
  · intro p definition state hdefinition henabled hstate hidle
    apply (hsound.tells hopen).known p definition.enabled definition.watchRoot _ _ henabled hidle
    · unfold System.availableAt
      rw [hstate]
      rfl
    · unfold System.watchedAs
      rw [hdefinition]
      rfl

/-! ## One root -/

def watchMoves : List RootMove :=
  [.refresh, .identified, .scheduled true, .system (.request ['p'] .apply), .refresh, .identified]

/-- The root is watched, and a second refresh finds it as it was. -/
theorem roots_truthful_watched : ∃ system final state,
    System.steadySystem.step steadyEnv (steadyReconciler []) (.setup none) = some system ∧
    Traces.after (step steadyEnv (steadyReconciler [])) { system := system, roots := [['f']] }
      watchMoves = some final ∧
    ['f'] ∈ final.observed ∧ final.system.state ['p'] = some state ∧
      state.watcherAvailable = true := by
  have hrun : ((System.steadySystem.step steadyEnv (steadyReconciler []) (.setup none)).bind
      fun system => (Traces.after (step steadyEnv (steadyReconciler []))
        { system := system, roots := [['f']] } watchMoves).map fun final =>
          (final.system.definition ['p'], (final.system.state ['p']).isSome, final.stopped,
            final.refresh.isNone, decide (['f'] ∈ final.observed))) =
      some (some steadyDefinition, true, false, true, true) := by decide +kernel
  obtain ⟨system, hsetup, hrun⟩ := Option.bind_eq_some_iff.mp hrun
  obtain ⟨final, hfinal, hend⟩ := Option.map_eq_some_iff.mp hrun
  simp only [Prod.mk.injEq, decide_eq_true_eq] at hend
  obtain ⟨hdefinition, hstate, hopen, hnone, hobserved⟩ := hend
  obtain ⟨state, hstate⟩ := Option.isSome_iff_exists.mp hstate
  have hidle : ¬ final.Scheduling steadyDefinition.watchRoot := by
    rintro ⟨refresh, ino, hrefresh, -⟩
    rw [hrefresh] at hnone
    cases hnone
  have hschedules : Traces.Every (step steadyEnv (steadyReconciler [])) Schedules
      { system := system, roots := [['f']] } watchMoves := by
    apply Traces.every_of_mem
    rintro move hmove watcher after rfl
    simp [watchMoves] at hmove
  obtain ⟨-, -, htruthful⟩ := roots_truthful hsetup hschedules hfinal
  exact ⟨system, final, state, hsetup, hfinal, hobserved, hstate,
    (htruthful hopen ['p'] steadyDefinition state hdefinition rfl hstate hidle).mpr hobserved⟩

end RootWatcher

end Hapatchy
