import Hapatchy.ManagedSource.Calls

/-!
# Published revisions, over any run

Whatever is interleaved, fails or stops, a revision that is there stays, with
its content. A save can still be refused: `save` publishes with a second hard
link, and `_read` takes only files that have one.
-/

namespace Hapatchy.ManagedPatchStore

open Hapatchy.PatchEngine

/-! ## Moves -/

/-- What a move makes of the directory and of its call. -/
inductive Turn (sha256 : Bytes → Text) (state : State) : Move → Nat → Store → Process → Prop
  | save {id data} (hnew : state.processes id = none) (hvalid : validateContent data = .ok ()) :
    Turn sha256 state (.save id data) id state.store ⟨.save data, .read .before .opening, false⟩
  | refused {id data error} (hnew : state.processes id = none)
    (hvalid : validateContent data = .error error) :
    Turn sha256 state (.save id data) id state.store ⟨.save data, .saved (.error error), false⟩
  | load {id revision} (hnew : state.processes id = none) :
    Turn sha256 state (.load id revision) id state.store ⟨.load revision, .read .load .opening, false⟩
  | run {id count process store position} (hprocess : state.processes id = some process)
    (hrun : runStep sha256 state.store id count process.call process.position = some (store, position)) :
    Turn sha256 state (.run id count) id store { process with position := position }
  | fail {id process position} (hprocess : state.processes id = some process)
    (hfail : failStep (process.call.revision sha256) process.position = some position) :
    Turn sha256 state (.fail id) id state.store ⟨process.call, position, true⟩
  | stop {id process} (hprocess : state.processes id = some process) :
    Turn sha256 state (.stop id) id state.store { process with position := .stopped }

theorem turn_of_step {sha256 : Bytes → Text} {state state' : State} {move : Move}
    (hstep : state.step sha256 move = some state') :
    ∃ id store process, Turn sha256 state move id store process ∧
      state' = { state with store := store }.set id process := by
  cases move with
  | save id data =>
    simp only [State.step] at hstep
    split at hstep
    · cases hstep
    · rename_i hnew
      cases hstep
      have hnew : state.processes id = none := by simpa using hnew
      cases hvalid : validateContent data with
      | ok => exact ⟨id, _, _, .save hnew hvalid, rfl⟩
      | error error => exact ⟨id, _, _, .refused hnew hvalid, rfl⟩
  | load id revision =>
    simp only [State.step] at hstep
    split at hstep
    · cases hstep
    · rename_i hnew
      cases hstep
      exact ⟨id, _, _, .load (by simpa using hnew), rfl⟩
  | run id count =>
    simp only [State.step, Option.bind_eq_bind, Option.bind_eq_some_iff] at hstep
    obtain ⟨process, hprocess, ⟨store, position⟩, hrun, hset⟩ := hstep
    cases hset
    exact ⟨id, _, _, .run hprocess hrun, rfl⟩
  | fail id =>
    simp only [State.step, Option.bind_eq_bind, Option.bind_eq_some_iff] at hstep
    obtain ⟨process, hprocess, position, hfail, hset⟩ := hstep
    cases hset
    exact ⟨id, _, _, .fail hprocess hfail, rfl⟩
  | stop id =>
    simp only [State.step, Option.bind_eq_bind, Option.bind_eq_some_iff] at hstep
    obtain ⟨process, hprocess, position, -, hset⟩ := hstep
    cases hset
    exact ⟨id, _, _, .stop hprocess, rfl⟩

section Runs

variable {sha256 : Bytes → Text} {contents : Bytes → Prop} {state : State} {move : Move}
  {id : Nat} {store : Store} {process : Process}

/-- Of all processes, once it holds of the one that has moved and the others keep it. -/
theorem forall_processes_set {R : Store → Nat → Process → Prop}
    (h : ∀ id process, state.processes id = some process → R state.store id process)
    (hother : ∀ id' process, id' ≠ id → R state.store id' process → R store id' process)
    (hnew : R store id process) (id' : Nat) (process' : Process)
    (hprocess : ({ state with store := store }.set id process).processes id' = some process') :
    R store id' process' := by
  simp only [State.set, Function.update_apply] at hprocess
  split at hprocess
  · rename_i hid
    cases hprocess
    rw [hid]
    exact hnew
  · rename_i hid
    exact hother _ _ hid (h _ _ hprocess)

/-! ## Soundness -/

structure State.Sound (sha256 : Bytes → Text) (contents : Bytes → Prop) (state : State) : Prop where
  store : state.store.Sound sha256 contents
  idle : ∀ id, state.processes id = none → state.store.entries (.pending id) = none
  owns : ∀ id process, state.processes id = some process →
    process.position.Owns state.store contents id process.call
  calls : ∀ id process, state.processes id = some process → ∀ data, process.call = .save data →
    validateContent data = .ok () → contents data

def Move.Known (contents : Bytes → Prop) : Move → Prop
  | .save _ data => validateContent data = .ok () → contents data
  | _ => True

theorem Turn.keeps (hturn : Turn sha256 state move id store process)
    (hsound : state.Sound sha256 contents) (hknown : move.Known contents) :
    store.Sound sha256 contents ∧ Store.Keeps id state.store store ∧
      process.position.Owns store contents id process.call := by
  cases hturn with
  | save hnew hvalid => exact ⟨hsound.store, .refl .., hsound.idle id hnew, hknown hvalid⟩
  | refused hnew hvalid => exact ⟨hsound.store, .refl .., trivial⟩
  | load hnew => exact ⟨hsound.store, .refl .., trivial⟩
  | run hprocess hrun =>
    have howns := hsound.owns _ _ hprocess
    exact runStep_keeps hsound.store howns hrun
  | fail hprocess hfail =>
    have howns := hsound.owns _ _ hprocess
    exact ⟨hsound.store, .refl .., owns_failStep howns hfail⟩
  | @stop _ process hprocess =>
    refine ⟨hsound.store, .refl .., ?_⟩
    cases process with
    | mk call => cases call <;> trivial

theorem Turn.calls (hturn : Turn sha256 state move id store process)
    (hsound : state.Sound sha256 contents) (hknown : move.Known contents) (data : Bytes)
    (hcall : process.call = .save data) (hvalid : validateContent data = .ok ()) : contents data := by
  cases hturn with
  | save | refused =>
    cases hcall
    exact hknown hvalid
  | load => cases hcall
  | run hprocess | fail hprocess | stop hprocess => exact hsound.calls _ _ hprocess _ hcall hvalid

theorem sound_set (hturn : Turn sha256 state move id store process)
    (hsound : state.Sound sha256 contents) (hknown : move.Known contents) :
    ({ state with store := store }.set id process).Sound sha256 contents := by
  obtain ⟨hstore, hkeeps, howns⟩ := hturn.keeps hsound hknown
  refine ⟨hstore, ?_, ?_, ?_⟩
  · intro id' hidle
    simp only [State.set, Function.update_apply] at hidle
    split at hidle
    · cases hidle
    · rename_i hid
      exact (hkeeps.pending id' hid).trans (hsound.idle id' hidle)
  · apply forall_processes_set (R := fun store id process =>
      process.position.Owns store contents id process.call) hsound.owns
    · intro id' process' hid h
      exact h.keeps hkeeps hsound.store hid
    · exact howns
  · apply forall_processes_set (R := fun _ _ process => ∀ data, process.call = .save data →
      validateContent data = .ok () → contents data) hsound.calls
    · intro _ _ _ h
      exact h
    · exact hturn.calls hsound hknown

theorem sound_step (state : State) (move : Move) (state' : State) (hsound : state.Sound sha256 contents)
    (hstep : state.step sha256 move = some state') (hknown : move.Known contents) :
    state'.Sound sha256 contents := by
  obtain ⟨id, store, process, hturn, rfl⟩ := turn_of_step hstep
  exact sound_set hturn hsound hknown

theorem sound_initial : initial.Sound sha256 contents where
  store := by
    refine ⟨?_, ?_, ?_, ?_⟩
    · rintro _ _ ⟨⟩
    · rintro _ _ _ ⟨⟩
    · rintro _ _ ⟨⟩
    · rintro _ ⟨⟩
  idle _ _ := rfl
  owns := by rintro _ _ ⟨⟩
  calls := by rintro _ _ ⟨⟩

/-! ## What has been read -/

structure State.Read (sha256 : Bytes → Text) (contents : Bytes → Prop) (state : State) : Prop
    extends state.Sound sha256 contents where
  reads : ∀ id process, state.processes id = some process →
    process.position.Reads sha256 contents state.store (process.call.revision sha256)

theorem Turn.reads (hturn : Turn sha256 state move id store process)
    (hstate : state.Read sha256 contents) (hkeeps : Store.Keeps id state.store store)
    (hsize : ∀ data, contents data → data.length ≤ maxPatchBytes) :
    process.position.Reads sha256 contents store (process.call.revision sha256) := by
  cases hturn with
  | run hprocess hrun =>
    have hreads := hstate.reads _ _ hprocess
    exact runStep_reads hstate.store hsize hkeeps hreads hrun
  | fail hprocess hfail => exact reads_failStep hfail
  | _ => trivial

theorem read_set (hturn : Turn sha256 state move id store process)
    (hsize : ∀ data, contents data → data.length ≤ maxPatchBytes)
    (hstate : state.Read sha256 contents) (hknown : move.Known contents) :
    ({ state with store := store }.set id process).Read sha256 contents := by
  obtain ⟨-, hkeeps, -⟩ := hturn.keeps hstate.toSound hknown
  refine ⟨sound_set hturn hstate.toSound hknown, ?_⟩
  apply forall_processes_set (R := fun store _ process =>
    process.position.Reads sha256 contents store (process.call.revision sha256)) hstate.reads
  · intro _ _ _ h
    exact h.keeps hkeeps hstate.store
  · exact hturn.reads hstate hkeeps hsize

theorem read_step (hsize : ∀ data, contents data → data.length ≤ maxPatchBytes) (state : State)
    (move : Move) (state' : State) (hstate : state.Read sha256 contents)
    (hstep : state.step sha256 move = some state') (hknown : move.Known contents) :
    state'.Read sha256 contents := by
  obtain ⟨id, store, process, hturn, rfl⟩ := turn_of_step hstep
  exact read_set hturn hsize hstate hknown

theorem read_initial : initial.Read sha256 contents where
  toSound := sound_initial
  reads := by rintro _ _ ⟨⟩

/-! ## A second name -/

/-- The move is not a stat by `id` of a revision that still has a temporary name. -/
def State.Alone (id : Nat) (state : State) : Move → Prop
  | .run id' _ => id' = id → ∀ process ∈ state.processes id, process.position.Alone state.store
  | _ => True

def State.Lost (id : Nat) (state : State) : Prop :=
  ∃ process, state.processes id = some process ∧ process.position.Lost

theorem processes_set : ({ state with store := store }.set id process).processes id = some process :=
  Function.update_self ..

theorem processes_set_of_ne {id' : Nat} (h : id' ≠ id) :
    ({ state with store := store }.set id process).processes id' = state.processes id' :=
  Function.update_of_ne h ..

theorem lost_step (id : Nat) (state : State) (move : Move) (state' : State) (h : state.Lost id)
    (hstep : state.step sha256 move = some state') : state'.Lost id := by
  obtain ⟨process, hprocess, hlost⟩ := h
  obtain ⟨id', store, process', hturn, rfl⟩ := turn_of_step hstep
  by_cases hid : id = id'
  · subst hid
    refine ⟨process', processes_set, ?_⟩
    cases hturn with
    | save hnew | refused hnew | load hnew =>
      rw [hnew] at hprocess
      cases hprocess
    | run hprocess' hrun =>
      cases hprocess.symm.trans hprocess'
      exact lost_runStep hlost hrun
    | fail hprocess' hfail =>
      cases hprocess.symm.trans hprocess'
      exact lost_failStep hlost hfail
    | stop => trivial
  · exact ⟨process, by rwa [processes_set_of_ne hid], hlost⟩

/-- A second name on the file is an `unsafe_file`. -/
theorem lost_of_not_alone (state : State) (move : Move) (state' : State)
    (hstate : state.Read sha256 contents) (hstep : state.step sha256 move = some state')
    (halone : ¬ state.Alone id move) : state'.Lost id := by
  obtain ⟨id', store, process', hturn, rfl⟩ := turn_of_step hstep
  cases hturn with
  | @run _ _ process _ position hprocess hrun =>
    simp only [State.Alone, not_forall] at halone
    obtain ⟨rfl, process', hprocess', halone⟩ := halone
    cases hprocess.symm.trans hprocess'
    refine ⟨_, processes_set, ?_⟩
    have hreads := hstate.reads _ _ hprocess
    cases hposition : process.position with
    | read site reading =>
      rw [hposition] at hrun hreads halone
      cases hrun
      simp only [readStep_of_not_alone hstate.store hreads.holds halone]
      exact lost_resume
    | _ =>
      rw [hposition] at halone
      exact absurd trivial halone
  | _ => exact absurd trivial halone

/-! ## Calls that meet none -/

/-- No system call of `id` has raised. -/
def State.Clean (id : Nat) (state : State) : Prop :=
  ∀ process, state.processes id = some process → ∀ data, process.call = .save data →
    validateContent data = .ok () → process.failed = false → process.position.Clean

theorem clean_step (hsize : ∀ data, contents data → data.length ≤ maxPatchBytes)
    (hrevision : ∀ data, isRevision (sha256 data) = true) (state' : State)
    (hstate : state.Read sha256 contents) (hclean : state.Clean id)
    (hstep : state.step sha256 move = some state') (halone : state.Alone id move) :
    state'.Clean id := by
  obtain ⟨id', store, process, hturn, rfl⟩ := turn_of_step hstep
  by_cases hid : id = id'
  · subst hid
    intro process' hprocess' data hcall hvalid hfailed
    cases processes_set.symm.trans hprocess'
    cases hturn with
    | refused hnew hinvalid =>
      cases hcall
      rw [hvalid] at hinvalid
      cases hinvalid
    | @run _ _ process _ _ hprocess hrun =>
      have hreads := hstate.reads _ _ hprocess
      have hclean := hclean _ hprocess data hcall hvalid hfailed
      rw [hcall] at hreads hrun
      exact runStep_clean hstate.store hsize hreads (halone rfl _ hprocess) (hrevision data) hclean hrun
    | fail => cases hfailed
    | _ => trivial
  · intro process' hprocess'
    rw [processes_set_of_ne hid] at hprocess'
    exact hclean process' hprocess'

/-- The revision is there, and the load `id` has not failed to find it. -/
structure State.Found (state : State) (id : Nat) (revision : Text) : Prop where
  has : state.store.Has revision
  load : ∀ process, state.processes id = some process → process.call = .load revision →
    process.failed = false → ∀ error, process.position ≠ .loaded (.error error)

theorem found_step {revision : Text} (hsize : ∀ data, contents data → data.length ≤ maxPatchBytes)
    (hrevision : isRevision revision = true) (state' : State) (hstate : state.Read sha256 contents)
    (hfound : state.Found id revision) (hstep : state.step sha256 move = some state')
    (hknown : move.Known contents) (halone : state.Alone id move) : state'.Found id revision := by
  obtain ⟨id', store, process, hturn, rfl⟩ := turn_of_step hstep
  obtain ⟨-, hkeeps, -⟩ := hturn.keeps hstate.toSound hknown
  refine ⟨hkeeps.has hfound.has, ?_⟩
  by_cases hid : id = id'
  · subst hid
    intro process' hprocess' hcall hfailed
    cases processes_set.symm.trans hprocess'
    cases hturn with
    | save | refused => cases hcall
    | fail => cases hfailed
    | @run _ _ process _ _ hprocess hrun =>
      have hreads := hstate.reads _ _ hprocess
      have howns := hstate.owns _ _ hprocess
      rw [hcall] at hreads hrun howns
      exact runStep_found hstate.store hsize howns hreads (halone rfl _ hprocess) hrevision
        hfound.has hrun
    | load | stop => simp
  · intro process' hprocess'
    rw [processes_set_of_ne hid] at hprocess'
    exact hfound.load process' hprocess'

/-! ## Runs -/

theorem published_run {before after : State} {moves : List Move} {revision : Text} {ino : Nat}
    (hsound : before.Sound sha256 contents) (hknown : ∀ move ∈ moves, move.Known contents)
    (hrun : Traces.after (State.step sha256) before moves = some after)
    (h : before.store.entries (.revision revision) = some ino) :
    after.store.entries (.revision revision) = some ino ∧
      (after.store.inodes ino).data = (before.store.inodes ino).data := by
  have hrun := Traces.invariant (P := fun _ move _ => move.Known contents)
    (I := fun state => state.Sound sha256 contents ∧
      state.store.entries (.revision revision) = some ino ∧
        (state.store.inodes ino).data = (before.store.inodes ino).data)
    ?_ ⟨hsound, h, rfl⟩ (Traces.every_of_forall_mem hknown) hrun
  · exact hrun.2
  · rintro state move state' ⟨hsound, hentry, hdata⟩ hstep hknown
    have hsound' := sound_step _ _ _ hsound hstep hknown
    obtain ⟨id, store, process, hturn, rfl⟩ := turn_of_step hstep
    obtain ⟨-, hkeeps, -⟩ := hturn.keeps hsound hknown
    exact ⟨hsound', hkeeps.revision _ _ hentry, (hkeeps.data ino ⟨_, hentry⟩).trans hdata⟩

theorem saved_iff {after : State} {moves : List Move} {data : Bytes} {result : Except PatchError Text}
    (hsize : ∀ data, contents data → data.length ≤ maxPatchBytes)
    (hrevision : ∀ data, isRevision (sha256 data) = true)
    (hevery : Traces.Every (State.step sha256) (fun _ move _ => move.Known contents) initial moves)
    (hrun : Traces.after (State.step sha256) initial moves = some after)
    (hsave : after.processes id = some ⟨.save data, .saved result, false⟩)
    (hvalid : validateContent data = .ok ()) :
    result = .ok (sha256 data) ↔
      Traces.Every (State.step sha256) (fun state move _ => state.Alone id move) initial moves := by
  constructor
  · rintro rfl
    refine Traces.every_of_not_reached (read_step hsize) lost_of_not_alone (lost_step id) read_initial
      hevery hrun ?_
    rintro ⟨process, hprocess, hlost⟩
    cases hsave.symm.trans hprocess
    exact hlost
  · intro halone
    obtain ⟨hread, hclean⟩ := Traces.invariant (I := fun state => state.Read sha256 contents ∧
        state.Clean id)
      (fun state move state' hI hstep h => ⟨read_step hsize _ _ _ hI.1 hstep h.1,
        clean_step hsize hrevision state' hI.1 hI.2 hstep h.2⟩)
      ⟨read_initial, by rintro _ ⟨⟩⟩ (hevery.and halone) hrun
    cases result with
    | ok found =>
      have hreads := hread.reads _ _ hsave
      rw [hreads.1]
      rfl
    | error error => cases hclean _ hsave data rfl hvalid rfl

theorem loaded_iff {before after : State} {moves : List Move} {revision : Text}
    {result : Except PatchError Bytes} (hsize : ∀ data, contents data → data.length ≤ maxPatchBytes)
    (hrevision : isRevision revision = true) (hread : before.Read sha256 contents)
    (hhas : before.store.Has revision) (hnone : before.processes id = none)
    (hevery : Traces.Every (State.step sha256) (fun _ move _ => move.Known contents) before moves)
    (hrun : Traces.after (State.step sha256) before moves = some after)
    (hload : after.processes id = some ⟨.load revision, .loaded result, false⟩) :
    (∃ data, result = .ok data) ↔
      Traces.Every (State.step sha256) (fun state move _ => state.Alone id move) before moves := by
  constructor
  · rintro ⟨data, rfl⟩
    refine Traces.every_of_not_reached (read_step hsize) lost_of_not_alone (lost_step id) hread
      hevery hrun ?_
    rintro ⟨process, hprocess, hlost⟩
    cases hload.symm.trans hprocess
    exact hlost
  · intro halone
    obtain ⟨-, hfound⟩ := Traces.invariant (I := fun state => state.Read sha256 contents ∧
        state.Found id revision)
      (fun state move state' hI hstep h => ⟨read_step hsize _ _ _ hI.1 hstep h.1,
        found_step hsize hrevision state' hI.1 hI.2 hstep h.1 h.2⟩)
      ⟨hread, hhas, fun process hprocess => by rw [hnone] at hprocess; cases hprocess⟩
      (hevery.and halone) hrun
    cases result with
    | ok data => exact ⟨data, rfl⟩
    | error error => exact absurd rfl (hfound.load _ hload rfl rfl error)

end Runs

theorem validateContent_eq_ok {data : Bytes} (h : validateContent data = .ok ()) :
    data.length ≤ maxPatchBytes := by
  unfold validateContent at h
  split at h
  · cases h
  · omega

/-- What the saves of a run are valid for. -/
def Saved (moves : List Move) (data : Bytes) : Prop :=
  validateContent data = .ok () ∧ ∃ id, .save id data ∈ moves

theorem known_saved {moves : List Move} {move : Move} (h : move ∈ moves) : move.Known (Saved moves) := by
  cases move with
  | save id data =>
    intro hvalid
    exact ⟨hvalid, id, h⟩
  | _ => trivial

/-- A published revision stays and holds the content of its digest. A save gives its digest, and a
later load its content, exactly when no stat of that call has met a second name. -/
theorem revisions_survive {sha256 : Bytes → Text} (hrevision : ∀ data, isRevision (sha256 data) = true)
    {moves moves' : List Move} {before after : State}
    (hcollision : ∀ id id' data data', .save id data ∈ moves ++ moves' →
      .save id' data' ∈ moves ++ moves' → sha256 data = sha256 data' → data = data')
    (hbefore : Traces.after (State.step sha256) initial moves = some before)
    (hafter : Traces.after (State.step sha256) before moves' = some after) :
    (∀ revision ino, before.store.entries (.revision revision) = some ino →
      after.store.entries (.revision revision) = some ino ∧
        (after.store.inodes ino).data = (before.store.inodes ino).data) ∧
    (∀ revision ino, after.store.entries (.revision revision) = some ino →
      sha256 (after.store.inodes ino).data = revision) ∧
    (∀ id data result, before.processes id = some ⟨.save data, .saved result, false⟩ →
      validateContent data = .ok () → (result = .ok (sha256 data) ↔
        Traces.Every (State.step sha256) (fun state move _ => state.Alone id move) initial moves)) ∧
    (∀ id data failed load result,
      before.processes id = some ⟨.save data, .saved (.ok (sha256 data)), failed⟩ →
      validateContent data = .ok () → before.processes load = none →
      after.processes load = some ⟨.load (sha256 data), .loaded result, false⟩ →
        (result = .ok data ↔
          Traces.Every (State.step sha256) (fun state move _ => state.Alone load move) before
            moves')) := by
  have hknown : ∀ move ∈ moves ++ moves', move.Known (Saved (moves ++ moves')) :=
    fun move h => known_saved h
  have hsize : ∀ data, Saved (moves ++ moves') data → data.length ≤ maxPatchBytes :=
    fun data h => validateContent_eq_ok h.1
  have hevery : Traces.Every (State.step sha256) (fun _ move _ => move.Known (Saved (moves ++ moves')))
      initial moves :=
    Traces.every_of_forall_mem fun move h => hknown move (List.mem_append_left _ h)
  have hevery' : Traces.Every (State.step sha256) (fun _ move _ => move.Known (Saved (moves ++ moves')))
      before moves' :=
    Traces.every_of_forall_mem fun move h => hknown move (List.mem_append_right _ h)
  have hread := Traces.invariant (read_step hsize) read_initial hevery hbefore
  have hread' := Traces.invariant (read_step hsize) hread hevery' hafter
  refine ⟨fun revision ino h => published_run hread.toSound
      (fun move h => hknown move (List.mem_append_right _ h)) hafter h,
    fun revision ino h => (hread'.store.content _ _ h).1, ?_, ?_⟩
  · intro id data result hsave hvalid
    exact saved_iff hsize hrevision hevery hbefore hsave hvalid
  · intro id data failed load result hsaved hvalid hnone hload
    have hhas : before.store.Has (sha256 data) := (hread.reads _ _ hsaved).2
    rw [← loaded_iff hsize (hrevision data) hread hhas hnone hevery' hafter hload]
    constructor
    · rintro rfl
      exact ⟨data, rfl⟩
    · rintro ⟨found, rfl⟩
      obtain ⟨hdigest, -, id', hmem⟩ := hread'.reads _ _ hload
      obtain ⟨-, id, hmem'⟩ := hread.calls _ _ hsaved data rfl hvalid
      rw [hcollision _ _ _ _ hmem hmem' hdigest]

/-- The SHA-256 of `letter`. -/
def letterDigest (_ : Bytes) : Text :=
  "ca978112ca1bbdcafac231b39a23dc4da786eff8147c4e72b9807785afee48bb".toList

def letter : Bytes := "a".toUTF8.data.toList

def saveLetter : List Move :=
  [.save 0 letter, .run 0 0, .run 0 0, .run 0 0, .run 0 0, .run 0 0, .run 0 0]

def finishLetter : List Move :=
  [.run 0 0, .run 0 0, .run 0 0, .run 0 0, .run 0 0, .run 0 0, .run 0 0]

def loadLetter : List Move := [.load 1 (letterDigest letter), .run 1 0, .run 1 0, .run 1 0, .run 1 0, .run 1 0]

theorem revisions_survive_letter :
    ∃ before after,
      Traces.after (State.step letterDigest) initial (saveLetter ++ finishLetter) = some before ∧
      Traces.after (State.step letterDigest) before loadLetter = some after ∧
      Traces.Every (State.step letterDigest) (fun state move _ => state.Alone 0 move) initial
        (saveLetter ++ finishLetter) ∧
      Traces.Every (State.step letterDigest) (fun state move _ => state.Alone 1 move) before loadLetter := by
  have hruns : ((Traces.after (State.step letterDigest) initial (saveLetter ++ finishLetter)).bind
      fun before => (Traces.after (State.step letterDigest) before loadLetter).map fun after =>
        (before.processes 0, before.processes 1, after.processes 1)) =
      some (some ⟨.save letter, .saved (.ok (letterDigest letter)), false⟩, none,
        some ⟨.load (letterDigest letter), .loaded (.ok letter), false⟩) := by
    decide +kernel
  rw [Option.bind_eq_some_iff] at hruns
  obtain ⟨before, hbefore, hruns⟩ := hruns
  rw [Option.map_eq_some_iff] at hruns
  obtain ⟨after, hafter, hprocesses⟩ := hruns
  simp only [Prod.mk.injEq] at hprocesses
  obtain ⟨hsaved, hnone, hloaded⟩ := hprocesses
  have hcontent : ∀ id data, .save id data ∈ (saveLetter ++ finishLetter) ++ loadLetter →
      data = letter := by
    intro id data h
    simp only [saveLetter, finishLetter, loadLetter, List.cons_append, List.nil_append, List.mem_cons,
      Move.save.injEq, reduceCtorEq, List.not_mem_nil, or_false, or_self] at h
    exact h.2
  obtain ⟨-, -, hsave, hload⟩ := revisions_survive
    (fun _ => by unfold letterDigest; decide +kernel)
    (fun id id' data data' h h' _ => (hcontent id data h).trans (hcontent id' data' h').symm)
    hbefore hafter
  have hvalid : validateContent letter = .ok () := by decide +kernel
  exact ⟨before, after, hbefore, hafter, (hsave _ _ _ hsaved hvalid).mp rfl,
    (hload _ _ _ _ _ hsaved hvalid hnone hloaded).mp rfl⟩

/-- A save stops between its link and its unlink: no later save of its data is accepted. -/
theorem save_refused_letter :
    (Traces.after (State.step letterDigest) initial
      (saveLetter ++ [.stop 0, .save 1 letter, .run 1 0, .run 1 0])).map (fun state => state.processes 1) =
      some (some ⟨.save letter, .saved (.error unsafeFile), false⟩) := by
  decide +kernel

end Hapatchy.ManagedPatchStore
