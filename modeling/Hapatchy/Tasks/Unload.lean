import Hapatchy.Tasks.Slots

/-!
# Unloading

`async_unload_entry` around the tasks of a runtime. It sets `closing` while
Home Assistant unloads the platforms, and takes it back where that is refused
or raises. Home Assistant makes one attempt at a time for an entry.
-/

namespace Hapatchy.Tasks

/-! ## Attempts -/

/-- The loop, and the entries that are being unloaded. -/
structure Host where
  loop : Loop
  unloading : Finset Nat := ∅

inductive UnloadMove where
  /-- Any move, where `closing` is left to the moves below. A stop of Home Assistant is `close`. -/
  | move (move : Move)
  /-- `async_unload_entry`, up to the await of the platforms. -/
  | unload (runtime : Nat)
  /-- The platforms are unloaded. -/
  | accepted (runtime : Nat)
  | refused (runtime : Nat)
  | raised (runtime : Nat)
  deriving DecidableEq

/-- `schedule`, which may do nothing. -/
def Loop.scheduleReconcile (runtime : Nat) (loop : Loop) (patchId : Text) : Loop :=
  (loop.step (.schedule runtime patchId)).getD loop

/-- The move is one of an attempt. -/
def Move.setsClosing : Move → Bool
  | .setClosing .. => true
  | _ => false

def Loop.setClosing (loop : Loop) (runtime : Nat) (closing : Bool) : Loop :=
  loop.modify runtime fun state => { state with closing := closing }

namespace Host

/-- One move, where `enabled` are the enabled definitions of each runtime in their order. -/
def step (enabled : Nat → List Text) (host : Host) : UnloadMove → Option Host
  | .move move =>
    if move.setsClosing then none
    else (host.loop.step move).map fun loop => { host with loop := loop }
  | .unload runtime =>
    if runtime ∈ host.unloading then none
    else some ⟨host.loop.setClosing runtime true, insert runtime host.unloading⟩
  | .accepted runtime =>
    if runtime ∈ host.unloading then
      (host.loop.step (.close runtime)).map fun loop => ⟨loop, host.unloading.erase runtime⟩
    else none
  | .refused runtime =>
    if runtime ∈ host.unloading then
      some ⟨(enabled runtime).foldl (Loop.scheduleReconcile runtime)
        (host.loop.setClosing runtime false), host.unloading.erase runtime⟩
    else none
  | .raised runtime =>
    if runtime ∈ host.unloading then
      some ⟨host.loop.setClosing runtime false, host.unloading.erase runtime⟩
    else none

end Host

/-! ## What is asked of an attempt -/

namespace UnloadMove

/-- The move ends the attempt of the runtime. -/
def exits (runtime : Nat) : UnloadMove → Bool
  | .accepted r => r = runtime
  | .refused r => r = runtime
  | .raised r => r = runtime
  | _ => false

/-- The move calls `async_close`. -/
def closes (runtime : Nat) : UnloadMove → Bool
  | .move (.close r) => r = runtime
  | .accepted r => r = runtime
  | _ => false

/-- The move is a file event on the target of the patch, or its timer. -/
def concerns (runtime : Nat) (patchId : Text) : UnloadMove → Bool
  | .move (.event r patchIds) => r = runtime && decide (patchId ∈ patchIds)
  | .move (.fire r p _) => r = runtime && decide (p = patchId)
  | _ => false

end UnloadMove

/-- While the runtime is closing, an event or a timer of the patch goes by. -/
def Discards (runtime : Nat) (patchId : Text) (host : Host) (move : UnloadMove) : Prop :=
  (host.loop.runtimes runtime).closing = true ∧ move.concerns runtime patchId = true

/-- A reconcile of the patch is scheduled between the two states. -/
def Rescheduled (runtime : Nat) (patchId : Text) (before after : Host) : Prop :=
  ∃ i ≥ before.loop.callers.length,
    after.loop.callers[i]? = some ⟨.background, runtime, patchId, .reconcile, .created⟩

/-- The runtime is open again after the attempt: `during` runs from `start` to `before`, and the
end of the attempt leads to `after`. -/
structure Reopened (enabled : Nat → List Text) (runtime : Nat) (start : Host)
    (during : List UnloadMove) (before after : Host) : Prop where
  opened : (after.loop.runtimes runtime).closing = false
  unclosed : ∀ close ∈ after.loop.closes, close.runtime ≠ runtime
  rescheduled : ∀ patchId ∈ enabled runtime, patchId ∉ (after.loop.runtimes runtime).suppressReapply →
    ∀ earlier move later seen, during = earlier ++ move :: later →
      Traces.after (Host.step enabled) start earlier = some seen →
      Discards runtime patchId seen move → Rescheduled runtime patchId before after

/-! ## Scheduling -/

namespace Loop

variable {loop after : Loop} {r : Nat} {p : Text}

theorem setClosing_self (closing : Bool) :
    (loop.setClosing r closing).runtimes r = { loop.runtimes r with closing := closing } :=
  modify_self ..

/-- What `schedule` leaves alone. -/
structure Schedules (r : Nat) (loop after : Loop) : Prop where
  callers : loop.callers <+: after.callers
  closes : after.closes = loop.closes
  closing : ∀ q, (after.runtimes q).closing = (loop.runtimes q).closing
  suppressed : (after.runtimes r).suppressReapply = (loop.runtimes r).suppressReapply

theorem Schedules.refl : Schedules r loop loop := ⟨List.prefix_rfl, rfl, fun _ => rfl, rfl⟩

theorem Schedules.trans {last : Loop} (h : Schedules r loop after) (h' : Schedules r after last) :
    Schedules r loop last :=
  ⟨h.callers.trans h'.callers, h'.closes.trans h.closes, fun q => (h'.closing q).trans (h.closing q),
    h'.suppressed.trans h.suppressed⟩

theorem schedules_scheduleReconcile (r : Nat) (loop : Loop) (p : Text) :
    Schedules r loop (loop.scheduleReconcile r p) := by
  unfold scheduleReconcile Loop.step
  simp only
  split
  · exact .refl
  · rw [Option.getD_some]
    exact ⟨List.prefix_append _ _, rfl, modify_field (g := Runtime.closing) (by intro _; rfl),
      modify_field (g := Runtime.suppressReapply) (by intro _; rfl) r⟩

theorem schedules_all (r : Nat) (loop : Loop) (ps : List Text) :
    Schedules r loop (ps.foldl (scheduleReconcile r) loop) := by
  induction ps generalizing loop with
  | nil => exact .refl
  | cons p ps ih => exact (schedules_scheduleReconcile r loop p).trans (ih _)

/-- An open runtime schedules a reconcile of each patch that is not suppressed. -/
theorem scheduled_all {ps : List Text} (hopen : (loop.runtimes r).closing = false) (hp : p ∈ ps)
    (hsuppressed : p ∉ (loop.runtimes r).suppressReapply) :
    ∃ i ≥ loop.callers.length, (ps.foldl (scheduleReconcile r) loop).callers[i]? =
      some ⟨.background, r, p, .reconcile, .created⟩ := by
  induction ps generalizing loop with
  | nil => cases hp
  | cons q ps ih =>
    have hfirst := schedules_scheduleReconcile r loop q
    rw [List.foldl_cons]
    rcases List.mem_cons.mp hp with rfl | hp
    · refine ⟨loop.callers.length, le_rfl, ?_⟩
      have hnew : (loop.scheduleReconcile r p).callers =
          loop.callers ++ [⟨.background, r, p, .reconcile, .created⟩] := by
        unfold scheduleReconcile Loop.step
        simp only
        rw [if_neg (by simp [hopen, hsuppressed])]
        rfl
      obtain ⟨rest, hrest⟩ := (schedules_all r (loop.scheduleReconcile r p) ps).callers
      rw [← hrest, hnew, List.append_assoc, List.getElem?_append_right le_rfl, Nat.sub_self]
      rfl
    · obtain ⟨i, hi, hcaller⟩ := ih ((hfirst.closing r).trans hopen) hp (hfirst.suppressed ▸ hsuppressed)
      exact ⟨i, hfirst.callers.length_le.trans hi, hcaller⟩

/-! ## Calls of `async_close` -/

theorem closes_asyncAction (index : Nat) (caller : Caller) :
    (loop.asyncAction index caller).closes = loop.closes := by
  unfold Loop.asyncAction
  simp only
  split
  · exact (endCaller_eq ..).2.2
  · rfl

theorem closes_fire (q : Nat) (p : Text) (eager : Bool) : (loop.fire q p eager).closes = loop.closes := by
  unfold Loop.fire
  simp only
  split
  · rfl
  · split
    · rfl
    · cases eager with
      | false => rfl
      | true => exact closes_asyncAction ..

/-- The calls of `async_close` that a move makes. -/
def Move.closed : Move → List Nat
  | .close runtime => [runtime]
  | _ => []

theorem closes_step {move : Move} (h : loop.step move = some after) :
    after.closes.map Close.runtime = loop.closes.map Close.runtime ++ Move.closed move := by
  cases hcalls : Move.calls move with
  | false =>
    have hnone : Move.closed move = [] := by
      cases move <;> first | rfl | cases hcalls
    rw [hnone, List.append_nil, (still h hcalls).closes]
  | true =>
    have hsame (hcloses : after.closes = loop.closes) (hnone : Move.closed move = []) :
        after.closes.map Close.runtime = loop.closes.map Close.runtime ++ Move.closed move := by
      rw [hnone, List.append_nil, hcloses]
    cases move with
    | call runtime patchId action =>
      cases h
      exact hsame rfl rfl
    | schedule runtime patchId =>
      unfold Loop.step at h
      simp only at h
      split at h
      · cases h
      · cases h
        exact hsame rfl rfl
    | start index =>
      obtain ⟨caller, -, h⟩ := Option.bind_eq_some_iff.mp h
      split at h
      · cases h
        exact hsame (closes_asyncAction ..) rfl
      · cases h
    | resume index =>
      obtain ⟨caller, -, h⟩ := Option.bind_eq_some_iff.mp h
      split at h
      · split at h
        · cases h
          exact hsame (endCaller_eq ..).2.2 rfl
        · cases h
      · cases h
    | cancel index =>
      obtain ⟨caller, -, h⟩ := Option.bind_eq_some_iff.mp h
      split at h
      · cases h
        exact hsame (endCaller_eq ..).2.2 rfl
      · cases h
        exact hsame (endCaller_eq ..).2.2 rfl
      · cases h
    | fire runtime patchId eager =>
      unfold Loop.step at h
      simp only at h
      split at h
      · cases h
        exact hsame (closes_fire ..) rfl
      · cases h
    | close runtime =>
      cases h
      exact List.map_append
    | _ => cases hcalls

end Loop

/-! ## Steps of an attempt -/

namespace Host

variable {enabled : Nat → List Text} {host after start before final : Host} {r : Nat} {p : Text}
  {move exit : UnloadMove} {moves during earlier : List UnloadMove}

theorem step_move_eq_some {m : Move} (h : host.step enabled (.move m) = some after) :
    (∀ q closing, m ≠ .setClosing q closing) ∧ host.loop.step m = some after.loop := by
  unfold step at h
  simp only at h
  split at h
  · cases h
  · rename_i hm
    obtain ⟨loop, hloop, rfl⟩ := Option.map_eq_some_iff.mp h
    refine ⟨?_, hloop⟩
    rintro q closing rfl
    exact hm rfl

/-- A runtime that is closing stays so, unless its attempt ends. -/
theorem closing_step (h : host.step enabled move = some after) (hmove : move.exits r = false)
    (hclosing : (host.loop.runtimes r).closing = true) : (after.loop.runtimes r).closing = true := by
  cases move with
  | move m =>
    obtain ⟨hm, hloop⟩ := step_move_eq_some h
    exact (Loop.stepped hloop fun q => hm q false).closing_mono hclosing
  | unload q =>
    unfold step at h
    simp only at h
    split at h
    · cases h
    · cases h
      exact Loop.modify_closing (f := fun state => { state with closing := true }) (fun _ _ => rfl)
        hclosing
  | accepted q =>
    unfold step at h
    simp only at h
    split at h
    · obtain ⟨loop, hloop, rfl⟩ := Option.map_eq_some_iff.mp h
      exact (Loop.stepped hloop nofun).closing_mono hclosing
    · cases h
  | refused q =>
    have hne : r ≠ q := fun heq => of_decide_eq_false hmove heq.symm
    unfold step at h
    simp only at h
    split at h
    · cases h
      rw [(Loop.schedules_all q _ (enabled q)).closing r]
      exact (congrArg Runtime.closing (Loop.modify_of_ne _ hne)).trans hclosing
    · cases h
  | raised q =>
    have hne : r ≠ q := fun heq => of_decide_eq_false hmove heq.symm
    unfold step at h
    simp only at h
    split at h
    · cases h
      change ((host.loop.setClosing q false).runtimes r).closing = true
      unfold Loop.setClosing
      rw [Loop.modify_of_ne _ hne]
      exact hclosing
    · cases h

theorem closing_run (h : Traces.after (step enabled) host moves = some after)
    (hmoves : ∀ m ∈ moves, m.exits r = false) (hclosing : (host.loop.runtimes r).closing = true) :
    (after.loop.runtimes r).closing = true :=
  Traces.invariant (I := fun host : Host => (host.loop.runtimes r).closing = true)
    (fun s l t hs (hstep : step enabled s l = some t) (hexit : l.exits r = false) =>
      closing_step hstep hexit hs) hclosing (Traces.every_of_forall_mem hmoves) h

/-- There is a call of `async_close` on the runtime. -/
def Called (r : Nat) (host : Host) : Prop := ∃ close ∈ host.loop.closes, close.runtime = r

theorem called_iff : Called r host ↔ r ∈ host.loop.closes.map Close.runtime := by
  rw [List.mem_map]
  rfl

theorem called_step (h : host.step enabled move = some after) :
    Called r after ↔ Called r host ∨ move.closes r = true := by
  rw [called_iff, called_iff]
  cases move with
  | move m =>
    obtain ⟨-, hloop⟩ := step_move_eq_some h
    rw [Loop.closes_step hloop, List.mem_append]
    refine or_congr_right ?_
    cases m with
    | close q =>
      change r ∈ [q] ↔ decide (q = r) = true
      rw [List.mem_singleton, decide_eq_true_eq, eq_comm]
    | _ => exact iff_of_false List.not_mem_nil Bool.false_ne_true
  | unload q =>
    unfold step at h
    simp only at h
    split at h
    · cases h
    · cases h
      exact (or_iff_left Bool.false_ne_true).symm
  | accepted q =>
    unfold step at h
    simp only at h
    split at h
    · obtain ⟨loop, hloop, rfl⟩ := Option.map_eq_some_iff.mp h
      rw [Loop.closes_step hloop, List.mem_append]
      refine or_congr_right ?_
      change r ∈ [q] ↔ decide (q = r) = true
      rw [List.mem_singleton, decide_eq_true_eq, eq_comm]
    · cases h
  | refused q =>
    unfold step at h
    simp only at h
    split at h
    · cases h
      rw [(Loop.schedules_all q _ (enabled q)).closes]
      exact (or_iff_left Bool.false_ne_true).symm
    · cases h
  | raised q =>
    unfold step at h
    simp only at h
    split at h
    · cases h
      exact (or_iff_left Bool.false_ne_true).symm
    · cases h

/-- There is a call where one was made. -/
theorem called_run (h : Traces.after (step enabled) host moves = some after) :
    Called r after ↔ Called r host ∨ ∃ m ∈ moves, m.closes r = true := by
  induction moves generalizing host with
  | nil =>
    cases h
    simp
  | cons m moves ih =>
    obtain ⟨next, hnext, hrest⟩ := Traces.after_cons.mp h
    rw [ih hrest, called_step hnext, List.exists_mem_cons_iff, or_assoc]

/-! ## The end of an attempt -/

theorem refused_eq_some (h : host.step enabled (.refused r) = some after) :
    (after.loop.runtimes r).closing = false ∧
      (after.loop.runtimes r).suppressReapply = (host.loop.runtimes r).suppressReapply ∧
      ∀ p ∈ enabled r, p ∉ (host.loop.runtimes r).suppressReapply → Rescheduled r p host after := by
  unfold step at h
  simp only at h
  split at h
  · cases h
    have hall := Loop.schedules_all r (host.loop.setClosing r false) (enabled r)
    refine ⟨?_, ?_, fun p hp hsuppressed => ?_⟩
    · rw [hall.closing, Loop.setClosing_self]
    · rw [hall.suppressed, Loop.setClosing_self]
    · refine @Loop.scheduled_all (host.loop.setClosing r false) _ _ _ ?_ hp ?_
      · rw [Loop.setClosing_self]
      · rw [Loop.setClosing_self]
        exact hsuppressed
  · cases h

theorem raised_eq_some (h : host.step enabled (.raised r) = some after) :
    (after.loop.runtimes r).closing = false ∧
      (after.loop.runtimes r).suppressReapply = (host.loop.runtimes r).suppressReapply ∧
      ∀ p, ¬ Rescheduled r p host after := by
  unfold step at h
  simp only at h
  split at h
  · cases h
    refine ⟨?_, ?_, ?_⟩
    · rw [Loop.setClosing_self]
    · rw [Loop.setClosing_self]
    · rintro p ⟨i, hi, hcaller⟩
      have hlt := (List.getElem?_eq_some_iff.mp hcaller).1
      exact absurd (Nat.lt_of_lt_of_le hlt hi) (Nat.lt_irrefl _)
  · cases h

/-- After an attempt that Home Assistant refuses or that raises, the runtime is open, nobody has called
`async_close` on it, and what was discarded is scheduled again, exactly if there was no such call and
the attempt was refused, or nothing of an enabled patch that is not suppressed came by. -/
theorem reopened_iff {current suppressReapply : Nat → Finset Text}
    (hexit : exit = .refused r ∨ exit = .raised r) (hduring : ∀ m ∈ during, m.exits r = false)
    (hearlier : Traces.after (step enabled) ⟨Loop.idle current suppressReapply, ∅⟩
      (earlier ++ [.unload r]) = some start)
    (hbefore : Traces.after (step enabled) start during = some before)
    (hafter : before.step enabled exit = some after) :
    Reopened enabled r start during before after ↔
      (∀ m ∈ earlier ++ during, m.closes r = false) ∧
        (exit = .refused r ∨ ∀ p ∈ enabled r, p ∉ (before.loop.runtimes r).suppressReapply →
          ∀ m ∈ during, m.concerns r p = false) := by
  have hcalled : Called r after ↔ ∃ m ∈ earlier ++ during, m.closes r = true := by
    have hnone : ¬ Called r ⟨Loop.idle current suppressReapply, ∅⟩ := by
      rintro ⟨close, hclose, -⟩
      cases hclose
    have hend : ¬ exit.closes r = true := by
      obtain rfl | rfl := hexit <;> exact Bool.false_ne_true
    have hrun := (called_run (r := r) hearlier).trans (or_iff_right hnone)
    rw [called_step hafter, or_iff_left hend, called_run hbefore, hrun]
    simp only [List.mem_append, List.mem_singleton, or_and_right, exists_or, exists_eq_left]
    refine or_congr_left (or_iff_left ?_)
    exact Bool.false_ne_true
  have hstart : (start.loop.runtimes r).closing = true := by
    obtain ⟨host, -, hunload⟩ := Traces.after_append.mp hearlier
    obtain ⟨next, hnext, hend⟩ := Traces.after_cons.mp hunload
    cases hend
    unfold step at hnext
    simp only at hnext
    split at hnext
    · cases hnext
    · cases hnext
      rw [Loop.setClosing_self]
  have hclosing {first : List UnloadMove} {seen : Host} (hfirst : ∀ m ∈ first, m ∈ during)
      (hseen : Traces.after (step enabled) start first = some seen) :
      (seen.loop.runtimes r).closing = true :=
    closing_run hseen (fun m hm => hduring m (hfirst m hm)) hstart
  constructor
  · intro h
    refine ⟨fun m hm => ?_, ?_⟩
    · refine Bool.eq_false_iff.mpr fun hm' => ?_
      obtain ⟨close, hclose, hruntime⟩ := hcalled.mpr ⟨m, hm, hm'⟩
      exact h.unclosed close hclose hruntime
    · obtain rfl | rfl := hexit
      · exact Or.inl rfl
      · obtain ⟨-, hsuppressed, hnone⟩ := raised_eq_some hafter
        refine Or.inr fun p hp hp' m hm => Bool.eq_false_iff.mpr fun hconcerns => ?_
        obtain ⟨first, later, rfl⟩ := List.append_of_mem hm
        obtain ⟨seen, hseen, -⟩ := Traces.after_append.mp hbefore
        have hseen' := hclosing (fun m hm => List.mem_append_left _ hm) hseen
        exact hnone p (h.rescheduled p hp (hsuppressed ▸ hp') first m later seen rfl hseen
          ⟨hseen', hconcerns⟩)
  · rintro ⟨hnone, hend⟩
    have hunclosed : ∀ close ∈ after.loop.closes, close.runtime ≠ r := by
      intro close hclose hruntime
      obtain ⟨m, hm, hm'⟩ := hcalled.mp ⟨close, hclose, hruntime⟩
      rw [hnone m hm] at hm'
      cases hm'
    obtain rfl | rfl := hexit
    · obtain ⟨hopen, hsuppressed, hall⟩ := refused_eq_some hafter
      exact ⟨hopen, hunclosed, fun p hp hp' _ _ _ _ _ _ _ => hall p hp (hsuppressed ▸ hp')⟩
    · obtain ⟨hopen, hsuppressed, -⟩ := raised_eq_some hafter
      refine ⟨hopen, hunclosed, fun p hp hp' first m later seen heq _ hdiscards => ?_⟩
      have hquiet := (hend.resolve_left nofun) p hp (hsuppressed ▸ hp') m
        (heq ▸ List.mem_append_right _ List.mem_cons_self)
      rw [hdiscards.2] at hquiet
      cases hquiet

/-- One runtime with one enabled patch. -/
def onePatch : Host := ⟨Loop.idle (fun _ => {['p']}) fun _ => ∅, ∅⟩

/-- An event comes while Home Assistant refuses to unload. -/
theorem reopened_refused : ∃ start before after,
    Traces.after (step fun _ => [['p']]) onePatch [.unload 0] = some start ∧
      Traces.after (step fun _ => [['p']]) start [.move (.event 0 [['p']])] = some before ∧
      before.step (fun _ => [['p']]) (.refused 0) = some after ∧
      Reopened (fun _ => [['p']]) 0 start [.move (.event 0 [['p']])] before after := by
  have hrun : (Traces.after (step fun _ => [['p']]) onePatch
      ([.unload 0] ++ ([.move (.event 0 [['p']])] ++ [.refused 0]))).isSome := by decide +kernel
  obtain ⟨after, hrun⟩ := Option.isSome_iff_exists.mp hrun
  obtain ⟨start, hstart, hrest⟩ := Traces.after_append.mp hrun
  obtain ⟨before, hbefore, hexit⟩ := Traces.after_append.mp hrest
  obtain ⟨last, hafter, hend⟩ := Traces.after_cons.mp hexit
  cases hend
  have hearlier : Traces.after (step fun _ => [['p']]) onePatch ([] ++ [.unload 0]) = some start :=
    hstart
  exact ⟨start, before, after, hstart, hbefore, hafter,
    (reopened_iff (.inl rfl) (by decide) hearlier hbefore hafter).mpr ⟨by decide, .inl rfl⟩⟩

/-- A call of `async_close`, from its start to its end. -/
def closingMoves : List UnloadMove := [.close 0, .enter 0, .stopped 0, .joined 0, .drained 0, .reaped 0,
  .relock 0, .closeSaved 0].map .move

/-- When the platforms raise, an event that was discarded is lost. When Home Assistant stops in the
meantime, a runtime that is closed is opened. -/
theorem not_reopened :
    (∃ start before after,
      Traces.after (step fun _ => [['p']]) onePatch [.unload 0] = some start ∧
        Traces.after (step fun _ => [['p']]) start [.move (.event 0 [['p']])] = some before ∧
        before.step (fun _ => [['p']]) (.raised 0) = some after ∧
        ¬ Reopened (fun _ => [['p']]) 0 start [.move (.event 0 [['p']])] before after) ∧
    ∃ start before after,
      Traces.after (step fun _ => [['p']]) onePatch [.unload 0] = some start ∧
        Traces.after (step fun _ => [['p']]) start closingMoves = some before ∧
        before.step (fun _ => [['p']]) (.refused 0) = some after ∧
        (after.loop.runtimes 0).closed = true ∧ (after.loop.runtimes 0).closing = false ∧
        ¬ Reopened (fun _ => [['p']]) 0 start closingMoves before after := by
  constructor
  · have hrun : (Traces.after (step fun _ => [['p']]) onePatch
        ([.unload 0] ++ ([.move (.event 0 [['p']])] ++ [.raised 0]))).map
          (fun after => (after.loop.runtimes 0).suppressReapply) = some ∅ := by decide +kernel
    obtain ⟨after, hrun, hsuppressed⟩ := Option.map_eq_some_iff.mp hrun
    obtain ⟨start, hstart, hrest⟩ := Traces.after_append.mp hrun
    obtain ⟨before, hbefore, hexit⟩ := Traces.after_append.mp hrest
    obtain ⟨last, hafter, hend⟩ := Traces.after_cons.mp hexit
    cases hend
    refine ⟨start, before, after, hstart, hbefore, hafter, fun h => ?_⟩
    have hclosing : (Traces.after (step fun _ => [['p']]) onePatch [.unload 0]).map
        (fun start => (start.loop.runtimes 0).closing) = some true := by decide +kernel
    rw [hstart, Option.map_some, Option.some_inj] at hclosing
    obtain ⟨-, -, hnone⟩ := raised_eq_some hafter
    refine hnone ['p'] (h.rescheduled ['p'] (List.mem_singleton_self _) ?_ [] _ [] start rfl rfl
      ⟨hclosing, by decide⟩)
    rw [hsuppressed]
    exact Finset.notMem_empty _
  · have hrun : (Traces.after (step fun _ => [['p']]) onePatch
        ([.unload 0] ++ (closingMoves ++ [.refused 0]))).map (fun after =>
          ((after.loop.runtimes 0).closed, (after.loop.runtimes 0).closing,
            after.loop.closes.map Close.runtime)) = some (true, false, [0]) := by decide +kernel
    obtain ⟨after, hrun, hview⟩ := Option.map_eq_some_iff.mp hrun
    obtain ⟨start, hstart, hrest⟩ := Traces.after_append.mp hrun
    obtain ⟨before, hbefore, hexit⟩ := Traces.after_append.mp hrest
    obtain ⟨last, hafter, hend⟩ := Traces.after_cons.mp hexit
    cases hend
    simp only [Prod.mk.injEq] at hview
    obtain ⟨hclosed, hclosing, hcloses⟩ := hview
    refine ⟨start, before, after, hstart, hbefore, hafter, hclosed, hclosing, fun h => ?_⟩
    obtain ⟨close, hclose, hruntime⟩ := called_iff.mpr (hcloses ▸ List.mem_singleton_self 0)
    exact h.unclosed close hclose hruntime

end Host

end Hapatchy.Tasks
