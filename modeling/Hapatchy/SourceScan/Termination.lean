import Mathlib.Algebra.GroupWithZero.Nat
import Hapatchy.SourceScan.Budgets

/-!
# What a scan spends, and where it stops

The limits hold of the log of every scan, whatever its outcome. A file that is
asked for while it is still being loaded ends the scan: its denial is caught
nowhere.
-/

open Effects

namespace Hapatchy

namespace SourceScan

variable {tree : SourceTree} {s s' : Scanner} {log : List ScanEvent} {p : Path}

/-! ## What a scan spends -/

def ScanEvent.completions : ScanEvent → Nat
  | .completed _ => 1
  | _ => 0

def completedIn (log : List ScanEvent) : Nat := (log.map ScanEvent.completions).sum

def spentIn (counter : Counter) (log : List ScanEvent) : Nat := log.count (.spent counter)

structure WithinLimits (log : List ScanEvent) : Prop where
  completed : completedIn log ≤ 512
  followed : spentIn .includes log ≤ 512
  visited : spentIn .nodes log ≤ 65536
  walked : spentIn .directoriesSeen log ≤ 256
  counted : spentIn .entries log ≤ 4096

@[simp] theorem spentIn_logged {counter : Counter} {event : ScanEvent} :
    spentIn counter (s.logged event).log =
      spentIn counter s.log + if event = .spent counter then 1 else 0 := by
  simp [spentIn, Scanner.logged, List.count_append, List.count_singleton]

@[simp] theorem completedIn_logged {event : ScanEvent} :
    completedIn (s.logged event).log = completedIn s.log + event.completions := by
  simp [completedIn, Scanner.logged]

/-- The log has no more than the counter says, and no more than its limit. -/
def Spent (counter : Counter) (s : Scanner) : Prop :=
  spentIn counter s.log ≤ s.counts counter ∧ spentIn counter s.log ≤ counter.limit

theorem Spent.logged {counter : Counter} (hs : Spent counter s) {event : ScanEvent}
    (hevent : event ≠ .spent counter) : Spent counter (s.logged event) := by
  unfold Spent
  rw [spentIn_logged, if_neg hevent]
  exact hs

theorem Step.spent_of {counter : Counter} (h : Step tree s s') (hs : Spent counter s) :
    Spent counter s' := by
  cases h with
  | overspent other => exact ⟨Nat.le_trans hs.1 (counts_le_bump counter), hs.2⟩
  | spent other hlt =>
    have hbumped : Spent counter (s.bump other) :=
      ⟨Nat.le_trans hs.1 (counts_le_bump counter), hs.2⟩
    by_cases heq : other = counter
    · subst heq
      have hspent : spentIn other s.log ≤ s.counts other := hs.1
      have hcounts : ((s.bump other).logged (.spent other)).counts other = s.counts other + 1 :=
        bump_counts
      unfold Spent
      rw [spentIn_logged, if_pos rfl, hcounts]
      exact ⟨Nat.succ_le_succ hspent, Nat.lt_of_le_of_lt hspent hlt⟩
    · exact hbumped.logged (by simp [heq])
  | pushed p => exact Spent.logged (s := { s with stack := s.stack.insert p }) hs (by simp)
  | popped p => exact Spent.logged (s := { s with stack := s.stack.erase p }) hs (by simp)
  | _ => exact hs

/-- Of the loads counted between the two states, all but `n` have not been completed there. -/
def Paid (n : Nat) (s s' : Scanner) : Prop :=
  completedIn s'.log + spentIn .loads s.log + n ≤ completedIn s.log + spentIn .loads s'.log

theorem paid_logged {event : ScanEvent} (h : event.completions = 0) :
    Paid 0 s (s.logged event) := by
  unfold Paid
  rw [completedIn_logged, spentIn_logged, h]
  omega

theorem Step.paid (h : Step tree s s') : Paid 0 s s' := by
  cases h with
  | spent other hlt => exact paid_logged (s := s.bump other) rfl
  | pushed p => exact paid_logged (s := { s with stack := s.stack.insert p }) rfl
  | popped p => exact paid_logged (s := { s with stack := s.stack.erase p }) rfl
  | _ => exact Nat.le_refl _

theorem Paid.trans {t : Scanner} {n m : Nat} (h : Paid n s t) (h' : Paid m t s') :
    Paid (n + m) s s' := by
  unfold Paid at *
  omega

theorem paid_of_runs {α : Type} {m : Scan α} {out : Except Exc α} (h : Prog.Runs (Paid 0) m)
    (hrun : m s = (out, s')) : Paid 0 s s' := by
  have hsteps := h.of_eq hrun
  clear hrun
  induction hsteps with
  | refl => exact Nat.le_refl _
  | tail _ hstep ih => exact ih.trans hstep

theorem paid_asked (s : Scanner) (p : Path) : Paid 0 s (s.logged (.asked p)) := paid_logged rfl

/-- A load that has been admitted is paid for. -/
theorem paid_admitFile {args : LoadArgs} {node : Node}
    (h : admitFile tree args s = (.ok node, s')) : Paid 1 s s' := by
  obtain ⟨_, t, hasked, hchecks⟩ := Prog.bind_ok_iff.mp h
  obtain ⟨-, rfl⟩ := Prog.change_eq_iff.mp hasked
  obtain ⟨-, hchecks⟩ := denyIf_bind_ok_iff.mp hchecks
  obtain ⟨-, hchecks⟩ := denyIf_bind_ok_iff.mp hchecks
  obtain ⟨_, u, hcount, hrecord⟩ := Prog.bind_ok_iff.mp hchecks
  have hcounted : Paid 1 (s.logged (.asked args.parts)) u := by
    rcases count_run .loads with ⟨-, hrun⟩ | ⟨-, hrun⟩ <;> rw [hrun] at hcount <;> cases hcount
    simp only [Paid, completedIn_logged, spentIn_logged, bump_log, ScanEvent.completions,
      reduceCtorEq, if_false, if_true]
    omega
  exact ((paid_asked s args.parts).trans hcounted).trans
    (paid_of_runs (runs_recordFile fun _ _ => Step.paid) hrecord)

theorem paid_load {args : LoadArgs} : Prog.Runs (Paid 0) (load tree args) := by
  refine Prog.unfolded_induction (fun call hcall args s => .single ?_) (fun _ => runs_deny) _ _
  rcases hrun : loadWith tree call args s with ⟨out, s'⟩
  change Paid 0 s s'
  have hvisits : ∀ data, Prog.Runs (Paid 0) (composeAndVisit tree call data args) :=
    fun _ => runs_composeAndVisit (fun _ _ => Step.paid) hcall
  rcases loadWith_cases hrun with ⟨e, hadmit⟩ | ⟨node, t, hadmit, hcases⟩
  · exact paid_of_runs (runs_admitFile (fun _ _ => Step.paid) paid_asked) hadmit
  have hpushed : Paid 1 s (t.pushed args.parts) :=
    (paid_admitFile hadmit).trans (Step.pushed args.parts : Step tree t _).paid
  rcases hcases with ⟨e, u, hvisit, rfl⟩ | ⟨u, hvisit, rfl⟩
  · have hpaid := (hpushed.trans (paid_of_runs (hvisits _) hvisit)).trans
      (Step.popped args.parts : Step tree u _).paid
    unfold Paid at *
    omega
  · have hpaid := (hpushed.trans (paid_of_runs (hvisits _) hvisit)).trans
      (Step.popped args.parts : Step tree u _).paid
    unfold Paid at *
    rw [completedIn_logged, spentIn_logged, if_neg (by simp), ScanEvent.completions]
    omega

theorem scan_withinLimits : WithinLimits (scan tree {}).2.log := by
  rcases hrun : scan tree {} with ⟨out, s⟩
  have hspent : ∀ counter, spentIn counter s.log ≤ counter.limit := by
    intro counter
    have hruns : Prog.Runs (fun s s' => Spent counter s → Spent counter s') (scan tree) :=
      runs_load (fun _ _ => Step.spent_of) (fun _ _ hs => hs.logged (by simp))
        fun _ _ hs => hs.logged (by simp)
    exact (hruns.invariant (fun _ _ hstep => hstep) hrun ⟨Nat.zero_le _, Nat.zero_le _⟩).2
  have hpaid := paid_of_runs paid_load hrun
  have hloads := hspent .loads
  refine ⟨?_, hspent .includes, hspent .nodes, hspent .directoriesSeen, hspent .entries⟩
  have hnone : completedIn ([] : List ScanEvent) = 0 ∧ spentIn .loads [] = 0 := ⟨rfl, rfl⟩
  unfold Paid at hpaid
  simp only [hnone] at hpaid
  change spentIn .loads s.log ≤ 512 at hloads
  change completedIn s.log ≤ 512
  omega

/-! ## Files that come back -/

def ScanEvent.loading (files : List Path) : ScanEvent → List Path
  | .entered p => files.insert p
  | .left p => files.erase p
  | _ => files

/-- The files that are still being loaded after `log`. -/
def loading (log : List ScanEvent) : List Path := log.foldl ScanEvent.loading []

/-- No file has been asked for that was still being loaded. -/
def Calm (log : List ScanEvent) : Prop :=
  ∀ before p after, log = before ++ .asked p :: after → p ∉ loading before

/-- After the last thing that was asked for, nothing has been asked for. -/
def Refused (log : List ScanEvent) : Prop :=
  ∃ before p after, log = before ++ .asked p :: after ∧ Calm before ∧ ∀ q, .asked q ∉ after

theorem loading_logged {event : ScanEvent} :
    loading (s.logged event).log = event.loading (loading s.log) := by
  simp [loading, Scanner.logged]

theorem Calm.append {event : ScanEvent} (h : Calm log)
    (hevent : ∀ p, event = .asked p → p ∉ loading log) : Calm (log ++ [event]) := by
  intro before p after heq
  rcases List.eq_nil_or_concat after with rfl | ⟨after', last, rfl⟩
  · obtain ⟨rfl, hlast⟩ := List.append_inj' heq rfl
    exact hevent p (List.cons.inj hlast).1
  · have heq' : log ++ [event] = (before ++ .asked p :: after') ++ [last] := by simpa using heq
    obtain ⟨hlog, -⟩ := List.append_inj' heq' rfl
    exact h before p after' hlog

/-- The stack is what the log says, and nothing has come back. -/
def Quiet (s : Scanner) : Prop := s.stack = loading s.log ∧ Calm s.log

/-- So it is still, or the scan is being denied. -/
def Stopped (e : Exc) (s : Scanner) : Prop := Quiet s ∨ e = denial ∧ Refused s.log

theorem Quiet.logged (h : Quiet s) {event : ScanEvent} (hloading : event.loading s.stack = s.stack)
    (hevent : ∀ p, event = .asked p → p ∉ s.stack) : Quiet (s.logged event) := by
  obtain ⟨hstack, hcalm⟩ := h
  refine ⟨?_, hcalm.append fun p hp => hstack ▸ hevent p hp⟩
  rw [loading_logged, ← hstack, hloading]
  rfl

theorem Quiet.pushed (h : Quiet s) (p : Path) : Quiet (s.pushed p) := by
  refine ⟨?_, h.2.append (by simp)⟩
  rw [Scanner.pushed, loading_logged, ← h.1]
  rfl

theorem Quiet.popped (h : Quiet s) (p : Path) : Quiet (s.popped p) := by
  refine ⟨?_, h.2.append (by simp)⟩
  rw [Scanner.popped, loading_logged, ← h.1]
  rfl

theorem Quiet.spent (h : Quiet s) (counter : Counter) :
    Quiet ((s.bump counter).logged (.spent counter)) :=
  Quiet.logged (s := s.bump counter) h rfl (by simp)

theorem Step.quiet (h : Step tree s s') (hs : Quiet s) : Quiet s' := by
  cases h with
  | spent counter hlt => exact hs.spent counter
  | pushed p => exact hs.pushed p
  | popped p => exact hs.popped p
  | _ => exact hs

theorem keeps_of_quiet {α : Type} {m : Scan α}
    (h : Prog.Runs (fun s s' => Quiet s → Quiet s') m) : Prog.Keeps Quiet Stopped m :=
  Prog.keeps_of_runs h (fun _ _ hstep => hstep) fun _ _ => Or.inl

theorem keeps_count {counter : Counter} : Prog.Keeps Quiet Stopped (count counter) := by
  intro s hs
  rcases count_run (s := s) counter with ⟨-, hrun⟩ | ⟨-, hrun⟩ <;> rw [hrun]
  · exact hs.spent counter
  · exact Or.inl hs

theorem Refused.append {event : ScanEvent} (h : Refused log) (hevent : ∀ q, event ≠ .asked q) :
    Refused (log ++ [event]) := by
  obtain ⟨before, p, after, rfl, hcalm, hafter⟩ := h
  refine ⟨before, p, after ++ [event], by simp, hcalm, fun q hq => ?_⟩
  rcases List.mem_append.mp hq with hq | hq
  · exact hafter q hq
  · exact hevent q (List.mem_singleton.mp hq).symm

theorem Stopped.popped {e : Exc} (h : Stopped e s) (p : Path) : Stopped e (s.popped p) := by
  rcases h with h | ⟨he, h⟩
  · exact Or.inl (h.popped p)
  · exact Or.inr ⟨he, h.append (by simp)⟩

section

variable {load : LoadArgs → Scan Unit} (hload : ∀ args, Prog.Keeps Quiet Stopped (load args))

include hload

theorem keeps_includeDirectory {args : LoadArgs} :
    Prog.Keeps Quiet Stopped (includeDirectory tree load args) :=
  Prog.keeps_bind (keeps_of_quiet (runs_recordDirectory fun _ _ => Step.quiet)) fun _ =>
    Prog.keeps_forM fun _ _ => hload _

theorem keeps_secretCandidates {parent : Path} {context : Context} :
    Prog.Keeps Quiet Stopped (secretCandidates load parent context) := by
  refine Prog.keeps_forM fun _ _ => Prog.keeps_bind (fun _ hs => hs) fun _ =>
    Prog.keeps_rescue (hload _) fun e s hs => ?_
  -- a denial is not what the lookup catches
  by_cases he : e = .os .fileNotFound
  · subst he
    rcases hs with hs | ⟨⟨⟩, -⟩
    exact hs
  · rw [if_neg he]
    exact hs

theorem keeps_visitTag {current : Path} {depth : Nat} {node : YamlNode} {context : Context} :
    Prog.Keeps Quiet Stopped (visitTag tree load current depth node context) := by
  unfold visitTag
  cases node with
  | scalar tag value =>
    refine Prog.keeps_ite (fun _ => ?_) fun _ => Prog.keeps_ite (fun _ => ?_) fun _ =>
      Prog.keeps_ite (fun _ => ?_) fun _ => Prog.keeps_pure
    · exact Prog.keeps_bind (keeps_of_quiet runs_pathOperand) fun _ =>
        Prog.keeps_bind keeps_count fun _ => hload _
    · exact Prog.keeps_bind (keeps_of_quiet runs_pathOperand) fun _ =>
        Prog.keeps_bind keeps_count fun _ =>
        keeps_includeDirectory hload
    · exact Prog.keeps_bind (keeps_of_quiet runs_literalOperand) fun _ =>
        keeps_secretCandidates hload
  | sequence tag items => exact keeps_of_quiet runs_deny
  | mapping tag pairs => exact keeps_of_quiet runs_deny

omit hload in
theorem keeps_visitPairs {node : Nat → YamlNode} {visit : Nat → Context → Scan Unit}
    (hvisit : ∀ id context, Prog.Keeps Quiet Stopped (visit id context)) {context : Context}
    {pairs : List (Nat × Nat)} {keys : List (Text × Text)} :
    Prog.Keeps Quiet Stopped (visitPairs node visit context pairs keys) := by
  induction pairs generalizing keys with
  | nil => exact Prog.keeps_pure
  | cons pair pairs ih =>
    exact Prog.keeps_bind (keeps_of_quiet runs_denyIf) fun _ => Prog.keeps_bind (hvisit _ _) fun _ =>
      Prog.keeps_bind (hvisit _ _) fun _ => ih

omit hload in
theorem keeps_visit {tagged : YamlNode → Context → Scan Unit}
    (htagged : ∀ node context, Prog.Keeps Quiet Stopped (tagged node context))
    {node : Nat → YamlNode} {remaining : Nat} {active : List Nat} {id : Nat} {context : Context} :
    Prog.Keeps Quiet Stopped (visit tagged node remaining active id context) := by
  induction remaining generalizing active id context with
  | zero => exact keeps_of_quiet runs_deny
  | succ remaining ih =>
    refine Prog.keeps_bind (keeps_of_quiet runs_denyIf) fun _ => Prog.keeps_bind keeps_count fun _ =>
      Prog.keeps_bind (keeps_of_quiet runs_denyIf) fun _ =>
      Prog.keeps_ite (fun _ => htagged _ _) fun _ => ?_
    split
    · exact Prog.keeps_forM fun _ _ => ih
    · exact keeps_visitPairs fun _ _ => ih
    · exact Prog.keeps_pure

theorem keeps_composeAndVisit {data : Bytes} {args : LoadArgs} :
    Prog.Keeps Quiet Stopped (composeAndVisit tree load data args) := by
  refine Prog.keeps_bind (Prog.keeps_forM fun _ _ => keeps_count) fun _ =>
    Prog.keeps_bind (keeps_of_quiet runs_denyIf) fun _ => ?_
  split
  · exact keeps_of_quiet runs_deny
  · exact Prog.keeps_pure
  · exact keeps_visit fun _ _ => keeps_visitTag hload

omit hload in
/-- A file that is still being loaded is not read again. -/
theorem keeps_admitFile {args : LoadArgs} : Prog.Keeps Quiet Stopped (admitFile tree args) := by
  intro s hs
  by_cases hback : args.parts ∈ s.stack
  · have hdenied : admitFile tree args s = (.error denial, s.logged (.asked args.parts)) := by
      refine denyIf_bind_eq_iff.mpr ?_
      by_cases hdepth : 16 < args.depth
      · exact Or.inl ⟨decide_eq_true hdepth, rfl, rfl⟩
      · exact Or.inr ⟨decide_eq_false hdepth,
          denyIf_bind_eq_iff.mpr (Or.inl ⟨decide_eq_true hback, rfl, rfl⟩)⟩
    rw [hdenied]
    exact Or.inr ⟨rfl, s.log, args.parts, [], rfl, hs.2, by simp⟩
  · have hasked : Quiet (s.logged (.asked args.parts)) := by
      refine hs.logged rfl fun p hp => ?_
      cases hp
      exact hback
    have hrest : Prog.Keeps Quiet Stopped (do
        denyIf (16 < args.depth)
        denyIf (args.parts ∈ (← Prog.read).stack)
        count .loads
        recordFile tree args) :=
      Prog.keeps_bind (keeps_of_quiet runs_denyIf) fun _ => Prog.keeps_bind Prog.keeps_read fun _ =>
        Prog.keeps_bind (keeps_of_quiet runs_denyIf) fun _ => Prog.keeps_bind keeps_count fun _ =>
        keeps_of_quiet (runs_recordFile fun _ _ => Step.quiet)
    exact hrest _ hasked

theorem keeps_loadWith {args : LoadArgs} : Prog.Keeps Quiet Stopped (loadWith tree load args) :=
  Prog.keeps_bind keeps_admitFile fun _ => Prog.keeps_bind (fun _ hs => Quiet.pushed hs _) fun _ =>
    Prog.keeps_bind (Prog.keeps_ensure_change (keeps_composeAndVisit hload)
      (fun _ hs => hs.popped _) fun _ _ hs => hs.popped _) fun _ => fun _ hs => hs.logged rfl (by simp)

end

theorem keeps_load {args : LoadArgs} : Prog.Keeps Quiet Stopped (load tree args) :=
  Prog.unfolded_induction (fun _ hload _ => keeps_loadWith hload)
    (fun _ => keeps_of_quiet runs_deny) _ _

/-- A file that came back is the last thing that was asked for. -/
theorem Refused.of_mem (h : Refused log) {before after : List ScanEvent}
    (heq : log = before ++ .asked p :: after) (hback : p ∈ loading before) :
    ∀ q, .asked q ∉ after := by
  obtain ⟨before', p', after', rfl, hcalm, hafter⟩ := h
  rcases List.append_eq_append_iff.mp heq with ⟨between, rfl, hrest⟩ | ⟨between, rfl, hrest⟩
  · cases between with
    | nil =>
      obtain ⟨-, rfl⟩ := List.cons.inj hrest
      exact hafter
    | cons event between =>
      obtain ⟨-, rfl⟩ := List.cons.inj hrest
      exact absurd (by simp) (hafter p)
  · cases between with
    | nil =>
      obtain ⟨-, rfl⟩ := List.cons.inj hrest
      exact hafter
    | cons event between =>
      obtain ⟨rfl, -⟩ := List.cons.inj hrest
      exact absurd hback (hcalm before p between rfl)

/-! ## The scan -/

/-- The recursion of the scan is over within its budgets, whatever would stand beyond them, and a
file that is asked for while it is being loaded ends the scan with a denial. -/
theorem scan_terminates (tree : SourceTree) :
    (∀ beyond, Prog.unfolded (loadWith tree) beyond 513 = load tree) ∧
      loadWith tree (load tree) = load tree ∧
      (∀ scope beyond, Prog.unfolded (walkWith tree scope) beyond 257 = walkDirectory tree scope) ∧
      (∀ scope, walkWith tree scope (walkDirectory tree scope) = walkDirectory tree scope) ∧
      WithinLimits (scan tree {}).2.log ∧
      ∀ before p after, (scan tree {}).2.log = before ++ .asked p :: after → p ∈ loading before →
        (scan tree {}).1 = .error denial ∧ ∀ q, .asked q ∉ after := by
  refine ⟨fun beyond => (budgeted_load.unfolded_bottom fun _ => runs_deny).symm,
    budgeted_load.solves fun _ => runs_deny,
    fun scope beyond => ((budgeted_walk scope).unfolded_bottom fun _ => runs_deny).symm,
    fun scope => (budgeted_walk scope).solves fun _ => runs_deny, scan_withinLimits, ?_⟩
  intro before p after heq hback
  have hend : Prog.Ends Quiet Stopped (scan tree {}) := keeps_load {} ⟨rfl, by simp [Calm]⟩
  rcases hrun : scan tree {} with ⟨e | _, s⟩ <;> rw [hrun] at hend heq
  · rcases hend with hquiet | ⟨rfl, hrefused⟩
    · exact absurd hback (hquiet.2 before p after heq)
    · exact ⟨rfl, hrefused.of_mem heq hback⟩
  · exact absurd hback (hend.2 before p after heq)

/-- A configuration that is one `!include` of itself. -/
def selfIncluding : SourceTree where
  fs := ((∅ : Fs).insert [] ⟨.directory, [], 1, 0, 0, 0o755, 0, 0, 2, none⟩).insert
    ["configuration.yaml".toList] ⟨.file, [0], 2, 0, 0, 0o644, 0, 0, 1, none⟩
  fails _ _ := false
  sha256 _ := []
  yaml _ :=
    { events := 1
      parses := true
      composed := some (some ⟨fun _ => .scalar includeTag "configuration.yaml".toList, 0⟩) }

theorem scan_terminates_selfIncluding : (scan selfIncluding {}).1 = .error denial :=
  have hback := (scan_terminates selfIncluding).2.2.2.2.2
    [.asked ["configuration.yaml".toList], .spent .loads, .entered ["configuration.yaml".toList],
      .spent .events, .spent .nodes, .spent .includes]
    ["configuration.yaml".toList] [.left ["configuration.yaml".toList]]
  (hback (by decide +kernel) (by decide +kernel)).1

end SourceScan

end Hapatchy
