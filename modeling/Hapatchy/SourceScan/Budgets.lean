import Hapatchy.SourceScan.Steps

/-!
# The scan ends within its budgets

A load and a walk count themselves before they recur, so their recursion is
over when the count is, whatever the depth says.
-/

open Effects

namespace Hapatchy

namespace SourceScan

variable {tree : SourceTree} {s s' : Scanner} {k : Nat} {counter : Counter}

/-! ## Counting -/

@[simp] theorem bump_log : (s.bump counter).log = s.log := rfl

@[simp] theorem bump_counts : (s.bump counter).counts counter = s.counts counter + 1 := by
  simp [Scanner.bump]

theorem bump_counts_of_ne {other : Counter} (h : other ≠ counter) :
    (s.bump counter).counts other = s.counts other := by
  simp [Scanner.bump, h]

theorem counts_le_bump (other : Counter) : s.counts other ≤ (s.bump counter).counts other := by
  by_cases h : other = counter
  · rw [h, bump_counts]
    omega
  · rw [bump_counts_of_ne h]

theorem Step.counts_le (h : Step tree s s') : s.counts counter ≤ s'.counts counter := by
  cases h with
  | overspent other => exact counts_le_bump counter
  | spent other h => exact counts_le_bump counter
  | _ => exact Nat.le_refl _

theorem count_ok (h : count counter s = (.ok (), s')) :
    s.counts counter < counter.limit ∧ s.counts counter + 1 ≤ s'.counts counter := by
  rcases count_run (s := s) counter with ⟨hlt, hrun⟩ | ⟨-, hrun⟩ <;> rw [hrun] at h <;> cases h
  exact ⟨hlt, Nat.le_of_eq bump_counts.symm⟩

/-! ## Agreement -/

/-- The program does not lower the counter. -/
abbrev Counting {α : Type} (counter : Counter) (m : Scan α) : Prop :=
  Prog.Counts (fun s : Scanner => s.counts counter) m

/-- The programs agree from `k` counts on. -/
abbrev Agree {α : Type} (counter : Counter) (k : Nat) (m m' : Scan α) : Prop :=
  Prog.AgreeFrom (fun s : Scanner => s.counts counter) k m m'

theorem counting_count {other : Counter} : Counting counter (count other) := by
  intro s
  rcases count_run (s := s) other with ⟨-, hrun⟩ | ⟨-, hrun⟩ <;> rw [hrun]
  · exact .single (counts_le_bump counter)
  · exact .single (counts_le_bump counter)

/-- A file that is admitted has been counted. -/
theorem admitFile_ok {args : LoadArgs} {node : Node} (h : admitFile tree args s = (.ok node, s')) :
    s.counts .loads < Counter.loads.limit ∧ s.counts .loads + 1 ≤ s'.counts .loads := by
  obtain ⟨_, t, hasked, hchecks⟩ := Prog.bind_ok_iff.mp h
  obtain ⟨-, rfl⟩ := Prog.change_eq_iff.mp hasked
  obtain ⟨-, hchecks⟩ := denyIf_bind_ok_iff.mp hchecks
  obtain ⟨-, hchecks⟩ := denyIf_bind_ok_iff.mp hchecks
  obtain ⟨_, u, hcount, hrecord⟩ := Prog.bind_ok_iff.mp hchecks
  obtain ⟨hlt, hle⟩ := count_ok hcount
  have hrecorded : Counting .loads (recordFile tree args) :=
    runs_recordFile fun _ _ => Step.counts_le
  exact ⟨hlt, Nat.le_trans hle (hrecorded.le hrecord)⟩

section

variable {walk walk' : WalkArgs → Scan (List Path)} (hcounts : ∀ args, Counting counter (walk args))
  (h : ∀ args, Agree counter k (walk args) (walk' args))

include h

theorem agree_walkEntry {scope relative : Path} {inventory : List Path} {name : Text} :
    Agree counter k (walkEntry tree walk scope relative inventory name)
      (walkEntry tree walk' scope relative inventory name) := by
  refine Prog.agree_ite (fun _ => Prog.agree_refl) fun _ => ?_
  refine Prog.agree_bind counting_count Prog.agree_refl fun _ => ?_
  split
  · exact Prog.agree_refl
  · split
    · exact Prog.agree_bind runs_denyIf Prog.agree_refl fun _ => h _
    · exact Prog.agree_refl
    · exact Prog.agree_refl

include hcounts

theorem agree_entries {scope : Path} {args : WalkArgs} :
    Agree counter k
      (do
        denyIf (tree.fails .listing (scope ++ args.relative))
        (tree.fs.names (scope ++ args.relative)).foldlM
          (fun inventory name => walkEntry tree walk scope args.relative inventory name)
          args.inventory)
      (do
        denyIf (tree.fails .listing (scope ++ args.relative))
        (tree.fs.names (scope ++ args.relative)).foldlM
          (fun inventory name => walkEntry tree walk' scope args.relative inventory name)
          args.inventory) :=
  Prog.agree_bind runs_denyIf Prog.agree_refl fun _ =>
    Prog.agree_foldlM (fun _ _ _ => runs_walkEntry (fun _ _ => Step.counts_le) hcounts)
      fun _ _ _ => agree_walkEntry h

end

section

variable {load load' : LoadArgs → Scan Unit} (hcounts : ∀ args, Counting counter (load args))
  (h : ∀ args, Agree counter k (load args) (load' args))

include hcounts h

theorem agree_includeDirectory {args : LoadArgs} :
    Agree counter k (includeDirectory tree load args) (includeDirectory tree load' args) :=
  Prog.agree_bind (runs_recordDirectory fun _ _ => Step.counts_le) Prog.agree_refl fun _ =>
    Prog.agree_forM (fun _ _ => hcounts _) fun _ _ => h _

theorem agree_secretCandidates {parent : Path} {context : Context} :
    Agree counter k (secretCandidates load parent context)
      (secretCandidates load' parent context) := by
  refine Prog.agree_forM (fun _ _ => ?_) fun _ _ => ?_
  · exact Prog.runs_bind (Prog.runs_change fun _ => Nat.le_refl _) fun _ =>
      Prog.runs_rescue (hcounts _) fun _ =>
        Prog.runs_ite (fun _ => Prog.runs_pure) fun _ => Prog.runs_raise
  · exact Prog.agree_bind (Prog.runs_change fun _ => Nat.le_refl _) Prog.agree_refl fun _ =>
      Prog.agree_rescue (hcounts _) (h _) fun _ => Prog.agree_refl

theorem agree_visitTag {current : Path} {depth : Nat} {node : YamlNode} {context : Context} :
    Agree counter k (visitTag tree load current depth node context)
      (visitTag tree load' current depth node context) := by
  unfold visitTag
  cases node with
  | scalar tag value =>
    refine Prog.agree_ite (fun _ => ?_) fun _ => Prog.agree_ite (fun _ => ?_) fun _ =>
      Prog.agree_ite (fun _ => ?_) fun _ => Prog.agree_refl
    · exact Prog.agree_bind runs_pathOperand Prog.agree_refl fun _ =>
        Prog.agree_bind counting_count Prog.agree_refl fun _ => h _
    · exact Prog.agree_bind runs_pathOperand Prog.agree_refl fun _ =>
        Prog.agree_bind counting_count Prog.agree_refl fun _ => agree_includeDirectory hcounts h
    · exact Prog.agree_bind runs_literalOperand Prog.agree_refl fun _ =>
        agree_secretCandidates hcounts h
  | sequence tag items => exact Prog.agree_refl
  | mapping tag pairs => exact Prog.agree_refl

omit hcounts h in
theorem agree_visitPairs {node : Nat → YamlNode} {visit visit' : Nat → Context → Scan Unit}
    (hcounts : ∀ id context, Counting counter (visit id context))
    (h : ∀ id context, Agree counter k (visit id context) (visit' id context)) {context : Context}
    {pairs : List (Nat × Nat)} {keys : List (Text × Text)} :
    Agree counter k (visitPairs node visit context pairs keys)
      (visitPairs node visit' context pairs keys) := by
  induction pairs generalizing keys with
  | nil => exact Prog.agree_refl
  | cons pair pairs ih =>
    exact Prog.agree_bind runs_denyIf Prog.agree_refl fun _ =>
      Prog.agree_bind (hcounts _ _) (h _ _) fun _ =>
      Prog.agree_bind (hcounts _ _) (h _ _) fun _ => ih

omit hcounts h in
theorem agree_visit {tagged tagged' : YamlNode → Context → Scan Unit}
    (hcounts : ∀ node context, Counting counter (tagged node context))
    (h : ∀ node context, Agree counter k (tagged node context) (tagged' node context))
    {node : Nat → YamlNode} {remaining : Nat} {active : List Nat} {id : Nat} {context : Context} :
    Agree counter k (visit tagged node remaining active id context)
      (visit tagged' node remaining active id context) := by
  induction remaining generalizing active id context with
  | zero => exact Prog.agree_refl
  | succ remaining ih =>
    have hvisit : ∀ active id context,
        Counting counter (visit tagged node remaining active id context) :=
      fun _ _ _ => runs_visit (fun _ => counting_count) hcounts
    refine Prog.agree_bind runs_denyIf Prog.agree_refl fun _ =>
      Prog.agree_bind counting_count Prog.agree_refl fun _ =>
      Prog.agree_bind runs_denyIf Prog.agree_refl fun _ =>
      Prog.agree_ite (fun _ => h _ _) fun _ => ?_
    split
    · exact Prog.agree_forM (fun _ _ => hvisit _ _ _) fun _ _ => ih
    · exact agree_visitPairs (hvisit _) fun _ _ => ih
    · exact Prog.agree_refl

theorem agree_composeAndVisit {data : Bytes} {args : LoadArgs} :
    Agree counter k (composeAndVisit tree load data args) (composeAndVisit tree load' data args) := by
  refine Prog.agree_bind (Prog.runs_forM fun _ _ => counting_count) Prog.agree_refl fun _ =>
    Prog.agree_bind runs_denyIf Prog.agree_refl fun _ => ?_
  split
  · exact Prog.agree_refl
  · exact Prog.agree_refl
  · exact agree_visit (fun _ _ => runs_visitTag (fun _ _ => Step.counts_le) hcounts)
      fun _ _ => agree_visitTag hcounts h

theorem agree_opened {data : Bytes} {args : LoadArgs} :
    Agree counter k
      (do
        push args.parts
        Prog.ensure (composeAndVisit tree load data args) fun _ => pop args.parts
        note (.completed args.parts))
      (do
        push args.parts
        Prog.ensure (composeAndVisit tree load' data args) fun _ => pop args.parts
        note (.completed args.parts)) :=
  Prog.agree_bind (Prog.runs_change fun _ => Nat.le_refl _) Prog.agree_refl fun _ =>
    Prog.agree_bind (runs_opened (fun _ _ => Step.counts_le) hcounts)
      (Prog.agree_ensure (agree_composeAndVisit hcounts h)) fun _ => Prog.agree_refl

end

/-! ## Recursion within a budget -/

theorem budgeted_walk (scope : Path) :
    Prog.Budgeted (walkWith tree scope) (fun s => s.counts .directoriesSeen)
      Counter.directoriesSeen.limit where
  counts _ hcall _ := runs_walkWith (fun _ _ => Step.counts_le) hcall
  agrees call call' args s hcall h := by
    refine Prog.bind_run_congr fun _ t hcount => ?_
    obtain ⟨hlt, hle⟩ := count_ok hcount
    exact agree_entries hcall (h hlt) t hle

theorem budgeted_load :
    Prog.Budgeted (loadWith tree) (fun s => s.counts .loads) Counter.loads.limit where
  counts _ hcall _ :=
    runs_loadWith (fun _ _ => Step.counts_le) hcall (fun _ _ => Nat.le_refl _)
      fun _ _ => Nat.le_refl _
  agrees call call' args s hcall h := by
    refine Prog.bind_run_congr fun node t hadmit => ?_
    obtain ⟨hlt, hle⟩ := admitFile_ok hadmit
    exact agree_opened hcall (h hlt) t hle

end SourceScan

end Hapatchy
