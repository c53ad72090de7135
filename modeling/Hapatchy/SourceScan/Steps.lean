import Hapatchy.Lib.Results
import Hapatchy.SourceScan

/-!
# What a scan does to its state

Besides the notes of what is asked for and completed, the scanner only takes
the steps below, also where it raises.
-/

open Effects

namespace Hapatchy

namespace SourceScan

variable {tree : SourceTree} {S : Scanner → Scanner → Prop} {s s' : Scanner} {p : Path}

/-! ## Steps -/

inductive Step (tree : SourceTree) (s : Scanner) : Scanner → Prop where
  | overspent (counter : Counter) : Step tree s (s.bump counter)
  | spent (counter : Counter) (h : s.counts counter < counter.limit) :
      Step tree s ((s.bump counter).logged (.spent counter))
  | bytes (n : Nat) : Step tree s { s with totalBytes := s.totalBytes + n }
  | source (p : Path) (node : Node) (h : stat tree p = .ok node) (hnew : s.sources.lookup p = none) :
      Step tree s { s with sources := s.sources.insert p (sourceFile tree p node) }
  | directory (scope : DirectoryScope) (h : ∃ node, stat tree scope.path = .ok node)
      (hnew : s.directories.lookup scope.path = none) :
      Step tree s { s with directories := s.directories.insert scope.path scope }
  | secret (p : Path) : Step tree s { s with secrets := s.secrets.insert p }
  | grant (p : Path) : Step tree s { s with grantSources := s.grantSources.insert p }
  | pushed (p : Path) : Step tree s (s.pushed p)
  | popped (p : Path) : Step tree s (s.popped p)

/-! ## Single calls -/

theorem runs_deny {α : Type} : Prog.Runs S (deny : Scan α) := Prog.runs_raise

theorem denyIf_bind_eq_iff {α : Type} {c : Bool} {f : Unit → Scan α} {out : Except Exc α} :
    (denyIf c >>= f) s = (out, s') ↔
      (c = true ∧ out = .error denial ∧ s' = s) ∨ (c = false ∧ f () s = (out, s')) := by
  cases c
  · simp [denyIf, Prog.bind_run, Prog.pure_run]
  · simp [denyIf, deny, Prog.bind_eq_iff, and_comm]

theorem denyIf_bind_ok_iff {α : Type} {c : Bool} {f : Unit → Scan α} {a : α} :
    (denyIf c >>= f) s = (.ok a, s') ↔ c = false ∧ f () s = (.ok a, s') := by
  simp [denyIf_bind_eq_iff]

theorem lift_bind_ok_iff {α β : Type} {x : Except Exc α} {f : α → Scan β} {b : β} :
    (Prog.lift x >>= f) s = (.ok b, s') ↔ ∃ a, x = .ok a ∧ f a s = (.ok b, s') := by
  rw [Prog.bind_ok_iff]
  simp only [Prog.lift_eq_iff]
  constructor
  · rintro ⟨a, t, ⟨rfl, rfl⟩, h⟩
    exact ⟨a, rfl, h⟩
  · rintro ⟨a, rfl, h⟩
    exact ⟨a, s, ⟨rfl, rfl⟩, h⟩

theorem runs_denyIf {c : Bool} : Prog.Runs S (denyIf c) :=
  Prog.runs_ite (fun _ => runs_deny) fun _ => Prog.runs_pure

/-- One increment, either within the limit or with a denial. -/
theorem count_run (counter : Counter) :
    (s.counts counter < counter.limit ∧
      count counter s = (.ok (), (s.bump counter).logged (.spent counter))) ∨
    (counter.limit ≤ s.counts counter ∧ count counter s = (.error denial, s.bump counter)) := by
  have hrun : count counter s =
      (denyIf (counter.limit < (s.bump counter).counts counter) >>= fun _ => note (.spent counter))
        (s.bump counter) := rfl
  have hcounts : (s.bump counter).counts counter = s.counts counter + 1 := by
    simp [Scanner.bump]
  rw [hrun, hcounts]
  by_cases hlt : s.counts counter < counter.limit
  · refine Or.inl ⟨hlt, ?_⟩
    rw [denyIf, decide_eq_false (by omega)]
    rfl
  · refine Or.inr ⟨by omega, ?_⟩
    rw [denyIf, decide_eq_true (by omega)]
    rfl

theorem stat_of_readFile {node : Node} (h : readFile tree p s = (.ok node, s')) :
    stat tree p = .ok node ∧ s' = s := by
  simp only [readFile, openParent, denyIf_bind_ok_iff, lift_bind_ok_iff,
    Results.mapError_eq_ok] at h
  obtain ⟨-, info, hstat, -, -, hread⟩ := h
  split at hread
  · cases hread
  · obtain ⟨hinfo, rfl⟩ := Prog.pure_eq_iff.mp hread
    cases hinfo
    exact ⟨hstat, rfl⟩

theorem stat_of_openDirectory {node : Node} (h : openDirectory tree p s = (.ok node, s')) :
    stat tree p = .ok node ∧ s' = s := by
  simp only [openDirectory, openParent, denyIf_bind_ok_iff, lift_bind_ok_iff,
    Results.mapError_eq_ok] at h
  obtain ⟨-, info, hstat, -, -, hopen⟩ := h
  obtain ⟨hinfo, rfl⟩ := Prog.pure_eq_iff.mp hopen
  cases hinfo
  exact ⟨hstat, rfl⟩

section

variable (hS : ∀ s s', Step tree s s' → S s s')

include hS

theorem runs_count (counter : Counter) : Prog.Runs S (count counter) := by
  intro s
  rcases count_run (s := s) counter with ⟨hlt, hrun⟩ | ⟨-, hrun⟩ <;> rw [hrun]
  · exact .single (hS _ _ (.spent counter hlt))
  · exact .single (hS _ _ (.overspent counter))

omit hS in
theorem runs_literalOperand {value : Text} : Prog.Runs S (literalOperand value) :=
  Prog.runs_bind runs_denyIf fun _ => runs_denyIf

omit hS in
theorem runs_pathOperand {value : Text} : Prog.Runs S (pathOperand value) := by
  refine Prog.runs_bind runs_literalOperand fun _ => ?_
  split
  · exact runs_deny
  · exact Prog.runs_pure

omit hS in
theorem runs_readFile {parts : Path} : Prog.Runs S (readFile tree parts) :=
  Prog.runs_bind runs_denyIf fun _ => Prog.runs_bind Prog.runs_lift fun _ =>
    Prog.runs_bind runs_denyIf fun _ => Prog.runs_bind runs_denyIf fun _ =>
      Prog.runs_ite (fun _ => Prog.runs_raise) fun _ => Prog.runs_pure

omit hS in
theorem runs_openDirectory {parts : Path} : Prog.Runs S (openDirectory tree parts) :=
  Prog.runs_bind runs_denyIf fun _ => Prog.runs_bind Prog.runs_lift fun _ =>
    Prog.runs_bind runs_denyIf fun _ => Prog.runs_bind runs_denyIf fun _ => Prog.runs_pure

theorem runs_setSource {node : Node} (h : stat tree p = .ok node) :
    Prog.Runs S (setSource (sourceFile tree p node)) := by
  intro s
  unfold setSource
  rw [Prog.read_bind]
  cases hnew : s.sources.lookup p with
  | some previous =>
    simp only [sourceFile, hnew]
    exact .refl
  | none =>
    simp only [sourceFile, hnew]
    exact .single (hS _ _ (.source p node h hnew))

theorem runs_setDirectory {scope : DirectoryScope} (h : ∃ node, stat tree scope.path = .ok node) :
    Prog.Runs S (setDirectory scope) := by
  intro s
  unfold setDirectory
  rw [Prog.read_bind]
  cases hnew : s.directories.lookup scope.path with
  | some previous => exact .refl
  | none => exact .single (hS _ _ (.directory scope h hnew))

/-! ## Walks -/

theorem runs_walkEntry {walk : WalkArgs → Scan (List Path)} (hwalk : ∀ args, Prog.Runs S (walk args))
    {scope relative : Path} {inventory : List Path} {name : Text} :
    Prog.Runs S (walkEntry tree walk scope relative inventory name) := by
  unfold walkEntry
  refine Prog.runs_ite (fun _ => Prog.runs_pure) fun _ =>
    Prog.runs_bind (runs_count hS _) fun _ => ?_
  split
  · exact runs_deny
  · split
    · exact Prog.runs_bind runs_denyIf fun _ => hwalk _
    · exact Prog.runs_bind runs_denyIf fun _ =>
        Prog.runs_ite (fun _ => Prog.runs_pure) fun _ => Prog.runs_pure
    · exact runs_deny

theorem runs_walkWith {walk : WalkArgs → Scan (List Path)} (hwalk : ∀ args, Prog.Runs S (walk args))
    {scope : Path} {args : WalkArgs} : Prog.Runs S (walkWith tree scope walk args) :=
  Prog.runs_bind (runs_count hS _) fun _ => Prog.runs_bind runs_denyIf fun _ =>
    Prog.runs_foldlM fun _ _ _ => runs_walkEntry hS hwalk

theorem runs_walkDirectory {scope : Path} {args : WalkArgs} :
    Prog.Runs S (walkDirectory tree scope args) :=
  Prog.unfolded_induction (fun _ hwalk _ => runs_walkWith hS hwalk) (fun _ => runs_deny) _ _

theorem runs_recordDirectory {parts : Path} : Prog.Runs S (recordDirectory tree parts) :=
  Prog.runs_bind_of runs_openDirectory fun node _ _ hopen =>
    Prog.runs_bind (runs_walkDirectory hS) fun _ =>
    Prog.runs_bind (runs_setDirectory hS ⟨node, (stat_of_openDirectory hopen).1⟩) fun _ =>
    Prog.runs_bind runs_denyIf fun _ => Prog.runs_pure

/-! ## Visits -/

section

variable {load : LoadArgs → Scan Unit} (hload : ∀ args, Prog.Runs S (load args))

include hload

theorem runs_includeDirectory {args : LoadArgs} : Prog.Runs S (includeDirectory tree load args) :=
  Prog.runs_bind (runs_recordDirectory hS) fun _ => Prog.runs_forM fun _ _ => hload _

theorem runs_secretCandidates {parent : Path} {context : Context} :
    Prog.Runs S (secretCandidates load parent context) :=
  Prog.runs_forM fun _ _ => Prog.runs_bind (Prog.runs_change fun _ => hS _ _ (.secret _)) fun _ =>
    Prog.runs_rescue (hload _) fun _ => Prog.runs_ite (fun _ => Prog.runs_pure) fun _ => Prog.runs_raise

theorem runs_visitTag {current : Path} {depth : Nat} {node : YamlNode} {context : Context} :
    Prog.Runs S (visitTag tree load current depth node context) := by
  unfold visitTag
  cases node with
  | scalar tag value =>
    refine Prog.runs_ite (fun _ => ?_) fun _ => Prog.runs_ite (fun _ => ?_) fun _ =>
      Prog.runs_ite (fun _ => ?_) fun _ => Prog.runs_pure
    · exact Prog.runs_bind runs_pathOperand fun _ => Prog.runs_bind (runs_count hS _) fun _ => hload _
    · exact Prog.runs_bind runs_pathOperand fun _ => Prog.runs_bind (runs_count hS _) fun _ =>
        runs_includeDirectory hS hload
    · exact Prog.runs_bind runs_literalOperand fun _ => runs_secretCandidates hS hload
  | sequence tag items => exact runs_deny
  | mapping tag pairs => exact runs_deny

omit hS hload in
theorem runs_visitPairs {node : Nat → YamlNode} {visit : Nat → Context → Scan Unit}
    (hvisit : ∀ id context, Prog.Runs S (visit id context)) {context : Context}
    {pairs : List (Nat × Nat)} {keys : List (Text × Text)} :
    Prog.Runs S (visitPairs node visit context pairs keys) := by
  induction pairs generalizing keys with
  | nil => exact Prog.runs_pure
  | cons pair pairs ih =>
    exact Prog.runs_bind runs_denyIf fun _ => Prog.runs_bind (hvisit _ _) fun _ =>
      Prog.runs_bind (hvisit _ _) fun _ => ih

omit hS hload in
theorem runs_visit (hcount : ∀ counter, Prog.Runs S (count counter))
    {tagged : YamlNode → Context → Scan Unit}
    (htagged : ∀ node context, Prog.Runs S (tagged node context)) {node : Nat → YamlNode}
    {remaining : Nat} {active : List Nat} {id : Nat} {context : Context} :
    Prog.Runs S (visit tagged node remaining active id context) := by
  induction remaining generalizing active id context with
  | zero => exact runs_deny
  | succ remaining ih =>
    refine Prog.runs_bind runs_denyIf fun _ => Prog.runs_bind (hcount _) fun _ =>
      Prog.runs_bind runs_denyIf fun _ => Prog.runs_ite (fun _ => htagged _ _) fun _ => ?_
    split
    · exact Prog.runs_forM fun _ _ => ih
    · exact runs_visitPairs fun _ _ => ih
    · exact Prog.runs_pure

theorem runs_composeAndVisit {data : Bytes} {args : LoadArgs} :
    Prog.Runs S (composeAndVisit tree load data args) := by
  refine Prog.runs_bind (Prog.runs_forM fun _ _ => runs_count hS _) fun _ =>
    Prog.runs_bind runs_denyIf fun _ => ?_
  split
  · exact runs_deny
  · exact Prog.runs_pure
  · exact runs_visit (runs_count hS) fun _ _ => runs_visitTag hS hload

/-! ## Loads -/

omit hload in
theorem runs_recordFile {args : LoadArgs} : Prog.Runs S (recordFile tree args) := by
  refine Prog.runs_bind_of runs_readFile fun node t t' hread => ?_
  refine Prog.runs_bind (Prog.runs_change fun _ => hS _ _ (.bytes _)) fun _ =>
    Prog.runs_bind Prog.runs_read fun _ => Prog.runs_bind runs_denyIf fun _ =>
    Prog.runs_bind (runs_setSource hS (stat_of_readFile hread).1) fun _ =>
    Prog.runs_bind Prog.runs_read fun _ => Prog.runs_bind runs_denyIf fun _ => ?_
  split
  · exact Prog.runs_bind (Prog.runs_change fun _ => hS _ _ (.grant _)) fun _ => Prog.runs_pure
  · exact Prog.runs_pure

omit hload in
theorem runs_admitFile (hasked : ∀ s p, S s (s.logged (.asked p)))
    {args : LoadArgs} : Prog.Runs S (admitFile tree args) :=
  Prog.runs_bind (Prog.runs_change fun s => hasked s _) fun _ =>
    Prog.runs_bind runs_denyIf fun _ => Prog.runs_bind Prog.runs_read fun _ =>
    Prog.runs_bind runs_denyIf fun _ => Prog.runs_bind (runs_count hS _) fun _ =>
    runs_recordFile hS

theorem runs_opened {data : Bytes} {args : LoadArgs} :
    Prog.Runs S (Prog.ensure (composeAndVisit tree load data args) fun _ => pop args.parts) :=
  Prog.runs_ensure (runs_composeAndVisit hS hload) fun _ =>
    Prog.runs_change fun _ => hS _ _ (.popped _)

theorem runs_loadWith (hasked : ∀ s p, S s (s.logged (.asked p)))
    (hdone : ∀ s p, S s (s.logged (.completed p))) {args : LoadArgs} :
    Prog.Runs S (loadWith tree load args) :=
  Prog.runs_bind (runs_admitFile hS hasked) fun _ =>
    Prog.runs_bind (Prog.runs_change fun _ => hS _ _ (.pushed _)) fun _ =>
      Prog.runs_bind (runs_opened hS hload) fun _ => Prog.runs_change fun s => hdone s _

end

theorem runs_load (hasked : ∀ s p, S s (s.logged (.asked p)))
    (hdone : ∀ s p, S s (s.logged (.completed p))) {args : LoadArgs} :
    Prog.Runs S (load tree args) :=
  Prog.unfolded_induction (fun _ hload _ => runs_loadWith hS hload hasked hdone) (fun _ => runs_deny) _ _

end

/-- A load fails before it looks into its file, or in there, or completes the file. -/
theorem loadWith_cases {load : LoadArgs → Scan Unit} {args : LoadArgs} {out : Except Exc Unit}
    (h : loadWith tree load args s = (out, s')) :
    (∃ e, admitFile tree args s = (.error e, s')) ∨
      ∃ node t, admitFile tree args s = (.ok node, t) ∧
        ((∃ e u, composeAndVisit tree load node.data args (t.pushed args.parts) = (.error e, u) ∧
            s' = u.popped args.parts) ∨
          ∃ u, composeAndVisit tree load node.data args (t.pushed args.parts) = (.ok (), u) ∧
            s' = (u.popped args.parts).logged (.completed args.parts)) := by
  rcases Prog.bind_eq_iff.mp h with ⟨e, hadmit, -⟩ | ⟨node, t, hadmit, h⟩
  · exact .inl ⟨e, hadmit⟩
  refine .inr ⟨node, t, hadmit, ?_⟩
  rcases Prog.bind_eq_iff.mp h with ⟨e, hpush, -⟩ | ⟨_, u, hpush, h⟩
  · cases (Prog.change_eq_iff.mp hpush).1
  obtain ⟨-, rfl⟩ := Prog.change_eq_iff.mp hpush
  rcases Prog.bind_eq_iff.mp h with ⟨e, hfailed, -⟩ | ⟨_, v, hclosed, hdone⟩
  · obtain ⟨out', u, hvisit, ⟨hpop, rfl⟩ | ⟨e', hpop, -⟩⟩ := Prog.ensure_eq_iff.mp hfailed
    · obtain ⟨-, rfl⟩ := Prog.change_eq_iff.mp hpop
      exact .inl ⟨e, u, hvisit, rfl⟩
    · cases (Prog.change_eq_iff.mp hpop).1
  · obtain ⟨-, rfl⟩ := Prog.change_eq_iff.mp hdone
    obtain ⟨out', u, hvisit, ⟨hpop, rfl⟩ | ⟨e', hpop, -⟩⟩ := Prog.ensure_eq_iff.mp hclosed
    · obtain ⟨-, rfl⟩ := Prog.change_eq_iff.mp hpop
      exact .inr ⟨u, hvisit, rfl⟩
    · cases (Prog.change_eq_iff.mp hpop).1

end SourceScan

end Hapatchy
