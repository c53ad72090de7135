import Hapatchy.Reconciler.Quiet

/-!
# The backup of a replaced target

Pruning follows the replacement and ranks backups by name. A backup of the
replaced bytes stays when few enough complete ones have a greater name.
-/

open Effects Prog

namespace Hapatchy

variable {env : Env} {reconciler : Reconciler} {job : Job} {manager : BackupManager} {w w' : World}

/-! ## Trees that agree below `.hapatchy` -/

section Internal

variable {fs fs' : Fs} (hfs : ∀ p, Internal p → fs'.lookup p = fs.lookup p)

include hfs

theorem CompleteName.internal {name : Text} (h : CompleteName env manager fs name) :
    CompleteName env manager fs' name :=
  h.congr fun q hq => hfs q (internal_parts.append.trans hq)

theorem Holds.internal {name : Text} {data : Bytes} (h : Holds env manager fs name data) :
    Holds env manager fs' name data := by
  obtain ⟨hcomplete, node, hnode, hdata⟩ := h
  refine ⟨hcomplete.internal hfs, node, ?_, hdata⟩
  rw [hfs _ (internal_parts.append.trans (List.prefix_append _ _)), hnode]

theorem Recent.internal {name : Text} (h : Recent env manager fs name) :
    Recent env manager fs' name := fun l hnodup hl =>
  h l hnodup fun c hc => ⟨(hl c hc).1, (hl c hc).2.internal fun p hp => (hfs p hp).symm⟩

theorem Kept.internal {data : Bytes} (h : Kept env manager fs data) : Kept env manager fs' data := by
  obtain ⟨name, hrecent, hholds⟩ := h
  exact ⟨name, hrecent.internal hfs, hholds.internal hfs⟩

end Internal

section Pruned

variable {fs fs' : Fs} {data : Bytes} (h : Pruned env manager fs fs')

include h

theorem Pruned.holds (hkept : Kept env manager fs data) :
    ∃ name, Holds env manager fs' name data := by
  obtain ⟨henv, t, t', hrun, hsame⟩ := h
  have hkept' : Kept env manager t.fs data := hkept.internal fun p hp => (hsame p hp).1
  have hholds : ∃ name, Holds env manager t'.fs name data := by
    rcases hrun with rfl | ⟨out, hrun⟩
    · obtain ⟨name, -, hholds⟩ := hkept'
      exact ⟨name, hholds⟩
    · exact hkept'.prune henv hrun
  exact hholds.imp fun name hname => hname.internal fun p hp => (hsame p hp).2

end Pruned

/-! ## What is ranked -/

section Ranked

variable {fs : Fs} {made : List Stored} {data : Bytes}

variable (env job fs made) in
/-- What counts as complete after `made` was added to `fs`. -/
def Ranked (name : Text) : Prop :=
  ((∀ b ∈ made, name ≠ b.name env) ∧ CompleteName env job.manager fs name) ∨
    ∃ b ∈ made, name = b.name env ∧ b.Readable env job

variable (env job fs made data) in
/-- Among the backups in `fs` and `made` is one of `data`, and fewer than are kept have a greater
name. -/
def Survives : Prop :=
  ∃ name, (((∀ b ∈ made, name ≠ b.name env) ∧ Holds env job.manager fs name data) ∨
      ∃ b ∈ made, name = b.name env ∧ b.Readable env job ∧ b.snapshot.data = data) ∧
    ∀ l : List Text, l.Nodup → (∀ c ∈ l, name < c ∧ Ranked env job fs made c) →
      l.length < job.retention

variable (h : Stores env job w w' made)

include h

theorem Stores.complete_iff_ranked {name : Text} :
    CompleteName env job.manager w'.fs name ↔ Ranked env job w.fs made name := by
  by_cases hold : ∀ b ∈ made, name ≠ b.name env
  · have hsame := h.other name hold
    constructor
    · exact fun hcomplete => Or.inl ⟨hold, hcomplete.congr fun q hq => (hsame q hq).symm⟩
    · rintro (⟨-, hcomplete⟩ | ⟨b, hb, hname, -⟩)
      · exact hcomplete.congr hsame
      · exact absurd hname (hold b hb)
  · push Not at hold
    obtain ⟨b, hb, rfl⟩ := hold
    rw [(h.added b hb).2.complete_iff_readable]
    constructor
    · exact fun hreadable => Or.inr ⟨b, hb, rfl, hreadable⟩
    · rintro (⟨hne, -⟩ | ⟨b', hb', hname, hreadable⟩)
      · exact absurd rfl (hne b hb)
      · exact (h.added b hb).2.complete_iff_readable.mp
          (hname ▸ (h.added b' hb').2.complete_iff_readable.mpr hreadable)

theorem Stores.holds_iff {name : Text} : Holds env job.manager w'.fs name data ↔
    ((∀ b ∈ made, name ≠ b.name env) ∧ Holds env job.manager w.fs name data) ∨
      ∃ b ∈ made, name = b.name env ∧ b.Readable env job ∧ b.snapshot.data = data := by
  by_cases hold : ∀ b ∈ made, name ≠ b.name env
  · have hsame := h.other name hold
    have hfile := hsame _ (List.prefix_append _ [targetName])
    unfold Holds
    rw [hfile]
    constructor
    · rintro ⟨hcomplete, hdata⟩
      exact Or.inl ⟨hold, hcomplete.congr fun q hq => (hsame q hq).symm, hdata⟩
    · rintro (⟨-, hcomplete, hdata⟩ | ⟨b, hb, hname, -⟩)
      · exact ⟨hcomplete.congr hsame, hdata⟩
      · exact absurd hname (hold b hb)
  · push Not at hold
    obtain ⟨b, hb, rfl⟩ := hold
    constructor
    · rintro ⟨hcomplete, node, hnode, hdata⟩
      obtain ⟨node', _, hnode', -, -, hdata', -⟩ := (h.added b hb).2.target
      obtain rfl := Option.some_inj.mp (hnode.symm.trans hnode')
      exact Or.inr ⟨b, hb, rfl, (h.added b hb).2.complete_iff_readable.mp hcomplete, hdata'.symm.trans hdata⟩
    · rintro (⟨hne, -⟩ | ⟨b', hb', hname, hreadable, rfl⟩)
      · exact absurd rfl (hne b hb)
      · rw [hname]
        exact (h.added b' hb').2.holds hreadable

theorem Stores.kept_iff : Kept env job.manager w'.fs data ↔ Survives env job w.fs made data := by
  have hrecent (name : Text) : Recent env job.manager w'.fs name ↔ ∀ l : List Text, l.Nodup →
      (∀ c ∈ l, name < c ∧ Ranked env job w.fs made c) → l.length < job.retention := by
    simp only [Recent, h.complete_iff_ranked]
    rfl
  simp only [Kept, Survives, hrecent, h.holds_iff]
  exact exists_congr fun name => and_comm

end Ranked

/-! ## Runs -/

section Run

variable (halone : Alone env job.target) (hsha : Function.Injective env.sha256)
  (hrequired : backupRequired job = true) {pendingDurability : Bool} {result : ReconcileResult}
  {new : List Event} {r : Replacement}

include halone hsha hrequired

/-- A run that replaces its target with a backup required has made a whole backup of the replaced
bytes, and at most two others before it. -/
theorem run_stores_replaced (h : run env reconciler job pendingDurability w = (.ok result, w'))
    (hlog : w'.log = w.log ++ new) (hr : .replaced r ∈ new)
    (hverified : r.disturbed = false ∨ env.Calm) : ∃ node earlier b t,
      r.before.lookup job.target = some node ∧
      b.snapshot = ⟨node.data, env.sha256 node.data, node.stat⟩ ∧ b.output = r.installed.data ∧
      List.length earlier ≤ 2 ∧ Stores env job w t (earlier ++ [b]) ∧ t.fs = r.before ∧
      t.step ≤ w'.step ∧ (env.Quiet → Prunes env job r.before w') := by
  have hT := run_external halone h hlog (mem_replacements.mpr hr)
  obtain ⟨u, earlier, hlast⟩ := run_stores halone hsha hrequired h hlog (mem_replacements.mpr hr)
  obtain ⟨out, hattempt⟩ := hlast.attempt
  obtain ⟨new', hlog', hr'⟩ := hlast.replaced
  have hstores := hlast.stores
  cases attempt_tries hT hrequired hlast.mutated hlast.source hattempt with
  | unreplaced log none =>
    obtain rfl := List.append_cancel_left (hlog'.symm.trans log)
    rw [none] at hr'
    cases hr'
  | @replaced _ _ b t log once stores before rooted step sha256 replaced =>
    obtain rfl := List.append_cancel_left (hlog'.symm.trans log)
    obtain rfl := List.mem_singleton.mp (once ▸ hr')
    obtain ⟨node, hnode, -, hstat, hsame⟩ := replaced.verified hverified
    have hdata : node.data = b.snapshot.data := hsha (hsame.trans sha256)
    have hall := hstores.trans stores
    refine ⟨node, earlier, b, t, hnode, ?_, replaced.installed.data.symm, hlast.attempts,
      ⟨hall.step, hall.during, hall.added, hall.other⟩, before, step, fun hquiet =>
        attempt_prunes hsha hT hquiet hlast.mutated hlast.source rooted hattempt hlog' hr'⟩
    rw [hdata, ← sha256, hstat]

/-- A run that replaced its target with a backup required has made a complete backup of the replaced
bytes. One is left if among the backups before the run and those that it has made one of them
survives, and only then when nothing fails. -/
theorem run_holds_replaced (h : run env reconciler job pendingDurability w = (.ok result, w'))
    (hlog : w'.log = w.log ++ new) (hr : .replaced r ∈ new)
    (hverified : r.disturbed = false ∨ env.Calm) : ∃ node earlier b t,
      r.before.lookup job.target = some node ∧
      b.snapshot = ⟨node.data, env.sha256 node.data, node.stat⟩ ∧ b.output = r.installed.data ∧
      List.length earlier ≤ 2 ∧ Stores env job w t (earlier ++ [b]) ∧ t.fs = r.before ∧
      t.step ≤ w'.step ∧
      (b.Readable env job → Holds env job.manager r.before (b.name env) node.data) ∧
      (Survives env job w.fs (earlier ++ [b]) node.data →
        ∃ name, Holds env job.manager w'.fs name node.data) ∧
      (env.Quiet → (∃ name, Holds env job.manager w'.fs name node.data) →
        Survives env job w.fs (earlier ++ [b]) node.data) := by
  obtain ⟨node, earlier, b, t, hnode, hb, houtput, hlength, hstores, hbefore, hstep, hprunes⟩ :=
    run_stores_replaced halone hsha hrequired h hlog hr hverified
  have hadded : b.At env job r.before :=
    hbefore ▸ (hstores.added b (List.mem_append_right _ (List.mem_singleton_self b))).2
  have hkept : Kept env job.manager r.before node.data ↔
      Survives env job w.fs (earlier ++ [b]) node.data := hbefore ▸ hstores.kept_iff
  refine ⟨node, earlier, b, t, hnode, hb, houtput, hlength, hstores, hbefore, hstep,
    fun hreadable => ?_, fun hsurvives => ?_, fun hquiet ⟨name, hholds⟩ => ?_⟩
  · have hholds := hadded.holds hreadable
    rwa [hb] at hholds
  · rcases run_ending halone hsha h with ⟨new', _, -, -, hending⟩ | ⟨⟨⟩, -⟩
    obtain rfl : new = new' := List.append_cancel_left (hlog.symm.trans hending.segment.log)
    exact (hending.pruned r (mem_replacements.mpr hr)).holds (hkept.mpr hsurvives)
  · obtain ⟨v, v', out, hprune, hrooted, hsame⟩ := hprunes hquiet
    obtain ⟨hrecent, hholds'⟩ := prune_left hquiet hprune hrooted (fun _ _ _ _ => rfl)
      (hholds.internal fun p hp => ((hsame p hp).2).symm)
    exact hkept.mp (Kept.internal (fun p hp => ((hsame p hp).1).symm) ⟨name, hrecent, hholds'⟩)

end Run

/-! ## A clock that was set back -/

/-- `json.dumps` of an object of numbers and of strings with nothing to escape. -/
def dumpsFlat : Json → Text
  | .object members => ['{'] ++ List.intercalate ", ".toList (members.map fun (key, value) =>
      ['"'] ++ key ++ "\": ".toList ++
        match value with
        | .number n => Nat.toDigits 10 n.num.natAbs
        | .string t => ['"'] ++ t ++ ['"']
        | _ => []) ++ ['}']
  | _ => []

def laterTime : Timestamp := ⟨2027, 1, 2, 3, 4, 5, 6, by decide⟩

def laterName : Text := backupName laterTime steadyHex

/-- The job of `exchangeJob`, with a backup. -/
def backupJob (retention : Nat) : Job := { exchangeJob ['1'] with
  definition := { steadyDefinition with backupBeforeApply := true }
  retention := retention }

/-- The metadata of a backup of `data` before `output`. -/
def steadyMetadata (now : Timestamp) (data output : String) : Metadata :=
  let node := steadyFile (Utf8.encode data.toList)
  (backupJob 1).manager.metadata steadyEnv ⟨node.data, steadyEnv.sha256 node.data, node.stat⟩
    steadyDefinition.targetPath (Utf8.encode output.toList) (steadyEnv.sha256 (backupJob 1).source)
    "apply".toList now

def steadyBackups : List Metadata :=
  [steadyMetadata laterTime "w\n" "x\n", steadyMetadata steadyTime "x\n" "y\n"]

/-- JSON as far as the two backups need it. -/
def jsonEnv : Env := { steadyEnv with
  dumps := fun json => Utf8.encode (dumpsFlat json)
  loads := fun data => (steadyBackups.find? fun metadata =>
    data = Utf8.encode (dumpsFlat metadata.json)).map Metadata.json }

/-- The tree of `steadyWorld`, with the backup of `w` from the later time. -/
def setBackWorld : World :=
  let parts := (backupJob 1).manager.parts
  let start := steadyWorld (Utf8.encode "x\n".toList)
  { start with
    fs := AList.insert (parts.take 1) (steadyDirectory 10) <|
      AList.insert (parts.take 2) (steadyDirectory 11) <|
      AList.insert parts (steadyDirectory 12) <|
      AList.insert (parts ++ [laterName]) (steadyDirectory 13) <|
      AList.insert (parts ++ [laterName] ++ [targetName])
        (steadyFile (Utf8.encode "w\n".toList)) <|
      AList.insert (parts ++ [laterName] ++ [metadataFile])
        (steadyFile (Utf8.encode (dumpsFlat (steadyMetadata laterTime "w\n" "x\n").json))) <|
      start.fs }

def setBackRun (retention : Nat) : Except Exc ReconcileResult × World :=
  run jsonEnv (steadyReconciler exchangeHunks) (backupJob retention) false setBackWorld

/-- One backup of the patch is left, and it holds the older bytes. -/
theorem setBackRun_one : ∃ result w' r, setBackRun 1 = (.ok result, w') ∧ .replaced r ∈ w'.log ∧
    r.before.lookup (backupJob 1).target = some (steadyFile (Utf8.encode "x\n".toList)) ∧
    w'.fs.names (backupJob 1).manager.parts = [laterName] ∧
    (w'.fs.lookup ((backupJob 1).manager.parts ++ [laterName] ++ [targetName])).map Node.data =
      some (Utf8.encode "w\n".toList) := by
  have hcheck : ((setBackRun 1).1.isOk && ((replacements (setBackRun 1).2.log).any (fun r => decide (
      r.before.lookup (backupJob 1).target = some (steadyFile (Utf8.encode "x\n".toList)))) &&
      decide ((setBackRun 1).2.fs.names (backupJob 1).manager.parts = [laterName] ∧
        ((setBackRun 1).2.fs.lookup
          ((backupJob 1).manager.parts ++ [laterName] ++ [targetName])).map Node.data =
            some (Utf8.encode "w\n".toList)))) = true := by decide +kernel
  rcases hrun : setBackRun 1 with ⟨e | result, w'⟩ <;> rw [hrun] at hcheck
  · cases hcheck
  · rw [Bool.and_eq_true, Bool.and_eq_true, List.any_eq_true, decide_eq_true_eq] at hcheck
    obtain ⟨-, ⟨r, hr, hbefore⟩, hnames, hdata⟩ := hcheck
    exact ⟨result, w', r, rfl, mem_replacements.mp hr, of_decide_eq_true hbefore, hnames, hdata⟩

/-- With a retention of one, the backup with the later name is kept, and the new one is pruned. -/
theorem run_loses_replaced : ∃ result w' r,
    run jsonEnv (steadyReconciler exchangeHunks) (backupJob 1) false setBackWorld =
      (.ok result, w') ∧ .replaced r ∈ w'.log ∧ backupRequired (backupJob 1) = true ∧
    r.before.lookup (backupJob 1).target = some (steadyFile (Utf8.encode "x\n".toList)) ∧
    ¬ ∃ name, Holds jsonEnv (backupJob 1).manager w'.fs name (Utf8.encode "x\n".toList) := by
  obtain ⟨result, w', r, hrun, hr, hbefore, hnames, hdata⟩ := setBackRun_one
  refine ⟨result, w', r, hrun, hr, rfl, hbefore, ?_⟩
  rintro ⟨name, ⟨-, hcomplete⟩, node, hnode, hbytes⟩
  obtain ⟨directory, hdirectory, -⟩ := hcomplete.directory
  have hname : name ∈ w'.fs.names (backupJob 1).manager.parts := by
    rw [Fs.mem_names_iff, hdirectory]
    rfl
  rw [hnames, List.mem_singleton] at hname
  subst hname
  rw [hnode, Option.map_some, Option.some_inj, hbytes] at hdata
  exact absurd hdata (by decide +kernel)

theorem setBackRun_two : ∃ result w' r, setBackRun 2 = (.ok result, w') ∧ .replaced r ∈ w'.log ∧
    r.before.lookup (backupJob 2).target = some (steadyFile (Utf8.encode "x\n".toList)) ∧
    r.installed.data = Utf8.encode "y\n".toList := by
  have hcheck : ((setBackRun 2).1.isOk && (replacements (setBackRun 2).2.log).any fun r => decide (
      r.before.lookup (backupJob 2).target = some (steadyFile (Utf8.encode "x\n".toList)) ∧
      r.installed.data = Utf8.encode "y\n".toList)) = true := by decide +kernel
  rcases hrun : setBackRun 2 with ⟨e | result, w'⟩ <;> rw [hrun] at hcheck
  · cases hcheck
  · rw [Bool.and_eq_true, List.any_eq_true] at hcheck
    obtain ⟨-, r, hr, hbefore⟩ := hcheck
    exact ⟨result, w', r, rfl, mem_replacements.mp hr, of_decide_eq_true hbefore⟩

theorem json_alone (retention : Nat) : Alone jsonEnv (backupJob retention).target :=
  ⟨fun _ _ => Env.Calm.spares fun _ => rfl, (steady_alone [] .apply).fresh⟩

theorem json_loads (metadata : Metadata) (h : metadata ∈ steadyBackups) :
    jsonEnv.loads (jsonEnv.dumps metadata.json) = some metadata.json ∧
      (jsonEnv.dumps metadata.json).length ≤ 65536 := by
  have hall : ∀ m ∈ steadyBackups, (steadyBackups.find? fun metadata =>
      jsonEnv.dumps m.json = Utf8.encode (dumpsFlat metadata.json)) = some m ∧
        (jsonEnv.dumps m.json).length ≤ 65536 := by decide +kernel
  obtain ⟨hfind, hsize⟩ := hall metadata h
  refine ⟨?_, hsize⟩
  have hloads : jsonEnv.loads (jsonEnv.dumps metadata.json) = (steadyBackups.find? fun m =>
      jsonEnv.dumps metadata.json = Utf8.encode (dumpsFlat m.json)).map Metadata.json := rfl
  rw [hloads, hfind]
  rfl

theorem setBack_names : setBackWorld.fs.names (backupJob 2).manager.parts = [laterName] := by
  decide +kernel

/-- With a retention of two, both are kept. -/
theorem run_holds_replaced_setBack : ∃ result w' name,
    run jsonEnv (steadyReconciler exchangeHunks) (backupJob 2) false setBackWorld =
      (.ok result, w') ∧
    Holds jsonEnv (backupJob 2).manager w'.fs name (Utf8.encode "x\n".toList) := by
  obtain ⟨result, w', r, hrun, hr, hbefore, hinstalled⟩ := setBackRun_two
  obtain ⟨node, earlier, b, t, hnode, hb, houtput, -, -, -, -, -, hholds, -⟩ :=
    run_holds_replaced (json_alone 2) steady_injective rfl hrun (List.nil_append _).symm hr
      (Or.inr fun _ => rfl)
  obtain rfl := Option.some_inj.mp (hnode.symm.trans hbefore)
  have hreadable : b.Readable jsonEnv (backupJob 2) := by
    have hmetadata : b.metadata jsonEnv (backupJob 2) ∈ steadyBackups := by
      rw [Stored.metadata, hb, houtput, hinstalled]
      exact List.mem_cons_of_mem _ (List.mem_singleton_self _)
    obtain ⟨hloads, hsize⟩ := json_loads _ hmetadata
    exact Stored.readable_of_loads hloads hsize
  -- Only the later backup has a greater name.
  have hgreater : ∀ l : List Text, l.Nodup → (∀ c ∈ l, b.name jsonEnv < c ∧
      Ranked jsonEnv (backupJob 2) setBackWorld.fs (earlier ++ [b]) c) → l.length < 2 := by
    intro l hnodup hl
    have hsub : l ⊆ [laterName] := by
      intro c hc
      obtain ⟨hgt, ⟨-, -, hcomplete⟩ | ⟨b', -, rfl, -⟩⟩ := hl c hc
      · obtain ⟨directory, hdirectory, -⟩ := hcomplete.directory
        rw [← setBack_names, Fs.mem_names_iff, hdirectory]
        rfl
      · exact absurd hgt (List.lt_irrefl _)
    have hlength := (List.subperm_of_subset hnodup hsub).length_le
    exact Nat.lt_succ_of_le hlength
  obtain ⟨name, hname⟩ :=
    hholds ⟨b.name jsonEnv, Or.inr ⟨b, by simp, rfl, hreadable, by rw [hb]⟩, hgreater⟩
  exact ⟨result, w', name, hrun, hname⟩

end Hapatchy
