import Hapatchy.SourceScan.Reach

/-!
# What a load follows

A load that returns has recorded its file, and whatever the file refers to has
been loaded before. Only for a lookup this is less: it takes every missing file
for a missing `secrets.yaml`.
-/

open Effects

namespace Hapatchy

namespace SourceScan

variable {tree : SourceTree} {s s' : Scanner} {p q : Path} {tag value : Text}

/-! ## What is recorded -/

def Done (s : Scanner) (p : Path) : Prop := .completed p ∈ s.log

/-- What the state `s` has, `s'` has. -/
structure Grows (s s' : Scanner) : Prop where
  done : ∀ p, Done s p → Done s' p
  sources : ∀ p ∈ s.sources, p ∈ s'.sources
  directories : ∀ p ∈ s.directories, p ∈ s'.directories
  secrets : ∀ p ∈ s.secrets, p ∈ s'.secrets

/-- What the scalar refers to has been recorded and loaded. A lookup can have lost a file. -/
structure Followed (tree : SourceTree) (s : Scanner) (p : Path) (tag value : Text) : Prop where
  included : tag = includeTag → ∃ q, Names p value q ∧ Done s q
  listed : tag ∈ directoryTags →
    ∃ d, Names p value d ∧ d ∈ s.directories ∧ ∀ q, YamlFile tree d q → Done s q
  secrets : tag = secretTag → ∀ directory, directory <+: p.dropLast →
    directory ++ ["secrets.yaml".toList] ∈ s.secrets ∧
      (Done s (directory ++ ["secrets.yaml".toList]) ∨
        directory ++ ["secrets.yaml".toList] ∉ tree.fs ∨
        LostFrom tree (directory ++ ["secrets.yaml".toList]))

/-- Of each file that has been completed, all references have been followed. -/
def Closed (tree : SourceTree) (s : Scanner) : Prop :=
  ∀ p, Done s p → p ∈ s.sources ∧ ∀ tag value, Tagged tree p tag value → Followed tree s p tag value

def Extends (tree : SourceTree) (s s' : Scanner) : Prop :=
  Grows s s' ∧ (Closed tree s → Closed tree s')

theorem Grows.refl (s : Scanner) : Grows s s :=
  ⟨fun _ => id, fun _ => id, fun _ => id, fun _ => id⟩

theorem Grows.trans {t : Scanner} (h : Grows s t) (h' : Grows t s') : Grows s s' where
  done p hp := h'.done p (h.done p hp)
  sources p hp := h'.sources p (h.sources p hp)
  directories p hp := h'.directories p (h.directories p hp)
  secrets p hp := h'.secrets p (h.secrets p hp)

theorem Followed.mono (h : Followed tree s p tag value) (hgrows : Grows s s') :
    Followed tree s' p tag value where
  included htag := (h.included htag).imp fun q hq => ⟨hq.1, hgrows.done q hq.2⟩
  listed htag := (h.listed htag).imp fun d hd =>
    ⟨hd.1, hgrows.directories d hd.2.1, fun q hq => hgrows.done q (hd.2.2 q hq)⟩
  secrets htag directory hpre := by
    obtain ⟨hmem, hdone⟩ := h.secrets htag directory hpre
    exact ⟨hgrows.secrets _ hmem, hdone.imp_left (hgrows.done _)⟩

/-- A state that grows, with nothing completed, is closed as before. -/
theorem extends_of (hdone : ∀ p, Done s' p ↔ Done s p) (hsources : ∀ p ∈ s.sources, p ∈ s'.sources)
    (hdirectories : ∀ p ∈ s.directories, p ∈ s'.directories)
    (hsecrets : ∀ p ∈ s.secrets, p ∈ s'.secrets) : Extends tree s s' := by
  have hgrows : Grows s s' := ⟨fun p => (hdone p).mpr, hsources, hdirectories, hsecrets⟩
  refine ⟨hgrows, fun hclosed p hp => ?_⟩
  obtain ⟨hsource, hfollowed⟩ := hclosed p ((hdone p).mp hp)
  exact ⟨hsources p hsource, fun tag value htagged => (hfollowed tag value htagged).mono hgrows⟩

theorem done_logged {event : ScanEvent} :
    Done (s.logged event) p ↔ Done s p ∨ event = .completed p := by
  simp [Done, Scanner.logged, eq_comm]

theorem done_logged_of_ne {event : ScanEvent} (h : ∀ p, event ≠ .completed p) (p : Path) :
    Done (s.logged event) p ↔ Done s p := done_logged.trans (or_iff_left (h p))

theorem extends_logged {event : ScanEvent} (h : ∀ p, event ≠ .completed p) :
    Extends tree s (s.logged event) :=
  extends_of (done_logged_of_ne h) (fun _ => id) (fun _ => id) fun _ => id

theorem Step.extends (h : Step tree s s') : Extends tree s s' := by
  cases h with
  | overspent counter => exact extends_of (fun _ => Iff.rfl) (fun _ => id) (fun _ => id) fun _ => id
  | spent counter hlt =>
    refine extends_of ?_ (fun _ => id) (fun _ => id) fun _ => id
    exact done_logged_of_ne (s := s.bump counter) (by simp)
  | bytes n => exact extends_of (fun _ => Iff.rfl) (fun _ => id) (fun _ => id) fun _ => id
  | source p node h hnew =>
    refine extends_of (fun _ => Iff.rfl) (fun q hq => ?_) (fun _ => id) fun _ => id
    exact (AList.mem_insert _).mpr (.inr hq)
  | directory scope h hnew =>
    refine extends_of (fun _ => Iff.rfl) (fun _ => id) (fun q hq => ?_) fun _ => id
    exact (AList.mem_insert _).mpr (.inr hq)
  | secret p =>
    refine extends_of (fun _ => Iff.rfl) (fun _ => id) (fun _ => id) fun q hq => ?_
    exact List.mem_insert_of_mem hq
  | grant p => exact extends_of (fun _ => Iff.rfl) (fun _ => id) (fun _ => id) fun _ => id
  | pushed p =>
    refine extends_of ?_ (fun _ => id) (fun _ => id) fun _ => id
    exact done_logged_of_ne (s := { s with stack := s.stack.insert p }) (by simp)
  | popped p =>
    refine extends_of ?_ (fun _ => id) (fun _ => id) fun _ => id
    exact done_logged_of_ne (s := { s with stack := s.stack.erase p }) (by simp)

theorem Extends.trans {t : Scanner} (h : Extends tree s t) (h' : Extends tree t s') :
    Extends tree s s' := ⟨h.1.trans h'.1, h'.2 ∘ h.2⟩

theorem extends_of_run {α : Type} {m : Scan α} {out : Except Exc α}
    (h : Prog.Runs (Extends tree) m) (hrun : m s = (out, s')) : Extends tree s s' := by
  have hsteps := h.of_eq hrun
  clear hrun
  induction hsteps with
  | refl => exact ⟨Grows.refl s, id⟩
  | tail _ hstep ih => exact ih.trans hstep

/-! ## What a load establishes -/

/-- What is relied on of the loads that a load makes. -/
structure Loads (tree : SourceTree) (load : LoadArgs → Scan Unit) : Prop where
  runs : ∀ args, Prog.Runs (Extends tree) (load args)
  done : ∀ args s s', load args s = (.ok (), s') → Done s' args.parts
  lost : ∀ args, Prog.Raises
    (fun e => e = .os .fileNotFound → args.parts ∉ tree.fs ∨ LostFrom tree args.parts) (load args)

/-- The exception is a missing file only where `P` holds. -/
def MissingOnly (P : Prop) (e : Exc) : Prop := e = .os .fileNotFound → P

theorem missingOnly_denial {P : Prop} : MissingOnly P denial := fun h => by cases h

theorem raises_denyIf {P : Prop} {c : Bool} : Prog.Raises (MissingOnly P) (denyIf c) :=
  Prog.raises_ite (fun _ => Prog.raises_raise missingOnly_denial) fun _ => Prog.raises_pure

theorem raises_count {P : Prop} {counter : Counter} : Prog.Raises (MissingOnly P) (count counter) :=
  Prog.raises_bind Prog.raises_change fun _ => Prog.raises_bind Prog.raises_read fun _ =>
    Prog.raises_bind raises_denyIf fun _ => Prog.raises_change

theorem raises_pathOperand {P : Prop} : Prog.Raises (MissingOnly P) (pathOperand value) := by
  refine Prog.raises_bind (Prog.raises_bind raises_denyIf fun _ => raises_denyIf) fun _ => ?_
  split
  · exact Prog.raises_raise missingOnly_denial
  · exact Prog.raises_pure

theorem sourceParts_of_pathOperand {parts : Path} (h : pathOperand value s = (.ok parts, s')) :
    sourceParts value = some parts := by
  obtain ⟨_, t, -, h⟩ := Prog.bind_ok_iff.mp h
  cases hparts : sourceParts value with
  | none =>
    simp only [hparts] at h
    cases h
  | some parts' =>
    simp only [hparts] at h
    cases (Prog.pure_eq_iff.mp h).1
    rfl

theorem raises_walkDirectory {P : Prop} {scope : Path} {args : WalkArgs} :
    Prog.Raises (MissingOnly P) (walkDirectory tree scope args) := by
  refine Prog.unfolded_induction (fun walk hwalk args => ?_)
    (fun _ => Prog.raises_raise missingOnly_denial) _ _
  refine Prog.raises_bind raises_count fun _ => Prog.raises_bind raises_denyIf fun _ =>
    Prog.raises_foldlM fun inventory name _ => ?_
  unfold walkEntry
  refine Prog.raises_ite (fun _ => Prog.raises_pure) fun _ => Prog.raises_bind raises_count fun _ => ?_
  split
  · exact Prog.raises_raise missingOnly_denial
  · split
    · exact Prog.raises_bind raises_denyIf fun _ => hwalk _
    · exact Prog.raises_bind raises_denyIf fun _ =>
        Prog.raises_ite (fun _ => Prog.raises_pure) fun _ => Prog.raises_pure
    · exact Prog.raises_raise missingOnly_denial

theorem raises_stat {α : Type} {f : Node → Scan α} {P : Prop} (hmissing : p ∉ tree.fs → P)
    (hf : ∀ node, Prog.Raises (MissingOnly P) (f node)) :
    Prog.Raises (MissingOnly P) (Prog.lift ((stat tree p).mapError Exc.os) >>= f) := by
  refine Prog.raises_bind (Prog.raises_lift fun e he hnotFound => ?_) hf
  obtain ⟨e', hstat, rfl⟩ := Results.mapError_eq_error.mp he
  cases hnotFound
  exact hmissing (stat_fileNotFound hstat)

theorem raises_openDirectory : Prog.Raises (MissingOnly (p ∉ tree.fs)) (openDirectory tree p) :=
  Prog.raises_bind raises_denyIf fun _ => raises_stat id fun _ =>
    Prog.raises_bind raises_denyIf fun _ => Prog.raises_bind raises_denyIf fun _ => Prog.raises_pure

theorem raises_readFile : Prog.Raises (MissingOnly (p ∉ tree.fs)) (readFile tree p) :=
  Prog.raises_bind raises_denyIf fun _ => raises_stat id fun _ =>
    Prog.raises_bind raises_denyIf fun _ => Prog.raises_bind raises_denyIf fun _ =>
    Prog.raises_ite (fun _ => Prog.raises_raise fun h => by cases h) fun _ => Prog.raises_pure

theorem raises_setDirectory {P : Prop} {scope : DirectoryScope} :
    Prog.Raises (MissingOnly P) (setDirectory scope) := by
  refine Prog.raises_bind Prog.raises_read fun _ => ?_
  split
  · exact Prog.raises_pure
  · exact Prog.raises_bind Prog.raises_change fun _ => Prog.raises_pure

theorem raises_setSource {P : Prop} {source : SourceFile} :
    Prog.Raises (MissingOnly P) (setSource source) := by
  refine Prog.raises_bind Prog.raises_read fun _ => ?_
  split
  · exact Prog.raises_pure
  · exact Prog.raises_bind Prog.raises_change fun _ => Prog.raises_pure

theorem raises_recordDirectory :
    Prog.Raises (MissingOnly (p ∉ tree.fs)) (recordDirectory tree p) :=
  Prog.raises_bind raises_openDirectory fun _ => Prog.raises_bind raises_walkDirectory fun _ =>
    Prog.raises_bind raises_setDirectory fun _ => Prog.raises_bind raises_denyIf fun _ =>
    Prog.raises_pure

theorem raises_admitFile {args : LoadArgs} :
    Prog.Raises (MissingOnly (args.parts ∉ tree.fs)) (admitFile tree args) := by
  refine Prog.raises_bind Prog.raises_change fun _ => Prog.raises_bind raises_denyIf fun _ =>
    Prog.raises_bind Prog.raises_read fun _ => Prog.raises_bind raises_denyIf fun _ =>
    Prog.raises_bind raises_count fun _ => Prog.raises_bind raises_readFile fun node =>
    Prog.raises_bind Prog.raises_change fun _ => Prog.raises_bind Prog.raises_read fun _ =>
    Prog.raises_bind raises_denyIf fun _ => Prog.raises_bind raises_setSource fun _ =>
    Prog.raises_bind Prog.raises_read fun _ => Prog.raises_bind raises_denyIf fun _ => ?_
  split
  · exact Prog.raises_bind Prog.raises_change fun _ => Prog.raises_pure
  · exact Prog.raises_pure

theorem setDirectory_ok {scope previous : DirectoryScope}
    (h : setDirectory scope s = (.ok previous, s')) : scope.path ∈ s'.directories := by
  unfold setDirectory at h
  rw [Prog.read_bind] at h
  cases hlookup : s.directories.lookup scope.path with
  | some found =>
    simp only [hlookup] at h
    obtain ⟨-, rfl⟩ := Prog.pure_eq_iff.mp h
    exact AList.lookup_isSome.mp (by rw [hlookup]; rfl)
  | none =>
    simp only [hlookup] at h
    obtain ⟨_, t, hinsert, h⟩ := Prog.bind_ok_iff.mp h
    obtain ⟨-, rfl⟩ := Prog.change_eq_iff.mp hinsert
    obtain ⟨-, rfl⟩ := Prog.pure_eq_iff.mp h
    exact (AList.mem_insert _).mpr (.inl rfl)

theorem setSource_ok {source previous : SourceFile}
    (h : setSource source s = (.ok previous, s')) : source.path ∈ s'.sources := by
  unfold setSource at h
  rw [Prog.read_bind] at h
  cases hlookup : s.sources.lookup source.path with
  | some found =>
    simp only [hlookup] at h
    obtain ⟨-, rfl⟩ := Prog.pure_eq_iff.mp h
    exact AList.lookup_isSome.mp (by rw [hlookup]; rfl)
  | none =>
    simp only [hlookup] at h
    obtain ⟨_, t, hinsert, h⟩ := Prog.bind_ok_iff.mp h
    obtain ⟨-, rfl⟩ := Prog.change_eq_iff.mp hinsert
    obtain ⟨-, rfl⟩ := Prog.pure_eq_iff.mp h
    exact (AList.mem_insert _).mpr (.inl rfl)

/-- A directory that has been recorded, with its `.yaml` files. -/
theorem recordDirectory_ok {inventory : List Path}
    (h : recordDirectory tree p s = (.ok inventory, s')) :
    p ∈ s'.directories ∧ Finds (YamlFile tree p) p [] inventory := by
  obtain ⟨node, t, -, h⟩ := Prog.bind_ok_iff.mp h
  obtain ⟨found, u, hwalk, h⟩ := Prog.bind_ok_iff.mp h
  obtain ⟨previous, u', hset, h⟩ := Prog.bind_ok_iff.mp h
  obtain ⟨-, h⟩ := denyIf_bind_ok_iff.mp h
  obtain ⟨hfound, rfl⟩ := Prog.pure_eq_iff.mp h
  cases hfound
  have hfinds := lists_walkDirectory _ _ _ _ hwalk
  rw [List.append_nil] at hfinds
  exact ⟨setDirectory_ok hset, hfinds⟩

theorem recordFile_ok {args : LoadArgs} {node : Node}
    (h : recordFile tree args s = (.ok node, s')) :
    tree.fs.lookup args.parts = some node ∧ args.parts ∈ s'.sources := by
  obtain ⟨info, t, hread, h⟩ := Prog.bind_ok_iff.mp h
  obtain ⟨_, u, -, h⟩ := Prog.bind_ok_iff.mp h
  obtain ⟨-, h⟩ := denyIf_bind_ok_iff.mp h
  obtain ⟨previous, v, hset, h⟩ := Prog.bind_ok_iff.mp h
  obtain ⟨-, h⟩ := denyIf_bind_ok_iff.mp h
  have hnode := mem_of_stat (stat_of_readFile hread).1
  have hmem : args.parts ∈ v.sources := setSource_ok hset
  split at h
  · obtain ⟨_, w, hgrant, h⟩ := Prog.bind_ok_iff.mp h
    obtain ⟨-, rfl⟩ := Prog.change_eq_iff.mp hgrant
    obtain ⟨hinfo, rfl⟩ := Prog.pure_eq_iff.mp h
    cases hinfo
    exact ⟨hnode, hmem⟩
  · obtain ⟨hinfo, rfl⟩ := Prog.pure_eq_iff.mp h
    cases hinfo
    exact ⟨hnode, hmem⟩

/-- A file that has been admitted is there, and recorded. -/
theorem admitFile_recorded {args : LoadArgs} {node : Node}
    (h : admitFile tree args s = (.ok node, s')) :
    tree.fs.lookup args.parts = some node ∧ args.parts ∈ s'.sources := by
  obtain ⟨_, t, -, h⟩ := Prog.bind_ok_iff.mp h
  obtain ⟨-, h⟩ := denyIf_bind_ok_iff.mp h
  obtain ⟨-, h⟩ := denyIf_bind_ok_iff.mp h
  obtain ⟨_, u, -, h⟩ := Prog.bind_ok_iff.mp h
  exact recordFile_ok h

section

variable {load : LoadArgs → Scan Unit} (hload : Loads tree load)

include hload

theorem raises_includeDirectory {args : LoadArgs} :
    Prog.Raises (MissingOnly (args.parts ∉ tree.fs ∨
      ∃ q, YamlFile tree args.parts q ∧ LostFrom tree q)) (includeDirectory tree load args) := by
  refine Prog.raises_bind_of (raises_recordDirectory.mono fun e he h => .inl (he h))
    fun inventory s s' hrecord => ?_
  refine Prog.raises_forM fun relative hmem => (hload.lost _).mono fun e he h => .inr ?_
  have hfile := ((recordDirectory_ok hrecord).2.only relative hmem).resolve_left (by simp)
  exact ⟨_, hfile, (he h).resolve_left (not_not.mpr hfile.mem)⟩

theorem raises_secretCandidates {P : Prop} {parent : Path} {context : Context} :
    Prog.Raises (MissingOnly P) (secretCandidates load parent context) := by
  refine Prog.raises_forM fun _ _ => Prog.raises_bind Prog.raises_change fun _ =>
    Prog.raises_rescue (hload.lost _) fun e _ => ?_
  by_cases he : e = .os .fileNotFound
  · rw [if_pos he]
    exact Prog.raises_pure
  · rw [if_neg he]
    exact Prog.raises_raise fun h => absurd h he

theorem raises_visitTag {depth : Nat} {context : Context} (htagged : Tagged tree p tag value) :
    Prog.Raises (MissingOnly (LostFrom tree p))
      (visitTag tree load p depth (.scalar tag value) context) := by
  refine Prog.raises_ite (fun htag => ?_) fun _ => Prog.raises_ite (fun htag => ?_) fun _ =>
    Prog.raises_ite (fun htag => ?_) fun _ => Prog.raises_pure
  · refine Prog.raises_bind_of raises_pathOperand fun parts _ _ hparts =>
      Prog.raises_bind raises_count fun _ => (hload.lost _).mono fun e he h => ?_
    have hincludes : Includes tree p (p.dropLast ++ parts) :=
      ⟨value, htag ▸ htagged, parts, sourceParts_of_pathOperand hparts, rfl⟩
    rcases he h with hmissing | hlost
    · exact .here ⟨_, .inl hincludes, hmissing⟩
    · exact .included hincludes hlost
  · refine Prog.raises_bind_of raises_pathOperand fun parts _ _ hparts =>
      Prog.raises_bind raises_count fun _ => (raises_includeDirectory hload).mono fun e he h => ?_
    have hincludes : IncludesDirectory tree p (p.dropLast ++ parts) :=
      ⟨tag, htag, value, htagged, parts, sourceParts_of_pathOperand hparts, rfl⟩
    rcases he h with hmissing | ⟨q, hq, hlost⟩
    · exact .here ⟨_, .inr hincludes, hmissing⟩
    · exact .listed hincludes hq hlost
  · exact Prog.raises_bind (Prog.raises_bind raises_denyIf fun _ => raises_denyIf) fun _ =>
      raises_secretCandidates hload

omit hload in
theorem raises_visitPairs {P : Exc → Prop} (hdenial : P denial) {node : Nat → YamlNode}
    {visit : Nat → Context → Scan Unit} {context : Context} {pairs : List (Nat × Nat)}
    {keys : List (Text × Text)}
    (hvisit : ∀ pair ∈ pairs, ∀ context,
      Prog.Raises P (visit pair.1 context) ∧ Prog.Raises P (visit pair.2 context)) :
    Prog.Raises P (visitPairs node visit context pairs keys) := by
  induction pairs generalizing keys with
  | nil => exact Prog.raises_pure
  | cons pair pairs ih =>
    have hfirst := hvisit pair List.mem_cons_self
    exact Prog.raises_bind
        (Prog.raises_ite (fun _ => Prog.raises_raise hdenial) fun _ => Prog.raises_pure) fun _ =>
      Prog.raises_bind (hfirst _).1 fun _ => Prog.raises_bind (hfirst _).2 fun _ =>
      ih fun pair' hmem => hvisit pair' (List.mem_cons_of_mem _ hmem)

omit hload in
theorem raises_visit {P : Exc → Prop} (hdenial : P denial)
    {tagged : YamlNode → Context → Scan Unit} {node : Nat → YamlNode} {remaining : Nat}
    {active : List Nat} {id : Nat} {context : Context}
    (htagged : ∀ id', Holds node id id' → ∀ context, Prog.Raises P (tagged (node id') context)) :
    Prog.Raises P (visit tagged node remaining active id context) := by
  have hdenyIf : ∀ c, Prog.Raises P (denyIf c) := fun _ =>
    Prog.raises_ite (fun _ => Prog.raises_raise hdenial) fun _ => Prog.raises_pure
  have hcount : Prog.Raises P (count .nodes) :=
    Prog.raises_bind Prog.raises_change fun _ => Prog.raises_bind Prog.raises_read fun _ =>
      Prog.raises_bind (hdenyIf _) fun _ => Prog.raises_change
  induction remaining generalizing active id context with
  | zero => exact Prog.raises_raise hdenial
  | succ remaining ih =>
    have hchild : ∀ child ∈ (node id).children, ∀ active context,
        Prog.Raises P (visit tagged node remaining active child context) := fun child hmem _ _ =>
      ih fun id' hid' => htagged id' (.head hmem hid')
    refine Prog.raises_bind (hdenyIf _) fun _ => Prog.raises_bind hcount fun _ =>
      Prog.raises_bind (hdenyIf _) fun _ =>
      Prog.raises_ite (fun _ => htagged id .refl _) fun _ => ?_
    cases hnode : node id with
    | scalar tag value => exact Prog.raises_pure
    | sequence tag items =>
      exact Prog.raises_forM fun child hmem => hchild child (by rw [hnode]; exact hmem) _ _
    | mapping tag pairs =>
      refine raises_visitPairs hdenial fun pair hmem context => ⟨hchild _ ?_ _ _, hchild _ ?_ _ _⟩
      · rw [hnode]
        exact List.mem_flatMap.mpr ⟨pair, hmem, List.mem_cons_self⟩
      · rw [hnode]
        exact List.mem_flatMap.mpr ⟨pair, hmem, by simp⟩

theorem raises_composeAndVisit {args : LoadArgs} {node : Node}
    (hnode : tree.fs.lookup args.parts = some node) :
    Prog.Raises (MissingOnly (LostFrom tree args.parts))
      (composeAndVisit tree load node.data args) := by
  refine Prog.raises_bind (Prog.raises_forM fun _ _ => raises_count) fun _ =>
    Prog.raises_bind raises_denyIf fun _ => ?_
  split
  · exact Prog.raises_raise missingOnly_denial
  · exact Prog.raises_pure
  · rename_i graph hgraph
    refine raises_visit missingOnly_denial fun id hid context => ?_
    cases hscalar : graph.node id with
    | scalar tag value =>
      exact raises_visitTag hload ⟨node, graph, id, hnode, hgraph, hid, hscalar⟩
    | sequence tag items => exact Prog.raises_raise missingOnly_denial
    | mapping tag pairs => exact Prog.raises_raise missingOnly_denial

/-! ## What a visit follows -/

theorem done_includeDirectory {args : LoadArgs}
    (h : includeDirectory tree load args s = (.ok (), s')) :
    args.parts ∈ s'.directories ∧ ∀ q, YamlFile tree args.parts q → Done s' q := by
  obtain ⟨inventory, t, hrecord, hloads⟩ := Prog.bind_ok_iff.mp h
  obtain ⟨hmem, hfinds⟩ := recordDirectory_ok hrecord
  have hruns : Prog.Runs (Extends tree) (inventory.forM fun relative =>
      load ⟨args.parts ++ relative, args.depth, args.context⟩) :=
    Prog.runs_forM fun _ _ => hload.runs _
  have hdone := Prog.forM_ok (P := fun relative s => Done s (args.parts ++ relative))
    (fun _ _ => hload.runs _) (fun _ _ s s' hrun => hload.done _ s s' hrun)
    (fun _ _ _ hextends => hextends.1.done _) hloads
  refine ⟨(extends_of_run hruns hloads).1.directories _ hmem, fun q hq => ?_⟩
  obtain ⟨relative, hrelative, rfl⟩ := hfinds.all q hq
  exact hdone relative hrelative

theorem tried_secretCandidates {parent : Path} {context : Context}
    (h : secretCandidates load parent context s = (.ok (), s')) :
    ∀ directory, directory <+: parent → directory ++ ["secrets.yaml".toList] ∈ s'.secrets ∧
      (Done s' (directory ++ ["secrets.yaml".toList]) ∨
        directory ++ ["secrets.yaml".toList] ∉ tree.fs ∨
        LostFrom tree (directory ++ ["secrets.yaml".toList])) := by
  intro directory hpre
  refine Prog.forM_ok (S := Extends tree) (P := fun directory s =>
    directory ++ ["secrets.yaml".toList] ∈ s.secrets ∧
      (Done s (directory ++ ["secrets.yaml".toList]) ∨
        directory ++ ["secrets.yaml".toList] ∉ tree.fs ∨
        LostFrom tree (directory ++ ["secrets.yaml".toList]))) (fun _ _ => ?_)
    (fun directory _ s s' hrun => ?_) (fun _ _ _ hextends hpost => ?_) h directory (by simpa using hpre)
  · exact Prog.runs_bind (Prog.runs_change fun _ => (Step.secret _).extends) fun _ =>
      Prog.runs_rescue (hload.runs _) fun _ =>
        Prog.runs_ite (fun _ => Prog.runs_pure) fun _ => Prog.runs_raise
  · obtain ⟨_, t, hadd, hrun⟩ := Prog.bind_ok_iff.mp hrun
    obtain ⟨-, rfl⟩ := Prog.change_eq_iff.mp hadd
    rcases Prog.rescue_eq_iff.mp hrun with ⟨_, hok, -⟩ | ⟨e, u, hraised, hcaught⟩
    · refine ⟨(extends_of_run (hload.runs _) hok).1.secrets _ List.mem_insert_self, .inl ?_⟩
      exact hload.done _ _ _ hok
    · split at hcaught
      · rename_i he
        obtain ⟨-, rfl⟩ := Prog.pure_eq_iff.mp hcaught
        exact ⟨(extends_of_run (hload.runs _) hraised).1.secrets _ List.mem_insert_self,
          .inr (hload.lost _ _ _ _ hraised he)⟩
      · cases hcaught
  · exact ⟨hextends.1.secrets _ hpost.1, hpost.2.imp_left (hextends.1.done _)⟩

theorem followed_visitTag {depth : Nat} {context : Context}
    (h : visitTag tree load p depth (.scalar tag value) context s = (.ok (), s')) :
    Followed tree s' p tag value := by
  simp only [visitTag] at h
  split at h
  · rename_i htag
    subst htag
    obtain ⟨parts, t, hparts, h⟩ := Prog.bind_ok_iff.mp h
    obtain ⟨_, u, -, h⟩ := Prog.bind_ok_iff.mp h
    exact {
      included := fun _ => ⟨_, ⟨parts, sourceParts_of_pathOperand hparts, rfl⟩, hload.done _ _ _ h⟩
      listed := fun hmem => absurd hmem (by decide)
      secrets := fun heq => absurd heq (by decide) }
  rename_i hinclude
  split at h
  · rename_i hmem
    obtain ⟨parts, t, hparts, h⟩ := Prog.bind_ok_iff.mp h
    obtain ⟨_, u, -, h⟩ := Prog.bind_ok_iff.mp h
    obtain ⟨hdirectory, hdone⟩ := done_includeDirectory hload h
    exact {
      included := fun heq => absurd heq hinclude
      listed := fun _ => ⟨_, ⟨parts, sourceParts_of_pathOperand hparts, rfl⟩, hdirectory, hdone⟩
      secrets := fun heq => absurd (heq ▸ hmem) (by decide) }
  rename_i hlisted
  split at h
  · obtain ⟨_, t, -, h⟩ := Prog.bind_ok_iff.mp h
    exact {
      included := fun heq => absurd heq hinclude
      listed := fun hmem => absurd hmem hlisted
      secrets := fun _ => tried_secretCandidates hload h }
  · rename_i hsecret
    exact {
      included := fun heq => absurd heq hinclude
      listed := fun hmem => absurd hmem hlisted
      secrets := fun heq => absurd heq hsecret }

omit hload in
theorem visitPairs_ok {S : Scanner → Scanner → Prop} {P : Nat → Scanner → Prop}
    {node : Nat → YamlNode} {visit : Nat → Context → Scan Unit} {context : Context}
    {pairs : List (Nat × Nat)} {keys : List (Text × Text)}
    (hruns : ∀ id context, Prog.Runs S (visit id context))
    (hkeeps : ∀ id s s', S s s' → P id s → P id s')
    (hpost : ∀ pair ∈ pairs, ∀ id ∈ [pair.1, pair.2], ∀ context s s',
      visit id context s = (.ok (), s') → P id s')
    (h : visitPairs node visit context pairs keys s = (.ok (), s')) :
    ∀ pair ∈ pairs, ∀ id ∈ [pair.1, pair.2], P id s' := by
  induction pairs generalizing keys s with
  | nil => simp
  | cons pair pairs ih =>
    obtain ⟨-, h⟩ := denyIf_bind_ok_iff.mp h
    obtain ⟨_, t, hkey, h⟩ := Prog.bind_ok_iff.mp h
    obtain ⟨_, u, hvalue, hrest⟩ := Prog.bind_ok_iff.mp h
    have hpair := hpost pair List.mem_cons_self
    have hlater : ∀ keys, Prog.Runs S (visitPairs node visit context pairs keys) :=
      fun _ => runs_visitPairs hruns
    intro pair' hmem id hid
    rcases List.mem_cons.mp hmem with rfl | hmem
    · refine (hlater _).invariant (hkeeps id) hrest ?_
      rcases List.mem_pair.mp hid with rfl | rfl
      · exact (hruns _ _).invariant (hkeeps _) hvalue (hpair _ List.mem_cons_self _ _ _ hkey)
      · exact hpair _ (by simp) _ _ _ hvalue
    · exact ih (fun pair hmem => hpost pair (List.mem_cons_of_mem _ hmem)) hrest pair' hmem id hid

omit hload in
/-- Where a visit returns, what holds of each tagged node holds of all nodes below. -/
theorem visit_ok {S : Scanner → Scanner → Prop} {P : Nat → Scanner → Prop}
    {tagged : YamlNode → Context → Scan Unit} {node : Nat → YamlNode} {remaining : Nat}
    {active : List Nat} {start : Nat} {context : Context}
    (hcount : ∀ counter, Prog.Runs S (count counter))
    (hruns : ∀ node context, Prog.Runs S (tagged node context))
    (hkeeps : ∀ id s s', S s s' → P id s → P id s')
    (hplain : ∀ id s, (node id).tag ∉ knownTags → P id s)
    (htagged : ∀ id, Holds node start id → ∀ context s s',
      tagged (node id) context s = (.ok (), s') → P id s' ∧ (node id).children = [])
    (h : visit tagged node remaining active start context s = (.ok (), s')) :
    ∀ id, Holds node start id → P id s' := by
  induction remaining generalizing active start context s s' with
  | zero => cases h
  | succ remaining ih =>
    obtain ⟨-, h⟩ := denyIf_bind_ok_iff.mp h
    obtain ⟨_, t, -, h⟩ := Prog.bind_ok_iff.mp h
    obtain ⟨-, h⟩ := denyIf_bind_ok_iff.mp h
    split at h
    · obtain ⟨hstart, hchildren⟩ := htagged start .refl _ _ _ h
      intro id hid
      rcases Relation.ReflTransGen.cases_head hid with rfl | ⟨child, hchild, -⟩
      · exact hstart
      · rw [hchildren] at hchild
        cases hchild
    rename_i hplainTag
    have hvisit : ∀ active id context,
        Prog.Runs S (visit tagged node remaining active id context) :=
      fun _ _ _ => runs_visit hcount hruns
    have hchild : ∀ child ∈ (node start).children, ∀ active context s s',
        visit tagged node remaining active child context s = (.ok (), s') →
          ∀ id, Holds node child id → P id s' := fun child hmem _ _ _ _ hrun =>
      ih (fun id hid => htagged id (.head hmem hid)) hrun
    have hall : ∀ child ∈ (node start).children, ∀ id, Holds node child id → P id s' := by
      cases hnode : node start with
      | scalar tag value => simp [YamlNode.children]
      | sequence tag items =>
        simp only [hnode] at h
        refine Prog.forM_ok (P := fun child s => ∀ id, Holds node child id → P id s)
          (fun _ _ => hvisit _ _ _) (fun child hmem s s' hrun => ?_)
          (fun child s s' hstep hpost id hid => hkeeps id s s' hstep (hpost id hid)) h
        exact hchild child (by rw [hnode]; exact hmem) _ _ _ _ hrun
      | mapping tag pairs =>
        simp only [hnode] at h
        intro child hmem
        obtain ⟨pair, hpair, hid⟩ := List.mem_flatMap.mp hmem
        refine visitPairs_ok (P := fun child s => ∀ id, Holds node child id → P id s)
          (hvisit _) (fun child s s' hstep hpost id hid => hkeeps id s s' hstep (hpost id hid))
          (fun pair hpair child hmem context s s' hrun => ?_) h pair hpair child hid
        refine hchild child ?_ _ _ _ _ hrun
        rw [hnode]
        exact List.mem_flatMap.mpr ⟨pair, hpair, hmem⟩
    intro id hid
    rcases Relation.ReflTransGen.cases_head hid with rfl | ⟨child, hmem, hbelow⟩
    · exact hplain start s' hplainTag
    · exact hall child hmem id hbelow

omit hload in
theorem followed_of_plain (h : tag ∉ knownTags) : Followed tree s p tag value where
  included htag := absurd (htag ▸ by decide) h
  listed hmem := absurd (List.mem_append_left _ (List.mem_append_right _ hmem)) h
  secrets htag := absurd (htag ▸ by decide) h

theorem followed_composeAndVisit {args : LoadArgs} {node : Node}
    (hnode : tree.fs.lookup args.parts = some node)
    (h : composeAndVisit tree load node.data args s = (.ok (), s')) :
    ∀ tag value, Tagged tree args.parts tag value → Followed tree s' args.parts tag value := by
  rintro tag value ⟨file, graph, id, hfile, hgraph, hid, hscalar⟩
  rw [hnode] at hfile
  cases hfile
  obtain ⟨_, t, -, h⟩ := Prog.bind_ok_iff.mp h
  obtain ⟨-, h⟩ := denyIf_bind_ok_iff.mp h
  simp only [hgraph] at h
  refine visit_ok (S := Extends tree) (P := fun id s => ∀ tag value,
      graph.node id = .scalar tag value → Followed tree s args.parts tag value)
    (runs_count fun _ _ => Step.extends)
    (fun _ _ => runs_visitTag (fun _ _ => Step.extends) hload.runs)
    (fun _ _ _ hextends hpost tag value hnode => (hpost tag value hnode).mono hextends.1)
    (fun id s hplain tag value hnode => ?_) (fun id _ context s s' hrun => ?_) h id hid tag value hscalar
  · rw [hnode] at hplain
    exact followed_of_plain hplain
  · cases hnode : graph.node id with
    | scalar tag' value' =>
      rw [hnode] at hrun
      refine ⟨fun tag value heq => ?_, rfl⟩
      cases heq
      exact followed_visitTag hload hrun
    | sequence tag items =>
      rw [hnode] at hrun
      cases hrun
    | mapping tag pairs =>
      rw [hnode] at hrun
      cases hrun

/-! ## Loads -/

omit hload in
/-- A file whose references have all been followed can be completed. -/
theorem extends_completed (hsource : p ∈ s.sources)
    (hfollowed : ∀ tag value, Tagged tree p tag value → Followed tree s p tag value) :
    Extends tree s (s.logged (.completed p)) := by
  have hgrows : Grows s (s.logged (.completed p)) :=
    ⟨fun q hq => done_logged.mpr (.inl hq), fun _ => id, fun _ => id, fun _ => id⟩
  refine ⟨hgrows, fun hclosed q hq => ?_⟩
  rcases done_logged.mp hq with hq | heq
  · obtain ⟨hsource, hfollowed⟩ := hclosed q hq
    exact ⟨hsource, fun tag value htagged => (hfollowed tag value htagged).mono hgrows⟩
  · cases heq
    exact ⟨hsource, fun tag value htagged => (hfollowed tag value htagged).mono hgrows⟩

theorem extends_loadWith {args : LoadArgs} {out : Except Exc Unit}
    (h : loadWith tree load args s = (out, s')) : Extends tree s s' := by
  have hadmits : Prog.Runs (Extends tree) (admitFile tree args) :=
    runs_admitFile (fun _ _ => Step.extends) fun s p => extends_logged (by simp)
  have hvisits : ∀ data, Prog.Runs (Extends tree) (composeAndVisit tree load data args) :=
    fun _ => runs_composeAndVisit (fun _ _ => Step.extends) hload.runs
  rcases loadWith_cases h with ⟨e, hadmit⟩ | ⟨node, t, hadmit, hcases⟩
  · exact extends_of_run hadmits hadmit
  have hpushed : Extends tree s (t.pushed args.parts) :=
    (extends_of_run hadmits hadmit).trans (Step.pushed _).extends
  obtain ⟨hnode, hsource⟩ := admitFile_recorded hadmit
  rcases hcases with ⟨e, u, hvisit, rfl⟩ | ⟨u, hvisit, rfl⟩
  · exact (hpushed.trans (extends_of_run (hvisits _) hvisit)).trans (Step.popped _).extends
  · have hvisited := extends_of_run (hvisits _) hvisit
    have hpopped : Extends tree u (u.popped args.parts) := (Step.popped _).extends
    refine ((hpushed.trans hvisited).trans hpopped).trans (extends_completed ?_ ?_)
    · exact hvisited.1.sources _ hsource
    · exact fun tag value htagged =>
        (followed_composeAndVisit hload hnode hvisit tag value htagged).mono hpopped.1

theorem loads_loadWith : Loads tree (loadWith tree load) where
  runs args s := .single (extends_loadWith hload (h := rfl))
  done args s s' h := by
    obtain ⟨node, t, -, h⟩ := Prog.bind_ok_iff.mp h
    obtain ⟨_, u, -, h⟩ := Prog.bind_ok_iff.mp h
    obtain ⟨_, v, -, h⟩ := Prog.bind_ok_iff.mp h
    obtain ⟨-, rfl⟩ := Prog.change_eq_iff.mp h
    exact done_logged.mpr (.inr rfl)
  lost args := by
    refine Prog.raises_bind_of (raises_admitFile.mono fun e he h => .inl (he h))
      fun node s s' hadmit => ?_
    refine Prog.raises_bind Prog.raises_change fun _ => Prog.raises_bind
      (Prog.raises_ensure ?_ fun _ => Prog.raises_change) fun _ => Prog.raises_change
    exact (raises_composeAndVisit hload (admitFile_recorded hadmit).1).mono fun e he h => .inr (he h)

end

theorem loads_load : Loads tree (load tree) := by
  refine Prog.unfolded_of (fun _ => loads_loadWith) ?_ _
  exact {
    runs := fun _ => runs_deny
    done := fun _ _ _ h => by cases h
    lost := fun _ => Prog.raises_raise missingOnly_denial }

end SourceScan

end Hapatchy
