import Hapatchy.SourceGraph.Protects
import Hapatchy.SourceScan.Follow

/-!
# What a scan leaves out

Where a scan returns, the graph has all that the configuration reaches, unless
a file that a lookup has found includes something that is not there: the lookup
takes that for a missing `secrets.yaml`, and the rest of the file is not read.
-/

open Effects

namespace Hapatchy

namespace SourceScan

variable {tree : SourceTree} {s s' : Scanner} {graph : SourceGraph} {p q : Path}

/-! ## The graph of a state -/

/-- What is recorded is there, under its own path. -/
structure Recorded (tree : SourceTree) (s : Scanner) : Prop where
  sources : ∀ p source, s.sources.lookup p = some source → source.path = p ∧ p ∈ tree.fs
  directories : ∀ p scope, s.directories.lookup p = some scope → scope.path = p ∧ p ∈ tree.fs

theorem mem_of_stat_ok {node : Node} (h : stat tree p = .ok node) : p ∈ tree.fs :=
  AList.lookup_isSome.mp (by rw [mem_of_stat h]; rfl)

theorem Step.recorded (h : Step tree s s') (hs : Recorded tree s) : Recorded tree s' := by
  cases h with
  | source p node hstat hnew =>
    refine ⟨fun q source hsource => ?_, hs.directories⟩
    by_cases hq : q = p
    · subst hq
      rw [AList.lookup_insert] at hsource
      cases hsource
      exact ⟨rfl, mem_of_stat_ok hstat⟩
    · rw [AList.lookup_insert_ne hq] at hsource
      exact hs.sources q source hsource
  | directory scope hstat hnew =>
    refine ⟨hs.sources, fun q scope' hscope => ?_⟩
    by_cases hq : q = scope.path
    · subst hq
      rw [AList.lookup_insert] at hscope
      cases hscope
      exact ⟨rfl, mem_of_stat_ok hstat.choose_spec⟩
    · rw [AList.lookup_insert_ne hq] at hscope
      exact hs.directories q scope' hscope
  | _ => exact ⟨hs.sources, hs.directories⟩

/-- The values of a dictionary whose values carry their own keys. -/
theorem exists_value_iff {β : Type} {dictionary : AList fun _ : Path => β} {path : β → Path}
    (h : ∀ p value, dictionary.lookup p = some value → path value = p) :
    (∃ value ∈ dictionary.entries.map Sigma.snd, path value = p) ↔ p ∈ dictionary := by
  rw [← AList.lookup_isSome, Option.isSome_iff_exists]
  constructor
  · rintro ⟨value, hmem, rfl⟩
    obtain ⟨⟨q, value⟩, hentry, rfl⟩ := List.mem_map.mp hmem
    have hlookup := AList.mem_lookup_iff.mpr hentry
    exact ⟨value, (h q value hlookup).symm ▸ hlookup⟩
  · rintro ⟨value, hlookup⟩
    exact ⟨value, List.mem_map.mpr ⟨_, AList.mem_lookup_iff.mp hlookup, rfl⟩, h p value hlookup⟩

theorem mem_graph_sources (h : Recorded tree s) :
    p ∈ s.graph.sources.map SourceFile.path ↔ p ∈ s.sources := by
  rw [List.mem_map, ← exists_value_iff fun p source hsource => (h.sources p source hsource).1]
  simp only [Scanner.graph, List.mem_insertionSort]

theorem mem_graph_directories (h : Recorded tree s) :
    p ∈ s.graph.directories.map DirectoryScope.path ↔ p ∈ s.directories := by
  rw [List.mem_map, ← exists_value_iff fun p scope hscope => (h.directories p scope hscope).1]
  simp only [Scanner.graph, List.mem_insertionSort]

theorem mem_graph_secrets : p ∈ s.graph.secretCandidates ↔ p ∈ s.secrets := by
  simp only [Scanner.graph, List.mem_insertionSort]

/-! ## What a graph lacks -/

/-- The graph has all that the configuration reaches, and all includes could be followed. -/
structure Complete (tree : SourceTree) (graph : SourceGraph) : Prop where
  sources : ∀ lookup p, Reached tree lookup p → p ∈ graph.sources.map SourceFile.path
  directories : ∀ lookup p d, Reached tree lookup p → IncludesDirectory tree p d →
    d ∈ graph.directories.map DirectoryScope.path
  candidates : ∀ lookup p q, Reached tree lookup p → LooksUp tree p q → q ∈ graph.secretCandidates
  followed : ∀ lookup p tag value, Reached tree lookup p → tag ∈ includeTag :: directoryTags →
    Tagged tree p tag value → ∃ q ∈ tree.fs, Names p value q

/-- A file or a secrets candidate that the configuration reaches, or something in an include
directory. -/
def Covered (tree : SourceTree) (parts : Path) : Prop :=
  ∃ lookup p, Reached tree lookup p ∧
    (parts = p ∨ LooksUp tree p parts ∨ ∃ d, IncludesDirectory tree p d ∧ d <+: parts)

/-- A file that a secrets lookup leads to includes something that is not there. -/
def LostInLookup (tree : SourceTree) : Prop := ∃ p, Reached tree true p ∧ LacksInclude tree p

theorem Names.unique {value : Text} {q' : Path} (h : Names p value q) (h' : Names p value q') :
    q = q' := by
  obtain ⟨parts, hparts, rfl⟩ := h
  obtain ⟨parts', hparts', rfl⟩ := h'
  rw [hparts] at hparts'
  cases hparts'
  rfl

/-- What is reached has been completed, as long as no lookup has lost anything. -/
theorem Reached.done (hclosed : Closed tree s) (hroot : Done s ["configuration.yaml".toList])
    (hlost : ¬ LostInLookup tree) {lookup : Bool} (h : Reached tree lookup p) : Done s p := by
  induction h with
  | root => exact hroot
  | included hp h ih =>
    obtain ⟨value, htagged, hnames⟩ := h
    obtain ⟨q', hnames', hdone⟩ := ((hclosed _ ih).2 _ _ htagged).included rfl
    exact hnames.unique hnames' ▸ hdone
  | listed hp hd h ih =>
    obtain ⟨tag, htag, value, htagged, hnames⟩ := hd
    obtain ⟨d', hnames', -, hdone⟩ := ((hclosed _ ih).2 _ _ htagged).listed htag
    exact hdone _ (hnames'.unique hnames ▸ h)
  | secret hp h hq ih =>
    have hlookup := h
    obtain ⟨value, htagged, directory, hpre, rfl⟩ := h
    rcases (((hclosed _ ih).2 _ _ htagged).secrets rfl directory hpre).2 with hdone | hnone | hfrom
    · exact hdone
    · exact absurd hq hnone
    · exact absurd (hfrom.reached (hp.secret hlookup hq)) hlost

theorem complete_of_closed (hclosed : Closed tree s) (hrecorded : Recorded tree s)
    (hroot : Done s ["configuration.yaml".toList]) (hlost : ¬ LostInLookup tree) :
    Complete tree s.graph where
  sources lookup p hp := (mem_graph_sources hrecorded).mpr (hclosed p (hp.done hclosed hroot hlost)).1
  directories lookup p d hp hd := by
    obtain ⟨tag, htag, value, htagged, hnames⟩ := hd
    obtain ⟨d', hnames', hmem, -⟩ :=
      ((hclosed p (hp.done hclosed hroot hlost)).2 _ _ htagged).listed htag
    exact (mem_graph_directories hrecorded).mpr (hnames.unique hnames' ▸ hmem)
  candidates lookup p q hp hq := by
    obtain ⟨value, htagged, directory, hpre, rfl⟩ := hq
    have hfollowed := (hclosed p (hp.done hclosed hroot hlost)).2 _ _ htagged
    exact mem_graph_secrets.mpr (hfollowed.secrets rfl directory hpre).1
  followed lookup p tag value hp htag htagged := by
    have hfollowed := (hclosed p (hp.done hclosed hroot hlost)).2 _ _ htagged
    rcases List.mem_cons.mp htag with rfl | htag
    · obtain ⟨q, hnames, hdone⟩ := hfollowed.included rfl
      obtain ⟨source, hsource⟩ := Option.isSome_iff_exists.mp (AList.lookup_isSome.mpr (hclosed q hdone).1)
      exact ⟨q, (hrecorded.sources q source hsource).2, hnames⟩
    · obtain ⟨d, hnames, hmem, -⟩ := hfollowed.listed htag
      obtain ⟨scope, hscope⟩ := Option.isSome_iff_exists.mp (AList.lookup_isSome.mpr hmem)
      exact ⟨d, (hrecorded.directories d scope hscope).2, hnames⟩

theorem Complete.not_lost (h : Complete tree graph) : ¬ LostInLookup tree := by
  rintro ⟨p, hp, q, hincludes | hincludes, hmissing⟩
  · obtain ⟨value, htagged, hnames⟩ := hincludes
    obtain ⟨q', hmem, hnames'⟩ := h.followed _ p _ _ hp List.mem_cons_self htagged
    exact hmissing (hnames.unique hnames' ▸ hmem)
  · obtain ⟨tag, htag, value, htagged, hnames⟩ := hincludes
    obtain ⟨q', hmem, hnames'⟩ := h.followed _ p _ _ hp (List.mem_cons_of_mem _ htag) htagged
    exact hmissing (hnames.unique hnames' ▸ hmem)

theorem Complete.covers (h : Complete tree graph) {parts : Path} (hcovered : Covered tree parts) :
    graph.Covers parts := by
  obtain ⟨lookup, p, hp, rfl | hsecret | ⟨d, hd, hpre⟩⟩ := hcovered
  · exact .inl (h.sources _ _ hp)
  · exact .inr (.inl (h.candidates _ _ _ hp hsecret))
  · obtain ⟨scope, hscope, rfl⟩ := List.mem_map.mp (h.directories _ _ _ hp hd)
    exact .inr (.inr ⟨scope, hscope, hpre⟩)

/-! ## The scan -/

theorem scan_of_ok (h : scanSourceGraph tree = .ok graph) :
    ∃ s, scan tree {} = (.ok (), s) ∧ graph = s.graph := by
  unfold scanSourceGraph at h
  split at h
  · rename_i s hscan
    cases h
    exact ⟨s, hscan, rfl⟩
  · cases h
  · cases h
  · cases h

theorem sourceParts_eq {path : Text} {parts : Path} (h : sourceParts path = some parts) :
    parts = path.splitOn '/' := by
  simp only [sourceParts] at h
  split at h
  · cases h
  · exact (Option.some.inj h).symm

/-- A scan that returns has all that the configuration reaches, and protects the path if it is
covered, exactly where no lookup has lost anything and `_parts` reads the path. -/
theorem complete_iff (h : scanSourceGraph tree = .ok graph) (path : Text) :
    (Complete tree graph ∧ (Covered tree (path.splitOn '/') → graph.protects path = true)) ↔
      ¬ LostInLookup tree ∧ (Covered tree (path.splitOn '/') → (sourceParts path).isSome) := by
  obtain ⟨s, hscan, rfl⟩ := scan_of_ok h
  have hload : Loads tree (load tree) := loads_load
  have hclosed : Closed tree s :=
    (extends_of_run (hload.runs _) hscan).2 fun p hp => absurd hp (by simp [Done])
  have hrecorded : Recorded tree s := by
    have hruns : Prog.Runs (fun s s' => Recorded tree s → Recorded tree s') (scan tree) :=
      runs_load (fun _ _ => Step.recorded) (fun _ _ hs => ⟨hs.sources, hs.directories⟩)
        fun _ _ hs => ⟨hs.sources, hs.directories⟩
    refine hruns.invariant (fun _ _ hstep => hstep) hscan ⟨?_, ?_⟩ <;> simp
  have hroot : Done s ["configuration.yaml".toList] := hload.done _ _ _ hscan
  constructor
  · rintro ⟨hcomplete, hprotects⟩
    refine ⟨hcomplete.not_lost, fun hcovered => ?_⟩
    have hprotects := hprotects hcovered
    unfold SourceGraph.protects at hprotects
    split at hprotects
    · cases hprotects
    · rename_i parts hparts
      rw [hparts]
      rfl
  · rintro ⟨hlost, hreads⟩
    have hcomplete := complete_of_closed hclosed hrecorded hroot hlost
    refine ⟨hcomplete, fun hcovered => ?_⟩
    obtain ⟨parts, hparts⟩ := Option.isSome_iff_exists.mp (hreads hcovered)
    have heq : parts = path.splitOn '/' := sourceParts_eq hparts
    subst heq
    exact (SourceGraph.protects_of_sourceParts hparts).mpr (hcomplete.covers hcovered)

/-- `configuration.yaml` is a `!secret`, and `secrets.yaml` includes two files, of which only the
second is there. -/
def lostInclude : SourceTree where
  fs := ((((∅ : Fs).insert [] ⟨.directory, [], 1, 0, 0, 0o755, 0, 0, 2, none⟩).insert
    ["configuration.yaml".toList] ⟨.file, [0], 2, 0, 0, 0o644, 0, 0, 1, none⟩).insert
    ["secrets.yaml".toList] ⟨.file, [1], 3, 0, 0, 0o644, 0, 0, 1, none⟩).insert
    ["other.yaml".toList] ⟨.file, [2], 4, 0, 0, 0o644, 0, 0, 1, none⟩
  fails _ _ := false
  sha256 _ := []
  yaml data :=
    let node (id : Nat) : YamlNode :=
      match id with
      | 0 => .scalar secretTag "password".toList
      | 1 => .sequence (yamlTag ++ "seq".toList) [2, 3]
      | 2 => .scalar includeTag "missing.yaml".toList
      | _ => .scalar includeTag "other.yaml".toList
    { events := 1
      parses := true
      composed := some (if data = [0] then some ⟨node, 0⟩ else if data = [1] then some ⟨node, 1⟩ else none) }

def lostGraph : SourceGraph where
  sources := [⟨["configuration.yaml".toList], 2, 0o644, 1, 0, 0, []⟩,
    ⟨["secrets.yaml".toList], 3, 0o644, 1, 0, 0, []⟩]
  directories := []
  secretCandidates := [["secrets.yaml".toList]]
  grantSources := [["configuration.yaml".toList], ["secrets.yaml".toList]]

theorem complete_iff_lostInclude :
    (Complete lostInclude lostGraph ∧
      (Covered lostInclude ("other.yaml".toList.splitOn '/') →
        lostGraph.protects "other.yaml".toList = true)) ↔
    ¬ LostInLookup lostInclude ∧
      (Covered lostInclude ("other.yaml".toList.splitOn '/') →
        (sourceParts "other.yaml".toList).isSome) :=
  have hscan : scanSourceGraph lostInclude = .ok lostGraph := by decide +kernel
  complete_iff hscan "other.yaml".toList

/-- The second include is reached and there, but neither a source nor protected. -/
theorem not_complete_lostInclude :
    scanSourceGraph lostInclude = .ok lostGraph ∧
      Reached lostInclude true ["other.yaml".toList] ∧ ["other.yaml".toList] ∈ lostInclude.fs ∧
      ["other.yaml".toList] ∉ lostGraph.sources.map SourceFile.path ∧
      lostGraph.protects "other.yaml".toList = false := by
  have hsecret : Tagged lostInclude ["configuration.yaml".toList] secretTag "password".toList :=
    ⟨_, _, 0, rfl, rfl, .refl, rfl⟩
  have hinclude : Tagged lostInclude ["secrets.yaml".toList] includeTag "other.yaml".toList :=
    ⟨_, _, 3, rfl, rfl, .single (by decide +kernel), rfl⟩
  have hlookup : LooksUp lostInclude ["configuration.yaml".toList] ["secrets.yaml".toList] :=
    ⟨_, hsecret, [], List.nil_prefix, rfl⟩
  have hsecrets : Reached lostInclude true ["secrets.yaml".toList] :=
    .secret .root hlookup (by decide +kernel)
  refine ⟨by decide +kernel, .included hsecrets ⟨_, hinclude, _, ?_, rfl⟩, by decide +kernel,
    by decide +kernel, by decide +kernel⟩
  decide +kernel

end SourceScan

end Hapatchy
