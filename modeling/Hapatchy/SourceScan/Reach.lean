import Hapatchy.SourceScan.Steps

/-!
# What the configuration reaches

The files, directories and secrets files that a configuration refers to,
whatever the scan makes of it.
-/

open Effects

namespace Hapatchy

namespace SourceScan

variable {tree : SourceTree} {s s' : Scanner} {p q : Path} {tag value : Text}

/-! ## References -/

def YamlNode.children : YamlNode → List Nat
  | .scalar _ _ => []
  | .sequence _ items => items
  | .mapping _ pairs => pairs.flatMap fun pair => [pair.1, pair.2]

/-- `id'` is `id`, or below it. -/
def Holds (node : Nat → YamlNode) : Nat → Nat → Prop :=
  Relation.ReflTransGen fun id child => child ∈ (node id).children

/-- The file `p` holds the scalar `value` under `tag`. -/
def Tagged (tree : SourceTree) (p : Path) (tag value : Text) : Prop :=
  ∃ file graph id, tree.fs.lookup p = some file ∧
    (tree.yaml file.data).composed = some (some graph) ∧ Holds graph.node graph.root id ∧
    graph.node id = .scalar tag value

/-- `q` is what the operand `value` names in the file `p`. -/
def Names (p : Path) (value : Text) (q : Path) : Prop :=
  ∃ parts, sourceParts value = some parts ∧ q = p.dropLast ++ parts

def Includes (tree : SourceTree) (p q : Path) : Prop :=
  ∃ value, Tagged tree p includeTag value ∧ Names p value q

def IncludesDirectory (tree : SourceTree) (p q : Path) : Prop :=
  ∃ tag ∈ directoryTags, ∃ value, Tagged tree p tag value ∧ Names p value q

def Hidden (name : Text) : Prop := name.head? = some '.'

def IsYaml (name : Text) : Prop := name ≠ "secrets.yaml".toList ∧ ".yaml".toList <:+ name

/-- `q` is a `.yaml` file in the subtree `d`. -/
inductive YamlFile (tree : SourceTree) : (d q : Path) → Prop where
  | here {d : Path} {name : Text} {node : Node} (hnode : tree.fs.lookup (d ++ [name]) = some node)
      (hkind : node.kind = .file) (hname : ¬ Hidden name) (hyaml : IsYaml name) :
      YamlFile tree d (d ++ [name])
  | inside {d q : Path} {name : Text} {node : Node}
      (hnode : tree.fs.lookup (d ++ [name]) = some node) (hkind : node.kind = .directory)
      (hname : ¬ Hidden name) (h : YamlFile tree (d ++ [name]) q) : YamlFile tree d q

/-- `q` is a place where a `!secret` of the file `p` looks. -/
def LooksUp (tree : SourceTree) (p q : Path) : Prop :=
  ∃ value, Tagged tree p secretTag value ∧
    ∃ directory, directory <+: p.dropLast ∧ q = directory ++ ["secrets.yaml".toList]

/-- A file that the configuration refers to, there or not, and whether that takes a secrets
lookup. Of the places of a lookup only those count where a file is. -/
inductive Reached (tree : SourceTree) : (lookup : Bool) → Path → Prop where
  | root : Reached tree false ["configuration.yaml".toList]
  | included {lookup : Bool} {p q : Path} (hp : Reached tree lookup p) (h : Includes tree p q) :
      Reached tree lookup q
  | listed {lookup : Bool} {p d q : Path} (hp : Reached tree lookup p)
      (hd : IncludesDirectory tree p d) (h : YamlFile tree d q) : Reached tree lookup q
  | secret {lookup : Bool} {p q : Path} (hp : Reached tree lookup p) (h : LooksUp tree p q)
      (hq : q ∈ tree.fs) : Reached tree true q

/-- The file `p` includes something that is not there. -/
def LacksInclude (tree : SourceTree) (p : Path) : Prop :=
  ∃ q, (Includes tree p q ∨ IncludesDirectory tree p q) ∧ q ∉ tree.fs

/-- Something is missing in `p`, or in a file that `p` includes. -/
inductive LostFrom (tree : SourceTree) : Path → Prop where
  | here {p : Path} (h : LacksInclude tree p) : LostFrom tree p
  | included {p q : Path} (h : Includes tree p q) (hq : LostFrom tree q) : LostFrom tree p
  | listed {p d q : Path} (hd : IncludesDirectory tree p d) (h : YamlFile tree d q)
      (hq : LostFrom tree q) : LostFrom tree p

theorem LostFrom.reached (h : LostFrom tree p) {lookup : Bool} (hp : Reached tree lookup p) :
    ∃ q, Reached tree lookup q ∧ LacksInclude tree q := by
  induction h with
  | here h => exact ⟨_, hp, h⟩
  | included h hq ih => exact ih (hp.included h)
  | listed hd h hq ih => exact ih (hp.listed hd h)

theorem YamlFile.mem (h : YamlFile tree p q) : q ∈ tree.fs := by
  induction h with
  | here hnode => exact AList.lookup_isSome.mp (by rw [hnode]; rfl)
  | inside _ _ _ _ ih => exact ih

theorem mem_of_stat {node : Node} (h : stat tree p = .ok node) : tree.fs.lookup p = some node := by
  unfold stat at h
  split at h
  · cases h
  · split at h
    · cases h
    · rename_i hnode
      cases h
      exact hnode

theorem stat_fileNotFound (h : stat tree p = .error .fileNotFound) : p ∉ tree.fs := by
  unfold stat at h
  split at h
  · cases h
  · split at h
    · rename_i hnode
      exact AList.lookup_eq_none.mp hnode
    · cases h

/-! ## Walks -/

/-- `q` is a `.yaml` file that the entry `name` of the directory `d` leads to. -/
def FromEntry (tree : SourceTree) (d : Path) (name : Text) (q : Path) : Prop :=
  ¬ Hidden name ∧ ∃ node, tree.fs.lookup (d ++ [name]) = some node ∧
    (node.kind = .file ∧ IsYaml name ∧ q = d ++ [name] ∨
      node.kind = .directory ∧ YamlFile tree (d ++ [name]) q)

theorem yamlFile_iff {d : Path} :
    YamlFile tree d q ↔ ∃ name ∈ tree.fs.names d, FromEntry tree d name q := by
  constructor
  · intro h
    cases h with
    | here hnode hkind hname hyaml =>
      exact ⟨_, Fs.mem_names_iff.mpr (by rw [hnode]; rfl), hname, _, hnode, .inl ⟨hkind, hyaml, rfl⟩⟩
    | inside hnode hkind hname h =>
      exact ⟨_, Fs.mem_names_iff.mpr (by rw [hnode]; rfl), hname, _, hnode, .inr ⟨hkind, h⟩⟩
  · rintro ⟨name, -, hname, node, hnode, ⟨hkind, hyaml, rfl⟩ | ⟨hkind, h⟩⟩
    · exact .here hnode hkind hname hyaml
    · exact .inside hnode hkind hname h

/-- From `before`, a walk has found `found`: all that `P` asks for below `scope`, and nothing else. -/
structure Finds (P : Path → Prop) (scope : Path) (before found : List Path) : Prop where
  kept : before ⊆ found
  all : ∀ q, P q → ∃ relative ∈ found, q = scope ++ relative
  only : ∀ relative ∈ found, relative ∈ before ∨ P (scope ++ relative)

theorem Finds.trans {P P' : Path → Prop} {scope : Path} {before between found : List Path}
    (h : Finds P scope before between) (h' : Finds P' scope between found) :
    Finds (fun q => P q ∨ P' q) scope before found where
  kept := List.Subset.trans h.kept h'.kept
  all q hq := by
    rcases hq with hq | hq
    · obtain ⟨relative, hmem, rfl⟩ := h.all q hq
      exact ⟨relative, h'.kept hmem, rfl⟩
    · exact h'.all q hq
  only relative hmem := by
    rcases h'.only relative hmem with hmem | hq
    · exact (h.only relative hmem).imp_right Or.inl
    · exact .inr (.inr hq)

theorem Finds.congr {P P' : Path → Prop} {scope : Path} {before found : List Path}
    (h : Finds P scope before found) (hP : ∀ q, P q ↔ P' q) : Finds P' scope before found where
  kept := h.kept
  all q hq := h.all q ((hP q).mpr hq)
  only relative hmem := (h.only relative hmem).imp_right (hP _).mp

theorem finds_nothing {P : Path → Prop} {scope : Path} {before : List Path} (h : ∀ q, ¬ P q) :
    Finds P scope before before where
  kept := List.Subset.refl _
  all q hq := absurd hq (h q)
  only _ hmem := .inl hmem

theorem finds_one {scope relative : Path} {before : List Path} :
    Finds (· = scope ++ relative) scope before (before ++ [relative]) where
  kept := List.subset_append_left _ _
  all q hq := ⟨relative, by simp, hq⟩
  only relative' hmem := by
    rcases List.mem_append.mp hmem with hmem | hmem
    · exact .inl hmem
    · rw [List.mem_singleton.mp hmem]
      exact .inr rfl

/-- What a walk returns are the `.yaml` files below, and what it was given. -/
def Lists (tree : SourceTree) (scope : Path) (walk : WalkArgs → Scan (List Path)) : Prop :=
  ∀ args s s' found, walk args s = (.ok found, s') →
    Finds (YamlFile tree (scope ++ args.relative)) scope args.inventory found

section

variable {walk : WalkArgs → Scan (List Path)} {scope relative : Path} {inventory found : List Path}

theorem finds_walkEntry (hwalk : Lists tree scope walk) {name : Text}
    (h : walkEntry tree walk scope relative inventory name s = (.ok found, s')) :
    Finds (FromEntry tree (scope ++ relative) name) scope inventory found := by
  unfold walkEntry at h
  split at h
  · rename_i hhidden
    obtain ⟨hfound, -⟩ := Prog.pure_eq_iff.mp h
    cases hfound
    exact finds_nothing fun q hq => hq.1 hhidden
  rename_i hhidden
  obtain ⟨_, t, -, h⟩ := Prog.bind_ok_iff.mp h
  rcases hstat : stat tree (scope ++ relative ++ [name]) with e | node <;> simp only [hstat] at h
  · cases h
  have hnode := mem_of_stat hstat
  cases hkind : node.kind with
  | directory =>
    simp only [hkind] at h
    obtain ⟨-, h⟩ := denyIf_bind_ok_iff.mp h
    have hfinds := hwalk _ _ _ _ h
    rw [← List.append_assoc] at hfinds
    refine hfinds.congr fun q => ⟨fun hq => ⟨hhidden, node, hnode, .inr ⟨hkind, hq⟩⟩, ?_⟩
    rintro ⟨-, node', hnode', ⟨hkind', -⟩ | ⟨-, hq⟩⟩
    · rw [hnode] at hnode'
      cases hnode'
      rw [hkind] at hkind'
      cases hkind'
    · exact hq
  | file =>
    simp only [hkind] at h
    obtain ⟨-, h⟩ := denyIf_bind_ok_iff.mp h
    have hnot : ∀ {q}, FromEntry tree (scope ++ relative) name q →
        IsYaml name ∧ q = scope ++ relative ++ [name] := by
      rintro q ⟨-, node', hnode', ⟨-, hyaml, hq⟩ | ⟨hkind', -⟩⟩
      · exact ⟨hyaml, hq⟩
      · rw [hnode] at hnode'
        cases hnode'
        rw [hkind] at hkind'
        cases hkind'
    split at h
    · rename_i hyaml
      obtain ⟨hfound, -⟩ := Prog.pure_eq_iff.mp h
      cases hfound
      refine finds_one.congr fun q => ⟨?_, fun hq => ?_⟩
      · rintro rfl
        rw [← List.append_assoc]
        exact ⟨hhidden, node, hnode, .inl ⟨hkind, hyaml, rfl⟩⟩
      · rw [← List.append_assoc]
        exact (hnot hq).2
    · rename_i hyaml
      obtain ⟨hfound, -⟩ := Prog.pure_eq_iff.mp h
      cases hfound
      exact finds_nothing fun q hq => hyaml (hnot hq).1
  | symlink =>
    simp only [hkind] at h
    cases h
  | other =>
    simp only [hkind] at h
    cases h

theorem finds_entries (hwalk : Lists tree scope walk) {names : List Text}
    (h : names.foldlM (fun inventory name => walkEntry tree walk scope relative inventory name)
      inventory s = (.ok found, s')) :
    Finds (fun q => ∃ name ∈ names, FromEntry tree (scope ++ relative) name q) scope inventory
      found := by
  induction names generalizing inventory s with
  | nil =>
    obtain ⟨hfound, -⟩ := Prog.pure_eq_iff.mp h
    cases hfound
    exact finds_nothing (by simp)
  | cons name names ih =>
    rw [List.foldlM_cons] at h
    obtain ⟨between, t, hentry, hrest⟩ := Prog.bind_ok_iff.mp h
    exact ((finds_walkEntry hwalk hentry).trans (ih hrest)).congr (by simp)

end

theorem lists_walkDirectory {scope : Path} : Lists tree scope (walkDirectory tree scope) := by
  refine Prog.unfolded_of (C := Lists tree scope) (fun walk hwalk args s s' found h => ?_)
    (fun args s s' found h => by cases h) _
  obtain ⟨_, t, -, h⟩ := Prog.bind_ok_iff.mp h
  obtain ⟨-, h⟩ := denyIf_bind_ok_iff.mp h
  exact (finds_entries hwalk h).congr fun q => yamlFile_iff.symm

end SourceScan

end Hapatchy
