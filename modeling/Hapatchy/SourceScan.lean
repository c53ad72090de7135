import Mathlib.Data.Char
import Mathlib.Data.List.Lex
import Mathlib.Data.List.Sort
import Hapatchy.Lib.Budgets
import Hapatchy.SourceGraph

/-!
# The scan of the YAML sources

`_Scanner` of `yaml_source_graph.py`: the walk from `configuration.yaml` over
included files, include directories and the secrets files that a lookup tries.
The file tree stays as it is during a scan.
-/

open Effects

namespace Hapatchy

namespace SourceScan

/-! ## What is scanned -/

/-- A node of a composed document. `isinstance` tells the three apart. -/
inductive YamlNode where
  | scalar (tag value : Text)
  | sequence (tag : Text) (items : List Nat)
  | mapping (tag : Text) (pairs : List (Nat × Nat))
  deriving DecidableEq, Repr

def YamlNode.tag : YamlNode → Text
  | .scalar tag _ => tag
  | .sequence tag _ => tag
  | .mapping tag _ => tag

/-- Nodes by `id`: aliases share them, and can close a cycle. -/
structure YamlGraph where
  node : Nat → YamlNode
  root : Nat

structure YamlText where
  /-- The events that `yaml.parse` gives before it ends or raises. -/
  events : Nat
  /-- Without a `YAMLError`. -/
  parses : Bool
  /-- `yaml.compose`, with the outer `none` for a `YAMLError`. -/
  composed : Option (Option YamlGraph)

inductive SourceCall where
  | stat
  | openAt
  | listing
  | reading
  deriving DecidableEq, Repr

structure SourceTree where
  fs : Fs
  /-- The call on this path has an `OSError` other than `FileNotFoundError`. -/
  fails : SourceCall → Path → Bool
  sha256 : Bytes → Text
  yaml : Bytes → YamlText

/-! ## The scanner -/

abbrev Context := List Text

/-- The counters of the scanner that a limit is checked for at each increment. -/
inductive Counter where
  | includes
  | loads
  | directoriesSeen
  | entries
  | events
  | nodes
  deriving DecidableEq, Repr

def Counter.limit : Counter → Nat
  | .includes => 512
  | .loads => 512
  | .directoriesSeen => 256
  | .entries => 4096
  | .events => 65536
  | .nodes => 65536

inductive ScanEvent where
  /-- An increment that the limit allows. -/
  | spent (counter : Counter)
  | asked (path : Path)
  | entered (path : Path)
  | left (path : Path)
  | completed (path : Path)
  deriving DecidableEq, Repr

/-- `log` is a record for the statements: no code reads it. -/
structure Scanner where
  sources : AList fun _ : Path => SourceFile := ∅
  directories : AList fun _ : Path => DirectoryScope := ∅
  secrets : List Path := []
  grantSources : List Path := []
  stack : List Path := []
  counts : Counter → Nat := fun _ => 0
  totalBytes : Nat := 0
  log : List ScanEvent := []

def Scanner.logged (s : Scanner) (event : ScanEvent) : Scanner := { s with log := s.log ++ [event] }

def Scanner.bump (s : Scanner) (counter : Counter) : Scanner :=
  { s with counts := Function.update s.counts counter (s.counts counter + 1) }

abbrev Scan := Prog Exc Scanner

def denial : Exc := .patch ⟨.configurationSourceUnavailable, .securityError⟩

def deny {α : Type} : Scan α := Prog.raise denial

def denyIf (c : Bool) : Scan Unit := if c then deny else pure ()

def note (event : ScanEvent) : Scan Unit := Prog.change (·.logged event)

/-- `self.… += 1`, and a denial above the limit. -/
def count (counter : Counter) : Scan Unit := do
  Prog.change (·.bump counter)
  denyIf (counter.limit < (← Prog.read).counts counter)
  note (.spent counter)

/-! ## Operands and contexts -/

def yamlTag : Text := "tag:yaml.org,2002:".toList
def includeTag : Text := "!include".toList
def secretTag : Text := "!secret".toList

def directoryTags : List Text :=
  ["!include_dir_named".toList, "!include_dir_merge_named".toList, "!include_dir_list".toList,
    "!include_dir_merge_list".toList]

def knownTags : List Text :=
  [includeTag] ++ directoryTags ++ [secretTag, "!env_var".toList, "!input".toList]

def literalOperand (value : Text) : Scan Unit := do
  denyIf (value = [] ∨ 1024 < value.length)
  denyIf (value.any (·.toNat < 32))

def pathOperand (value : Text) : Scan Path := do
  literalOperand value
  match sourceParts value with
  | none => deny
  | some parts => pure parts

/-- `_defines_grants` -/
def definesGrants : Context → Bool
  | [] => true
  | first :: rest =>
    first = "hapatchy".toList || first = "homeassistant".toList &&
      match rest with
      | [] => true
      | second :: _ => second ∈ ["allowlist_external_dirs".toList, "packages".toList]

/-- An unusual key is conservatively authority-bearing. -/
def childContext (context : Context) : YamlNode → Context
  | .scalar tag value => if tag = yamlTag ++ "str".toList then context ++ [value] else []
  | _ => []

/-! ## Files and directories -/

variable (tree : SourceTree)

/-- `os.stat` with `follow_symlinks=False`. -/
def stat (p : Path) : Except OsError Node :=
  if tree.fails .stat p then throw .other
  else match tree.fs.lookup p with
    | none => throw .fileNotFound
    | some node => pure node

def opens (p : Path) : Bool :=
  match stat tree p with
  | .ok node => node.kind = .directory && !tree.fails .openAt p
  | .error _ => false

/-- `_parent_fd`: all its failures are denials. -/
def openParent (parts : Path) : Scan Unit :=
  denyIf (!parts.dropLast.inits.all (opens tree))

/-- `_read_file` -/
def readFile (parts : Path) : Scan Node := do
  openParent tree parts
  let node ← Prog.lift ((stat tree parts).mapError Exc.os)
  denyIf (node.kind ≠ .file ∨ node.nlink ≠ 1 ∨ 512 * 1024 < node.data.length)
  denyIf (tree.fails .openAt parts)
  if tree.fails .reading parts then Prog.raise (.os .other) else pure node

/-- `_open_directory` -/
def openDirectory (parts : Path) : Scan Node := do
  openParent tree parts
  let node ← Prog.lift ((stat tree parts).mapError Exc.os)
  denyIf (node.kind ≠ .directory)
  denyIf (tree.fails .openAt parts)
  pure node

/-- A path below the scope, and what has been found there: `inventory`, of which `files` are the
paths below the scope. -/
structure WalkArgs where
  relative : Path
  inventory : List Path

/-- `_walk_entry` -/
def walkEntry (walk : WalkArgs → Scan (List Path)) (scope relative : Path) (inventory : List Path)
    (name : Text) : Scan (List Path) :=
  if name.head? = some '.' then pure inventory
  else do
    count .entries
    match stat tree (scope ++ relative ++ [name]) with
    | .error _ => deny
    | .ok node =>
      match node.kind with
      | .directory => do
        denyIf (tree.fails .openAt (scope ++ relative ++ [name]))
        walk ⟨relative ++ [name], inventory⟩
      | .file => do
        denyIf (node.nlink ≠ 1)
        if name ≠ "secrets.yaml".toList ∧ ".yaml".toList <:+ name then
          pure (inventory ++ [relative ++ [name]])
        else pure inventory
      | _ => deny

/-- The body of `_walk_directory` over its own recursion. -/
def walkWith (scope : Path) (walk : WalkArgs → Scan (List Path)) (args : WalkArgs) :
    Scan (List Path) := do
  count .directoriesSeen
  denyIf (tree.fails .listing (scope ++ args.relative))
  (tree.fs.names (scope ++ args.relative)).foldlM
    (fun inventory name => walkEntry tree walk scope args.relative inventory name) args.inventory

/-- `_walk_directory`. The limit stops it before it reaches what stands at the end. -/
def walkDirectory (scope : Path) : WalkArgs → Scan (List Path) :=
  Prog.unfolded (walkWith tree scope) (fun _ => deny) (Counter.directoriesSeen.limit + 1)

/-! ## Loads -/

structure LoadArgs where
  parts : Path
  depth : Nat
  context : Context

/-- `self.directories.setdefault(parts, scope)` -/
def setDirectory (scope : DirectoryScope) : Scan DirectoryScope := do
  match (← Prog.read).directories.lookup scope.path with
  | some previous => pure previous
  | none =>
    Prog.change fun s => { s with directories := s.directories.insert scope.path scope }
    pure scope

/-- What `_include_directory` records of a directory, with the paths of its files below it. -/
def recordDirectory (parts : Path) : Scan (List Path) := do
  let node ← openDirectory tree parts
  let inventory ← walkDirectory tree parts ⟨[], []⟩
  let scope : DirectoryScope := ⟨parts, node.ino, node.mode, inventory.insertionSort (· ≤ ·)⟩
  let previous ← setDirectory scope
  denyIf (previous ≠ scope)
  pure inventory

/-- `self.sources.setdefault(parts, source)` -/
def setSource (source : SourceFile) : Scan SourceFile := do
  match (← Prog.read).sources.lookup source.path with
  | some previous => pure previous
  | none =>
    Prog.change fun s => { s with sources := s.sources.insert source.path source }
    pure source

section

variable (load : LoadArgs → Scan Unit)

/-- `_include_directory` -/
def includeDirectory (args : LoadArgs) : Scan Unit := do
  let inventory ← recordDirectory tree args.parts
  inventory.forM fun relative => load ⟨args.parts ++ relative, args.depth, args.context⟩

/-- `_secret_candidates`. A lookup starts at depth 0. -/
def secretCandidates (parent : Path) (context : Context) : Scan Unit :=
  parent.inits.reverse.forM fun directory => do
    let candidate := directory ++ ["secrets.yaml".toList]
    Prog.change fun s => { s with secrets := s.secrets.insert candidate }
    Prog.rescue (load ⟨candidate, 0, context⟩) fun e =>
      if e = .os .fileNotFound then pure () else Prog.raise e

/-- `_visit_tag`, in the file `current`. -/
def visitTag (current : Path) (includeDepth : Nat) (node : YamlNode) (context : Context) :
    Scan Unit :=
  match node with
  | .scalar tag value =>
    if tag = includeTag then do
      let parts ← pathOperand value
      count .includes
      load ⟨current.dropLast ++ parts, includeDepth + 1, context⟩
    else if tag ∈ directoryTags then do
      let parts ← pathOperand value
      count .includes
      includeDirectory tree load ⟨current.dropLast ++ parts, includeDepth + 1, context⟩
    else if tag = secretTag then do
      literalOperand value
      secretCandidates load current.dropLast context
    else pure ()
  | _ => deny

/-- What a key is in the set `keys`. -/
def YamlNode.marker? : YamlNode → Option (Text × Text)
  | .scalar tag value => some (tag, value)
  | _ => none

/-- The loop of `_visit_children` over a mapping, after the keys `keys`. -/
def visitPairs (node : Nat → YamlNode) (visit : Nat → Context → Scan Unit) (context : Context) :
    List (Nat × Nat) → List (Text × Text) → Scan Unit
  | [], _ => pure ()
  | (key, value) :: pairs, keys => do
    let marker := (node key).marker?
    denyIf (marker.any (· ∈ keys))
    visit key context
    visit value (childContext context (node key))
    visitPairs node visit context pairs (marker.toList ++ keys)

/-- `_visit`, where `remaining` is `_MAX_NODE_DEPTH + 1 - node_depth`. -/
def visit (tagged : YamlNode → Context → Scan Unit) (node : Nat → YamlNode) :
    (remaining : Nat) → (active : List Nat) → Nat → Context → Scan Unit
  | 0, _, _, _ => deny
  | remaining + 1, active, id, context => do
    denyIf (id ∈ active)
    count .nodes
    let tag := (node id).tag
    denyIf (¬ (yamlTag <+: tag ∨ tag ∈ knownTags))
    if tag ∈ knownTags then tagged (node id) context
    else
      -- `_visit_children`
      match node id with
      | .sequence _ items =>
        items.forM fun child => visit tagged node remaining (id :: active) child context
      | .mapping _ pairs =>
        visitPairs node (visit tagged node remaining (id :: active)) context pairs []
      | .scalar _ _ => pure ()

def maxNodeDepth : Nat := 64

/-- `_compose_and_visit` -/
def composeAndVisit (data : Bytes) (args : LoadArgs) : Scan Unit := do
  let text := tree.yaml data
  (List.range text.events).forM fun _ => count .events
  denyIf (!text.parses)
  match text.composed with
  | none => deny
  | some none => pure ()
  | some (some graph) =>
    visit (visitTag tree load args.parts args.depth) graph.node maxNodeDepth [] graph.root
      args.context

end

def Scanner.pushed (s : Scanner) (p : Path) : Scanner :=
  { s with stack := s.stack.insert p }.logged (.entered p)

def Scanner.popped (s : Scanner) (p : Path) : Scanner :=
  { s with stack := s.stack.erase p }.logged (.left p)

/-- `self.stack.add(parts)` -/
def push (p : Path) : Scan Unit := Prog.change (·.pushed p)

/-- `self.stack.remove(parts)` -/
def pop (p : Path) : Scan Unit := Prog.change (·.popped p)

def sourceFile (parts : Path) (node : Node) : SourceFile :=
  ⟨parts, node.ino, node.mode, node.data.length, node.mtime, node.ctime, tree.sha256 node.data⟩

/-- What `_load` records of a file, before it looks into it. -/
def recordFile (args : LoadArgs) : Scan Node := do
  let node ← readFile tree args.parts
  Prog.change fun s => { s with totalBytes := s.totalBytes + node.data.length }
  denyIf (8 * 1024 * 1024 < (← Prog.read).totalBytes)
  let source := sourceFile tree args.parts node
  let previous ← setSource source
  denyIf (previous ≠ source ∨ 256 < (← Prog.read).sources.keys.length)
  if definesGrants args.context then
    Prog.change fun s => { s with grantSources := s.grantSources.insert args.parts }
  pure node

def admitFile (args : LoadArgs) : Scan Node := do
  note (.asked args.parts)
  denyIf (16 < args.depth)
  denyIf (args.parts ∈ (← Prog.read).stack)
  count .loads
  recordFile tree args

/-- The body of `_load` over its own recursion. -/
def loadWith (load : LoadArgs → Scan Unit) (args : LoadArgs) : Scan Unit := do
  let node ← admitFile tree args
  push args.parts
  Prog.ensure (composeAndVisit tree load node.data args) fun _ => pop args.parts
  note (.completed args.parts)

/-- `_load`. The limit stops it before it reaches what stands at the end. -/
def load : LoadArgs → Scan Unit :=
  Prog.unfolded (loadWith tree) (fun _ => deny) (Counter.loads.limit + 1)

/-- `_Scanner.scan`, up to the sorting of what it has found. -/
def scan : Scan Unit := load tree ⟨["configuration.yaml".toList], 0, []⟩

def Scanner.graph (s : Scanner) : SourceGraph where
  sources := (s.sources.entries.map Sigma.snd).insertionSort fun a b => a.path ≤ b.path
  directories := (s.directories.entries.map Sigma.snd).insertionSort fun a b => a.path ≤ b.path
  secretCandidates := s.secrets.insertionSort (· ≤ ·)
  grantSources := s.grantSources.insertionSort (· ≤ ·)

/-- `scan_source_graph` -/
def scanSourceGraph : Except Exc SourceGraph :=
  match scan tree {} with
  | (.ok (), s) => .ok s.graph
  | (.error (.os _), _) => .error denial
  | (.error .value, _) => .error denial
  | (.error e, _) => .error e

end SourceScan

end Hapatchy
