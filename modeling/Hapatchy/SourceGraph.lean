import Hapatchy.Os

/-!
# The graph of the YAML sources

What `yaml_source_graph.py` returns: the files and directories that the
configuration is read from, and what of them can define grants.
-/

namespace Hapatchy

structure SourceFile where
  path : Path
  /-- `device` with `inode`. -/
  ino : Nat
  mode : Nat
  size : Nat
  mtime : Nat
  ctime : Nat
  sha256 : Text
  deriving DecidableEq, Repr

structure DirectoryScope where
  path : Path
  /-- `device` with `inode`. -/
  ino : Nat
  mode : Nat
  inventory : List Path
  deriving DecidableEq, Repr

structure SourceGraph where
  sources : List SourceFile
  directories : List DirectoryScope
  secretCandidates : List Path
  grantSources : List Path
  deriving DecidableEq, Repr

/-- `_parts`, with `none` for its `ValueError`. -/
def sourceParts (path : Text) : Option Path :=
  let parts := path.splitOn '/'
  if path = [] ∨ path.head? = some '/' ∨ '\\' ∈ path ∨ path.any (·.toNat < 32) ∨
      parts.any (· ∈ ["".toList, ".".toList, "..".toList]) then
    none
  else some parts

namespace SourceGraph

variable (graph : SourceGraph)

/-- Of equal paths, the dictionary `old_sources` keeps the last one. -/
def sameAuthorityAs (previous : SourceGraph) : Bool :=
  graph.sources.map SourceFile.path = previous.sources.map SourceFile.path &&
    graph.directories = previous.directories &&
    graph.secretCandidates = previous.secretCandidates &&
    graph.grantSources = previous.grantSources &&
    graph.sources.all fun source => source.path ∉ graph.grantSources ||
      previous.sources.reverse.find? (·.path = source.path) = some source

def protects (path : Text) : Bool :=
  match sourceParts path with
  | none => false
  | some parts =>
    decide (parts ∈ graph.sources.map SourceFile.path) || decide (parts ∈ graph.secretCandidates) ||
      graph.directories.any fun scope => parts.take scope.path.length = scope.path

end SourceGraph

end Hapatchy
