import Hapatchy.Definitions.Stability
import Hapatchy.Lib.Lines
import Hapatchy.Tasks

/-!
# File events

`handle_event` of the watcher. It finds the patches of an event by the path
below the configuration directory, and cuts the watched part out of a target
by the length of its watch root.
-/

namespace Hapatchy

/-! ## Paths -/

/-- `PurePosixPath`: the slashes that it starts with, and its components. -/
structure PosixPath where
  root : Text
  parts : List Text
  deriving DecidableEq, Repr

namespace PosixPath

/-- Two slashes at the start are a root of their own, and any other number is one. -/
def rootOf (value : Text) : Text :=
  if "//".toList <+: value ∧ ¬ "///".toList <+: value then "//".toList
  else if "/".toList <+: value then "/".toList
  else []

def isPart (part : Text) : Bool := part ≠ [] && part ≠ ".".toList

/-- `Path(value)` -/
def parse (value : Text) : PosixPath := ⟨rootOf value, (value.splitOn '/').filter isPart⟩

/-- `base / path` -/
def joinpath (base : PosixPath) (path : Text) : PosixPath :=
  let tail := parse path
  if tail.root = [] then ⟨base.root, base.parts ++ tail.parts⟩ else tail

/-- `relative_to`, with `none` for its `ValueError`. -/
def relativeTo (path base : PosixPath) : Option PosixPath :=
  if path.root = base.root ∧ base.parts <+: path.parts then
    some ⟨[], path.parts.drop base.parts.length⟩
  else none

/-- `as_posix`, and `str` -/
def asPosix (path : PosixPath) : Text :=
  if path.root = [] ∧ path.parts = [] then ".".toList else path.root ++ ['/'].intercalate path.parts

end PosixPath

/-! ## Events -/

inductive EventType where
  | created
  | modified
  | deleted
  | closed
  | moved
  | other
  deriving DecidableEq, Repr

structure FileSystemEvent where
  srcPath : Text
  /-- Empty, unless something moves. -/
  destPath : Text
  isDirectory : Bool
  eventType : EventType

/-- The events that the handler takes. -/
def FileSystemEvent.handled (event : FileSystemEvent) : Bool := event.eventType ≠ .other

/-- What `handle_event` does. -/
inductive Reaction where
  | ignored
  /-- `async_refresh`, as a task of its own. -/
  | refresh
  /-- `_debounce` for each of the patches. -/
  | debounced (patchIds : List Text)
  deriving DecidableEq, Repr

namespace PatchWatcher

/-- `_relative` -/
def relative (configDir value : Text) : Option Text :=
  if value = [] then none
  else ((PosixPath.parse value).relativeTo (PosixPath.parse configDir)).map PosixPath.asPosix

/-- `definition.target_path[len(definition.watch_root) + 1 :]` -/
def slice (definition : PatchDefinition) : Text :=
  definition.targetPath.drop (definition.watchRoot.length + 1)

/-- The patches whose target is one of the paths, where their pattern matches it. -/
def affected (libraries : Libraries) (definitions : Dict Text PatchDefinition)
    (paths : List (Option Text)) : List Text :=
  (definitions.entries.filter fun entry =>
    entry.2.enabled && decide (some entry.2.targetPath ∈ paths) &&
      libraries.matchAnyPaths (slice entry.2) entry.2.watchPattern).map (·.1)

/-- `handle_event` -/
def handleEvent (libraries : Libraries) (configDir : Text) (definitions : Dict Text PatchDefinition)
    (runtime : Tasks.Runtime) (event : FileSystemEvent) : Reaction :=
  if runtime.watcher.closed ∨ runtime.closing then .ignored
  else if event.isDirectory then
    if event.eventType ∈ [EventType.created, .deleted, .moved] then .refresh else .ignored
  else .debounced
    (affected libraries definitions [relative configDir event.srcPath, relative configDir event.destPath])

/-- `on_any_event`, with the runtime as `handle_event` finds it when the loop calls it. -/
def onAnyEvent (libraries : Libraries) (configDir : Text) (definitions : Dict Text PatchDefinition)
    (runtime : Tasks.Runtime) (event : FileSystemEvent) : Reaction :=
  if event.handled then handleEvent libraries configDir definitions runtime event else .ignored

/-- `str(config_dir / target_path)` -/
def absolute (configDir targetPath : Text) : Text :=
  ((PosixPath.parse configDir).joinpath targetPath).asPosix

end PatchWatcher

/-! ## Joined components -/

namespace PosixPath

theorem intercalate_append {sep : Text} {root rest : List Text} (hroot : root ≠ []) (hrest : rest ≠ []) :
    sep.intercalate (root ++ rest) = sep.intercalate root ++ sep ++ sep.intercalate rest := by
  induction root with
  | nil => exact absurd rfl hroot
  | cons part root ih =>
    cases root with
    | nil => rw [List.singleton_append, List.intercalate_cons_of_ne_nil hrest, List.intercalate_singleton]
    | cons next root =>
      rw [List.cons_append, List.cons_append, List.intercalate_cons_cons, ← List.cons_append,
        ih (by simp), List.intercalate_cons_cons]
      simp only [List.append_assoc]

/-- A component as `parse` leaves it. -/
def Clean (part : Text) : Prop := isPart part = true ∧ '/' ∉ part

theorem splitOn_intercalate {parts : List Text} (hparts : ∀ part ∈ parts, Clean part) (hne : parts ≠ []) :
    (['/'].intercalate parts).splitOn '/' = parts :=
  List.splitOn_intercalate '/' (fun part hpart => (hparts part hpart).2) hne

theorem filter_parts {parts : List Text} (hparts : ∀ part ∈ parts, Clean part) :
    parts.filter isPart = parts :=
  List.filter_eq_self.mpr fun part hpart => (hparts part hpart).1

/-- Joined components do not start with a slash. -/
theorem not_slash_intercalate {parts : List Text} (hparts : ∀ part ∈ parts, Clean part) :
    ¬ ['/'] <+: ['/'].intercalate parts := by
  cases parts with
  | nil => simp [List.intercalate]
  | cons part rest =>
    obtain ⟨hpart, hslash⟩ := hparts part List.mem_cons_self
    cases part with
    | nil => simp [isPart] at hpart
    | cons c part =>
      have hc : '/' ≠ c := fun h => hslash (h ▸ List.mem_cons_self)
      intro hhead
      cases rest with
      | nil =>
        rw [List.intercalate_singleton, List.cons_prefix_cons] at hhead
        exact hc hhead.1
      | cons next rest =>
        rw [List.intercalate_cons_cons, List.append_assoc, List.cons_append, List.cons_prefix_cons]
          at hhead
        exact hc hhead.1

/-- What `parse` leaves is clean. -/
theorem clean_parse {value part : Text} (h : part ∈ (parse value).parts) : Clean part := by
  obtain ⟨hmem, hpart⟩ := List.mem_filter.mp h
  exact ⟨hpart, Blocks.not_mem_of_mem_splitOn hmem⟩

theorem rootOf_cases (value : Text) :
    rootOf value = [] ∨ rootOf value = ['/'] ∨ rootOf value = ['/', '/'] := by
  unfold rootOf
  split
  · exact .inr (.inr rfl)
  · split
    · exact .inr (.inl rfl)
    · exact .inl rfl

/-- A text that `parse` has made is read back. -/
theorem parse_asPosix {path : PosixPath} (hparts : ∀ part ∈ path.parts, Clean part)
    (hne : path.parts ≠ []) (hroot : path.root = [] ∨ path.root = ['/'] ∨ path.root = ['/', '/']) :
    parse path.asPosix = path := by
  obtain ⟨root, parts⟩ := path
  simp only at hparts hne hroot
  have hsplit := splitOn_intercalate hparts hne
  have hfilter := filter_parts hparts
  have hslash := not_slash_intercalate hparts
  unfold parse asPosix
  rw [if_neg fun h => hne h.2]
  generalize ['/'].intercalate parts = tail at hsplit hslash
  have hblank : isPart [] = false := rfl
  rcases hroot with rfl | rfl | rfl
  · have hone : ¬ ['/', '/'] <+: tail := fun h => hslash (List.IsPrefix.trans (by simp) h)
    simp [rootOf, hsplit, hfilter, hslash, hone]
  · simp [rootOf, List.splitOn_cons_eq_if_modifyHead, hsplit, hfilter, hblank, hslash]
  · simp [rootOf, List.splitOn_cons_eq_if_modifyHead, hsplit, hfilter, hblank, hslash]

end PosixPath

/-! ## Targets -/

section Targets

open PatchDefinition PosixPath

variable {libraries : Libraries} {definition : PatchDefinition} {target root : List Text}

/-- The components that `relative_parts` accepts are those of the path. -/
theorem clean_relativeParts {path : Text} {internal : Bool} {parts : List Text}
    (h : relativeParts path internal = .ok parts) : ∀ part ∈ parts, Clean part := by
  have hparts := relativeParts_ok h
  rw [relativeParts] at h
  split at h
  · cases h
  rename_i hlexical
  rw [← hparts] at hlexical
  simp only [Bool.or_eq_true, not_or, List.any_eq_true, not_exists, not_and, decide_eq_true_eq,
    List.mem_cons, List.not_mem_nil, or_false] at hlexical
  intro part hpart
  obtain ⟨hempty, hdot, -⟩ := hlexical.1 part hpart
  refine ⟨?_, Blocks.not_mem_of_mem_splitOn (hparts ▸ hpart)⟩
  simpa [isPart] using And.intro hempty hdot

theorem parse_of_relativeParts {path : Text} {internal : Bool} {parts : List Text}
    (h : relativeParts path internal = .ok parts) : parse path = ⟨[], parts⟩ := by
  have hclean := clean_relativeParts h
  obtain rfl := relativeParts_ok h
  have hslash : ¬ ['/'] <+: path := by
    have hnot := not_slash_intercalate hclean
    rwa [List.intercalate_splitOn] at hnot
  have hone : ¬ ['/', '/'] <+: path := fun hpath => hslash (List.IsPrefix.trans (by simp) hpath)
  unfold parse rootOf
  simp [filter_parts hclean, hslash, hone]

/-- What `handle_event` cuts out of the target is what `from_mapping` has checked. -/
theorem PatchDefinition.Paths.slice_eq (h : Paths libraries definition target root) :
    PatchWatcher.slice definition = ['/'].intercalate (target.drop root.length) := by
  have hroot := relativeParts_ok h.rootParts
  have hne : root ≠ [] := hroot ▸ List.splitOn_ne_nil _ _
  have hrest : target.drop root.length ≠ [] := by
    have hlonger := h.longer
    rw [ne_eq, List.drop_eq_nil_iff]
    omega
  have htarget : definition.targetPath =
      definition.watchRoot ++ ['/'] ++ ['/'].intercalate (target.drop root.length) := by
    calc definition.targetPath
        = ['/'].intercalate target := by
          rw [relativeParts_ok h.targetParts, List.intercalate_splitOn]
      _ = ['/'].intercalate (root ++ target.drop root.length) := by
          conv_rhs => rw [← h.below, List.length_take, min_eq_left h.longer.le, List.take_append_drop]
      _ = ['/'].intercalate root ++ ['/'] ++ ['/'].intercalate (target.drop root.length) :=
          intercalate_append hne hrest
      _ = _ := by rw [hroot, List.intercalate_splitOn]
  unfold PatchWatcher.slice
  rw [htarget]
  exact List.drop_left' (by simp)

/-- The absolute path of a target is the target, below the configuration directory. -/
theorem relative_absolute {configDir path value : Text} {internal : Bool} {parts : List Text}
    (h : relativeParts path internal = .ok parts)
    (hvalue : parse value = parse (PatchWatcher.absolute configDir path)) :
    PatchWatcher.relative configDir value = some path := by
  have hparse := parse_of_relativeParts h
  have hne : parts ≠ [] := relativeParts_ok h ▸ List.splitOn_ne_nil _ _
  have hjoin : (parse configDir).joinpath path =
      ⟨rootOf configDir, (parse configDir).parts ++ parts⟩ := by
    unfold joinpath
    rw [hparse]
    rfl
  have habsolute : parse (PatchWatcher.absolute configDir path) =
      ⟨rootOf configDir, (parse configDir).parts ++ parts⟩ := by
    unfold PatchWatcher.absolute
    rw [hjoin]
    apply parse_asPosix
    · intro part hpart
      rcases List.mem_append.mp hpart with hpart | hpart
      · exact clean_parse hpart
      · exact clean_relativeParts h part hpart
    · simp [hne]
    · exact rootOf_cases configDir
  rw [habsolute] at hvalue
  have hempty : value ≠ [] := by
    rintro rfl
    have hnil := congrArg PosixPath.parts hvalue
    simp [parse, isPart, hne] at hnil
  unfold PatchWatcher.relative relativeTo
  rw [if_neg hempty, hvalue, if_pos ⟨rfl, List.prefix_append _ _⟩]
  simp only [List.drop_left, Option.map_some, asPosix, hne, and_false, if_false, List.nil_append]
  rw [relativeParts_ok h, List.intercalate_splitOn]

/-- Every file event on the target of an enabled definition reaches `_debounce`: the pattern is
matched with what `from_mapping` has matched it with. -/
theorem event_reaches_debounce {patchId : Text} {data : Dict Text Value}
    (h : fromMapping libraries patchId data = .ok definition) (henabled : definition.enabled = true) :
    (∃ target root, Paths libraries definition target root ∧
      PatchWatcher.slice definition = ['/'].intercalate (target.drop root.length)) ∧
    ∀ (configDir : Text) (definitions : Dict Text PatchDefinition) (runtime : Tasks.Runtime)
      (event : FileSystemEvent),
      definitions.lookup patchId = some definition →
      runtime.watcher.closed = false → runtime.closing = false →
      event.handled = true → event.isDirectory = false →
      (parse event.srcPath = parse (PatchWatcher.absolute configDir definition.targetPath) ∨
        parse event.destPath = parse (PatchWatcher.absolute configDir definition.targetPath)) →
      ∃ patchIds, PatchWatcher.onAnyEvent libraries configDir definitions runtime event =
        .debounced patchIds ∧ patchId ∈ patchIds := by
  obtain ⟨⟨target, root, hpaths⟩, -⟩ := (accepted_of_fromMapping h).imp_left Accepted.paths
  refine ⟨⟨target, root, hpaths, hpaths.slice_eq⟩, ?_⟩
  intro configDir definitions runtime event hlookup hclosed hclosing hhandled hfile hpath
  unfold PatchWatcher.onAnyEvent PatchWatcher.handleEvent
  rw [if_pos hhandled, if_neg (by simp [hclosed, hclosing]), if_neg (by simp [hfile])]
  refine ⟨_, rfl, List.mem_map.mpr ⟨⟨patchId, definition⟩, List.mem_filter.mpr ⟨?_, ?_⟩, rfl⟩⟩
  · exact AList.mem_lookup_iff.mp hlookup
  · have hmem : some definition.targetPath ∈ [PatchWatcher.relative configDir event.srcPath,
        PatchWatcher.relative configDir event.destPath] := by
      rcases hpath with hpath | hpath
      · rw [relative_absolute hpaths.targetParts hpath]
        exact List.mem_cons_self
      · rw [relative_absolute hpaths.targetParts hpath]
        exact List.mem_cons_of_mem _ List.mem_cons_self
    simp only [henabled, hmem, decide_true, Bool.true_and, hpaths.slice_eq, hpaths.matched]

theorem event_reaches_debounce_example :
    ∃ patchIds, PatchWatcher.onAnyEvent literalPatterns "/config/".toList
        (AList.singleton "p".toList exampleDefinition) { current := ∅, suppressReapply := ∅ }
        ⟨"/config/packages/a.py".toList, [], false, .modified⟩ = .debounced patchIds ∧
      "p".toList ∈ patchIds := by
  have h : fromMapping literalPatterns "p".toList exampleData = .ok exampleDefinition := by
    decide +kernel
  exact (event_reaches_debounce h rfl).2 _ _ _ _ (by decide +kernel) rfl rfl rfl rfl
    (.inl (by decide +kernel))

end Targets

end Hapatchy
