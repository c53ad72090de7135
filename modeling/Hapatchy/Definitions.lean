import Mathlib.Algebra.Group.Int.Defs
import Hapatchy.Coordinator

/-!
# Patch definitions

`PatchDefinition.from_mapping` and `dataclasses.asdict`, over the values that
the data of a subentry can hold, and the comparison of the entry with a runtime.
-/

namespace Hapatchy

/-! ## Values -/

/-- A Python value, as far as `from_mapping` tells them apart. -/
inductive Value where
  | none
  | bool (value : Bool)
  | int (value : Int)
  /-- A `float`, with `none` for infinities and NaN. -/
  | float (value : Option Rat)
  | string (value : Text)
  | other (truthy : Bool)
  deriving DecidableEq, Repr

/-- `bool(value)` -/
def Value.truthy : Value → Bool
  | .none => false
  | .bool value => value
  | .int value => value ≠ 0
  | .float value => value ≠ some 0
  | .string value => value ≠ []
  | .other truthy => truthy

/-- `data.get(field)`, with `Value.none` for a key that is not there. -/
def getField (data : Dict Text Value) (field : String) : Value :=
  (data.lookup field.toList).getD .none

/-- `str.isspace` of one character. -/
def isSpace (c : Char) : Bool :=
  c.toNat ∈ [0x09, 0x0a, 0x0b, 0x0c, 0x0d, 0x1c, 0x1d, 0x1e, 0x1f, 0x20, 0x85, 0xa0, 0x1680, 0x2000,
    0x2001, 0x2002, 0x2003, 0x2004, 0x2005, 0x2006, 0x2007, 0x2008, 0x2009, 0x200a, 0x2028, 0x2029,
    0x202f, 0x205f, 0x3000]

/-- The result of `urlsplit`, with `none` for a port that raises `ValueError`. -/
structure SplitResult where
  scheme : Text
  hostname : Option Text
  username : Option Text
  password : Option Text
  port : Option (Option Nat)

/-- `watchdog.utils.patterns.match_any_paths` for one path and one pattern, and
`urllib.parse.urlsplit` with `none` for its `ValueError`. -/
structure Libraries where
  matchAnyPaths : Text → Text → Bool
  urlsplit : Text → Option SplitResult

/-- What `from_mapping` can raise: `math.isfinite` raises an `OverflowError` for a huge integer. -/
inductive MappingError where
  | patch (error : PatchError)
  | overflow
  deriving DecidableEq, Repr

def refuse {α : Type} (reason : Reason) (status : Status := .invalidPatch) : Except MappingError α :=
  throw (.patch ⟨reason, status⟩)

/-! ## Validators -/

/-- `[0-9a-f]{64}` -/
def isDigest (t : Text) : Bool := t.length = 64 && t.all isHex

/-- `[0-9a-fA-F]{64}` -/
def isAnyDigest (t : Text) : Bool := t.length = 64 && t.all fun c => isHex c || ('A' ≤ c && c ≤ 'F')

namespace PatchDefinition

variable (libraries : Libraries)

/-- One turn of the loop over the required fields. -/
def required (data : Dict Text Value) (field : String) : Except MappingError Text :=
  match getField data field with
  | .string value => if value.all isSpace then refuse .requiredField else pure value
  | _ => refuse .requiredField

/-- The `valid` of `_validate_source_url`. -/
def validSourceUrl (source : Text) : Bool :=
  match libraries.urlsplit source with
  | none => false
  | some url =>
    match url.port with
    | none => false
    | some port =>
      decide (url.scheme = "https".toList) && url.hostname.any (· ≠ []) && url.username.isNone &&
        url.password.isNone && decide ('#' ∉ source) &&
        !source.any (fun c => isSpace c || decide (c.toNat < 32)) &&
        port.all fun port => decide (1 ≤ port ∧ port ≤ 65535)

def validateSource (sourceType source : Text) (target : List Text) : Except MappingError Unit :=
  if sourceType = "local".toList then do
    let parts ← (relativeParts source).mapError MappingError.patch
    if parts = target then refuse .sourceIsTarget .securityError else pure ()
  else if sourceType = "managed".toList then
    if isDigest source then pure () else refuse .invalidManagedSource .securityError
  else if sourceType = "url".toList then
    if validSourceUrl libraries source then pure () else refuse .invalidSourceUrl .securityError
  else refuse .invalidSourceType

/-- One flag of `_boolean_flags`. -/
def booleanFlag (data : Dict Text Value) (key : String) : Except MappingError Bool :=
  match data.lookup key.toList with
  | none => pure true
  | some (.bool value) => pure value
  | some _ => refuse .invalidBoolean

/-- The `float` 0.1. -/
def minDebounce : Rat := 3602879701896397 / 36028797018963968

/-- Integers from here on have no `float`. -/
def floatLimit : Int := 2 ^ 1024 - 2 ^ 970

/-- `_debounce` -/
def debounce : Value → Except MappingError Rat
  | .float (some value) =>
    if minDebounce ≤ value ∧ value ≤ 60 then pure value else refuse .invalidDebounce
  | .int value =>
    if value ≥ floatLimit ∨ value ≤ -floatLimit then throw .overflow
    else if minDebounce ≤ value ∧ (value : Rat) ≤ 60 then pure value
    else refuse .invalidDebounce
  | _ => refuse .invalidDebounce

/-- `_source_digest(data.get("source_sha256") or None)` -/
def sourceDigest (value : Value) : Except MappingError (Option Text) :=
  if !value.truthy then pure none
  else
    match value with
    | .string digest =>
      if isAnyDigest digest then pure (some (digest.map Char.toLower)) else refuse .invalidSourceHash
    | _ => refuse .invalidSourceHash

/-- `data.get("watch_pattern") or relative`, with its type check. -/
def watchPatternOr (relative : Text) (value : Value) : Except MappingError Text :=
  if !value.truthy then pure relative
  else
    match value with
    | .string pattern => pure pattern
    | _ => refuse .patternMissesTarget

/-- `from_mapping` -/
def fromMapping (patchId : Text) (data : Dict Text Value) : Except MappingError PatchDefinition := do
  let name ← required data "name"
  let targetPath ← required data "target_path"
  let watchRoot ← required data "watch_root"
  let sourceType ← required data "source_type"
  let source ← required data "source"
  let target ← (relativeParts targetPath).mapError MappingError.patch
  let root ← (relativeParts watchRoot).mapError MappingError.patch
  if target.take root.length ≠ root ∨ target.length ≤ root.length then
    refuse .targetOutsideWatchRoot .securityError
  else
    let relative := ['/'].intercalate (target.drop root.length)
    let pattern ← watchPatternOr relative (getField data "watch_pattern")
    if !libraries.matchAnyPaths relative pattern then refuse .patternMissesTarget
    else
      validateSource libraries sourceType source target
      let enabled ← booleanFlag data "enabled"
      let autoApply ← booleanFlag data "auto_apply"
      let reconcileOnStartup ← booleanFlag data "reconcile_on_startup"
      let backupBeforeApply ← booleanFlag data "backup_before_apply"
      let seconds ← debounce ((data.lookup "debounce_seconds".toList).getD (.float (some (3 / 2))))
      let digest ← sourceDigest (getField data "source_sha256")
      pure {
        patchId, name, targetPath, watchRoot, watchPattern := pattern, sourceType, source
        enabled, autoApply, reconcileOnStartup, backupBeforeApply
        debounceSeconds := seconds, sourceSha256 := digest }

/-- `asdict` without `patch_id` -/
def asdict (definition : PatchDefinition) : Dict Text Value := [
  ⟨"name".toList, Value.string definition.name⟩,
  ⟨"target_path".toList, .string definition.targetPath⟩,
  ⟨"watch_root".toList, .string definition.watchRoot⟩,
  ⟨"watch_pattern".toList, .string definition.watchPattern⟩,
  ⟨"source_type".toList, .string definition.sourceType⟩,
  ⟨"source".toList, .string definition.source⟩,
  ⟨"enabled".toList, .bool definition.enabled⟩,
  ⟨"auto_apply".toList, .bool definition.autoApply⟩,
  ⟨"reconcile_on_startup".toList, .bool definition.reconcileOnStartup⟩,
  ⟨"backup_before_apply".toList, .bool definition.backupBeforeApply⟩,
  ⟨"debounce_seconds".toList, .float (some definition.debounceSeconds)⟩,
  ⟨"source_sha256".toList, (definition.sourceSha256.map Value.string).getD .none⟩].toAList

end PatchDefinition

/-! ## The entry -/

/-- A subentry of the config entry. -/
structure Subentry where
  subentryType : Text
  data : Dict Text Value

namespace Subentry

variable (libraries : Libraries)

/-- The definition of a patch subentry. -/
def definition (patchId : Text) (subentry : Subentry) : Except MappingError PatchDefinition :=
  PatchDefinition.fromMapping libraries patchId subentry.data

def isPatch (subentry : Subentry) : Bool := subentry.subentryType = "patch".toList

/-- The dictionary comprehension over `entry.subentries`. -/
def readAll : List (Σ _ : Text, Subentry) →
    Except MappingError (List (Σ _ : Text, PatchDefinition))
  | [] => pure []
  | entry :: rest =>
    if entry.2.isPatch then do
      let definition ← entry.2.definition libraries entry.1
      let definitions ← readAll rest
      pure (⟨entry.1, definition⟩ :: definitions)
    else readAll rest

def definitions (subentries : Dict Text Subentry) : Except MappingError (Dict Text PatchDefinition) :=
  (readAll libraries subentries.entries).map List.toAList

end Subentry

namespace PatchManagerRuntime

variable (libraries : Libraries) (runtime : PatchManagerRuntime)

/-- `matches_entry`, from the data of the subentries. -/
def matchesSubentries (subentries : Dict Text Subentry) (retention : Nat) :
    Except MappingError Bool :=
  match Subentry.definitions libraries subentries with
  | .ok definitions => pure (runtime.matchesEntry definitions retention)
  | .error (.patch _) => pure false
  | .error .overflow => throw .overflow

/-- `_validate_current`, from the data of the subentries. -/
def validateSubentry (subentries : Dict Text Subentry) (retention : Nat) (patchId : Text) :
    Except MappingError Unit := do
  if patchId ∉ runtime.definitions then refuse .unknownPatch
  else
    match subentries.lookup patchId with
    | none => refuse .unknownPatch
    | some current =>
      if (current.data.lookup "enabled".toList).getD (.bool true) ≠ .bool true then
        refuse .disabledPatch
      else
        let matched ← runtime.matchesSubentries libraries subentries retention
        if !matched then refuse .runtimeReloading else pure ()

/-- The update listener of the entry reloads it. -/
def reloads (subentries : Dict Text Subentry) (retention : Nat) : Except MappingError Bool :=
  if runtime.closing then pure false
  else (runtime.matchesSubentries libraries subentries retention).map Bool.not

/-- `_disable_auto_apply` where the update is stored: the definitions, and the subentries. -/
def persistAutoApply (subentries : Dict Text Subentry) (patchId : Text) :
    Option (PatchManagerRuntime × Dict Text Subentry) := do
  let previous ← runtime.definitions.lookup patchId
  let subentry ← subentries.lookup patchId
  let definition := { previous with autoApply := false }
  some ({ runtime with definitions := runtime.definitions.insert patchId definition },
    subentries.insert patchId { subentry with data := definition.asdict })

end PatchManagerRuntime

end Hapatchy
