import Mathlib.Data.Rat.Defs
import Hapatchy.Lib.Utf8

/-!
# Owned data

Statuses, reason codes, inspections and definitions, as `models.py` has them.
-/

namespace Hapatchy

abbrev Bytes := List UInt8
abbrev Text := List Char

instance : LawfulBEq Text := inferInstance

def maxTargetBytes : Nat := 16 * 1024 * 1024

inductive Status where
  | unknown
  | disabled
  | applicable
  | applied
  | conflict
  | missingTarget
  | sourceError
  | invalidPatch
  | securityError
  | applyError
  deriving DecidableEq, Repr

/-- The controlled reason codes. -/
inductive Reason where
  -- the engine
  | sizeLimit
  | unsupportedEncoding
  | mixedEndings
  | unsafePath
  | headerTargetMismatch
  | invalidHeaders
  | invalidHunk
  | unanchoredHunk
  | invalidNewlineMarker
  | invalidHunkBody
  | hunkCountMismatch
  | noChange
  | unterminatedDiff
  | overlappingHunks
  | noHunks
  | parserRejected
  | parserMismatch
  | ambiguousDirection
  | contextNotUnique
  -- guarded files, writes and backups
  | protectedPath
  | directoryChanged
  | missingTarget
  | unsafeDirectory
  | unsafeFile
  | targetChanged
  | backupFailed
  | commitFailed
  | durabilityUnconfirmed
  | invalidPatchId
  | invalidRetention
  | backupPruneFailed
  | filesystemError
  | notApplied
  -- authority
  | hapatchyFileNotAllowed
  | haPathNotAllowed
  | configurationSourceUnavailable
  | configurationSourceChanged
  | configurationMismatch
  | hapatchyYamlInvalid
  | hapatchyPackageForbidden
  -- sources
  | sourceIsTarget
  | sourceHashMismatch
  | sourceHashRequired
  | sourceHttpError
  | sourceTooLarge
  | sourceUnavailable
  | sourceNetworkDenied
  | invalidLocalSource
  | invalidManagedSource
  | managedSourceUnavailable
  | managedSourceWriteFailed
  | emptyPatch
  | invalidEncoding
  -- the editor
  | editorEmpty
  | editorTextFormat
  | editorUnchanged
  | editorContextNotUnique
  -- definitions and the runtime
  | requiredField
  | targetOutsideWatchRoot
  | patternMissesTarget
  | invalidSourceType
  | invalidSourceUrl
  | invalidBoolean
  | invalidDebounce
  | invalidSourceHash
  | duplicateTarget
  | unknownPatch
  | disabledPatch
  | runtimeReloading
  | runtimeClosing
  | revertMetadataUnavailable
  deriving DecidableEq, Repr

structure PatchError where
  reason : Reason
  status : Status := .invalidPatch
  deriving DecidableEq, Repr

/-- The subclasses of `OSError` that the code tells apart. -/
inductive OsError where
  | fileNotFound
  | fileExists
  | other
  deriving DecidableEq, Repr

/-- What a modelled function can raise. `commit` is `CommitError`, a `PatchError` that records
whether the replacement happened; `value` is a `ValueError` that is no `PatchError`, and
`recursion` the `RecursionError` of `json.loads`. -/
inductive Exc where
  | patch (error : PatchError)
  | commit (reason : Reason) (replaced : Bool)
  | os (error : OsError)
  | value
  | recursion
  deriving DecidableEq, Repr

/-- The view of an exception that `except PatchError` has. -/
def Exc.patchError? : Exc → Option PatchError
  | .patch e => some e
  | .commit reason _ => some ⟨reason, .applyError⟩
  | .os _ => none
  | .value => none
  | .recursion => none

structure PatchInspection where
  status : Status
  reason : Option Reason := none
  forwardOutput : Option Bytes := none
  reverseOutput : Option Bytes := none
  deriving DecidableEq, Repr

/-- `char in text` for any of the characters. -/
def containsAny (chars : List Char) (t : Text) : Bool := chars.any (· ∈ t)

/-- The lexical check of `relative_parts`, before any filesystem operation. -/
def relativeParts (path : Text) (internal : Bool := false) : Except PatchError (List Text) :=
  let parts := path.splitOn '/'
  if parts.any (· ∈ ["".toList, ".".toList, "..".toList]) ||
      containsAny ['\\', '\x00', '\n', '\r', '\t'] path then
    throw ⟨.unsafePath, .securityError⟩
  else if !internal && (parts.head? ∈ [some ".storage".toList, some ".hapatchy".toList] ||
      parts.take 2 = ["custom_components".toList, "hapatchy".toList]) then
    throw ⟨.protectedPath, .securityError⟩
  else pure parts

/-- `check_non_yaml_file`: no other character's lower case is one of these letters. -/
def checkNonYamlFile (path : Text) : Except PatchError Unit :=
  let lower := path.map Char.toLower
  if ".yaml".toList <:+ lower ∨ ".yml".toList <:+ lower then
    throw ⟨.protectedPath, .securityError⟩
  else pure ()

structure PatchDefinition where
  patchId : Text
  name : Text
  targetPath : Text
  watchRoot : Text
  watchPattern : Text
  sourceType : Text
  source : Text
  enabled : Bool := true
  autoApply : Bool := true
  reconcileOnStartup : Bool := true
  backupBeforeApply : Bool := true
  debounceSeconds : Rat
  sourceSha256 : Option Text := none
  deriving DecidableEq, Repr

/-! ## What a run is given -/

/-- Digits of `n`, padded with zeros on the left. -/
def padded (width n : Nat) : Text :=
  let digits := Nat.toDigits 10 n
  List.replicate (width - digits.length) '0' ++ digits

/-- An aware `datetime` in UTC. -/
structure Timestamp where
  year : Nat
  month : Nat
  day : Nat
  hour : Nat
  minute : Nat
  second : Nat
  microsecond : Nat
  valid : (1000 ≤ year ∧ year ≤ 9999) ∧ month ≤ 12 ∧ day ≤ 31 ∧ hour ≤ 23 ∧ minute ≤ 59 ∧
    second ≤ 59 ∧ microsecond ≤ 999999

def isHex (c : Char) : Bool := ('0' ≤ c ∧ c ≤ '9') ∨ ('a' ≤ c ∧ c ≤ 'f')

/-- `uuid4().hex` -/
abbrev Hex32 := { t : Text // t.length = 32 ∧ ∀ c ∈ t, isHex c }

/-- What `json.loads` can return. Numbers that are no rational number are `other`. -/
inductive Json where
  | null
  | bool (value : Bool)
  | number (value : Rat)
  | other
  | string (value : Text)
  | array (values : List Json)
  | object (members : List (Text × Json))

/-- The reasons with which the frozen grants deny everything. -/
def authorityReasons : List Reason :=
  [.configurationSourceUnavailable, .configurationSourceChanged, .configurationMismatch,
    .hapatchyYamlInvalid, .hapatchyPackageForbidden]

abbrev AuthorityReason := { r : Reason // r ∈ authorityReasons }

/-- `_Progress`: what a run knows while its attempts raise. -/
structure Progress where
  sourceSha256 : Text
  pendingDurability : Bool
  targetSha256 : Option Text := none
  mutated : Bool := false
  deriving DecidableEq, Repr

end Hapatchy
