import Hapatchy.PatchEngine

/-!
# Patches built from an edit

`patch_builder.py`, and of `difflib` what writes a unified diff. The opcodes
that its `SequenceMatcher` groups are a parameter.
-/

namespace Hapatchy

open PatchEngine

namespace Difflib

/-! ## `str.splitlines` -/

/-- The characters that end a line for `str.splitlines`. -/
def boundaries : List Char :=
  ['\n', '\r', '\x0b', '\x0c', '\x1c', '\x1d', '\x1e', '\u0085', '\u2028', '\u2029']

/-- `str.splitlines(keepends=True)` -/
def splitlines : Text → List Text
  | [] => []
  | '\r' :: '\n' :: rest => ['\r', '\n'] :: splitlines rest
  | c :: rest =>
    if c ∈ boundaries then [c] :: splitlines rest
    else match splitlines rest with
    | [] => [[c]]
    | line :: lines => (c :: line) :: lines

/-! ## `difflib.unified_diff` -/

inductive Tag where
  | equal
  | replace
  | delete
  | insert
  deriving DecidableEq, Repr

/-- How to turn `a[i1:i2]` into `b[j1:j2]`. -/
structure Opcode where
  tag : Tag
  i1 : Nat
  i2 : Nat
  j1 : Nat
  j2 : Nat
  deriving DecidableEq, Repr

/-- `SequenceMatcher(None, a, b).get_grouped_opcodes(n)` -/
abbrev GroupedOpcodes := List Text → List Text → Nat → List (List Opcode)

def str (n : Nat) : Text := Nat.toDigits 10 n

/-- `_format_range_unified` -/
def formatRangeUnified (start stop : Nat) : Text :=
  let length := stop - start
  if length = 1 then str (start + 1)
  else str (if length = 0 then start else start + 1) ++ ',' :: str length

/-- The lines of an opcode. -/
def opcodeLines (a b : List Text) (op : Opcode) : List Text :=
  if op.tag = .equal then (a.extract op.i1 op.i2).map (' ' :: ·)
  else
    (if op.tag = .replace ∨ op.tag = .delete then (a.extract op.i1 op.i2).map ('-' :: ·) else []) ++
      (if op.tag = .replace ∨ op.tag = .insert then (b.extract op.j1 op.j2).map ('+' :: ·) else [])

def groupHeader (first last : Opcode) : Text :=
  "@@ -".toList ++ formatRangeUnified first.i1 last.i2 ++ " +".toList ++
    formatRangeUnified first.j1 last.j2 ++ " @@\n".toList

/-- The lines of a hunk. No group is empty. -/
def groupLines (a b : List Text) (group : List Opcode) : List Text :=
  match group.head?, group.getLast? with
  | some first, some last => groupHeader first last :: group.flatMap (opcodeLines a b)
  | _, _ => []

/-- `unified_diff` without file dates. -/
def unifiedDiff (grouped : GroupedOpcodes) (a b : List Text) (fromfile tofile : Text) (n : Nat) :
    List Text :=
  match grouped a b n with
  | [] => []
  | groups =>
    ("--- ".toList ++ fromfile ++ ['\n']) :: ("+++ ".toList ++ tofile ++ ['\n']) ::
      groups.flatMap (groupLines a b)

end Difflib

namespace PatchBuilder

open Difflib

def maxEditorBytes : Nat := 512 * 1024

/-! ## Editor text -/

def validateEditorText (data : Bytes) : Except PatchError Text :=
  if data.length > maxEditorBytes then throw ⟨.sizeLimit, .invalidPatch⟩
  else if data = [] then throw ⟨.editorEmpty, .invalidPatch⟩
  else match Utf8.decode data with
  | none => throw ⟨.unsupportedEncoding, .invalidPatch⟩
  | some value =>
    if '\x00' ∈ value then throw ⟨.unsupportedEncoding, .invalidPatch⟩
    else if '\r' ∈ value ∨ value.getLast? ≠ some '\n' then
      throw ⟨.editorTextFormat, .invalidPatch⟩
    else pure value

/-! ## Rounds -/

section Rounds

variable (grouped : GroupedOpcodes) (fromstring : Fromstring) (original edited : Bytes)
  (before after target : Text)

/-- The diff with `context` lines around the changes. -/
def candidate (context : Nat) : Bytes :=
  Utf8.encode (unifiedDiff grouped (splitlines before) (splitlines after)
    ("a/".toList ++ target) ("b/".toList ++ target) context).flatten

/-- Whether a candidate leads from `original` to `edited` and back. Only a `PatchError` is caught. -/
def leadsThereAndBack (raw : Bytes) : Except Exc Bool :=
  match parse fromstring raw target with
  | .error error => if error.patchError?.isSome then pure false else throw error
  | .ok parsed =>
    let result := inspect parsed original
    let reverse := inspect parsed edited
    pure (result.status = .applicable ∧ result.forwardOutput = some edited ∧
      reverse.status = .applied ∧ reverse.reverseOutput = some original)

def maximum : Nat := max (splitlines before).length (splitlines after).length

/-- The loop of `build_patch`; `none` is a loop that has used up its fuel. -/
def rounds : Nat → Nat → Option (Except Exc Bytes)
  | 0, _ => none
  | fuel + 1, context =>
    let raw := candidate grouped before after target context
    if raw.length > maxPatchBytes then some (throw (.patch ⟨.sizeLimit, .invalidPatch⟩))
    else match leadsThereAndBack fromstring original edited target raw with
    | .error error => some (throw error)
    | .ok true => some (pure raw)
    | .ok false =>
      if context ≥ maximum before after then
        some (throw (.patch ⟨.editorContextNotUnique, .invalidPatch⟩))
      else rounds fuel (min (maximum before after) (context * 2))

end Rounds

/-- What `build_patch` checks before the first round. -/
def checkEdit (original edited : Bytes) (target : Text) : Except PatchError (Text × Text) := do
  let _ ← relativeParts target
  let before ← validateEditorText original
  let after ← validateEditorText edited
  if before = after then throw ⟨.editorUnchanged, .invalidPatch⟩ else pure (before, after)

def buildPatch (grouped : GroupedOpcodes) (fromstring : Fromstring) (original edited : Bytes)
    (target : Text) : Option (Except Exc Bytes) :=
  match checkEdit original edited target with
  | .error error => some (throw (.patch error))
  | .ok (before, after) =>
    rounds grouped fromstring original edited before after target (maximum before after + 1) 3

end PatchBuilder

end Hapatchy
