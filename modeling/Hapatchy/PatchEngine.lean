import Hapatchy.Lib.Lines
import Hapatchy.Models

/-!
# The strict unified-diff parser and the exact matcher

`patch_engine.py`, function by function. `patch_ng` is outside the repository:
its `fromstring` is a parameter.
-/

open Newlines

namespace Hapatchy.PatchEngine

def maxPatchBytes : Nat := 2 * 1024 * 1024

structure Hunk where
  before : Bytes
  after : Bytes
  deriving DecidableEq, Repr

structure ParsedPatch where
  target : Text
  hunks : List Hunk
  deriving DecidableEq, Repr

/-! ## Text -/

/-- `_text`: the text with LF endings, and whether the data had CRLF ones. -/
def text (data : Bytes) (limit : Nat) : Except PatchError (Text × Bool) :=
  if data.length > limit then throw ⟨.sizeLimit, .invalidPatch⟩
  else match Utf8.decode data with
  | none => throw ⟨.unsupportedEncoding, .invalidPatch⟩
  | some text =>
    if '\x00' ∈ text then throw ⟨.unsupportedEncoding, .invalidPatch⟩
    else
      let crlf := decide (['\r', '\n'] <:+: text)
      let bare := replacePair '\r' '\n' [] text
      if '\r' ∈ bare ∨ (crlf = true ∧ '\n' ∈ bare) then throw ⟨.mixedEndings, .invalidPatch⟩
      else pure (replacePair '\r' '\n' ['\n'] text, crlf)

def path (p : Text) : Except PatchError Text :=
  if p = [] ∨ (p.splitOn '/').any (· ∈ ["".toList, ".".toList, "..".toList]) then
    throw ⟨.unsafePath, .securityError⟩
  else if containsAny ['\\', '\x00', '\t', '\n', '\r'] p then throw ⟨.unsafePath, .securityError⟩
  else pure p

/-! ## Headers -/

def startswith (line : Text) (start : String) : Bool := start.toList.isPrefixOf line

/-- `index [0-9a-f]+\.\.[0-9a-f]+(?: 100(?:644|755))?` -/
def isIndexLine (line : Text) : Bool :=
  startswith line "index " &&
    let (old, rest) := (line.drop 6).span isHex
    let (new, mode) := (rest.drop 2).span isHex
    old ≠ [] && startswith rest ".." && new ≠ [] &&
      mode ∈ ["".toList, " 100644".toList, " 100755".toList]

/-- The lines that the optional git preamble takes. -/
def gitPreamble (lines : List Text) (target : Text) : Except PatchError Nat :=
  match lines with
  | [] => pure 0
  | line :: rest =>
    if startswith line "diff --git " then
      if line ≠ "diff --git a/".toList ++ target ++ " b/".toList ++ target then
        throw ⟨.headerTargetMismatch, .invalidPatch⟩
      else pure (if rest.head?.any isIndexLine then 2 else 1)
    else pure 0

/-- `line[4:].split("\t", 1)[0]` -/
def headerPath (line : Text) : Text := (line.drop 4).takeWhile (· ≠ '\t')

/-- `_headers`: the index of the first line after the file headers. -/
def headers (lines : List Text) (target : Text) : Except PatchError Nat := do
  let start ← gitPreamble lines target
  match lines.drop start with
  | oldLine :: newLine :: _ :: _ =>
    if !startswith oldLine "--- " || !startswith newLine "+++ " then
      throw ⟨.invalidHeaders, .invalidPatch⟩
    else
      let paired := startswith (headerPath oldLine) "a/" && startswith (headerPath newLine) "b/"
      let old := if paired then (headerPath oldLine).drop 2 else headerPath oldLine
      let new := if paired then (headerPath newLine).drop 2 else headerPath newLine
      if (← path old) ≠ target then throw ⟨.headerTargetMismatch, .invalidPatch⟩
      else if (← path new) ≠ target then throw ⟨.headerTargetMismatch, .invalidPatch⟩
      else pure (start + 2)
  | _ => throw ⟨.invalidHeaders, .invalidPatch⟩

/-! ## Hunk headers -/

/-- The zeros of the Unicode decimal digits (category Nd), which `\d` matches and `int` reads. -/
def digitZeros : List Nat :=
  [0x30, 0x660, 0x6f0, 0x7c0, 0x966, 0x9e6, 0xa66, 0xae6, 0xb66, 0xbe6, 0xc66, 0xce6, 0xd66,
    0xde6, 0xe50, 0xed0, 0xf20, 0x1040, 0x1090, 0x17e0, 0x1810, 0x1946, 0x19d0, 0x1a80, 0x1a90,
    0x1b50, 0x1bb0, 0x1c40, 0x1c50, 0xa620, 0xa8d0, 0xa900, 0xa9d0, 0xa9f0, 0xaa50, 0xabf0,
    0xff10, 0x104a0, 0x10d30, 0x10d40, 0x11066, 0x110f0, 0x11136, 0x111d0, 0x112f0, 0x11450,
    0x114d0, 0x11650, 0x116c0, 0x116d0, 0x116da, 0x11730, 0x118e0, 0x11950, 0x11bf0, 0x11c50,
    0x11d50, 0x11da0, 0x11f50, 0x16130, 0x16a60, 0x16ac0, 0x16b50, 0x16d70, 0x1ccf0, 0x1d7ce,
    0x1d7d8, 0x1d7e2, 0x1d7ec, 0x1d7f6, 0x1e140, 0x1e2f0, 0x1e4f0, 0x1e5f1, 0x1e950, 0x1fbf0]

def digitValue (c : Char) : Option Nat :=
  (digitZeros.find? fun base => base ≤ c.toNat ∧ c.toNat < base + 10).map (c.toNat - ·)

/-- `sys.int_info.default_max_str_digits`: longer numerals raise a plain `ValueError`. -/
def maxStrDigits : Nat := 4300

def int (digits : Text) : Except Exc Nat :=
  if digits.length > maxStrDigits then throw .value
  else pure (digits.foldl (fun n c => 10 * n + (digitValue c).getD 0) 0)

def stripPrefix (start : String) (t : Text) : Option Text :=
  if startswith t start then some (t.drop start.length) else none

/-- `\d+` -/
def matchDigits (t : Text) : Option (Text × Text) :=
  match t.span (digitValue · |>.isSome) with
  | ([], _) => none
  | (digits, rest) => some (digits, rest)

/-- `(?:,(\d+))?` -/
def matchCount (t : Text) : Option Text × Text :=
  match (stripPrefix "," t).bind matchDigits with
  | some (digits, rest) => (some digits, rest)
  | none => (none, t)

/-- `_HUNK.fullmatch(line)`: the four groups of
`@@ -(\d+)(?:,(\d+))? \+(\d+)(?:,(\d+))? @@(?: .*)?`. -/
def matchHunk (line : Text) : Option (Text × Option Text × Text × Option Text) := do
  let rest ← stripPrefix "@@ -" line
  let (oldStart, rest) ← matchDigits rest
  let (oldCount, rest) := matchCount rest
  let rest ← stripPrefix " +" rest
  let (newStart, rest) ← matchDigits rest
  let (newCount, rest) := matchCount rest
  let rest ← stripPrefix " @@" rest
  if rest = [] ∨ rest.head? = some ' ' then some (oldStart, oldCount, newStart, newCount) else none

structure HunkHeader where
  oldStart : Nat
  oldCount : Nat
  newStart : Nat
  newCount : Nat
  deriving DecidableEq, Repr

def hunkHeader (line : Text) : Except Exc HunkHeader :=
  match matchHunk line with
  | none => throw (.patch ⟨.invalidHunk, .invalidPatch⟩)
  | some (oldStart, oldCount, newStart, newCount) => do
    let header : HunkHeader :=
      ⟨← int oldStart, ← int (oldCount.getD "1".toList), ← int newStart,
        ← int (newCount.getD "1".toList)⟩
    if min (min header.oldStart header.oldCount) (min header.newStart header.newCount) < 1 then
      throw (.patch ⟨.unanchoredHunk, .invalidPatch⟩)
    else pure header

/-! ## Hunk bodies -/

def noNewline : Text := "\\ No newline at end of file".toList

def appendLine (lines : List Text) (value : Text) : Except PatchError (List Text) :=
  match lines.getLast? with
  | some last =>
    if last.getLast? = some '\n' then pure (lines ++ [value])
    else throw ⟨.invalidNewlineMarker, .invalidPatch⟩
  | none => pure [value]

/-- The lines of a hunk read so far: its old side, its new side and its raw body. -/
structure HunkSides where
  old : List Text := []
  new : List Text := []
  body : List Bytes := []
  deriving DecidableEq, Repr

def HunkSides.push (sides : HunkSides) (mark : Char) (line value : Text) :
    Except PatchError HunkSides := do
  let old ← if mark = ' ' ∨ mark = '-' then appendLine sides.old value else pure sides.old
  let new ← if mark = ' ' ∨ mark = '+' then appendLine sides.new value else pure sides.new
  pure ⟨old, new, sides.body ++ [Utf8.encode (line ++ ['\n'])]⟩

/-- The loop of `_read_hunk`, with the lines it leaves in place of the index. -/
def readSides : List Text → HunkSides → Except PatchError (HunkSides × List Text)
  | [], sides => pure (sides, [])
  | line :: rest, sides =>
    if startswith line "@@ " then pure (sides, line :: rest)
    else match line with
    | [] => throw ⟨.invalidHunkBody, .invalidPatch⟩
    | mark :: value =>
      if mark ∉ [' ', '+', '-'] then throw ⟨.invalidHunkBody, .invalidPatch⟩
      else match rest with
      | [] => do
        let sides ← sides.push mark line (value ++ ['\n'])
        readSides [] sides
      | next :: rest' =>
        if next = noNewline then do
          let sides ← sides.push mark line value
          readSides rest' sides
        else do
          let sides ← sides.push mark line (value ++ ['\n'])
          readSides (next :: rest') sides

def readHunk (lines : List Text) (oldCount newCount : Nat) :
    Except PatchError (Hunk × List Bytes × List Text) := do
  let (sides, rest) ← readSides lines {}
  if sides.old.length ≠ oldCount ∨ sides.new.length ≠ newCount then
    throw ⟨.hunkCountMismatch, .invalidPatch⟩
  else if sides.old = sides.new then throw ⟨.noChange, .invalidPatch⟩
  else
    pure (⟨Utf8.encode sides.old.flatten, Utf8.encode sides.new.flatten⟩, sides.body, rest)

/-! ## The parser -/

/-- What `parse` reads of one hunk that `patch_ng` reports. -/
structure NgHunk where
  invalid : Bool
  text : List Bytes
  deriving DecidableEq, Repr

/-- `patch_ng.fromstring`: the hunks of each item, or `none` for `False`. -/
abbrev Fromstring := Bytes → Option (List (List NgHunk))

/-- The hunk loop of `parse`. The fuel bounds the hunk headers left to read. -/
def readHunks : Nat → List Text → Nat → Nat → Except Exc (List (Hunk × List Bytes))
  | _, [], _, _ => pure []
  | 0, _ :: _, _, _ => throw (.patch ⟨.invalidHunk, .invalidPatch⟩)
  | fuel + 1, line :: rest, previousOld, previousNew => do
    let header ← hunkHeader line
    if header.oldStart < previousOld ∨ header.newStart < previousNew then
      throw (.patch ⟨.overlappingHunks, .invalidPatch⟩)
    else
      let (record, body, rest) ←
        (readHunk rest header.oldCount header.newCount).mapError Exc.patch
      let records ← readHunks fuel rest (header.oldStart + header.oldCount)
        (header.newStart + header.newCount)
      pure ((record, body) :: records)

/-- The comparison with the third-party parser, which ignores more than it should. -/
def checkParser (parsed : Option (List (List NgHunk))) (bodies : List (List Bytes)) :
    Except PatchError Unit :=
  match parsed with
  | some [hunks] =>
    if hunks.length ≠ bodies.length then throw ⟨.parserRejected, .invalidPatch⟩
    else if (hunks.zip bodies).any fun (hunk, body) =>
        hunk.invalid || hunk.text.filter (·.head? ≠ some 92) ≠ body then
      throw ⟨.parserMismatch, .invalidPatch⟩
    else pure ()
  | _ => throw ⟨.parserRejected, .invalidPatch⟩

def parse (fromstring : Fromstring) (raw : Bytes) (target : Text) : Except Exc ParsedPatch := do
  let target ← (path target).mapError Exc.patch
  let (text, _) ← (text raw maxPatchBytes).mapError Exc.patch
  if text.getLast? ≠ some '\n' then throw (.patch ⟨.unterminatedDiff, .invalidPatch⟩)
  else
    let lines := text.dropLast.splitOn '\n'
    let index ← (headers lines target).mapError Exc.patch
    let records ← readHunks lines.length (lines.drop index) 0 0
    if records = [] then throw (.patch ⟨.noHunks, .invalidPatch⟩)
    else
      (checkParser (fromstring (Utf8.encode text)) (records.map Prod.snd)).mapError Exc.patch
      pure ⟨target, records.map Prod.fst⟩

/-! ## Matching -/

/-- `bytes.find`: the first occurrence of `sub` at `start` or later. -/
def find (original sub : Bytes) (start : Nat) : Option Nat :=
  (List.range' start (original.length + 1 - start)).find? fun i => sub.isPrefixOf (original.drop i)

/-- The loop of `_unique_location`. Every turn moves right, so the length bounds the turns. -/
def locate (original before : Bytes) : Nat → Option Nat → Option Nat → Option Nat
  | 0, location, _ => location
  | _ + 1, location, none => location
  | fuel + 1, location, some position =>
    let stop := position + before.length
    if (position = 0 ∨ original[position - 1]? = some 10) ∧
        (before.getLast? = some 10 ∨ stop = original.length) then
      if location.isSome then none
      else locate original before fuel (some position) (find original before (position + 1))
    else locate original before fuel location (find original before (position + 1))

/-- `_unique_location`: the one whole-line match of `before` in `original`. -/
def uniqueLocation (original before : Bytes) : Option Nat :=
  locate original before (original.length + 2) none (find original before 0)

/-! ## Inspection -/

def Hunk.side (reverse : Bool) (hunk : Hunk) : Bytes := if reverse then hunk.after else hunk.before

/-- The first loop of `_direction`: start, end and new bytes of each hunk. -/
def replacements (original : Bytes) (reverse : Bool) :
    Nat → List Hunk → Option (List (Nat × Nat × Bytes))
  | _, [] => some []
  | previousEnd, hunk :: hunks => do
    let start ← uniqueLocation original (hunk.side reverse)
    if start < previousEnd then none
    else
      let stop := start + (hunk.side reverse).length
      let rest ← replacements original reverse stop hunks
      some ((start, stop, hunk.side !reverse) :: rest)

/-- The second loop of `_direction`: the gaps and the new bytes in turn. -/
def pieces (original : Bytes) : Nat → List (Nat × Nat × Bytes) → Bytes
  | cursor, [] => original.drop cursor
  | cursor, (start, stop, replacement) :: rest =>
    original.extract cursor start ++ replacement ++ pieces original stop rest

def direction (hunks : List Hunk) (original : Bytes) (reverse : Bool) : Option Bytes :=
  (replacements original reverse 0 hunks).map (pieces original 0)

/-- `output.replace(b"\n", b"\r\n")` where the target had CRLF endings. -/
def withEndings (crlf : Bool) (output : Bytes) : Bytes := if crlf then toCrlf 13 10 output else output

/-- The end of `inspect`: what the outputs of the two directions decide. -/
def verdict (crlf : Bool) : Option Bytes → Option Bytes → PatchInspection
  | some _, some _ => { status := .invalidPatch, reason := some .ambiguousDirection }
  | none, none => { status := .conflict, reason := some .contextNotUnique }
  | some forward, none =>
    let output := withEndings crlf forward
    if output.length > maxTargetBytes then { status := .invalidPatch, reason := some .sizeLimit }
    else { status := .applicable, forwardOutput := some output }
  | none, some reverse =>
    let output := withEndings crlf reverse
    if output.length > maxTargetBytes then { status := .invalidPatch, reason := some .sizeLimit }
    else { status := .applied, reverseOutput := some output }

def inspect (patch : ParsedPatch) (raw : Bytes) : PatchInspection :=
  match text raw maxTargetBytes with
  | .error error => { status := error.status, reason := error.reason }
  | .ok (text, crlf) =>
    let original := Utf8.encode text
    verdict crlf (direction patch.hunks original false) (direction patch.hunks original true)

end Hapatchy.PatchEngine
