import Hapatchy.PatchEngine.Location

/-!
# What `inspect` decides

The accepted targets, their normal form, and the four verdicts.
-/

open Blocks Newlines

namespace Hapatchy.PatchEngine

/-! ## Accepted text -/

/-- A target or diff that `_text` accepts, on its bytes. -/
structure Acceptable (raw : Bytes) (limit : Nat) : Prop where
  size : raw.length ≤ limit
  utf8 : (Utf8.decode raw).isSome
  noNul : 0 ∉ raw
  noLoneCr : ¬ LoneCr 13 10 raw
  notMixed : ¬ (([13, 10] : Bytes) <:+: raw ∧ LoneLf 13 10 raw)

/-- `raw` with CRLF turned into LF. -/
def normalised (raw : Bytes) : Bytes := replacePair 13 10 [10] raw

/-- Whether `raw` has CRLF endings. -/
def hasCrlf (raw : Bytes) : Bool := decide (([13, 10] : Bytes) <:+: raw)

variable {raw : Bytes} {limit : Nat}

theorem nul_mem_encode_iff {t : Text} : (0 : UInt8) ∈ Utf8.encode t ↔ '\x00' ∈ t :=
  Utf8.mem_encode_iff (c := '\x00') (by decide)

theorem crlf_infix_encode_iff {t : Text} :
    ([13, 10] : Bytes) <:+: Utf8.encode t ↔ ['\r', '\n'] <:+: t :=
  Utf8.pair_infix_encode_iff (c := '\r') (d := '\n') (by decide) (by decide)

theorem encode_replacePair (new t : Text) :
    Utf8.encode (replacePair '\r' '\n' new t) =
      replacePair 13 10 (Utf8.encode new) (Utf8.encode t) :=
  Utf8.encode_replacePair (c := '\r') (d := '\n') (by decide) (by decide) new t

theorem cr_mem_bare_iff {t : Text} :
    '\r' ∈ replacePair '\r' '\n' [] t ↔ LoneCr 13 10 (Utf8.encode t) := by
  rw [← mem_replacePair_cr (by decide), ← Utf8.encode_nil, ← encode_replacePair]
  exact (Utf8.mem_encode_iff (c := '\r') (by decide)).symm

theorem lf_mem_bare_iff {t : Text} :
    '\n' ∈ replacePair '\r' '\n' [] t ↔ LoneLf 13 10 (Utf8.encode t) := by
  rw [← mem_replacePair_lf (by decide), ← Utf8.encode_nil, ← encode_replacePair]
  exact (Utf8.mem_encode_iff (c := '\n') (by decide)).symm

theorem encode_normalised (t : Text) :
    Utf8.encode (replacePair '\r' '\n' ['\n'] t) = normalised (Utf8.encode t) :=
  encode_replacePair ['\n'] t

/-- `_text` accepts exactly the acceptable bytes, and its text encodes their normal form. -/
theorem text_of_acceptable (h : Acceptable raw limit) :
    ∃ t, text raw limit = .ok (t, hasCrlf raw) ∧ Utf8.encode t = normalised raw := by
  obtain ⟨t, ht⟩ := Option.isSome_iff_exists.mp h.utf8
  obtain rfl := Utf8.decode_eq_some_iff.mp ht
  refine ⟨replacePair '\r' '\n' ['\n'] t, ?_, encode_normalised t⟩
  have hnul := h.noNul
  have hcr := h.noLoneCr
  have hmixed := h.notMixed
  rw [nul_mem_encode_iff] at hnul
  rw [← cr_mem_bare_iff] at hcr
  rw [crlf_infix_encode_iff, ← lf_mem_bare_iff] at hmixed
  simp only [text, if_neg (show ¬ (Utf8.encode t).length > limit by have := h.size; omega), ht,
    if_neg hnul, decide_eq_true_eq, if_neg (not_or.mpr ⟨hcr, hmixed⟩), hasCrlf,
    crlf_infix_encode_iff]
  rfl

theorem text_of_not_acceptable (h : ¬ Acceptable raw limit) :
    ∃ reason, text raw limit = .error ⟨reason, .invalidPatch⟩ := by
  by_cases hsize : raw.length > limit
  · exact ⟨.sizeLimit, by simp only [text, if_pos hsize]; rfl⟩
  rcases hdecode : Utf8.decode raw with _ | t
  · exact ⟨.unsupportedEncoding, by simp only [text, if_neg hsize, hdecode]; rfl⟩
  obtain rfl := Utf8.decode_eq_some_iff.mp hdecode
  by_cases hnul : '\x00' ∈ t
  · exact ⟨.unsupportedEncoding, by simp only [text, if_neg hsize, hdecode, if_pos hnul]; rfl⟩
  refine ⟨.mixedEndings, ?_⟩
  have hbad : '\r' ∈ replacePair '\r' '\n' [] t ∨
      (decide (['\r', '\n'] <:+: t) = true ∧ '\n' ∈ replacePair '\r' '\n' [] t) := by
    by_contra hgood
    rw [not_or, decide_eq_true_eq, cr_mem_bare_iff, lf_mem_bare_iff, ← crlf_infix_encode_iff]
      at hgood
    exact h ⟨by omega, by simp, by rwa [nul_mem_encode_iff], hgood.1, hgood.2⟩
  simp only [text, if_neg hsize, hdecode, if_neg hnul, if_pos hbad]
  rfl

/-! ## Verdicts -/

/-- The target with the old blocks, placed at `is`, replaced by the other side of their hunks. -/
def patched (patch : ParsedPatch) (reverse : Bool) (raw : Bytes) (is : List Nat) : Bytes :=
  withEndings (hasCrlf raw)
    (spliced (Hunk.side reverse) (Hunk.side !reverse) (normalised raw) 0 patch.hunks is)

variable {patch : ParsedPatch}

theorem inspect_of_not_acceptable (h : ¬ Acceptable raw maxTargetBytes) :
    ∃ reason, inspect patch raw = { status := .invalidPatch, reason := some reason } := by
  obtain ⟨reason, hreason⟩ := text_of_not_acceptable h
  exact ⟨reason, by simp only [inspect, hreason]⟩

theorem inspect_of_acceptable (h : Acceptable raw maxTargetBytes) :
    inspect patch raw = verdict (hasCrlf raw) (direction patch.hunks (normalised raw) false)
      (direction patch.hunks (normalised raw) true) := by
  obtain ⟨t, htext, hencode⟩ := text_of_acceptable h
  simp only [inspect, htext, hencode]

theorem acceptable_of_status (h : (inspect patch raw).status ≠ .invalidPatch) :
    Acceptable raw maxTargetBytes := by
  by_contra hbad
  obtain ⟨reason, hreason⟩ : ∃ reason, inspect patch raw = _ := inspect_of_not_acceptable hbad
  exact h (by rw [hreason])

/-- The blocks of one side stand at `is` in the normalised target. -/
def SidePlaced (patch : ParsedPatch) (raw : Bytes) (reverse : Bool) (is : List Nat) : Prop :=
  PlacedFrom lf (normalised raw) 0 (patch.hunks.map (Hunk.side reverse)) is

def SidePlaceable (patch : ParsedPatch) (raw : Bytes) (reverse : Bool) : Prop :=
  ∃ is, SidePlaced patch raw reverse is

theorem direction_of_placed {reverse : Bool} {is : List Nat}
    (h : SidePlaced patch raw reverse is) :
    direction patch.hunks (normalised raw) reverse = some
      (spliced (Hunk.side reverse) (Hunk.side !reverse) (normalised raw) 0 patch.hunks is) :=
  direction_eq_some_iff.mpr ⟨is, h, rfl⟩

theorem direction_of_not_placeable {reverse : Bool} (h : ¬ SidePlaceable patch raw reverse) :
    direction patch.hunks (normalised raw) reverse = none := direction_eq_none_iff.mpr h

section Verdicts

variable (hraw : Acceptable raw maxTargetBytes)

include hraw

theorem inspect_of_both (hold : SidePlaceable patch raw false)
    (hnew : SidePlaceable patch raw true) :
    inspect patch raw = { status := .invalidPatch, reason := some .ambiguousDirection } := by
  obtain ⟨is, his⟩ := hold
  obtain ⟨js, hjs⟩ := hnew
  rw [inspect_of_acceptable hraw, direction_of_placed his, direction_of_placed hjs]
  rfl

theorem inspect_of_neither (hold : ¬ SidePlaceable patch raw false)
    (hnew : ¬ SidePlaceable patch raw true) :
    inspect patch raw = { status := .conflict, reason := some .contextNotUnique } := by
  rw [inspect_of_acceptable hraw, direction_of_not_placeable hold,
    direction_of_not_placeable hnew]
  rfl

theorem inspect_of_old {is : List Nat} (hold : SidePlaced patch raw false is)
    (hnew : ¬ SidePlaceable patch raw true) :
    inspect patch raw =
      if (patched patch false raw is).length > maxTargetBytes then
        { status := .invalidPatch, reason := some .sizeLimit }
      else { status := .applicable, forwardOutput := some (patched patch false raw is) } := by
  rw [inspect_of_acceptable hraw, direction_of_placed hold, direction_of_not_placeable hnew]
  rfl

theorem inspect_of_new {is : List Nat} (hold : ¬ SidePlaceable patch raw false)
    (hnew : SidePlaced patch raw true is) :
    inspect patch raw =
      if (patched patch true raw is).length > maxTargetBytes then
        { status := .invalidPatch, reason := some .sizeLimit }
      else { status := .applied, reverseOutput := some (patched patch true raw is) } := by
  rw [inspect_of_acceptable hraw, direction_of_placed hnew, direction_of_not_placeable hold]
  rfl

end Verdicts

/-- The verdict on an acceptable target. `patched` is the target with exactly the placed spans
replaced by the other side of their hunks. -/
structure Verdict (patch : ParsedPatch) (raw : Bytes) (result : PatchInspection) : Prop where
  applicable : result.status = .applicable ↔
    ∃ is, SidePlaced patch raw false is ∧ ¬ SidePlaceable patch raw true ∧
      (patched patch false raw is).length ≤ maxTargetBytes
  applied : result.status = .applied ↔
    ∃ is, SidePlaced patch raw true is ∧ ¬ SidePlaceable patch raw false ∧
      (patched patch true raw is).length ≤ maxTargetBytes
  ambiguous : result = { status := .invalidPatch, reason := some .ambiguousDirection } ↔
    SidePlaceable patch raw false ∧ SidePlaceable patch raw true
  conflict : result.status = .conflict ↔
    ¬ SidePlaceable patch raw false ∧ ¬ SidePlaceable patch raw true
  sizeLimit : result = { status := .invalidPatch, reason := some .sizeLimit } ↔
    ∃ reverse is, SidePlaced patch raw reverse is ∧ ¬ SidePlaceable patch raw (!reverse) ∧
      maxTargetBytes < (patched patch reverse raw is).length
  forwardOutput : ∀ is, SidePlaced patch raw false is → result.status = .applicable →
    result = { status := .applicable, forwardOutput := some (patched patch false raw is) }
  reverseOutput : ∀ is, SidePlaced patch raw true is → result.status = .applied →
    result = { status := .applied, reverseOutput := some (patched patch true raw is) }

theorem verdict_of_acceptable (hraw : Acceptable raw maxTargetBytes) :
    Verdict patch raw (inspect patch raw) := by
  by_cases hold : SidePlaceable patch raw false <;> by_cases hnew : SidePlaceable patch raw true
  · have h := inspect_of_both hraw hold hnew
    constructor <;> simp [h, hold, hnew]
  · obtain ⟨is, his⟩ := hold
    have hsome : SidePlaceable patch raw false := ⟨is, his⟩
    have huniq : ∀ js, SidePlaced patch raw false js ↔ js = is := fun js =>
      ⟨fun h => h.unique his, fun h => h ▸ his⟩
    have hno : ∀ js, ¬ SidePlaced patch raw true js := fun js h => hnew ⟨js, h⟩
    have h := inspect_of_old hraw his hnew
    split at h <;> rename_i hlen <;>
      constructor <;> simp [h, hsome, hnew, huniq, hno] <;> omega
  · obtain ⟨is, his⟩ := hnew
    have hsome : SidePlaceable patch raw true := ⟨is, his⟩
    have huniq : ∀ js, SidePlaced patch raw true js ↔ js = is := fun js =>
      ⟨fun h => h.unique his, fun h => h ▸ his⟩
    have hno : ∀ js, ¬ SidePlaced patch raw false js := fun js h => hold ⟨js, h⟩
    have h := inspect_of_new hraw hold his
    split at h <;> rename_i hlen <;>
      constructor <;> simp [h, hsome, hold, huniq, hno] <;> omega
  · have h := inspect_of_neither hraw hold hnew
    have hno : ∀ reverse is, ¬ SidePlaced patch raw reverse is := fun reverse is hplaced => by
      cases reverse
      · exact hold ⟨is, hplaced⟩
      · exact hnew ⟨is, hplaced⟩
    constructor <;> simp [h, hold, hnew, hno]

/-- `inspect` is its declarative specification: it refuses targets that are not LF or CRLF
UTF-8 text within the limit, and decides the others by where the blocks can be placed. -/
theorem inspect_declarative (patch : ParsedPatch) (raw : Bytes) :
    (¬ Acceptable raw maxTargetBytes →
      ∃ reason, inspect patch raw = { status := .invalidPatch, reason := some reason }) ∧
    (Acceptable raw maxTargetBytes → Verdict patch raw (inspect patch raw)) :=
  ⟨inspect_of_not_acceptable, verdict_of_acceptable⟩

end Hapatchy.PatchEngine
