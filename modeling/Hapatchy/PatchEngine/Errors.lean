import Hapatchy.PatchEngine.Rendering

/-!
# What `parse` raises

Every refusal is a `PatchError`, but for the plain `ValueError` of a numeral that
`int` does not read.
-/

open Results

namespace Hapatchy.PatchEngine

theorem int_eq_error {digits : Text} {e : Exc} (h : int digits = .error e) :
    e = .value ∧ maxStrDigits < digits.length := by
  rw [int] at h
  split at h
  · rename_i hlong
    exact ⟨(throw_eq_error.mp h).symm, hlong⟩
  · cases h

/-- A hunk header fails with a `PatchError`, or on a numeral that makes the line long. -/
theorem hunkHeader_eq_error {line : Text} {e : Exc} (h : hunkHeader line = .error e) :
    (∃ error, e = .patch error) ∨
      e = .value ∧ startswith line "@@ -" = true ∧ maxStrDigits < line.length := by
  rw [hunkHeader] at h
  split at h
  · exact Or.inl ⟨_, (throw_eq_error.mp h).symm⟩
  rename_i oldStart oldCount newStart newCount hmatch
  obtain ⟨⟨heading, rfl⟩, -⟩ := matchHunk_eq_some.mp hmatch
  have hcount : ∀ count : Option Text, (count.getD "1".toList).length ≤
      (DiffHeader.count count).length + 1 := by
    intro count
    cases count with
    | none => exact (by decide : "1".toList.length ≤ 1)
    | some digits =>
      rw [Option.getD_some, DiffHeader.count, List.length_append]
      omega
  have hstart : startswith (DiffHeader.text ⟨oldStart, oldCount, newStart, newCount, heading⟩)
      "@@ -" = true := startswith_iff.mpr ⟨_, rfl⟩
  have hfixed : "@@ -".toList.length = 4 := rfl
  have holdCount := hcount oldCount
  have hnewCount := hcount newCount
  simp only [bind_eq_error, DiffHeader.text, List.length_append] at h hstart ⊢
  rcases h with h | ⟨_, _, h | ⟨_, _, h | ⟨_, _, h | ⟨_, _, h⟩⟩⟩⟩
  · obtain ⟨rfl, hlong⟩ := int_eq_error h
    exact Or.inr ⟨rfl, hstart, by omega⟩
  · obtain ⟨rfl, hlong⟩ := int_eq_error h
    exact Or.inr ⟨rfl, hstart, by omega⟩
  · obtain ⟨rfl, hlong⟩ := int_eq_error h
    exact Or.inr ⟨rfl, hstart, by omega⟩
  · obtain ⟨rfl, hlong⟩ := int_eq_error h
    exact Or.inr ⟨rfl, hstart, by omega⟩
  · split at h
    · exact Or.inl ⟨_, (throw_eq_error.mp h).symm⟩
    · cases h

theorem readHunk_suffix {lines rest : List Text} {oldCount newCount : Nat} {hunk : Hunk}
    {body : List Bytes} (h : readHunk lines oldCount newCount = .ok (hunk, body, rest)) :
    rest <:+ lines := (readHunk_lines (P := fun _ => True) h fun _ _ _ _ _ => ⟨trivial, trivial⟩).2

/-- The hunk loop raises what a hunk header raises, or a `PatchError`. -/
theorem readHunks_eq_error {fuel : Nat} {lines : List Text} {previousOld previousNew : Nat}
    {e : Exc} (h : readHunks fuel lines previousOld previousNew = .error e) :
    (∃ error, e = .patch error) ∨ ∃ line ∈ lines, hunkHeader line = .error e := by
  induction fuel generalizing lines previousOld previousNew with
  | zero =>
    cases lines with
    | nil => cases h
    | cons line rest => exact Or.inl ⟨_, (throw_eq_error.mp h).symm⟩
  | succ fuel ih =>
    cases lines with
    | nil => cases h
    | cons line rest =>
      simp only [readHunks, bind_eq_error] at h
      rcases h with h | ⟨header, -, h⟩
      · exact Or.inr ⟨line, List.mem_cons_self, h⟩
      split at h
      · exact Or.inl ⟨_, (throw_eq_error.mp h).symm⟩
      simp only [bind_eq_error, mapError_eq_error, mapError_eq_ok, Prod.exists] at h
      rcases h with ⟨error, -, rfl⟩ | ⟨record, body, rest', hread, h | ⟨_, _, h⟩⟩
      · exact Or.inl ⟨_, rfl⟩
      · rcases ih h with hpatch | ⟨line', hmem, hline⟩
        · exact Or.inl hpatch
        · exact Or.inr ⟨line',
            List.mem_cons_of_mem _ ((readHunk_suffix hread).subset hmem), hline⟩
      · cases h

/-- `parse` raises a `PatchError`, unless a line of the diff holds a long numeral. -/
theorem parse_eq_error {fromstring : Fromstring} {raw : Bytes} {target : Text} {e : Exc}
    (h : parse fromstring raw target = .error e) : (∃ error, e = .patch error) ∨
      e = .value ∧ ∃ t crlf, text raw maxPatchBytes = .ok (t, crlf) ∧ t.getLast? = some '\n' ∧
        ∃ line ∈ t.dropLast.splitOn '\n', startswith line "@@ -" = true ∧
          maxStrDigits < line.length := by
  simp only [parse, bind_eq_error, mapError_eq_error, mapError_eq_ok, Prod.exists] at h
  rcases h with ⟨error, -, rfl⟩ | ⟨target', -, ⟨error, -, rfl⟩ | ⟨t, crlf, ht, h⟩⟩
  · exact Or.inl ⟨_, rfl⟩
  · exact Or.inl ⟨_, rfl⟩
  split at h
  · exact Or.inl ⟨_, (throw_eq_error.mp h).symm⟩
  rename_i hlast
  simp only [bind_eq_error, mapError_eq_error, mapError_eq_ok] at h
  rcases h with ⟨error, -, rfl⟩ | ⟨index, -, h | ⟨records, -, h⟩⟩
  · exact Or.inl ⟨_, rfl⟩
  · rcases readHunks_eq_error h with hpatch | ⟨line, hmem, hline⟩
    · exact Or.inl hpatch
    rcases hunkHeader_eq_error hline with hpatch | ⟨hvalue, hstart, hlong⟩
    · exact Or.inl hpatch
    · exact Or.inr ⟨hvalue, t, crlf, ht, not_not.mp hlast, line, List.mem_of_mem_drop hmem, hstart, hlong⟩
  · split at h
    · exact Or.inl ⟨_, (throw_eq_error.mp h).symm⟩
    simp only [bind_eq_error, mapError_eq_error, mapError_eq_ok] at h
    rcases h with ⟨error, -, rfl⟩ | ⟨_, _, h⟩
    · exact Or.inl ⟨_, rfl⟩
    · cases h

end Hapatchy.PatchEngine
