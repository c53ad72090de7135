import Hapatchy.SafeIo.Specs
import Hapatchy.SourceGraph

/-!
# Two path grammars

A patch target passes `relative_parts`, and `protects` reads it with `_parts`.
The second grammar refuses all control characters, the first only four of them.
-/

namespace Hapatchy

/-! ## The grammars -/

/-- What `_parts` makes of a path that `relative_parts` accepts. -/
theorem sourceParts_of_relativeParts {path : Text} {internal : Bool} {parts : List Text}
    (h : relativeParts path internal = .ok parts) :
    sourceParts path = if path.any (·.toNat < 32) then none else some parts := by
  have hparts := relativeParts_ok h
  rw [relativeParts] at h
  split at h
  · cases h
  rename_i hlexical
  simp only [Bool.or_eq_true, not_or, Bool.not_eq_true, List.any_eq_false, decide_eq_true_eq] at hlexical
  obtain ⟨hnames, hchars⟩ := hlexical
  rw [← hparts] at hnames
  have hempty : ([] : Text) ∉ parts := fun hmem => hnames _ hmem List.mem_cons_self
  have hne : path ≠ [] := by
    rintro rfl
    rw [hparts] at hempty
    exact hempty List.mem_cons_self
  have hhead : path.head? ≠ some '/' := by
    intro hhead
    obtain ⟨rest, rfl⟩ := List.head?_eq_some_iff.mp hhead
    rw [hparts, List.splitOn_cons_eq_if_modifyHead] at hempty
    exact hempty (by simp)
  have hbackslash : '\\' ∉ path := by
    intro hmem
    refine Bool.false_ne_true (hchars.symm.trans ?_)
    exact List.any_eq_true.mpr ⟨'\\', List.mem_cons_self, decide_eq_true hmem⟩
  have hnone : parts.any (· ∈ ["".toList, ".".toList, "..".toList]) = false := by
    simpa using hnames
  unfold sourceParts
  simp only [← hparts, hne, hhead, hbackslash, hnone, false_or, Bool.false_eq_true, or_false]

namespace SourceGraph

variable (graph : SourceGraph)

/-- A scanned source, a secret candidate, or something in a scanned include directory. -/
def Covers (parts : Path) : Prop :=
  parts ∈ graph.sources.map SourceFile.path ∨ parts ∈ graph.secretCandidates ∨
    ∃ scope ∈ graph.directories, scope.path <+: parts

instance (parts : Path) : Decidable (graph.Covers parts) := inferInstanceAs (Decidable (_ ∨ _ ∨ _))

variable {graph}

theorem protects_of_sourceParts {path : Text} {parts : Path} (h : sourceParts path = some parts) :
    graph.protects path = true ↔ graph.Covers parts := by
  unfold protects Covers
  simp only [h, Bool.or_eq_true, decide_eq_true_eq, List.any_eq_true, or_assoc]
  refine or_congr_right (or_congr_right (exists_congr fun scope => and_congr_right fun _ => ?_))
  rw [List.prefix_iff_eq_take, eq_comm]

/-- A target path without control characters is protected exactly where the graph covers it. One
with a control character is never protected. -/
theorem protects_iff_covers_iff {path : Text} {internal : Bool} {parts : List Text}
    (h : relativeParts path internal = .ok parts) :
    (graph.protects path = true ↔ graph.Covers parts) ↔
      (∀ c ∈ path, 32 ≤ c.toNat) ∨ ¬ graph.Covers parts := by
  have hsource := sourceParts_of_relativeParts h
  by_cases hcontrol : path.any (·.toNat < 32) = true
  · rw [if_pos hcontrol] at hsource
    have hnot : ¬ ∀ c ∈ path, 32 ≤ c.toNat := by
      obtain ⟨c, hc, hlt⟩ := List.any_eq_true.mp hcontrol
      intro hall
      have hge := hall c hc
      have hlt := of_decide_eq_true hlt
      omega
    have hprotects : graph.protects path = false := by
      unfold protects
      rw [hsource]
    simp only [hprotects, Bool.false_eq_true, false_iff, hnot, false_or]
  · rw [if_neg hcontrol] at hsource
    have hall : ∀ c ∈ path, 32 ≤ c.toNat := by
      intro c hc
      by_contra hlt
      exact hcontrol (List.any_eq_true.mpr ⟨c, hc, decide_eq_true (Nat.lt_of_not_le hlt)⟩)
    exact iff_of_true (protects_of_sourceParts hsource) (Or.inl hall)

/-- The graph of a configuration with `packages: !include_dir_named packages`. -/
def packagesGraph : SourceGraph where
  sources := [⟨["configuration.yaml".toList], 1, 0o644, 40, 0, 0, []⟩]
  directories := [⟨["packages".toList], 2, 0o755, []⟩]
  secretCandidates := []
  grantSources := [["configuration.yaml".toList]]

theorem protects_iff_covers_packages :
    (packagesGraph.protects "packages/new.yaml".toList = true ↔
      packagesGraph.Covers ["packages".toList, "new.yaml".toList]) ↔
    (∀ c ∈ "packages/new.yaml".toList, 32 ≤ c.toNat) ∨
      ¬ packagesGraph.Covers ["packages".toList, "new.yaml".toList] :=
  have hparts : relativeParts "packages/new.yaml".toList =
      .ok ["packages".toList, "new.yaml".toList] := by decide +kernel
  protects_iff_covers_iff hparts

/-- A file below `packages` whose name is a control character is not protected. -/
theorem not_protects_control :
    relativeParts "packages/\x01".toList = .ok ["packages".toList, "\x01".toList] ∧
      ¬ (packagesGraph.protects "packages/\x01".toList = true ↔
        packagesGraph.Covers ["packages".toList, "\x01".toList]) := by
  decide +kernel

end SourceGraph

end Hapatchy
