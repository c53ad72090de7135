import Hapatchy.PathPolicy
import Hapatchy.SourceGraph

/-!
# Frozen grants

`yaml_policy.py` after startup: the grants are those of the boot, and they hold
as long as a fresh scan gives the authority of the boot graph.
-/

open Effects Prog

namespace Hapatchy

structure YamlPolicy where
  hapatchyFiles : List Text
  haExplicitDirectories : List Path
  graph : SourceGraph

/-- What YAML setup has published: `YamlPolicy` or `DeniedYamlPolicy`. -/
inductive LoadedGrants where
  | yaml (policy : YamlPolicy)
  | denied (reason : AuthorityReason)

/-- `check_current`, given what `scan_source_graph` returns, with `none` for its exceptions. -/
def LoadedGrants.checkCurrent (scan : Option SourceGraph) : LoadedGrants → Option AuthorityReason
  | .yaml policy =>
    match scan with
    | none => some ⟨.configurationSourceUnavailable, by decide⟩
    | some current =>
      if !current.sameAuthorityAs policy.graph then some ⟨.configurationSourceChanged, by decide⟩
      else none
  | .denied reason => some reason

/-- The `PathPolicy` of `policy_for_hass`. -/
def LoadedGrants.pathPolicy (root : Path) : LoadedGrants → PathPolicy
  | .yaml policy => ⟨root, policy.hapatchyFiles, policy.haExplicitDirectories, policy.graph.protects⟩
  | .denied _ => ⟨root, [], [], fun _ => false⟩

/-- The YAML sources as a fresh scan sees them at each call. -/
def Env.withGrants (env : Env) (grants : LoadedGrants) (scan : Nat → Option SourceGraph) : Env :=
  { env with checkCurrent := fun n => grants.checkCurrent (scan n) }

/-! ## What a check has seen -/

/-- `path` lies outside the directories that HAPatchY keeps to itself. -/
def Outside (path : Text) : Prop :=
  ∀ own ∈ [[".storage".toList], [".hapatchy".toList], ["custom_components".toList, "hapatchy".toList]],
    ¬ own <+: path.splitOn '/'

/-- The file at `path` may be written. -/
structure YamlPolicy.GrantsFile (policy : YamlPolicy) (root : Path) (allowed : Path → Bool)
    (path : Text) : Prop where
  granted : path ∈ policy.hapatchyFiles
  components : 2 ≤ (path.splitOn '/').length
  notYaml : ∀ suffix ∈ [".yaml".toList, ".yml".toList], ¬ suffix <:+ path.map Char.toLower
  outside : Outside path
  unprotected : policy.graph.protects path = false
  explicit : ∃ directory ∈ policy.haExplicitDirectories,
    directory <+: root ++ path.splitOn '/' ∧ directory.length < (root ++ path.splitOn '/').length
  allowed : allowed (root ++ path.splitOn '/') = true

/-- The directory at `path` may be watched. -/
structure YamlPolicy.GrantsDirectory (policy : YamlPolicy) (root : Path) (allowed : Path → Bool)
    (path : Text) : Prop where
  granted : ∃ file ∈ policy.hapatchyFiles, path.splitOn '/' <+: file.splitOn '/' ∧
    (path.splitOn '/').length < (file.splitOn '/').length
  outside : Outside path
  unprotected : policy.graph.protects path = false
  explicit : ∃ directory ∈ policy.haExplicitDirectories, directory <+: root ++ path.splitOn '/'
  allowed : allowed (root ++ path.splitOn '/') = true

/-- Everything that `check_definition` asks, from call `n` on. -/
structure Authorized (env : Env) (grants : LoadedGrants) (root : Path) (scan : Nat → Option SourceGraph)
    (definition : PatchDefinition) (n : Nat) (policy : YamlPolicy) : Prop where
  frozen : grants = .yaml policy
  current : ∃ graph, scan n = some graph ∧ graph.sameAuthorityAs policy.graph = true
  target : policy.GrantsFile root (env.haAllowed (n + 1)) definition.targetPath
  watchRoot : policy.GrantsDirectory root (env.haAllowed (n + 2)) definition.watchRoot

theorem outside_of_relativeParts {path : Text} {parts : List Text}
    (h : relativeParts path = .ok parts) : Outside path := by
  rw [relativeParts] at h
  split at h
  · cases h
  split at h
  · cases h
  rename_i hprotected
  rw [Bool.not_false, Bool.true_and, Bool.or_eq_true, decide_eq_true_eq, decide_eq_true_eq,
    not_or] at hprotected
  rintro own hown ⟨rest, hrest⟩
  rw [← hrest] at hprotected
  rcases List.mem_cons.mp hown with rfl | hown
  · exact hprotected.1 List.mem_cons_self
  rcases List.mem_cons.mp hown with rfl | hown
  · exact hprotected.1 (List.mem_cons_of_mem _ List.mem_cons_self)
  · rw [List.mem_singleton] at hown
    subst hown
    exact hprotected.2 rfl

theorem contained_iff {parts directory : Path} {equal : Bool} :
    PathPolicy.contained parts directory equal = true ↔
      directory <+: parts ∧ (equal = true ∨ directory.length < parts.length) := by
  rw [PathPolicy.contained, Bool.and_eq_true, Bool.or_eq_true, decide_eq_true_eq, decide_eq_true_eq,
    List.prefix_iff_eq_take, eq_comm]

/-! ## A check that succeeds -/

section Checks

variable {env : Env} {grants : LoadedGrants} {root : Path} {scan : Nat → Option SourceGraph}
  {policy : YamlPolicy} {w w' : World} {path : Text}

theorem haAllowed_ok {p : Path} {allowed : Bool}
    (h : PathPolicy.haAllowed env p w = (.ok allowed, w')) :
    allowed = env.haAllowed w.step p ∧ w' = arrive env w := by
  cases h
  exact ⟨rfl, rfl⟩

/-- The checks of a path, up to the live one. -/
theorem checkPath_ok {directory : Bool} {policy : PathPolicy} {u : Unit}
    (h : policy.checkPath env path directory w = (.ok u, w')) :
    (Outside path ∧ (directory = false → checkNonYamlFile path = .ok ()) ∧
      (directory = false → (path.splitOn '/').length ≠ 1) ∧ policy.protects path = false ∧
      (if directory then policy.hapatchyFiles.any fun file =>
          PathPolicy.contained (file.splitOn '/') (path.splitOn '/') false
        else decide (path ∈ policy.hapatchyFiles)) = true ∧
      (policy.haExplicitDirectories.any fun grant =>
        PathPolicy.contained (policy.root ++ path.splitOn '/') grant directory) = true ∧
      env.haAllowed w.step (policy.root ++ path.splitOn '/') = true) ∧ w' = arrive env w := by
  unfold PathPolicy.checkPath at h
  obtain ⟨parts, t, hlift, hrest⟩ := bind_ok_iff.mp h
  clear h
  obtain ⟨hparts, rfl⟩ := ofPatch_ok hlift
  have houtside := outside_of_relativeParts hparts
  obtain rfl := relativeParts_ok hparts
  obtain ⟨_, t', hlift', h⟩ := bind_ok_iff.mp hrest
  clear hrest
  obtain ⟨hyaml, rfl⟩ := ofPatch_ok hlift'
  have hraise : ∀ {reason status} {t t' : World} {v : Unit},
      (raisePatch reason status : Io Unit) t ≠ (.ok v, t') := fun h => by
    cases (raise_eq_iff.mp h).1
  split at h
  · exact absurd h hraise
  rename_i hprotected
  cases hauthorized : (if directory then policy.hapatchyFiles.any fun file =>
      PathPolicy.contained (file.splitOn '/') (path.splitOn '/') false
    else decide (path ∈ policy.hapatchyFiles)) with
  | false =>
    simp only [hauthorized] at h
    exact absurd h hraise
  | true =>
    simp only [hauthorized] at h
    cases hexplicit : policy.haExplicitDirectories.any fun grant =>
        PathPolicy.contained (policy.root ++ path.splitOn '/') grant directory with
    | false =>
      simp only [hexplicit] at h
      exact absurd h hraise
    | true =>
      simp only [hexplicit] at h
      obtain ⟨allowed, t'', hallowed, h⟩ := bind_ok_iff.mp h
      obtain ⟨hlive, rfl⟩ := haAllowed_ok hallowed
      cases allowed with
      | false => exact absurd h hraise
      | true =>
        obtain ⟨-, rfl⟩ := pure_eq_iff.mp h
        simp only [Bool.or_eq_true, Bool.and_eq_true, Bool.not_eq_true', decide_eq_true_eq, not_or,
          not_and, Bool.not_eq_true] at hprotected
        refine ⟨⟨houtside, fun hd => ?_, fun hd => hprotected.1 hd, hprotected.2, rfl, rfl,
          hlive.symm⟩, rfl⟩
        simpa [hd] using hyaml

theorem grantsFile_of_checkPath {u : Unit}
    (h : ((LoadedGrants.yaml policy).pathPolicy root).checkPath env path false w = (.ok u, w')) :
    policy.GrantsFile root (env.haAllowed w.step) path ∧ w' = arrive env w := by
  obtain ⟨⟨houtside, hyaml, hlength, hprotects, hgranted, hexplicit, hlive⟩, rfl⟩ := checkPath_ok h
  refine ⟨⟨of_decide_eq_true hgranted, ?_, ?_, houtside, hprotects, ?_, hlive⟩, rfl⟩
  · have hpos := List.length_pos_of_ne_nil (List.splitOn_ne_nil '/' path)
    have hne := hlength rfl
    omega
  · have hyaml := hyaml rfl
    rw [checkNonYamlFile] at hyaml
    split at hyaml
    · cases hyaml
    · rename_i hnot
      intro suffix hsuffix
      rcases List.mem_cons.mp hsuffix with rfl | hsuffix
      · exact fun h => hnot (Or.inl h)
      · rw [List.mem_singleton] at hsuffix
        subst hsuffix
        exact fun h => hnot (Or.inr h)
  · obtain ⟨directory, hmem, hcontained⟩ := List.any_eq_true.mp hexplicit
    obtain ⟨hpre, hstrict⟩ := contained_iff.mp hcontained
    exact ⟨directory, hmem, hpre, hstrict.resolve_left Bool.noConfusion⟩

theorem grantsDirectory_of_checkPath {u : Unit}
    (h : ((LoadedGrants.yaml policy).pathPolicy root).checkPath env path true w = (.ok u, w')) :
    policy.GrantsDirectory root (env.haAllowed w.step) path ∧ w' = arrive env w := by
  obtain ⟨⟨houtside, -, -, hprotects, hgranted, hexplicit, hlive⟩, rfl⟩ := checkPath_ok h
  refine ⟨⟨?_, houtside, hprotects, ?_, hlive⟩, rfl⟩
  · obtain ⟨file, hmem, hcontained⟩ := List.any_eq_true.mp hgranted
    obtain ⟨hpre, hstrict⟩ := contained_iff.mp hcontained
    exact ⟨file, hmem, hpre, hstrict.resolve_left Bool.noConfusion⟩
  · obtain ⟨directory, hmem, hcontained⟩ := List.any_eq_true.mp hexplicit
    exact ⟨directory, hmem, (contained_iff.mp hcontained).1⟩

/-- A check that succeeds makes three calls, and each of them grants its part. -/
theorem checkDefinition_ok {definition : PatchDefinition} {u : Unit}
    (h : (grants.pathPolicy root).checkDefinition (env.withGrants grants scan) definition w =
      (.ok u, w')) :
    (∃ policy, Authorized env grants root scan definition w.step policy) ∧
      w'.log = w.log ++ [.call, .call, .call, .checked definition] := by
  obtain ⟨_, t₁, hcurrent, h⟩ := bind_ok_iff.mp h
  obtain ⟨_, t₂, htarget, h⟩ := bind_ok_iff.mp h
  obtain ⟨_, t₃, hwatch, h⟩ := bind_ok_iff.mp h
  obtain ⟨-, rfl⟩ := change_eq_iff.mp h
  have hscan : grants.checkCurrent (scan w.step) = none ∧ t₁ = arrive (env.withGrants grants scan) w := by
    unfold PathPolicy.checkCurrent at hcurrent
    split at hcurrent
    · cases hcurrent
    · rename_i hnone
      cases hcurrent
      exact ⟨hnone, rfl⟩
  obtain ⟨hscan, rfl⟩ := hscan
  have hstep : ∀ t, (arrive (env.withGrants grants scan) t).step = t.step + 1 := by
    intro t
    rw [arrive]
    split <;> rfl
  cases grants with
  | denied reason => cases hscan
  | yaml policy =>
    obtain ⟨hfile, rfl⟩ := grantsFile_of_checkPath htarget
    obtain ⟨hdirectory, rfl⟩ := grantsDirectory_of_checkPath hwatch
    rw [hstep] at hfile
    rw [hstep, hstep] at hdirectory
    refine ⟨⟨policy, rfl, ?_, hfile, hdirectory⟩, ?_⟩
    · simp only [LoadedGrants.checkCurrent] at hscan
      split at hscan
      · cases hscan
      · rename_i graph hgraph
        refine ⟨graph, hgraph, ?_⟩
        split at hscan
        · cases hscan
        · rename_i hsame
          simpa using hsame
    · simp only [arrive_log, List.append_assoc]
      rfl

end Checks

end Hapatchy
