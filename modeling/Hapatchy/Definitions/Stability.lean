import Hapatchy.Definitions
import Hapatchy.SafeIo.Specs

/-!
# Definitions that are stored

A definition that `from_mapping` has made reads back as itself, so what the
runtime stores leaves it and the entry equal.
-/

namespace Hapatchy

/-! ## Fields -/

namespace PatchDefinition

variable {libraries : Libraries} {patchId : Text} {data : Dict Text Value}
  {definition : PatchDefinition}

theorem refuse_ne_ok {α : Type} {reason : Reason} {status : Status} {a : α} :
    (refuse reason status : Except MappingError α) ≠ .ok a := by
  unfold refuse
  simp

theorem required_eq_ok {field : String} {t : Text} (h : required data field = .ok t) :
    getField data field = .string t ∧ t.all isSpace = false := by
  unfold required at h
  split at h
  · rename_i value hvalue
    split at h
    · exact absurd h refuse_ne_ok
    · rename_i hblank
      cases Results.pure_eq_ok.mp h
      exact ⟨hvalue, Bool.eq_false_iff.mpr hblank⟩
  · exact absurd h refuse_ne_ok

theorem required_of_string {field : String} {t : Text} (h : getField data field = .string t)
    (hblank : t.all isSpace = false) : required data field = .ok t := by
  unfold required
  rw [h]
  simp only [hblank, Bool.false_eq_true, if_false]
  rfl

theorem booleanFlag_of_bool {key : String} {b : Bool}
    (h : data.lookup key.toList = some (.bool b)) : booleanFlag data key = .ok b := by
  unfold booleanFlag
  rw [h]
  rfl

theorem debounce_eq_ok {value : Value} {seconds : Rat} (h : debounce value = .ok seconds) :
    minDebounce ≤ seconds ∧ seconds ≤ 60 := by
  unfold debounce at h
  split at h
  · split at h
    · rename_i hrange
      cases Results.pure_eq_ok.mp h
      exact hrange
    · exact absurd h refuse_ne_ok
  · split at h
    · exact absurd h Results.throw_ne_ok
    · split at h
      · rename_i hrange
        cases Results.pure_eq_ok.mp h
        exact hrange
      · exact absurd h refuse_ne_ok
  · exact absurd h refuse_ne_ok

theorem debounce_of_range {seconds : Rat} (h : minDebounce ≤ seconds ∧ seconds ≤ 60) :
    debounce (.float (some seconds)) = .ok seconds := if_pos h

theorem le_of_isAnyHex {c : Char} (h : (isHex c || ('A' ≤ c && c ≤ 'F')) = true) :
    c.toNat < 128 := by
  simp only [isHex, Bool.or_eq_true, Bool.and_eq_true, decide_eq_true_eq, Char.le_def,
    UInt32.le_iff_toNat_le] at h
  change c.val.toNat < 128
  have h9 : ('9' : Char).val.toNat = 57 := rfl
  have hf : ('f' : Char).val.toNat = 102 := rfl
  have hF : ('F' : Char).val.toNat = 70 := rfl
  omega

theorem isHex_toLower {c : Char} (h : (isHex c || ('A' ≤ c && c ≤ 'F')) = true) :
    isHex c.toLower = true := by
  have hall : ∀ n < 128, (isHex (Char.ofNat n) || ('A' ≤ Char.ofNat n && Char.ofNat n ≤ 'F')) = true →
      isHex (Char.ofNat n).toLower = true := by decide +kernel
  have hc := hall c.toNat (le_of_isAnyHex h)
  rw [Char.ofNat_toNat] at hc
  exact hc h

theorem isDigest_toLower {t : Text} (h : isAnyDigest t = true) :
    isDigest (t.map Char.toLower) = true := by
  unfold isAnyDigest at h
  unfold isDigest
  rw [Bool.and_eq_true, decide_eq_true_eq, List.all_eq_true] at h
  rw [List.length_map, Bool.and_eq_true, decide_eq_true_eq, List.all_map, List.all_eq_true]
  exact ⟨h.1, fun c hc => isHex_toLower (h.2 c hc)⟩

theorem toLower_of_isHex {c : Char} (h : isHex c = true) : c.toLower = c := by
  have hall : ∀ n < 128, isHex (Char.ofNat n) = true → (Char.ofNat n).toLower = Char.ofNat n := by
    decide +kernel
  have hc := hall c.toNat (le_of_isAnyHex (by rw [h, Bool.true_or]))
  rw [Char.ofNat_toNat] at hc
  exact hc h

/-- A lower-case digest is taken as it is. -/
theorem sourceDigest_of_isDigest {t : Text} (h : isDigest t = true) :
    sourceDigest (.string t) = .ok (some t) := by
  unfold isDigest at h
  rw [Bool.and_eq_true, decide_eq_true_eq, List.all_eq_true] at h
  have hne : t ≠ [] := by
    rintro rfl
    exact absurd h.1 (by decide)
  have hany : isAnyDigest t = true := by
    unfold isAnyDigest
    rw [Bool.and_eq_true, decide_eq_true_eq, List.all_eq_true]
    exact ⟨h.1, fun c hc => by rw [h.2 c hc, Bool.true_or]⟩
  have hlower : t.map Char.toLower = t :=
    (List.map_congr_left fun c hc => toLower_of_isHex (h.2 c hc)).trans (List.map_id' t)
  unfold sourceDigest
  simp [Value.truthy, hne, hany, hlower, pure, Except.pure]

theorem sourceDigest_eq_ok {value : Value} {digest : Option Text}
    (h : sourceDigest value = .ok digest) : ∀ t ∈ digest, isDigest t = true := by
  unfold sourceDigest at h
  split at h
  · cases Results.pure_eq_ok.mp h
    nofun
  · split at h
    · split at h
      · rename_i hany
        cases Results.pure_eq_ok.mp h
        intro t ht
        cases ht
        exact isDigest_toLower hany
      · exact absurd h refuse_ne_ok
    · exact absurd h refuse_ne_ok

theorem watchPatternOr_eq_ok {relative pattern : Text} {value : Value} (hrelative : relative ≠ [])
    (h : watchPatternOr relative value = .ok pattern) : pattern ≠ [] := by
  unfold watchPatternOr at h
  split at h
  · cases Results.pure_eq_ok.mp h
    exact hrelative
  · rename_i htruthy
    split at h
    · cases Results.pure_eq_ok.mp h
      simpa [Value.truthy] using htruthy
    · exact absurd h refuse_ne_ok

theorem watchPatternOr_of_string {relative pattern : Text} (h : pattern ≠ []) :
    watchPatternOr relative (.string pattern) = .ok pattern := by
  unfold watchPatternOr
  simp [Value.truthy, h, pure, Except.pure]

/-! ## Accepted definitions -/

/-- The paths of a definition, as the checks of `from_mapping` leave them. -/
structure Paths (libraries : Libraries) (definition : PatchDefinition) (target root : List Text) :
    Prop where
  targetParts : relativeParts definition.targetPath = .ok target
  rootParts : relativeParts definition.watchRoot = .ok root
  below : target.take root.length = root
  longer : root.length < target.length
  matched : libraries.matchAnyPaths (['/'].intercalate (target.drop root.length))
    definition.watchPattern = true
  source : validateSource libraries definition.sourceType definition.source target = .ok ()

/-- What `from_mapping` has checked, whatever the identifier and the flags are. -/
structure Accepted (libraries : Libraries) (definition : PatchDefinition) : Prop where
  name : definition.name.all isSpace = false
  targetPath : definition.targetPath.all isSpace = false
  watchRoot : definition.watchRoot.all isSpace = false
  sourceType : definition.sourceType.all isSpace = false
  source : definition.source.all isSpace = false
  pattern : definition.watchPattern ≠ []
  paths : ∃ target root, Paths libraries definition target root
  seconds : minDebounce ≤ definition.debounceSeconds ∧ definition.debounceSeconds ≤ 60
  digest : ∀ t ∈ definition.sourceSha256, isDigest t = true

theorem ne_nil_of_relativeParts {path : Text} {internal : Bool} {parts : List Text}
    (h : relativeParts path internal = .ok parts) : [] ∉ parts := by
  have hparts := relativeParts_ok h
  rw [relativeParts] at h
  split at h
  · cases h
  · rename_i hlexical
    rw [← hparts] at hlexical
    simp only [Bool.or_eq_true, not_or, List.any_eq_true, not_exists, not_and] at hlexical
    exact fun hmem => hlexical.1 _ hmem rfl

theorem intercalate_ne_nil {parts : List Text} (hparts : parts ≠ []) (hne : [] ∉ parts) :
    ['/'].intercalate parts ≠ [] := by
  match parts, hparts with
  | [part], _ =>
    have hpart : part ≠ [] := fun h => hne (h ▸ List.mem_cons_self)
    simpa using hpart
  | part :: next :: rest, _ => simp [List.intercalate]

theorem Paths.relative_ne_nil {target root : List Text} (h : Paths libraries definition target root) :
    ['/'].intercalate (target.drop root.length) ≠ [] := by
  have hlonger := h.longer
  apply intercalate_ne_nil
  · intro hnil
    rw [List.drop_eq_nil_iff] at hnil
    omega
  · exact fun hmem => ne_nil_of_relativeParts h.targetParts (List.mem_of_mem_drop hmem)

/-- What `from_mapping` accepts. -/
theorem accepted_of_fromMapping (h : fromMapping libraries patchId data = .ok definition) :
    Accepted libraries definition ∧ definition.patchId = patchId := by
  unfold fromMapping at h
  obtain ⟨name, hname, h⟩ := Results.bind_eq_ok.mp h
  obtain ⟨targetPath, htargetPath, h⟩ := Results.bind_eq_ok.mp h
  obtain ⟨watchRoot, hwatchRoot, h⟩ := Results.bind_eq_ok.mp h
  obtain ⟨sourceType, hsourceType, h⟩ := Results.bind_eq_ok.mp h
  obtain ⟨source, hsource, h⟩ := Results.bind_eq_ok.mp h
  obtain ⟨target, htarget, h⟩ := Results.bind_eq_ok.mp h
  obtain ⟨root, hroot, h⟩ := Results.bind_eq_ok.mp h
  split at h
  · exact absurd h refuse_ne_ok
  rename_i hbelow
  rw [not_or, not_not, not_le] at hbelow
  obtain ⟨pattern, hpattern, h⟩ := Results.bind_eq_ok.mp h
  split at h
  · exact absurd h refuse_ne_ok
  rename_i hmatched
  rw [Bool.not_eq_true', Bool.not_eq_false] at hmatched
  obtain ⟨_, hvalid, h⟩ := Results.bind_eq_ok.mp h
  obtain ⟨enabled, -, h⟩ := Results.bind_eq_ok.mp h
  obtain ⟨autoApply, -, h⟩ := Results.bind_eq_ok.mp h
  obtain ⟨reconcileOnStartup, -, h⟩ := Results.bind_eq_ok.mp h
  obtain ⟨backupBeforeApply, -, h⟩ := Results.bind_eq_ok.mp h
  obtain ⟨seconds, hseconds, h⟩ := Results.bind_eq_ok.mp h
  obtain ⟨digest, hdigest, h⟩ := Results.bind_eq_ok.mp h
  cases Results.pure_eq_ok.mp h
  have hpaths : Paths libraries (PatchDefinition.mk patchId name targetPath watchRoot pattern sourceType
      source enabled autoApply reconcileOnStartup backupBeforeApply seconds digest) target root :=
    ⟨Results.mapError_eq_ok.mp htarget, Results.mapError_eq_ok.mp hroot, hbelow.1, hbelow.2, hmatched,
      hvalid⟩
  exact ⟨⟨(required_eq_ok hname).2, (required_eq_ok htargetPath).2, (required_eq_ok hwatchRoot).2,
    (required_eq_ok hsourceType).2, (required_eq_ok hsource).2,
    watchPatternOr_eq_ok hpaths.relative_ne_nil hpattern, ⟨target, root, hpaths⟩,
    debounce_eq_ok hseconds, sourceDigest_eq_ok hdigest⟩, rfl⟩

/-- Such a definition reads back as itself, under any identifier. -/
theorem Accepted.fromMapping_asdict (h : Accepted libraries definition) (patchId : Text) :
    fromMapping libraries patchId definition.asdict =
      .ok { definition with patchId := patchId } := by
  obtain ⟨target, root, hpaths⟩ := h.paths
  have hbelow : ¬ (target.take root.length ≠ root ∨ target.length ≤ root.length) := by
    have hlonger := hpaths.longer
    rw [not_or, not_not, not_le]
    exact ⟨hpaths.below, hlonger⟩
  have hdigest : sourceDigest (getField definition.asdict "source_sha256") =
      .ok definition.sourceSha256 := by
    change sourceDigest ((definition.sourceSha256.map Value.string).getD .none) = _
    cases hsha : definition.sourceSha256 with
    | none => rfl
    | some digest => exact sourceDigest_of_isDigest (h.digest digest hsha)
  have hseconds : debounce ((definition.asdict.lookup "debounce_seconds".toList).getD
      (.float (some (3 / 2)))) = .ok definition.debounceSeconds := debounce_of_range h.seconds
  have hname : required definition.asdict "name" = .ok definition.name :=
    required_of_string rfl h.name
  have htargetPath : required definition.asdict "target_path" = .ok definition.targetPath :=
    required_of_string rfl h.targetPath
  have hwatchRoot : required definition.asdict "watch_root" = .ok definition.watchRoot :=
    required_of_string rfl h.watchRoot
  have hsourceType : required definition.asdict "source_type" = .ok definition.sourceType :=
    required_of_string rfl h.sourceType
  have hsource : required definition.asdict "source" = .ok definition.source :=
    required_of_string rfl h.source
  have hpattern : ∀ relative, watchPatternOr relative (getField definition.asdict "watch_pattern") =
      .ok definition.watchPattern := fun _ => watchPatternOr_of_string h.pattern
  have henabled : booleanFlag definition.asdict "enabled" = .ok definition.enabled :=
    booleanFlag_of_bool rfl
  have hautoApply : booleanFlag definition.asdict "auto_apply" = .ok definition.autoApply :=
    booleanFlag_of_bool rfl
  have hreconcile : booleanFlag definition.asdict "reconcile_on_startup" =
      .ok definition.reconcileOnStartup := booleanFlag_of_bool rfl
  have hbackup : booleanFlag definition.asdict "backup_before_apply" =
      .ok definition.backupBeforeApply := booleanFlag_of_bool rfl
  unfold fromMapping
  simp only [hname, htargetPath, hwatchRoot, hsourceType, hsource, hpaths.targetParts,
    hpaths.rootParts, hpattern, hpaths.matched, hpaths.source, henabled, hautoApply, hreconcile, hbackup,
    hseconds, hdigest, Except.mapError, bind, Except.bind, if_neg hbelow, Bool.not_true,
    Bool.false_eq_true, if_false]
  rfl

/-- Only the identifier, the flags and the sources of managed definitions may change. -/
theorem Accepted.withAutoApply (h : Accepted libraries definition) (autoApply : Bool) :
    Accepted libraries { definition with autoApply := autoApply } := by
  obtain ⟨target, root, hpaths⟩ := h.paths
  exact ⟨h.name, h.targetPath, h.watchRoot, h.sourceType, h.source, h.pattern, ⟨target, root,
    hpaths.targetParts, hpaths.rootParts, hpaths.below, hpaths.longer, hpaths.matched, hpaths.source⟩,
    h.seconds, h.digest⟩

theorem validateSource_managed {source : Text} {target : List Text} (h : isDigest source = true) :
    validateSource libraries "managed".toList source target = .ok () := by
  unfold validateSource
  rw [if_neg (by decide), if_pos rfl, if_pos h]
  rfl

theorem not_blank_of_isDigest {t : Text} (h : isDigest t = true) : t.all isSpace = false := by
  unfold isDigest at h
  rw [Bool.and_eq_true, decide_eq_true_eq, List.all_eq_true] at h
  have hall : ∀ n < 128, isHex (Char.ofNat n) = true → isSpace (Char.ofNat n) = false := by
    decide +kernel
  match t, h with
  | [], h => exact absurd h.1 (by decide)
  | c :: rest, h =>
    have hhex := h.2 c List.mem_cons_self
    have hc := hall c.toNat (le_of_isAnyHex (by rw [hhex, Bool.true_or]))
    rw [Char.ofNat_toNat] at hc
    rw [List.all_cons, hc hhex, Bool.false_and]

/-- A managed source has the digest of its contents as its name. -/
theorem Accepted.withSource (h : Accepted libraries definition) {digest : Text}
    (hmanaged : definition.sourceType = "managed".toList) (hdigest : isDigest digest = true) :
    Accepted libraries { definition with source := digest } := by
  obtain ⟨target, root, hpaths⟩ := h.paths
  refine ⟨h.name, h.targetPath, h.watchRoot, h.sourceType, not_blank_of_isDigest hdigest, h.pattern,
    ⟨target, root, hpaths.targetParts, hpaths.rootParts, hpaths.below, hpaths.longer, hpaths.matched,
      ?_⟩, h.seconds, h.digest⟩
  rw [hmanaged]
  exact validateSource_managed hdigest

end PatchDefinition

/-! ## The entry -/

namespace Subentry

variable {libraries : Libraries} {subentries : Dict Text Subentry}
  {definitions : Dict Text PatchDefinition} {patchId : Text} {subentry : Subentry}

/-- The definition of the patch `key` in the entry. -/
def read (libraries : Libraries) (subentries : Dict Text Subentry) (key : Text) :
    Option PatchDefinition :=
  (subentries.lookup key).bind fun subentry =>
    if subentry.isPatch then (subentry.definition libraries key).toOption else none

/-- All patches of the entry have definitions. -/
def Readable (libraries : Libraries) (subentries : Dict Text Subentry) : Prop :=
  ∀ key subentry, subentries.lookup key = some subentry → subentry.isPatch = true →
    ∃ definition, subentry.definition libraries key = .ok definition

theorem readAll_eq_ok {entries : List (Σ _ : Text, Subentry)}
    {read : List (Σ _ : Text, PatchDefinition)} (hnodup : entries.NodupKeys)
    (h : readAll libraries entries = .ok read) :
    (∀ entry ∈ entries, entry.2.isPatch = true →
      ∃ definition, entry.2.definition libraries entry.1 = .ok definition) ∧
    ∀ key, List.dlookup key read = (List.dlookup key entries).bind fun subentry =>
      if subentry.isPatch then (subentry.definition libraries key).toOption else none := by
  induction entries generalizing read with
  | nil =>
    cases Results.pure_eq_ok.mp h
    exact ⟨nofun, fun _ => rfl⟩
  | cons entry entries ih =>
    obtain ⟨id, subentry⟩ := entry
    obtain ⟨hnew, hnodup⟩ := List.nodupKeys_cons.mp hnodup
    unfold readAll at h
    split at h
    · rename_i hpatch
      obtain ⟨definition, hdefinition, h⟩ := Results.bind_eq_ok.mp h
      obtain ⟨rest, hrest, h⟩ := Results.bind_eq_ok.mp h
      cases Results.pure_eq_ok.mp h
      obtain ⟨hall, hlookup⟩ := ih hnodup hrest
      refine ⟨fun e he hp => ?_, fun key => ?_⟩
      · rcases List.mem_cons.mp he with rfl | he
        · exact ⟨definition, hdefinition⟩
        · exact hall e he hp
      · by_cases hkey : key = id
        · subst hkey
          simp only at hdefinition hpatch
          rw [List.dlookup_cons_eq, List.dlookup_cons_eq, Option.bind_some, if_pos hpatch, hdefinition]
          rfl
        · rw [List.dlookup_cons_ne _ _ hkey, List.dlookup_cons_ne _ _ hkey]
          exact hlookup key
    · rename_i hpatch
      obtain ⟨hall, hlookup⟩ := ih hnodup h
      refine ⟨fun e he hp => ?_, fun key => ?_⟩
      · rcases List.mem_cons.mp he with rfl | he
        · exact absurd hp hpatch
        · exact hall e he hp
      · by_cases hkey : key = id
        · subst hkey
          simp only at hpatch
          rw [hlookup, List.dlookup_eq_none.mpr hnew, List.dlookup_cons_eq, Option.bind_some,
            if_neg hpatch]
          rfl
        · rw [hlookup, List.dlookup_cons_ne _ _ hkey]

theorem exists_readAll {entries : List (Σ _ : Text, Subentry)}
    (h : ∀ entry ∈ entries, entry.2.isPatch = true →
      ∃ definition, entry.2.definition libraries entry.1 = .ok definition) :
    ∃ read, readAll libraries entries = .ok read := by
  induction entries with
  | nil => exact ⟨[], rfl⟩
  | cons entry entries ih =>
    obtain ⟨rest, hrest⟩ := ih fun e he => h e (List.mem_cons_of_mem _ he)
    unfold readAll
    split
    · rename_i hpatch
      obtain ⟨definition, hdefinition⟩ := h entry List.mem_cons_self hpatch
      exact ⟨⟨entry.1, definition⟩ :: rest, by simp only [hdefinition, hrest]; rfl⟩
    · exact ⟨rest, hrest⟩

theorem definitions_eq_ok (h : Subentry.definitions libraries subentries = .ok definitions) :
    Readable libraries subentries ∧ ∀ key, definitions.lookup key = read libraries subentries key := by
  unfold Subentry.definitions at h
  cases hread : readAll libraries subentries.entries with
  | error e =>
    rw [hread] at h
    cases h
  | ok entries =>
    rw [hread] at h
    cases h
    obtain ⟨hall, hlookup⟩ := readAll_eq_ok subentries.nodupKeys hread
    refine ⟨fun key subentry hfound hpatch => ?_, fun key => ?_⟩
    · exact hall ⟨key, subentry⟩ (AList.mem_lookup_iff.mp hfound) hpatch
    · rw [AList.lookup_to_alist]
      exact hlookup key

theorem exists_definitions (h : Readable libraries subentries) :
    ∃ definitions, Subentry.definitions libraries subentries = .ok definitions := by
  have hall : ∀ entry ∈ subentries.entries, entry.2.isPatch = true →
      ∃ definition, entry.2.definition libraries entry.1 = .ok definition :=
    fun entry hentry => h entry.1 entry.2 (AList.mem_lookup_iff.mpr hentry)
  obtain ⟨entries, hentries⟩ := exists_readAll hall
  exact ⟨entries.toAList, by unfold Subentry.definitions; rw [hentries]; rfl⟩

theorem Readable.insert (h : Readable libraries subentries) {definition : PatchDefinition}
    (hdefinition : subentry.definition libraries patchId = .ok definition) :
    Readable libraries (subentries.insert patchId subentry) := by
  intro key s hfound hpatch
  by_cases hkey : key = patchId
  · subst hkey
    rw [AList.lookup_insert, Option.some_inj] at hfound
    exact ⟨definition, hfound ▸ hdefinition⟩
  · rw [AList.lookup_insert_ne hkey] at hfound
    exact h key s hfound hpatch

theorem read_insert_self {definition : PatchDefinition} (hpatch : subentry.isPatch = true)
    (hdefinition : subentry.definition libraries patchId = .ok definition) :
    read libraries (subentries.insert patchId subentry) patchId = some definition := by
  unfold read
  rw [AList.lookup_insert, Option.bind_some, if_pos hpatch, hdefinition]
  rfl

theorem read_insert_of_ne {key : Text} (h : key ≠ patchId) :
    read libraries (subentries.insert patchId subentry) key = read libraries subentries key := by
  unfold read
  rw [AList.lookup_insert_ne h]

end Subentry

namespace PatchManagerRuntime

open PatchDefinition Subentry

variable {libraries : Libraries} {runtime : PatchManagerRuntime} {subentries : Dict Text Subentry}
  {retention : Nat}

theorem matchesSubentries_iff : runtime.matchesSubentries libraries subentries retention = .ok true ↔
    Readable libraries subentries ∧
      (∀ key, runtime.definitions.lookup key = read libraries subentries key) ∧
      retention = runtime.retention := by
  unfold matchesSubentries
  constructor
  · intro h
    split at h
    · rename_i definitions hdefinitions
      obtain ⟨hreadable, hlookup⟩ := definitions_eq_ok hdefinitions
      have hmatches := Results.pure_eq_ok.mp h
      unfold matchesEntry at hmatches
      rw [Bool.and_eq_true, decide_eq_true_eq, decide_eq_true_eq, Dict.same_iff] at hmatches
      exact ⟨hreadable, fun key => (hmatches.1 key).trans (hlookup key), hmatches.2⟩
    · cases Results.pure_eq_ok.mp h
    · exact absurd h Results.throw_ne_ok
  · rintro ⟨hreadable, hlookup, hretention⟩
    obtain ⟨definitions, hdefinitions⟩ := exists_definitions hreadable
    rw [hdefinitions]
    obtain ⟨-, hread⟩ := definitions_eq_ok hdefinitions
    refine Results.pure_eq_ok.mpr ?_
    unfold matchesEntry
    rw [Bool.and_eq_true, decide_eq_true_eq, decide_eq_true_eq, Dict.same_iff]
    exact ⟨fun key => (hlookup key).trans (hread key).symm, hretention⟩

/-- The runtime and the entry agree: no reload, and no action is rejected for one. -/
structure Settled (libraries : Libraries) (runtime : PatchManagerRuntime)
    (subentries : Dict Text Subentry) (retention : Nat) : Prop where
  matched : runtime.matchesSubentries libraries subentries retention = .ok true
  kept : runtime.reloads libraries subentries retention = .ok false
  accepted : ∀ patchId, runtime.validateSubentry libraries subentries retention patchId ≠
    .error (.patch ⟨.runtimeReloading, .invalidPatch⟩)

theorem settled_of_matched (h : runtime.matchesSubentries libraries subentries retention = .ok true) :
    Settled libraries runtime subentries retention := by
  refine ⟨h, ?_, fun patchId hreloading => ?_⟩
  · unfold reloads
    split
    · rfl
    · rw [h]
      rfl
  · unfold validateSubentry refuse at hreloading
    split at hreloading
    · cases Results.throw_eq_error.mp hreloading
    · split at hreloading
      · cases Results.throw_eq_error.mp hreloading
      · split at hreloading
        · cases Results.throw_eq_error.mp hreloading
        · rw [h] at hreloading
          cases hreloading

/-- `_disable_auto_apply` keeps the runtime and the entry equal. -/
theorem settled_persistAutoApply {patchId : Text} {after : PatchManagerRuntime}
    {stored : Dict Text Subentry} {subentry : Subentry} {definition : PatchDefinition}
    (hmatched : runtime.matchesSubentries libraries subentries retention = .ok true)
    (hfound : subentries.lookup patchId = some subentry) (hpatch : subentry.isPatch = true)
    (hdefinition : subentry.definition libraries patchId = .ok definition)
    (h : runtime.persistAutoApply subentries patchId = some (after, stored)) :
    Settled libraries after stored retention := by
  obtain ⟨hreadable, hlookup, hretention⟩ := matchesSubentries_iff.mp hmatched
  obtain ⟨haccepted, hid⟩ := accepted_of_fromMapping hdefinition
  have hruntime : runtime.definitions.lookup patchId = some definition := by
    rw [hlookup]
    unfold Subentry.read
    rw [hfound, Option.bind_some, if_pos hpatch, hdefinition]
    rfl
  unfold persistAutoApply at h
  rw [hruntime, hfound] at h
  cases h
  have hstored := (haccepted.withAutoApply false).fromMapping_asdict patchId
  rw [← hid] at hstored
  have hnew : Subentry.definition libraries patchId
      { subentry with data := ({ definition with autoApply := false } : PatchDefinition).asdict } =
        .ok { definition with autoApply := false } := by
    rw [← hid]
    exact hstored
  have hpatch' : Subentry.isPatch { subentry with
      data := ({ definition with autoApply := false } : PatchDefinition).asdict } = true := hpatch
  refine settled_of_matched (matchesSubentries_iff.mpr
    ⟨hreadable.insert hnew, fun key => ?_, hretention⟩)
  by_cases hkey : key = patchId
  · subst hkey
    rw [AList.lookup_insert]
    exact (read_insert_self hpatch' hnew).symm
  · rw [AList.lookup_insert_ne hkey, hlookup]
    exact (read_insert_of_ne hkey).symm

/-- A runtime that is set up from the entry agrees with it. -/
theorem settled_make {definitions : Dict Text PatchDefinition}
    (hread : Subentry.definitions libraries subentries = .ok definitions)
    (hmake : make definitions retention = .ok runtime) :
    Settled libraries runtime subentries retention := by
  obtain ⟨hreadable, hlookup⟩ := definitions_eq_ok hread
  refine settled_of_matched (matchesSubentries_iff.mpr ?_)
  unfold make at hmake
  simp only at hmake
  split at hmake
  · cases hmake
  · split at hmake
    · cases hmake
    · cases Results.pure_eq_ok.mp hmake
      exact ⟨hreadable, hlookup, rfl⟩

end PatchManagerRuntime

/-! ## Flows -/

/-- A patch flow sets `source` to the name of the managed source that it has saved. -/
def flowDefinition (definition : PatchDefinition) : Option Text → PatchDefinition
  | some digest => { definition with source := digest }
  | none => definition

/-- The sources that a flow saves are managed ones, and their names are digests. -/
def Saves (definition : PatchDefinition) (saved : Option Text) : Prop :=
  ∀ digest ∈ saved, definition.sourceType = "managed".toList ∧ isDigest digest = true

open PatchDefinition in
theorem fromMapping_flow {libraries : Libraries} {definition : PatchDefinition} {saved : Option Text}
    (h : Accepted libraries definition) (hsaved : Saves definition saved) (patchId : Text) :
    fromMapping libraries patchId (flowDefinition definition saved).asdict =
      .ok { flowDefinition definition saved with patchId := patchId } := by
  cases saved with
  | none => exact h.fromMapping_asdict patchId
  | some digest =>
    obtain ⟨hmanaged, hdigest⟩ := hsaved digest rfl
    exact (h.withSource hmanaged hdigest).fromMapping_asdict patchId

/-- The entry after a flow has stored a definition in it. -/
def commitFlow (subentries : Dict Text Subentry) (key : Text) (definition : PatchDefinition)
    (saved : Option Text) : Dict Text Subentry :=
  subentries.insert key ⟨"patch".toList, (flowDefinition definition saved).asdict⟩

/-- The runtime before the flow agrees with the entry exactly if the flow has changed nothing. -/
theorem matched_commitFlow_iff {libraries : Libraries} {subentries : Dict Text Subentry}
    {runtime : PatchManagerRuntime} {retention : Nat} {key : Text} {definition : PatchDefinition}
    {saved : Option Text} (h : PatchDefinition.Accepted libraries definition)
    (hsaved : Saves definition saved)
    (hmatched : runtime.matchesSubentries libraries subentries retention = .ok true) :
    runtime.matchesSubentries libraries (commitFlow subentries key definition saved) retention =
        .ok true ↔
      runtime.definitions.lookup key =
        some { flowDefinition definition saved with patchId := key } := by
  obtain ⟨hreadable, hlookup, hretention⟩ := PatchManagerRuntime.matchesSubentries_iff.mp hmatched
  have hdefinition : Subentry.definition libraries key
      ⟨"patch".toList, (flowDefinition definition saved).asdict⟩ =
        .ok { flowDefinition definition saved with patchId := key } := fromMapping_flow h hsaved key
  have hpatch : Subentry.isPatch ⟨"patch".toList, (flowDefinition definition saved).asdict⟩ = true :=
    decide_eq_true rfl
  have hself := @Subentry.read_insert_self _ subentries _ _ _ hpatch hdefinition
  rw [PatchManagerRuntime.matchesSubentries_iff]
  constructor
  · rintro ⟨-, hafter, -⟩
    exact (hafter key).trans hself
  · intro hsame
    refine ⟨hreadable.insert hdefinition, fun k => ?_, hretention⟩
    by_cases hk : k = key
    · rw [hk, hsame]
      exact hself.symm
    · rw [hlookup]
      exact (Subentry.read_insert_of_ne hk).symm

open PatchDefinition Subentry in
/-- What `from_mapping` accepts reads back as itself after `asdict`, also with `auto_apply` off. So
the runtime and the entry agree after `_disable_auto_apply`. After a flow has stored a definition, the
entry can be read, and a runtime agrees with it that is set up then, or that had the definition. -/
theorem definitions_stable {libraries : Libraries} {patchId : Text} {data : Dict Text Value}
    {definition : PatchDefinition} (h : fromMapping libraries patchId data = .ok definition) :
    (∀ d, d = definition ∨ d = { definition with autoApply := false } →
      fromMapping libraries patchId d.asdict = .ok d) ∧
    (∀ (runtime after : PatchManagerRuntime) (subentries stored : Dict Text Subentry)
        (retention : Nat),
      runtime.matchesSubentries libraries subentries retention = .ok true →
      subentries.lookup patchId = some ⟨"patch".toList, data⟩ →
      runtime.persistAutoApply subentries patchId = some (after, stored) →
      PatchManagerRuntime.Settled libraries after stored retention) ∧
    ∀ (subentries : Dict Text Subentry) (retention : Nat) (key : Text) (saved : Option Text),
      Readable libraries subentries → Saves definition saved →
      (∃ definitions, Subentry.definitions libraries (commitFlow subentries key definition saved) =
          .ok definitions ∧
        definitions.lookup key = some { flowDefinition definition saved with patchId := key } ∧
        ∀ runtime, PatchManagerRuntime.make definitions retention = .ok runtime →
          PatchManagerRuntime.Settled libraries runtime
            (commitFlow subentries key definition saved) retention) ∧
      ∀ runtime : PatchManagerRuntime,
        runtime.matchesSubentries libraries subentries retention = .ok true →
        (runtime.matchesSubentries libraries (commitFlow subentries key definition saved) retention =
            .ok true ↔
          runtime.definitions.lookup key =
            some { flowDefinition definition saved with patchId := key }) := by
  obtain ⟨haccepted, rfl⟩ := accepted_of_fromMapping h
  refine ⟨?_, fun runtime after subentries stored retention hmatched hfound hpersist => ?_,
    fun subentries retention key saved hreadable hsaved => ⟨?_, fun runtime hmatched =>
      matched_commitFlow_iff haccepted hsaved hmatched⟩⟩
  · rintro d (rfl | rfl)
    · exact haccepted.fromMapping_asdict _
    · exact (haccepted.withAutoApply false).fromMapping_asdict _
  · exact PatchManagerRuntime.settled_persistAutoApply hmatched hfound (decide_eq_true rfl) h hpersist
  · have hdefinition : Subentry.definition libraries key
        ⟨"patch".toList, (flowDefinition definition saved).asdict⟩ =
          .ok { flowDefinition definition saved with patchId := key } :=
      fromMapping_flow haccepted hsaved key
    have hpatch : Subentry.isPatch ⟨"patch".toList, (flowDefinition definition saved).asdict⟩ = true :=
      decide_eq_true rfl
    obtain ⟨definitions, hread⟩ := exists_definitions (hreadable.insert hdefinition)
    obtain ⟨-, hlookup⟩ := definitions_eq_ok hread
    refine ⟨definitions, hread, ?_, fun runtime hmake => PatchManagerRuntime.settled_make hread hmake⟩
    rw [hlookup]
    exact read_insert_self hpatch hdefinition

/-- A pattern without wildcards matches only itself. -/
def literalPatterns : Libraries := ⟨fun path pattern => path = pattern, fun _ => none⟩

def exampleData : Dict Text Value := [
  ⟨"name".toList, Value.string "Fix".toList⟩,
  ⟨"target_path".toList, .string "packages/a.py".toList⟩,
  ⟨"watch_root".toList, .string "packages".toList⟩,
  ⟨"source_type".toList, .string "local".toList⟩,
  ⟨"source".toList, .string "a.diff".toList⟩,
  ⟨"debounce_seconds".toList, .int 2⟩].toAList

/-- The definition of `exampleData`. -/
def exampleDefinition : PatchDefinition where
  patchId := "p".toList
  name := "Fix".toList
  targetPath := "packages/a.py".toList
  watchRoot := "packages".toList
  watchPattern := "a.py".toList
  sourceType := "local".toList
  source := "a.diff".toList
  debounceSeconds := 2

open PatchDefinition in
theorem definitions_stable_example :
    fromMapping literalPatterns "p".toList exampleData = .ok exampleDefinition ∧
    fromMapping literalPatterns "p".toList { exampleDefinition with autoApply := false }.asdict =
      .ok { exampleDefinition with autoApply := false } := by
  have h : fromMapping literalPatterns "p".toList exampleData = .ok exampleDefinition := by
    decide +kernel
  exact ⟨h, (definitions_stable h).1 _ (.inr rfl)⟩

end Hapatchy
