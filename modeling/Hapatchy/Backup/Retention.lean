import Mathlib.Algebra.Group.Nat.Defs
import Hapatchy.Backup.Specs

/-!
# What pruning keeps

Complete backups are ranked by their names. Pruning leaves the last
`retention` of them alone, whatever calls fail.
-/

open Effects Prog

namespace Hapatchy

variable {env : Env} {w w' : World} {manager : BackupManager}

/-! ## Complete backups -/

/-- A regular file of its own. -/
def Regular (fs : Fs) (p : Path) : Prop :=
  ∃ node, fs.lookup p = some node ∧ node.kind = .file ∧ node.nlink = 1

/-- What `_complete` finds in a directory. -/
structure Complete (env : Env) (patchId : Text) (fs : Fs) (p : Path) : Prop where
  directory : ∃ node, fs.lookup p = some node ∧ node.kind = .directory
  listing : ∀ x, (fs.lookup (p ++ [x])).isSome ↔ x = targetName ∨ x = metadataFile
  target : Regular fs (p ++ [targetName])
  metadata : ∃ node, fs.lookup (p ++ [metadataFile]) = some node ∧ node.kind = .file ∧
    node.nlink = 1 ∧ node.data.length ≤ 65536 ∧ metadataMatches patchId (env.loads node.data) = true

theorem Complete.congr {patchId : Text} {fs fs' : Fs} {p : Path}
    (h : Complete env patchId fs p) (hfs : ∀ q, p <+: q → fs'.lookup q = fs.lookup q) :
    Complete env patchId fs' p where
  directory := by
    rw [hfs _ (List.prefix_refl _)]
    exact h.directory
  listing x := by
    rw [hfs _ (List.prefix_append _ _)]
    exact h.listing x
  target := by
    rw [Regular, hfs _ (List.prefix_append _ _)]
    exact h.target
  metadata := by
    rw [hfs _ (List.prefix_append _ _)]
    exact h.metadata

/-- `_complete` gets to `json.loads` in the directory `p`, with the bytes `raw`. -/
structure Examined (fs : Fs) (p : Path) (raw : Bytes) : Prop where
  directory : ∃ node, fs.lookup p = some node ∧ node.kind = .directory
  listing : ∀ x, (fs.lookup (p ++ [x])).isSome ↔ x = targetName ∨ x = metadataFile
  target : Regular fs (p ++ [targetName])
  metadata : ∃ node, fs.lookup (p ++ [metadataFile]) = some node ∧ node.kind = .file ∧
    node.nlink = 1 ∧ node.data = raw
  size : raw.length ≤ 65536

theorem Examined.congr {fs fs' : Fs} {p : Path} {raw : Bytes} (h : Examined fs p raw)
    (hfs : ∀ q, p <+: q → fs'.lookup q = fs.lookup q) : Examined fs' p raw where
  directory := by
    rw [hfs _ (List.prefix_refl _)]
    exact h.directory
  listing x := by
    rw [hfs _ (List.prefix_append _ _)]
    exact h.listing x
  target := by
    rw [Regular, hfs _ (List.prefix_append _ _)]
    exact h.target
  metadata := by
    rw [hfs _ (List.prefix_append _ _)]
    exact h.metadata
  size := h.size

theorem Examined.complete {patchId : Text} {fs : Fs} {p : Path} {raw : Bytes}
    (h : Examined fs p raw) (hmatches : metadataMatches patchId (env.loads raw) = true) :
    Complete env patchId fs p := by
  obtain ⟨node, hnode, hkind, hnlink, hdata⟩ := h.metadata
  refine ⟨h.directory, h.listing, h.target, node, hnode, hkind, hnlink, ?_, ?_⟩
  · rw [hdata]
    exact h.size
  · rw [hdata]
    exact hmatches

theorem Complete.examined {patchId : Text} {fs : Fs} {p : Path} (h : Complete env patchId fs p) :
    ∃ raw, Examined fs p raw ∧ metadataMatches patchId (env.loads raw) = true := by
  obtain ⟨node, hnode, hkind, hnlink, hsize, hmatches⟩ := h.metadata
  exact ⟨node.data, ⟨h.directory, h.listing, h.target, ⟨node, hnode, hkind, hnlink, rfl⟩, hsize⟩,
    hmatches⟩

theorem isBackupListing_iff {names : List Text} : isBackupListing names = true ↔
    ∀ x, x ∈ names ↔ x = targetName ∨ x = metadataFile := by
  simp only [isBackupListing, Bool.and_eq_true, decide_eq_true_eq, List.all_eq_true,
    Bool.or_eq_true]
  constructor
  · rintro ⟨⟨htarget, hmetadata⟩, hall⟩ x
    refine ⟨hall x, ?_⟩
    rintro (rfl | rfl)
    · exact htarget
    · exact hmetadata
  · exact fun h => ⟨⟨(h _).mpr (Or.inl rfl), (h _).mpr (Or.inr rfl)⟩, fun x => (h x).mp⟩

theorem GuardedDirectory.path_handle (directory : GuardedDirectory) :
    (directory.handles.getLast?.getD ⟨[], 0⟩).path = directory.path := by
  rw [GuardedDirectory.path]
  cases directory.handles.getLast? <;> rfl

theorem bothRegular_true {directory : GuardedDirectory} {names : List Text}
    (henv : ∀ q, directory.path <+: q → env.Spares q)
    (h : bothRegular env directory names w = (.ok true, w')) :
    ∀ name ∈ names, Regular w.fs (directory.path ++ [name]) := by
  induction names generalizing w with
  | nil => simp
  | cons name names ih =>
    obtain ⟨info, t, hstat, hrest⟩ := bind_ok_iff.mp h
    have hsteps : Steps env OnlyCalls w t := (does_lstat trivial).of_eq hstat
    have hsame : ∀ q, directory.path <+: q → t.fs.lookup q = w.fs.lookup q := fun q hq =>
      hsteps.calls_lookup (henv q hq)
    split at hrest
    · cases (pure_eq_iff.mp hrest).1
    rename_i hregular
    have hinfo := (look_ok hstat).1
    rw [hsame _ (List.prefix_append _ _)] at hinfo
    intro name' hname'
    rcases List.mem_cons.mp hname' with rfl | hname'
    · cases hnode : w.fs.lookup (directory.path ++ [name']) with
      | none =>
        rw [hnode] at hinfo
        cases hinfo
      | some node =>
        rw [hnode] at hinfo
        cases Results.pure_eq_ok.mp hinfo
        simp only [not_or, not_not] at hregular
        exact ⟨node, hnode, hregular.1, hregular.2⟩
    · obtain ⟨node, hnode, hkind⟩ := ih hrest name' hname'
      exact ⟨node, by rw [← hnode, hsame _ (List.prefix_append _ _)], hkind⟩

/-- A descriptor of a regular file that nobody touches shows its bytes. -/
theorem readMetadata_ok {p : Path} {node : Node} {file : Handle} {raw : Bytes} {t t' : World}
    (henv : env.Spares p) (hnode : w.fs.lookup p = some node) (hkind : node.kind = .file)
    (hopen : openFile env p w = (.ok file, t))
    (hread : ensure (readAt env file 0 65537) (fun _ => close env file) t = (.ok raw, t')) :
    raw = node.data.take 65537 := by
  have hsame : t.fs.lookup p = w.fs.lookup p :=
    Steps.calls_lookup ((does_openFile trivial).of_eq hopen) henv
  have hfile : file = ⟨p, node.ino⟩ := by
    obtain ⟨hfound, rfl⟩ := look_ok hopen
    rw [hsame, hnode] at hfound
    simp only [hkind] at hfound
    exact (Results.pure_eq_ok.mp hfound).symm
  obtain ⟨out, t₁, hbody, ⟨hclose, rfl⟩ | ⟨e, -, ⟨⟩⟩⟩ := ensure_eq_iff.mp hread
  obtain ⟨hbytes, rfl⟩ := look_ok hbody
  have hlookup : (arrive env t).fs.lookup file.path = some node := by
    rw [hfile, arrive_lookup henv, hsame, hnode]
  rw [Results.pure_eq_ok, nodeAt, hlookup, hfile] at hbytes
  simpa using hbytes.symm

/-- Whatever calls fail, `_complete` counts a directory, or exceeds the recursion limit, by the
metadata in it. -/
theorem complete_reaches {exhausts : Bytes → Bool} {directory : GuardedDirectory} {node : Node}
    {out : Except Exc Bool} (henv : ∀ q, directory.path <+: q → env.Spares q)
    (hnode : w.fs.lookup directory.path = some node) (hkind : node.kind = .directory)
    (hout : out = .ok true ∨ out = .error .recursion)
    (h : manager.complete env directory exhausts w = (out, w')) :
    ∃ raw, Examined w.fs directory.path raw ∧
      out = if exhausts raw then .error .recursion
        else .ok (metadataMatches manager.patchId (env.loads raw)) := by
  have hfalse : out ≠ .ok false := by
    rcases hout with rfl | rfl <;> simp
  -- None of the calls raises what `json.loads` does.
  have hcalls {α : Type} {m : Io α} {s s' : World} {e : Exc} (hm : Raises (· ≠ .recursion) m)
      (hrun : m s = (.error e, s')) (he : out = .error e) : False := by
    rcases hout with rfl | rfl
    · cases he
    · exact hm s e s' hrun (Except.error.inj he).symm
  have hos : ∀ e, Exc.os e ≠ .recursion := fun _ => Exc.noConfusion
  rcases bind_eq_iff.mp h with ⟨e, hlist, he⟩ | ⟨names, t₁, hlist, hrest⟩
  · exact (hcalls (raises_look hos) hlist he).elim
  have hsteps₁ : Steps env OnlyCalls w t₁ := (does_listdir trivial).of_eq hlist
  have hsame₁ : ∀ q, directory.path <+: q → t₁.fs.lookup q = w.fs.lookup q := fun q hq =>
    hsteps₁.calls_lookup (henv q hq)
  split at hrest
  · exact absurd (pure_eq_iff.mp hrest).1 hfalse
  rename_i hlisting
  rcases bind_eq_iff.mp hrest with ⟨e, hboth, he⟩ | ⟨regular, t₂, hboth, hrest⟩
  · exact (hcalls (raises_bothRegular hos) hboth he).elim
  split at hrest
  · exact absurd (pure_eq_iff.mp hrest).1 hfalse
  rename_i hregular
  obtain rfl : regular = true := by simpa using hregular
  have hregular := bothRegular_true (fun q hq => henv q hq) hboth
  rcases bind_eq_iff.mp hrest with ⟨e, hopen, he⟩ | ⟨file, t₃, hopen, hrest⟩
  · exact (hcalls (raises_look hos) hopen he).elim
  rcases bind_eq_iff.mp hrest with ⟨e, hread, he⟩ | ⟨raw, t₄, hread, hrest⟩
  · exact (hcalls (raises_ensure (raises_look hos) fun _ => raises_look hos) hread he).elim
  obtain ⟨m, hm, hmkind, hmlink⟩ := hregular metadataFile (by simp)
  have hspares := henv (directory.path ++ [metadataFile]) (List.prefix_append _ _)
  have hm₂ := (Steps.calls_lookup ((does_bothRegular trivial).of_eq hboth) hspares).trans hm
  have hraw := readMetadata_ok hspares hm₂ hmkind hopen hread
  split at hrest
  · exact absurd (pure_eq_iff.mp hrest).1 hfalse
  rename_i hsize
  have hlength : m.data.length ≤ 65536 := by
    rw [hraw, List.length_take] at hsize
    omega
  rw [List.take_of_length_le (by omega)] at hraw
  refine ⟨raw, ⟨⟨node, hnode, hkind⟩, fun x => ?_, ?_, ⟨m, ?_, hmkind, hmlink, hraw.symm⟩, ?_⟩, ?_⟩
  · obtain ⟨hnames, rfl⟩ := look_ok hlist
    have hlisted := isBackupListing_iff.mp (by simpa using hlisting) x
    rw [← Results.pure_eq_ok.mp hnames, Fs.mem_names_iff, directory.path_handle,
      hsame₁ _ (List.prefix_append _ _)] at hlisted
    exact hlisted
  · obtain ⟨node', hnode', hkind'⟩ := hregular targetName (by simp)
    exact ⟨node', by rw [← hnode', hsame₁ _ (List.prefix_append _ _)], hkind'⟩
  · rw [← hm, hsame₁ _ (List.prefix_append _ _)]
  · rw [hraw]
    exact hlength
  · split at hrest
    · rename_i hexhausts
      rw [if_pos hexhausts]
      exact (raise_eq_iff.mp hrest).1
    · rename_i hexhausts
      rw [if_neg hexhausts]
      exact (pure_eq_iff.mp hrest).1

/-- Whatever calls fail, what `_complete` finds complete is so. -/
theorem complete_true {exhausts : Bytes → Bool} {directory : GuardedDirectory} {node : Node}
    (henv : ∀ q, directory.path <+: q → env.Spares q)
    (hnode : w.fs.lookup directory.path = some node) (hkind : node.kind = .directory)
    (h : manager.complete env directory exhausts w = (.ok true, w')) :
    Complete env manager.patchId w.fs directory.path := by
  obtain ⟨raw, hexamined, hout⟩ := complete_reaches henv hnode hkind (Or.inl rfl) h
  split at hout
  · cases hout
  · exact hexamined.complete (Except.ok.inj hout).symm

/-! ## The name and the metadata of a new backup -/

theorem length_padded {width n : Nat} (h : n < 10 ^ width) (hpos : 0 < width) :
    (padded width n).length = width := by
  have hdigits : (Nat.toDigits 10 n).length ≤ width :=
    (Nat.length_toDigits_le_iff (by decide) hpos).mpr h
  rw [padded, List.length_append, List.length_replicate]
  omega

theorem digits_padded {width n : Nat} :
    ∀ c ∈ padded width n, (PatchEngine.digitValue c).isSome = true := by
  intro c h
  have hdigit : c.isDigit = true := by
    rcases List.mem_append.mp h with h | h
    · rw [List.eq_of_mem_replicate h]
      rfl
    · exact Nat.isDigit_of_mem_toDigits (by decide) (by decide) h
  have hrange : 48 ≤ c.toNat ∧ c.toNat < 58 := by
    simp only [Char.isDigit, Bool.and_eq_true, decide_eq_true_eq] at hdigit
    exact ⟨UInt32.le_iff_toNat_le.mp hdigit.1,
      Nat.lt_succ_of_le (UInt32.le_iff_toNat_le.mp hdigit.2)⟩
  rw [PatchEngine.digitValue, Option.isSome_map, List.find?_isSome]
  exact ⟨0x30, by simp [PatchEngine.digitZeros], by simpa using hrange⟩

theorem isBackupName_append {day time micro hex : Text} (hday : day.length = 8)
    (htime : time.length = 6) (hmicro : micro.length = 6) (hhex : hex.length = 32)
    (hdigits : ∀ c ∈ day ++ time ++ micro, (PatchEngine.digitValue c).isSome = true)
    (hall : ∀ c ∈ hex, isHex c = true) :
    isBackupName (day ++ ['T'] ++ time ++ ['.'] ++ micro ++ ['Z', '-'] ++ hex) = true := by
  simp only [List.mem_append, or_imp, forall_and] at hdigits
  obtain ⟨⟨hd, ht⟩, hm⟩ := hdigits
  have hshort : ∀ (t : Text) (n : Nat), t.length ≤ n → t.drop n = [] := fun _ _ =>
    List.drop_eq_nil_of_le
  simpa [isBackupName, List.extract_eq_take_drop, List.take_append, List.drop_append, hday, htime,
    hmicro, hhex, hshort] using ⟨⟨⟨hd, ht⟩, hm⟩, hall⟩

/-- Every new backup has a name that counts as one. -/
theorem isBackupName_backupName (now : Timestamp) (hex : Hex32) :
    isBackupName (backupName now hex) = true := by
  obtain ⟨⟨hyear, hyear'⟩, hmonth, hday, hhour, hminute, hsecond, hmicro⟩ := now.valid
  have hname : backupName now hex =
      (padded 4 now.year ++ padded 2 now.month ++ padded 2 now.day) ++ ['T'] ++
        (padded 2 now.hour ++ padded 2 now.minute ++ padded 2 now.second) ++ ['.'] ++
        padded 6 now.microsecond ++ ['Z', '-'] ++ hex.val := by
    simp [backupName]
  rw [hname]
  refine isBackupName_append ?_ ?_ ?_ hex.property.1 (fun c hc => ?_) hex.property.2
  · simp (disch := omega) [length_padded]
  · simp (disch := omega) [length_padded]
  · simp (disch := omega) [length_padded]
  · simp only [List.mem_append] at hc
    rcases hc with (((hc | hc) | hc) | (hc | hc) | hc) | hc <;> exact digits_padded _ hc

/-- Every new backup has metadata that counts as complete. -/
theorem metadataMatches_json (metadata : Metadata) :
    metadataMatches metadata.patchId (some metadata.json) = true := by
  have hmatches : metadataMatches metadata.patchId (some metadata.json) =
      (decide ((1 : Rat) = 1) && decide (metadata.patchId = metadata.patchId) && true) := rfl
  rw [hmatches]
  simp

/-! ## The candidates -/

theorem openParts_directory {parts rest : List Text} {parent : Handle} {opened : List Handle}
    {directory : GuardedDirectory} (henv : env.Spares (parent.path ++ rest))
    (hparent : ∃ node, w.fs.lookup parent.path = some node ∧ node.kind = .directory)
    (h : openParts env false parts parent opened rest w = (.ok directory, w')) :
    ∃ node, w'.fs.lookup (parent.path ++ rest) = some node ∧ node.kind = .directory := by
  induction rest generalizing parent opened w with
  | nil =>
    obtain ⟨_, t, hverify, hpure⟩ := bind_ok_iff.mp h
    obtain ⟨-, rfl⟩ := pure_eq_iff.mp hpure
    have hsteps : Steps env OnlyCalls w _ := (does_verify trivial).of_eq (onError_ok hverify)
    rw [List.append_nil] at henv ⊢
    rw [hsteps.calls_lookup henv]
    exact hparent
  | cons part rest ih =>
    obtain ⟨child, t, hopen, hrest⟩ := bind_ok_iff.mp h
    obtain ⟨hchild, node, hnode, hkind, -⟩ :=
      openDirectory_ok (p := parent.path ++ [part]) (onError_ok hopen)
    have hpath : parent.path ++ part :: rest = child.path ++ rest := by
      rw [hchild, List.append_assoc, List.singleton_append]
    rw [hpath] at henv ⊢
    exact ih henv ⟨node, hchild ▸ hnode, hkind⟩ hrest

theorem enter_directory {parts : List Text} {directory : GuardedDirectory}
    (henv : env.Spares parts) (h : GuardedDirectory.enter env parts false w = (.ok directory, w')) :
    ∃ node, w'.fs.lookup parts = some node ∧ node.kind = .directory := by
  obtain ⟨root, t, hroot, hparts⟩ := bind_ok_iff.mp h
  obtain ⟨hpath, node, hnode, hkind, -⟩ := openDirectory_ok hroot
  have := openParts_directory (by rw [hpath]; exact henv) ⟨node, hpath ▸ hnode, hkind⟩ hparts
  rwa [hpath] at this

variable (env manager) in
/-- The complete backups of the patch, by their names. -/
def CompleteName (fs : Fs) (name : Text) : Prop :=
  isBackupName name = true ∧ Complete env manager.patchId fs (manager.parts ++ [name])

theorem CompleteName.congr {fs fs' : Fs} {name : Text} (h : CompleteName env manager fs name)
    (hfs : ∀ q, manager.parts ++ [name] <+: q → fs'.lookup q = fs.lookup q) :
    CompleteName env manager fs' name := ⟨h.1, h.2.congr hfs⟩

variable (henv : ∀ q, Internal q → env.Spares q)

include henv

variable {exhausts : Bytes → Bool}

omit henv in
theorem goOn_ok {found found' : Bool} {e : Exc} (h : goOn found e w = (.ok found', w')) :
    found' = found := by
  cases e with
  | value | recursion => cases (raise_eq_iff.mp h).1
  | _ => exact Except.ok.inj (pure_eq_iff.mp h).1

omit henv in
/-- A name is a candidate only if `_complete` has found its directory complete. -/
theorem isCandidate_found {name : Text}
    (h : manager.isCandidate env name exhausts w = (.ok true, w')) :
    ∃ directory t t', GuardedDirectory.enter env (manager.parts ++ [name]) false w =
        (.ok directory, t) ∧
      manager.complete env directory exhausts t = (.ok true, t') := by
  rcases rescue_eq_iff.mp h with ⟨found, hbody, hfound⟩ | ⟨e, t, -, hhandler⟩
  swap
  · exact absurd (goOn_ok hhandler) (Bool.noConfusion)
  cases hfound
  obtain ⟨directory, t, henter, hbody⟩ := bind_ok_iff.mp hbody
  obtain ⟨found, t', hcomplete, hclose⟩ := bind_ok_iff.mp hbody
  obtain rfl : found = true := by
    rcases rescue_eq_iff.mp hclose with ⟨found', hexit, hfound⟩ | ⟨e, t₁, -, hhandler⟩
    · cases hfound
      obtain ⟨_, _, -, hpure⟩ := bind_ok_iff.mp hexit
      exact (Except.ok.inj (pure_eq_iff.mp hpure).1).symm
    · exact (goOn_ok hhandler).symm
  rcases rescue_eq_iff.mp hcomplete with ⟨found, hcomplete, hfound⟩ | ⟨e, t₁, -, hraise⟩
  · cases hfound
    exact ⟨directory, t, t', henter, hcomplete⟩
  · obtain ⟨_, _, -, hraise⟩ := bind_ok_iff.mp hraise
    cases (raise_eq_iff.mp hraise).1

/-- Only `json.loads` raises what the loop does not catch. -/
theorem isCandidate_error {name : Text} {e : Exc}
    (h : manager.isCandidate env name exhausts w = (.error e, w')) :
    ∃ raw, Examined w.fs (manager.parts ++ [name]) raw ∧ exhausts raw = true := by
  rcases rescue_eq_iff.mp h with ⟨found, -, ⟨⟩⟩ | ⟨e₀, t₀, hbody, hhandler⟩
  rcases bind_eq_iff.mp hbody with ⟨e₁, henter, heq⟩ | ⟨directory, t, henter, hrest⟩
  · cases heq
    have hraises : Raises (fun e => e.IsPatch ∨ e.IsOs)
        (GuardedDirectory.enter env (manager.parts ++ [name])) :=
      raises_enter (fun _ => Or.inr trivial) fun _ => Or.inl trivial
    have he₀ := hraises w e₀ t₀ henter
    cases e₀ with
    | patch | os => cases (pure_eq_iff.mp hhandler).1
    | _ => exact (he₀.elim id id).elim
  rcases bind_eq_iff.mp hrest with ⟨e₁, hcomplete, heq⟩ | ⟨found, t', -, hclose⟩
  · cases heq
    have hraises : Raises (fun e => e = .recursion ∨ e.IsOs)
        (onError (manager.complete env directory exhausts) (directory.exit env)) :=
      raises_onError (raises_complete (fun _ => Or.inr trivial) fun _ _ => Or.inl rfl)
        (raises_exit fun _ => Or.inr trivial)
    obtain rfl : e₀ = .recursion := by
      refine (hraises t e₀ t₀ hcomplete).resolve_right fun he₀ => ?_
      cases e₀ with
      | os => cases (pure_eq_iff.mp hhandler).1
      | _ => exact he₀
    rcases rescue_eq_iff.mp hcomplete with ⟨found, -, ⟨⟩⟩ | ⟨e₁, t₁, hcomplete, hexit⟩
    rcases bind_eq_iff.mp hexit with ⟨e₂, hexit, heq⟩ | ⟨_, t₂, -, hraise⟩
    · cases heq
      have hexits : Raises Exc.IsOs (directory.exit env) := raises_exit fun _ => trivial
      exact (hexits t₁ _ t₀ hexit).elim
    · cases (raise_eq_iff.mp hraise).1
      have hpath := enter_ok henter
      have hint : ∀ q, manager.parts ++ [name] <+: q → env.Spares q := fun q hq =>
        henv q (internal_parts.append.trans hq)
      obtain ⟨node, hnode, hkind⟩ := enter_directory (hint _ (List.prefix_refl _)) henter
      obtain ⟨raw, hexamined, hraw⟩ := complete_reaches (fun q hq => hint q (hpath ▸ hq))
        (hpath ▸ hnode) hkind (Or.inr rfl) hcomplete
      rw [hpath] at hexamined
      refine ⟨raw, hexamined.congr fun q hq => (Steps.calls_lookup ?_ (hint q hq)).symm, ?_⟩
      · exact (does_enter trivial fun hc => absurd hc Bool.false_ne_true).of_eq henter
      · by_contra hne
        rw [if_neg hne] at hraw
        cases hraw
  · rcases rescue_eq_iff.mp hclose with ⟨found', -, heq⟩ | ⟨e₁, t₁, hexit, hgoOn⟩
    · cases heq
    · have hexit' : Raises Exc.IsOs (directory.exit env >>= fun _ => pure found) :=
        raises_bind (raises_exit fun _ => trivial) fun _ => raises_pure
      have he₁ := hexit' t' e₁ t₁ hexit
      cases e₁ with
      | os e => cases (pure_eq_iff.mp hgoOn).1
      | _ => exact he₁.elim

theorem isCandidate_complete {name : Text}
    (h : manager.isCandidate env name exhausts w = (.ok true, w')) :
    Complete env manager.patchId w.fs (manager.parts ++ [name]) := by
  obtain ⟨directory, t, t', henter, hcomplete⟩ := isCandidate_found h
  have hpath := enter_ok henter
  have hint : ∀ q, manager.parts ++ [name] <+: q → env.Spares q := fun q hq =>
    henv q (internal_parts.append.trans hq)
  obtain ⟨node, hnode, hkind⟩ := enter_directory (hint _ (List.prefix_refl _)) henter
  have hfound := complete_true (fun q hq => hint q (hpath ▸ hq)) (hpath ▸ hnode) hkind hcomplete
  rw [hpath] at hfound
  refine hfound.congr fun q hq => (Steps.calls_lookup ?_ (hint q hq)).symm
  exact (does_enter trivial fun hc => absurd hc Bool.false_ne_true).of_eq henter

/-- The candidates are complete, in the order of the names. -/
theorem completeAmong_ok {names found : List Text}
    (h : manager.completeAmong env exhausts names w = (.ok found, w')) :
    found.Sublist names ∧ ∀ name ∈ found, CompleteName env manager w.fs name := by
  induction names generalizing w w' found with
  | nil =>
    obtain ⟨⟨⟩, -⟩ := pure_eq_iff.mp h
    exact ⟨List.Sublist.slnil, by simp⟩
  | cons name names ih =>
    rw [BackupManager.completeAmong] at h
    split at h
    · obtain ⟨hsub, hall⟩ := ih h
      exact ⟨hsub.cons _, hall⟩
    rename_i hname
    obtain ⟨isComplete, t, hcheck, h⟩ := bind_ok_iff.mp h
    obtain ⟨rest, t', hrest, h⟩ := bind_ok_iff.mp h
    obtain ⟨⟨⟩, -⟩ := pure_eq_iff.mp h
    obtain ⟨hsub, hall⟩ := ih hrest
    have hsteps : Steps env OnlyCalls w t := (does_isCandidate trivial).of_eq hcheck
    have hall' : ∀ b ∈ rest, CompleteName env manager w.fs b := fun b hb =>
      (hall b hb).congr fun q hq =>
        (hsteps.calls_lookup (henv q (internal_parts.append.trans hq))).symm
    cases isComplete with
    | false => exact ⟨hsub.cons _, hall'⟩
    | true =>
      refine ⟨hsub.cons_cons _, fun b hb => ?_⟩
      rcases List.mem_cons.mp hb with rfl | hb
      · exact ⟨by simpa using hname, isCandidate_complete henv hcheck⟩
      · exact hall' b hb

omit henv in
theorem Fs.nodup_names (fs : Fs) (p : Path) : (fs.names p).Nodup := by
  refine List.Nodup.filterMap ?_ (AList.keys_nodup fs)
  intro q q' x hq hq'
  simp only [Option.mem_def] at hq hq'
  split at hq <;> split at hq' <;> try contradiction
  rename_i hp hp'
  obtain ⟨r, rfl⟩ := List.getLast?_eq_some_iff.mp hq
  obtain ⟨r', rfl⟩ := List.getLast?_eq_some_iff.mp hq'
  rw [List.dropLast_concat] at hp hp'
  rw [hp, hp']

/-- The candidates are in strict order. -/
theorem completeBackups_ok {parent : GuardedDirectory} {found : List Text}
    (h : manager.completeBackups env parent exhausts w = (.ok found, w')) :
    found.Pairwise (· < ·) ∧ ∀ name ∈ found, CompleteName env manager w.fs name := by
  obtain ⟨names, t, hlist, h⟩ := bind_ok_iff.mp h
  obtain ⟨hsub, hall⟩ := completeAmong_ok henv h
  obtain ⟨hnames, rfl⟩ := look_ok hlist
  have hsorted : (names.insertionSort (· ≤ ·)).Pairwise (· ≤ ·) := List.pairwise_insertionSort _ _
  have hnodup : (names.insertionSort (· ≤ ·)).Nodup := by
    rw [(List.perm_insertionSort _ _).nodup_iff, ← Results.pure_eq_ok.mp hnames]
    exact Fs.nodup_names _ _
  refine ⟨?_, fun b hb => ?_⟩
  · refine ((hsorted.and hnodup).imp ?_).sublist hsub
    rintro a b ⟨hle, hne⟩
    by_contra hlt
    exact hne (le_antisymm hle (not_lt.mp hlt))
  · refine (hall b hb).congr fun q hq => ?_
    exact (arrive_lookup (henv q (internal_parts.append.trans hq))).symm

/-! ## What is kept -/

variable (env manager) in
/-- Fewer than `retention` complete backups have a greater name. -/
def Recent (fs : Fs) (name : Text) : Prop :=
  ∀ l : List Text, l.Nodup → (∀ c ∈ l, name < c ∧ CompleteName env manager fs c) →
    l.length < manager.retention

variable (env manager) in
/-- A complete backup of the bytes `data`. -/
def Holds (fs : Fs) (name : Text) (data : Bytes) : Prop :=
  CompleteName env manager fs name ∧
    ∃ node, fs.lookup (manager.parts ++ [name] ++ [targetName]) = some node ∧ node.data = data

omit henv in
theorem not_recent_of_mem_take {fs : Fs} {found : List Text} {name : Text}
    (hsorted : found.Pairwise (· < ·)) (hall : ∀ name ∈ found, CompleteName env manager fs name)
    (hname : name ∈ found.take (found.length - manager.retention)) :
    ¬ Recent env manager fs name := by
  intro hrecent
  rw [← List.take_append_drop (found.length - manager.retention) found,
    List.pairwise_append] at hsorted
  obtain ⟨-, hdrop, hlt⟩ := hsorted
  have hnodup : (found.drop (found.length - manager.retention)).Nodup :=
    hdrop.imp fun {a b} hab => by
      rintro rfl
      exact List.lt_irrefl _ hab
  have hlength := hrecent _ hnodup fun c hc => ⟨hlt _ hname _ hc, hall _ (List.mem_of_mem_drop hc)⟩
  have hpos : 0 < (found.take (found.length - manager.retention)).length :=
    List.length_pos_of_mem hname
  rw [List.length_drop] at hlength
  rw [List.length_take] at hpos
  omega

/-- The steps of removing the backups `removed`. -/
def Clearing (manager : BackupManager) (removed : List Text) : Label → Prop
  | .call => True
  | .edit p => ∃ name ∈ removed, manager.parts ++ [name] <+: p
  | .sync p => p = manager.parts
  | .unlinkFailed _ => True
  | _ => False

omit henv in
theorem eq_of_below {parts q : Path} {a b : Text} (ha : parts ++ [a] <+: q)
    (hb : parts ++ [b] <+: q) : a = b := by
  have hlength : (parts ++ [a]).length = (parts ++ [b]).length := by simp
  have heq := (List.prefix_of_prefix_length_le ha hb hlength.le).eq_of_length hlength
  exact List.singleton_inj.mp (List.append_cancel_left heq)

omit henv in
theorem frame_clearing {removed : List Text} {name : Text} {q : Path} (hname : name ∉ removed)
    (hq : manager.parts ++ [name] <+: q) : Frame (Clearing manager removed) q where
  edit := by
    rintro ⟨name', hname', hq'⟩
    exact hname (eq_of_below hq' hq ▸ hname')
  sync := by
    rintro rfl
    exact absurd hq.length_le (by simp)
  replace _ _ h := h.elim

omit henv in
/-- All that pruning does, it does before its handler. -/
theorem prune_body {out : Except Exc Unit} (h : manager.prune env exhausts w = (out, w')) :
    ∃ out', withDirectory env manager.parts false (fun parent => do
      let candidates ← manager.completeBackups env parent exhausts
      manager.removeAll env parent (candidates.take (candidates.length - manager.retention))
      fsync env parent.path) w = (out', w') := by
  rcases rescue_eq_iff.mp h with ⟨u, hbody, -⟩ | ⟨e, t, hbody, hhandler⟩
  · exact ⟨_, hbody⟩
  · have ht : w' = t := by
      cases e with
      | os e =>
        cases e with
        | fileNotFound => exact (pure_eq_iff.mp hhandler).2
        | _ => exact (raise_eq_iff.mp hhandler).2
      | _ => exact (raise_eq_iff.mp hhandler).2
    exact ⟨_, ht ▸ hbody⟩

/-- Whatever calls fail, pruning clears complete backups that are not recent, and no others. -/
theorem prune_clears {out : Except Exc Unit} (h : manager.prune env exhausts w = (out, w')) :
    ∃ removed, (∀ b ∈ removed, CompleteName env manager w.fs b ∧ ¬ Recent env manager w.fs b) ∧
      Steps env (Clearing manager removed) w w' := by
  have hcalls : ∀ {t t' : World} {removed : List Text}, Steps env OnlyCalls t t' →
      Steps env (Clearing manager removed) t t' := fun h => h.mono fun l hl => by
    cases l with
    | call => trivial
    | _ => exact hl.elim
  have hdoesEnter : Does env OnlyCalls (GuardedDirectory.enter env manager.parts false) :=
    does_enter trivial fun hc => absurd hc Bool.false_ne_true
  obtain ⟨out, h⟩ := prune_body h
  rcases bind_eq_iff.mp h with ⟨e, henter, -⟩ | ⟨parent, t₁, henter, h⟩
  · exact ⟨[], by simp, hcalls (hdoesEnter.of_eq henter)⟩
  have hsteps₁ := hdoesEnter.of_eq henter
  obtain ⟨out', t₂, hbody, hexit⟩ := ensure_eq_iff.mp h
  have hsteps₂ : Steps env OnlyCalls t₂ w' := by
    rcases hexit with ⟨hexit, -⟩ | ⟨_, hexit, -⟩ <;> exact (does_exit trivial).of_eq hexit
  rcases bind_eq_iff.mp hbody with ⟨e, hfound, -⟩ | ⟨found, t₃, hfound, hrest⟩
  · have hsteps : Steps env OnlyCalls t₁ t₂ := (does_completeBackups trivial).of_eq hfound
    exact ⟨[], by simp, hcalls ((hsteps₁.trans hsteps).trans hsteps₂)⟩
  obtain ⟨hsorted, hall⟩ := completeBackups_ok henv hfound
  have hall' : ∀ b ∈ found, CompleteName env manager w.fs b := fun b hb =>
    (hall b hb).congr fun p hp =>
      (Steps.calls_lookup hsteps₁ (henv p (internal_parts.append.trans hp))).symm
  have hparent := enter_ok henter
  have hdoes : Does env (Clearing manager (found.take (found.length - manager.retention)))
      (manager.removeAll env parent (found.take (found.length - manager.retention)) >>= fun _ =>
        fsync env parent.path) := by
    refine runs_bind (does_removeAll trivial hparent fun b hb p hp => ?_) fun _ =>
      does_fsync trivial hparent
    exact ⟨⟨b, hb, hp⟩, trivial⟩
  have hsteps₃ : Steps env OnlyCalls t₁ t₃ := (does_completeBackups trivial).of_eq hfound
  refine ⟨_, fun b hb => ⟨hall' b (List.mem_of_mem_take hb), not_recent_of_mem_take hsorted hall' hb⟩,
    ((hcalls (hsteps₁.trans hsteps₃)).trans (hdoes.of_eq hrest)).trans (hcalls hsteps₂)⟩

/-- Whatever calls fail, pruning leaves a recent backup alone. -/
theorem prune_recent {out : Except Exc Unit} {name : Text} {q : Path}
    (h : manager.prune env exhausts w = (out, w')) (hrecent : Recent env manager w.fs name)
    (hq : manager.parts ++ [name] <+: q) : w'.fs.lookup q = w.fs.lookup q := by
  obtain ⟨removed, hremoved, hsteps⟩ := prune_clears henv h
  refine Steps.lookup hsteps (frame_clearing (fun hname => ?_) hq)
    (henv q (internal_parts.append.trans hq))
  exact (hremoved name hname).2 hrecent

variable (env manager) in
/-- A backup of `data` that pruning keeps. -/
def Kept (fs : Fs) (data : Bytes) : Prop :=
  ∃ name, Recent env manager fs name ∧ Holds env manager fs name data

theorem Kept.prune {out : Except Exc Unit} {data : Bytes}
    (h : manager.prune env exhausts w = (out, w')) (hkept : Kept env manager w.fs data) :
    ∃ name, Holds env manager w'.fs name data := by
  obtain ⟨name, hrecent, hcomplete, node, hnode, hdata⟩ := hkept
  have hsame := fun q => prune_recent henv h hrecent (q := q)
  refine ⟨name, hcomplete.congr hsame, node, ?_, hdata⟩
  rw [hsame _ (List.prefix_append _ _), hnode]

end Hapatchy
