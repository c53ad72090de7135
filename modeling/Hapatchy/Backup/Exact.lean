import Hapatchy.Backup.Retention
import Hapatchy.SafeIo.Quiet

/-!
# What pruning removes

When nothing fails, pruning finds every complete backup, and of these it
leaves the recent ones.
-/

open Effects Prog

namespace Hapatchy

variable {env : Env} {manager : BackupManager} {fs : Fs} {exhausts : Bytes → Bool}

section Quiet

variable (h : env.Quiet)

include h

/-! ## Finding the candidates -/

theorem goes_bothRegular {directory : GuardedDirectory} {names : List Text}
    (hregular : ∀ name ∈ names, Regular fs (directory.path ++ [name])) :
    Goes (bothRegular env directory names) fs true fs := by
  induction names with
  | nil => exact goes_pure
  | cons name names ih =>
    obtain ⟨node, hnode, hkind, hnlink⟩ := hregular name List.mem_cons_self
    refine goes_bind (goes_lstat h hnode) ?_
    rw [if_neg (by simp [Node.stat, hkind, hnlink])]
    exact ih fun x hx => hregular x (List.mem_cons_of_mem _ hx)

theorem goes_anyIrregular {directory : GuardedDirectory} {names : List Text}
    (hregular : ∀ name ∈ names, Regular fs (directory.path ++ [name])) :
    Goes (anyIrregular env directory names) fs false fs := by
  induction names with
  | nil => exact goes_pure
  | cons name names ih =>
    obtain ⟨node, hnode, hkind, -⟩ := hregular name List.mem_cons_self
    refine goes_bind (goes_lstat h hnode) ?_
    rw [if_neg (by simp [Node.stat, hkind])]
    exact ih fun x hx => hregular x (List.mem_cons_of_mem _ hx)

omit h in
theorem Examined.regular {p : Path} {raw : Bytes} (hexamined : Examined fs p raw) :
    ∀ name ∈ [targetName, metadataFile], Regular fs (p ++ [name]) := by
  intro name hname
  rcases List.mem_cons.mp hname with rfl | hname
  · exact hexamined.target
  · obtain rfl := List.mem_singleton.mp hname
    obtain ⟨node, hnode, hkind, hnlink, -⟩ := hexamined.metadata
    exact ⟨node, hnode, hkind, hnlink⟩

section Examined

variable {directory : GuardedDirectory} {raw : Bytes} (hexamined : Examined fs directory.path raw)

include hexamined

omit h in
theorem Examined.listed :
    isBackupListing (fs.names (directory.handles.getLast?.getD ⟨[], 0⟩).path) = true := by
  rw [directory.path_handle, isBackupListing_iff]
  exact fun x => Fs.mem_names_iff.trans (hexamined.listing x)

/-- What `_complete` does before `json.loads`. -/
theorem goes_readMetadata : ∃ file, Goes (openFile env (directory.path ++ [metadataFile])) fs file fs ∧
    Goes (ensure (readAt env file 0 65537) fun _ => close env file) fs raw fs := by
  obtain ⟨node, hnode, hkind, -, hdata⟩ := hexamined.metadata
  refine ⟨_, goes_openFile h hnode hkind, ?_⟩
  have hraw : (node.data.drop 0).take 65537 = raw := by
    rw [List.drop_zero, hdata]
    exact List.take_of_length_le (by have := hexamined.size; omega)
  have hread : Goes (readAt env ⟨directory.path ++ [metadataFile], node.ino⟩ 0 65537) fs _ fs :=
    goes_readAt h hnode
  rw [hraw] at hread
  exact goes_ensure hread (goes_close h)

theorem goes_complete (hraw : exhausts raw = false) :
    Goes (manager.complete env directory exhausts) fs
      (metadataMatches manager.patchId (env.loads raw)) fs := by
  obtain ⟨file, hopen, hread⟩ := goes_readMetadata h hexamined
  refine goes_bind (goes_listdir h) ?_
  rw [if_neg (by simp [hexamined.listed])]
  refine goes_bind (goes_bothRegular h hexamined.regular) ?_
  rw [if_neg (by simp)]
  refine goes_bind hopen (goes_bind hread ?_)
  rw [if_neg (by have := hexamined.size; omega), if_neg (by simp [hraw])]
  exact goes_pure

theorem breaks_complete (hraw : exhausts raw = true) :
    Breaks (manager.complete env directory exhausts) fs .recursion := by
  obtain ⟨file, hopen, hread⟩ := goes_readMetadata h hexamined
  refine breaks_bind (goes_listdir h) ?_
  rw [if_neg (by simp [hexamined.listed])]
  refine breaks_bind (goes_bothRegular h hexamined.regular) ?_
  rw [if_neg (by simp)]
  refine breaks_bind hopen (breaks_bind hread ?_)
  rw [if_neg (by have := hexamined.size; omega), if_pos hraw]
  exact breaks_raise

end Examined

/-- The directories down to the backups of the patch are there. -/
def Rooted (fs : Fs) (parts : List Text) : Prop :=
  ∀ p, p <+: parts → ∃ node, fs.lookup p = some node ∧ node.kind = .directory

omit h in
theorem Rooted.append {parts : List Text} {name : Text} {node : Node} (hrooted : Rooted fs parts)
    (hnode : fs.lookup (parts ++ [name]) = some node) (hkind : node.kind = .directory) :
    Rooted fs (parts ++ [name]) := by
  intro p hp
  rcases List.prefix_concat_iff.mp hp with rfl | hp
  · exact ⟨node, hnode, hkind⟩
  · exact hrooted p hp

variable (exhausts manager) in
/-- In no backup of the patch that `_complete` reads, `json.loads` exceeds the recursion limit. -/
def Parsable (fs : Fs) : Prop :=
  ∀ name raw, isBackupName name = true → Examined fs (manager.parts ++ [name]) raw →
    exhausts raw = false

theorem goes_isCandidate (hrooted : Rooted fs manager.parts) {name : Text}
    (hparsable : ∀ raw, Examined fs (manager.parts ++ [name]) raw → exhausts raw = false) :
    ∃ found, (found = true ↔ Complete env manager.patchId fs (manager.parts ++ [name])) ∧
      Goes (manager.isCandidate env name exhausts) fs found fs := by
  by_cases hcomplete : Complete env manager.patchId fs (manager.parts ++ [name])
  · obtain ⟨raw, hexamined, hmatches⟩ := hcomplete.examined
    obtain ⟨node, hnode, hkind⟩ := hcomplete.directory
    obtain ⟨directory, hpath, -, -, henter⟩ := goes_enter h (hrooted.append hnode hkind)
    have hgoes : Goes (manager.complete env directory exhausts) fs _ fs :=
      goes_complete h (hpath ▸ hexamined) (hparsable raw hexamined)
    rw [hmatches] at hgoes
    exact ⟨true, by simp [hcomplete], goes_rescue (goes_bind henter (goes_bind (goes_rescue hgoes)
      (goes_rescue (goes_bind (goes_exit h) goes_pure))))⟩
  · refine ⟨false, by simp [hcomplete], ?_⟩
    rintro w rfl
    rcases hrun : manager.isCandidate env name exhausts w with ⟨out, t⟩
    have hsteps : Steps env OnlyCalls w t := (does_isCandidate trivial).of_eq hrun
    refine ⟨t, ?_, hsteps.calls_fs h.calm⟩
    rcases out with e | found
    · obtain ⟨raw, hexamined, hraw⟩ := isCandidate_error (fun q _ => h.calm.spares) hrun
      exact absurd ((hparsable raw hexamined).symm.trans hraw) Bool.false_ne_true
    · cases found with
      | false => rfl
      | true => exact absurd (isCandidate_complete (fun q _ => h.calm.spares) hrun) hcomplete

theorem breaks_isCandidate (hrooted : Rooted fs manager.parts) {name : Text} {raw : Bytes}
    (hexamined : Examined fs (manager.parts ++ [name]) raw) (hraw : exhausts raw = true) :
    Breaks (manager.isCandidate env name exhausts) fs .recursion := by
  obtain ⟨node, hnode, hkind⟩ := hexamined.directory
  obtain ⟨directory, hpath, -, -, henter⟩ := goes_enter h (hrooted.append hnode hkind)
  have hbreaks : Breaks (manager.complete env directory exhausts) fs .recursion :=
    breaks_complete h (hpath ▸ hexamined) hraw
  have honError : Breaks (onError (manager.complete env directory exhausts) (directory.exit env)) fs
      .recursion := breaks_rescue hbreaks fun _ => breaks_bind (goes_exit h) breaks_raise
  have hgoOn : ∀ fs', Breaks (goOn false .recursion) fs' .recursion := fun _ => breaks_raise
  exact breaks_rescue (breaks_bind henter (breaks_bind_left honError)) hgoOn

theorem goes_completeAmong (hrooted : Rooted fs manager.parts)
    (hparsable : Parsable manager exhausts fs) (names : List Text) :
    ∃ found, (∀ b, b ∈ found ↔ b ∈ names ∧ CompleteName env manager fs b) ∧
      Goes (manager.completeAmong env exhausts names) fs found fs := by
  induction names with
  | nil => exact ⟨[], by simp, goes_pure⟩
  | cons name names ih =>
    obtain ⟨rest, hrest, hgoes⟩ := ih
    rw [BackupManager.completeAmong]
    cases hname : isBackupName name with
    | false =>
      refine ⟨rest, fun b => ?_, by simpa using hgoes⟩
      rw [hrest, List.mem_cons]
      refine ⟨fun hb => ⟨Or.inr hb.1, hb.2⟩, fun hb => ⟨hb.1.resolve_left ?_, hb.2⟩⟩
      rintro rfl
      exact Bool.false_ne_true (hname.symm.trans hb.2.1)
    | true =>
      obtain ⟨found, hfound, hgoes'⟩ := goes_isCandidate h hrooted (hparsable name · hname)
      refine ⟨if found then name :: rest else rest, fun b => ?_,
        goes_bind hgoes' (goes_bind hgoes goes_pure)⟩
      have hiff : CompleteName env manager fs name ↔ found = true := by
        rw [CompleteName, hname, hfound]
        simp
      cases found with
      | true =>
        rw [if_pos rfl, List.mem_cons, List.mem_cons, hrest]
        constructor
        · rintro (rfl | ⟨hb, hcomplete⟩)
          · exact ⟨Or.inl rfl, hiff.mpr rfl⟩
          · exact ⟨Or.inr hb, hcomplete⟩
        · rintro ⟨rfl | hb, hcomplete⟩
          · exact Or.inl rfl
          · exact Or.inr ⟨hb, hcomplete⟩
      | false =>
        rw [if_neg Bool.false_ne_true, hrest, List.mem_cons]
        refine ⟨fun hb => ⟨Or.inr hb.1, hb.2⟩, fun hb => ⟨hb.1.resolve_left ?_, hb.2⟩⟩
        rintro rfl
        exact Bool.false_ne_true (hiff.mp hb.2)

/-- Too deep a metadata file ends the loop, wherever it stands. -/
theorem breaks_completeAmong (hrooted : Rooted fs manager.parts) {names : List Text}
    (hdeep : ∃ name ∈ names, isBackupName name = true ∧
      ∃ raw, Examined fs (manager.parts ++ [name]) raw ∧ exhausts raw = true) :
    Breaks (manager.completeAmong env exhausts names) fs .recursion := by
  induction names with
  | nil => simp at hdeep
  | cons first names ih =>
    rw [BackupManager.completeAmong]
    by_cases hfirst : isBackupName first = true ∧
        ∃ raw, Examined fs (manager.parts ++ [first]) raw ∧ exhausts raw = true
    · obtain ⟨hname, raw, hexamined, hraw⟩ := hfirst
      rw [if_neg (by simp [hname])]
      exact breaks_bind_left (breaks_isCandidate h hrooted hexamined hraw)
    · have hrest : ∃ name ∈ names, isBackupName name = true ∧
          ∃ raw, Examined fs (manager.parts ++ [name]) raw ∧ exhausts raw = true := by
        obtain ⟨name, hmem, hname⟩ := hdeep
        rcases List.mem_cons.mp hmem with rfl | hmem
        · exact absurd hname hfirst
        · exact ⟨name, hmem, hname⟩
      cases hname : isBackupName first with
      | false => simpa using ih hrest
      | true =>
        have hparsable : ∀ raw, Examined fs (manager.parts ++ [first]) raw → exhausts raw = false :=
          fun raw hexamined => by
            by_contra hraw
            exact hfirst ⟨hname, raw, hexamined, by simpa using hraw⟩
        obtain ⟨found, -, hgoes⟩ := goes_isCandidate h hrooted hparsable
        exact breaks_bind hgoes (breaks_bind_left (ih hrest))

theorem goes_completeBackups (hrooted : Rooted fs manager.parts)
    (hparsable : Parsable manager exhausts fs) {parent : GuardedDirectory}
    (hparent : parent.path = manager.parts) :
    ∃ found, found.Pairwise (· < ·) ∧ (∀ b, b ∈ found ↔ CompleteName env manager fs b) ∧
      Goes (manager.completeBackups env parent exhausts) fs found fs := by
  obtain ⟨found, hfound, hgoes⟩ := goes_completeAmong h hrooted hparsable
    ((fs.names manager.parts).insertionSort (· ≤ ·))
  have hrun : Goes (manager.completeBackups env parent exhausts) fs found fs := by
    refine goes_bind (goes_listdir h) ?_
    rw [parent.path_handle, hparent]
    exact hgoes
  refine ⟨found, ?_, fun b => ?_, hrun⟩
  · obtain ⟨w', hok, -⟩ := hrun ⟨fs, 0, false, [], ⟨[], false, none, false⟩⟩ rfl
    exact (completeBackups_ok (fun q _ => h.calm.spares) hok).1
  · rw [hfound, List.mem_insertionSort, Fs.mem_names_iff]
    refine ⟨And.right, fun hb => ⟨?_, hb⟩⟩
    obtain ⟨node, hnode, -⟩ := hb.2.directory
    rw [hnode]
    rfl

theorem breaks_completeBackups (hrooted : Rooted fs manager.parts)
    (hdeep : ¬ Parsable manager exhausts fs) {parent : GuardedDirectory}
    (hparent : parent.path = manager.parts) :
    Breaks (manager.completeBackups env parent exhausts) fs .recursion := by
  simp only [Parsable, not_forall, Bool.not_eq_false] at hdeep
  obtain ⟨name, raw, hname, hexamined, hraw⟩ := hdeep
  refine breaks_bind (goes_listdir h) (breaks_completeAmong h hrooted ⟨name, ?_, hname, raw,
    hexamined, hraw⟩)
  obtain ⟨node, hnode, -⟩ := hexamined.directory
  rw [parent.path_handle, hparent, List.mem_insertionSort, Fs.mem_names_iff, hnode]
  rfl

/-! ## Removing them -/

/-- `fs'` is `fs` without the entries `names` of `p`. -/
structure Emptied (p : Path) (names : List Text) (fs fs' : Fs) : Prop where
  gone : ∀ x ∈ names, fs'.lookup (p ++ [x]) = none
  same : ∀ q, (∀ x ∈ names, q ≠ p ++ [x]) → fs'.lookup q = fs.lookup q

theorem goes_unlinks {p : Path} {names : List Text} (hnodup : names.Nodup)
    (hregular : ∀ x ∈ names, Regular fs (p ++ [x])) :
    ∃ fs', Emptied p names fs fs' ∧ Goes (names.forM fun x => unlink env (p ++ [x])) fs () fs' := by
  induction names generalizing fs with
  | nil => exact ⟨fs, ⟨by simp, fun _ _ => rfl⟩, goes_pure⟩
  | cons name names ih =>
    obtain ⟨hname, hnodup⟩ := List.nodup_cons.mp hnodup
    obtain ⟨node, hnode, hkind, -⟩ := hregular name List.mem_cons_self
    have hother : ∀ x ∈ names, p ++ [x] ≠ p ++ [name] := by
      intro x hx heq
      cases List.append_cancel_left heq
      exact hname hx
    obtain ⟨fs', hemptied, hgoes⟩ := @ih (fs.put (p ++ [name]) none) hnodup fun x hx => by
      rw [Regular, Fs.lookup_put_ne (hother x hx)]
      exact hregular x (List.mem_cons_of_mem _ hx)
    refine ⟨fs', ⟨fun x hx => ?_, fun q hq => ?_⟩,
      goes_bind (goes_unlink h hnode (by simp [hkind])) hgoes⟩
    · rcases List.mem_cons.mp hx with rfl | hx
      · rw [hemptied.same _ fun y hy => (hother y hy).symm, Fs.lookup_put]
      · exact hemptied.gone x hx
    · rw [hemptied.same q fun x hx => hq x (List.mem_cons_of_mem _ hx),
        Fs.lookup_put_ne (hq name List.mem_cons_self)]

theorem goes_emptyBackup (hrooted : Rooted fs manager.parts) {name : Text}
    (hcomplete : Complete env manager.patchId fs (manager.parts ++ [name])) :
    ∃ fs', (∀ x, fs'.lookup (manager.parts ++ [name] ++ [x]) = none) ∧
      (∀ q, (∀ x, q ≠ manager.parts ++ [name] ++ [x]) → fs'.lookup q = fs.lookup q) ∧
      Goes (manager.emptyBackup env name) fs true fs' := by
  obtain ⟨raw, hexamined, -⟩ := hcomplete.examined
  have hlisted : ∀ x, x ∈ fs.names (manager.parts ++ [name]) ↔ x = targetName ∨ x = metadataFile :=
    fun x => Fs.mem_names_iff.trans (hcomplete.listing x)
  have hregular : ∀ x ∈ fs.names (manager.parts ++ [name]),
      Regular fs (manager.parts ++ [name] ++ [x]) := fun x hx =>
    hexamined.regular x (by simpa using (hlisted x).mp hx)
  obtain ⟨fs', hemptied, hgoes⟩ := goes_unlinks h (Fs.nodup_names fs _) hregular
  obtain ⟨node, hnode, hkind⟩ := hcomplete.directory
  refine ⟨fs', fun x => ?_, fun q hq => hemptied.same q fun x _ => hq x,
    goes_withDirectory h (hrooted.append hnode hkind) fun directory hpath hparts hcurrent => ?_⟩
  · by_cases hx : x ∈ fs.names (manager.parts ++ [name])
    · exact hemptied.gone x hx
    · rw [hemptied.same, ← Option.not_isSome_iff_eq_none, ← Fs.mem_names_iff]
      · exact hx
      · rintro y hy heq
        cases List.append_cancel_left heq
        exact hx hy
  · refine goes_bind (goes_listdir h) ?_
    rw [if_neg (by simp [Examined.listed (hpath ▸ hexamined)]), directory.path_handle, hpath]
    refine goes_bind (goes_anyIrregular h fun x hx => hpath ▸ hregular x hx) ?_
    rw [if_neg Bool.false_ne_true]
    refine goes_bind (goes_verify h hcurrent) (goes_bind hgoes goes_pure)

theorem goes_removeAll {names : List Text} (hnodup : names.Nodup) {parent : GuardedDirectory}
    (hpath : parent.path = manager.parts) (hparts : parent.parts = manager.parts)
    (hrooted : Rooted fs manager.parts) (hcurrent : parent.Current fs)
    (hcomplete : ∀ b ∈ names, Complete env manager.patchId fs (manager.parts ++ [b])) :
    ∃ fs', (∀ b ∈ names, fs'.lookup (manager.parts ++ [b]) = none) ∧
      (∀ q, (∀ b ∈ names, ¬ manager.parts ++ [b] <+: q) → fs'.lookup q = fs.lookup q) ∧
      Goes (manager.removeAll env parent names) fs () fs' := by
  induction names generalizing fs with
  | nil => exact ⟨fs, by simp, fun _ _ => rfl, goes_pure⟩
  | cons name names ih =>
    obtain ⟨hname, hnodup⟩ := List.nodup_cons.mp hnodup
    have hbackup := hcomplete name List.mem_cons_self
    obtain ⟨fs₁, hgone, hsame, hempty⟩ := goes_emptyBackup h hrooted hbackup
    obtain ⟨node, hnode, hkind⟩ := hbackup.directory
    have hnode₁ : fs₁.lookup (manager.parts ++ [name]) = some node := by
      rw [hsame _ fun x => by simp, hnode]
    have hnames : fs₁.names (manager.parts ++ [name]) = [] :=
      List.eq_nil_iff_forall_not_mem.mpr fun x hx => by
        rw [Fs.mem_names_iff, hgone] at hx
        cases hx
    -- Only what is below the backup has changed.
    have hout : ∀ q, ¬ manager.parts ++ [name] <+: q →
        (fs₁.put (manager.parts ++ [name]) none).lookup q = fs.lookup q := by
      intro q hq
      rw [Fs.lookup_put_ne, hsame]
      · rintro x rfl
        exact hq (List.prefix_append _ _)
      · rintro rfl
        exact hq (List.prefix_refl _)
    have hshort : ∀ q, q <+: manager.parts → ¬ manager.parts ++ [name] <+: q := fun q hq hbelow =>
      absurd (hbelow.trans hq).length_le (by simp)
    have hother : ∀ b ∈ names, ∀ q, manager.parts ++ [b] <+: q → ¬ manager.parts ++ [name] <+: q := by
      intro b hb q hq hbelow
      exact hname (eq_of_below hq hbelow ▸ hb)
    have hcurrent₁ : parent.Current fs₁ := hcurrent.congr fun q hq => hsame q fun x => by
      rintro rfl
      exact absurd (hparts ▸ hq).length_le (by simp)
    obtain ⟨fs', hgone', hsame', hgoes⟩ := @ih (fs₁.put (manager.parts ++ [name]) none) hnodup
      (fun q hq => by
        rw [hout q (hshort q hq)]
        exact hrooted q hq)
      (hcurrent.congr fun q hq => hout q (hshort q (hparts ▸ hq)))
      fun b hb => (hcomplete b (List.mem_cons_of_mem _ hb)).congr fun q hq => hout q (hother b hb q hq)
    refine ⟨fs', fun b hb => ?_, fun q hq => ?_, goes_bind hempty ?_⟩
    · rcases List.mem_cons.mp hb with rfl | hb
      · rw [hsame' _ fun b hb' hbelow => hother b hb' _ hbelow (List.prefix_refl _), Fs.lookup_put]
      · exact hgone' b hb
    · rw [hsame' q fun b hb => hq b (List.mem_cons_of_mem _ hb), hout q (hq name List.mem_cons_self)]
    · rw [if_pos rfl]
      refine goes_bind (goes_verify h hcurrent₁) (goes_bind (a := ()) ?_ hgoes)
      rw [hpath]
      exact goes_rmdir h hnode₁ hkind hnames

omit h in
theorem Recent.of_mem_drop {found : List Text} {name : Text} (hsorted : found.Pairwise (· < ·))
    (hall : ∀ b, b ∈ found ↔ CompleteName env manager fs b)
    (hname : name ∈ found.drop (found.length - manager.retention)) :
    Recent env manager fs name := by
  intro l hnodup hl
  rw [← List.take_append_drop (found.length - manager.retention) found,
    List.pairwise_append] at hsorted
  obtain ⟨-, -, hlt⟩ := hsorted
  have hsub : name :: l ⊆ found.drop (found.length - manager.retention) := by
    intro c hc
    rcases List.mem_cons.mp hc with rfl | hc
    · exact hname
    · obtain ⟨hgt, hcomplete⟩ := hl c hc
      have hmem := (hall c).mpr hcomplete
      rw [← List.take_append_drop (found.length - manager.retention) found] at hmem
      refine (List.mem_append.mp hmem).resolve_left fun hc' => ?_
      exact List.lt_asymm hgt (hlt c hc' name hname)
  have hnodup' : (name :: l).Nodup := List.nodup_cons.mpr ⟨fun hmem =>
    List.lt_irrefl _ (hl name hmem).1, hnodup⟩
  have hlength := (List.subperm_of_subset hnodup' hsub).length_le
  rw [List.length_drop, List.length_cons] at hlength
  omega

omit h in
/-- Pruning that finds no directory of backups changes nothing. -/
theorem prune_unrooted (hcalm : env.Calm) {out : Except Exc Unit} {w w' : World}
    (hrun : manager.prune env exhausts w = (out, w')) (hrooted : ¬ Rooted w.fs manager.parts) :
    w'.fs = w.fs := by
  obtain ⟨out, hbody⟩ := prune_body hrun
  rcases bind_eq_iff.mp hbody with ⟨e, henter, -⟩ | ⟨parent, t, henter, -⟩
  · exact Steps.calls_fs hcalm ((does_enter trivial fun hc =>
      absurd hc Bool.false_ne_true).of_eq henter)
  · exact absurd (fun p hp => enter_isPrefix hcalm henter hp) hrooted

/-- Too deep a metadata file stops pruning before it has changed anything. -/
theorem prune_deep {out : Except Exc Unit} {w w' : World}
    (hrun : manager.prune env exhausts w = (out, w')) (hrooted : Rooted w.fs manager.parts)
    (hdeep : ¬ Parsable manager exhausts w.fs) : w'.fs = w.fs := by
  obtain ⟨out, hbody⟩ := prune_body hrun
  obtain ⟨parent, hpath, -, -, henter⟩ := goes_enter h hrooted
  have hdoes : Does env OnlyCalls (GuardedDirectory.enter env manager.parts) :=
    does_enter trivial fun hc => absurd hc Bool.false_ne_true
  rcases bind_eq_iff.mp hbody with ⟨e, henter', -⟩ | ⟨parent', t, henter', hrest⟩
  · exact Steps.calls_fs h.calm (hdoes.of_eq henter')
  obtain ⟨heq, ht⟩ := henter.run henter'
  cases heq
  obtain ⟨out', t', hloop, hexit⟩ := ensure_eq_iff.mp hrest
  have hclosed : Steps env OnlyCalls t' w' := by
    rcases hexit with ⟨hexit, -⟩ | ⟨_, hexit, -⟩ <;> exact (does_exit trivial).of_eq hexit
  have hbreaks : Breaks (manager.completeBackups env parent exhausts) w.fs .recursion :=
    breaks_completeBackups h hrooted hdeep hpath
  rcases bind_eq_iff.mp hloop with ⟨e, hfound, -⟩ | ⟨found, t₁, hfound, -⟩
  · have hsteps : Steps env OnlyCalls t t' := (does_completeBackups trivial).of_eq hfound
    rw [Steps.calls_fs h.calm hclosed, Steps.calls_fs h.calm hsteps, ht]
  · have hraised := hbreaks t ht
    rw [hfound] at hraised
    cases hraised

/-- When nothing fails, pruning removes the complete backups but for the last `retention`. -/
theorem prune_rooted {out : Except Exc Unit} {w w' : World}
    (hrun : manager.prune env exhausts w = (out, w')) (hrooted : Rooted w.fs manager.parts)
    (hparsable : Parsable manager exhausts w.fs) :
    ∃ found : List Text, found.Pairwise (· < ·) ∧
      (∀ b, b ∈ found ↔ CompleteName env manager w.fs b) ∧
      (∀ b ∈ found.take (found.length - manager.retention),
        w'.fs.lookup (manager.parts ++ [b]) = none) ∧
      (∀ q, q ≠ manager.parts → (∀ b ∈ found.take (found.length - manager.retention),
        ¬ manager.parts ++ [b] <+: q) → w'.fs.lookup q = w.fs.lookup q) ∧
      Rooted w'.fs manager.parts := by
  obtain ⟨out, hbody⟩ := prune_body hrun
  obtain ⟨parent, hpath, hparts, hcurrent, henter⟩ := goes_enter h hrooted
  obtain ⟨found, hsorted, hall, hfound⟩ := goes_completeBackups h hrooted hparsable hpath
  have hnodup : found.Nodup := hsorted.imp fun {a b} hab => by
    rintro rfl
    exact List.lt_irrefl _ hab
  obtain ⟨fs', hgone, hsame, hremove⟩ := goes_removeAll h
    (hnodup.sublist (List.take_sublist (found.length - manager.retention) found)) hpath hparts
    hrooted hcurrent fun b hb => ((hall b).mp (List.mem_of_mem_take hb)).2
  obtain ⟨-, hfs⟩ := Goes.run (goes_bind henter (goes_ensure (goes_bind hfound
    (goes_bind hremove (goes_fsync h))) (goes_exit h))) hbody
  have hshort : ∀ p, p <+: manager.parts →
      ∀ b ∈ found.take (found.length - manager.retention), ¬ manager.parts ++ [b] <+: p := by
    intro p hp b _ hbelow
    exact absurd (hbelow.trans hp).length_le (by simp)
  refine ⟨found, hsorted, hall, fun b hb => ?_, fun q hq hout => ?_, fun p hp => ?_⟩
  · rw [hfs, hpath, Fs.lookup_put_ne (by simp)]
    exact hgone b hb
  · rw [hfs, hpath, Fs.lookup_put_ne hq]
    exact hsame q hout
  · obtain ⟨node, hnode, hkind⟩ := hrooted p hp
    rw [← hsame p (hshort p hp)] at hnode
    by_cases hp' : p = manager.parts
    · rw [hp'] at hnode
      rw [hp', hfs, hpath, Fs.lookup_put, hnode]
      exact ⟨_, rfl, hkind⟩
    · rw [hfs, hpath, Fs.lookup_put_ne hp']
      exact ⟨node, hnode, hkind⟩

/-- When nothing fails, pruning leaves just the recent backups. -/
theorem prune_left {out : Except Exc Unit} {w w' : World}
    (hrun : manager.prune env exhausts w = (out, w')) (hrooted : Rooted w.fs manager.parts)
    (hparsable : Parsable manager exhausts w.fs) {name : Text} {data : Bytes}
    (hholds : Holds env manager w'.fs name data) :
    Recent env manager w.fs name ∧ Holds env manager w.fs name data := by
  obtain ⟨found, hsorted, hall, hgone, hsame, -⟩ := prune_rooted h hrun hrooted hparsable
  obtain ⟨hcomplete, node, hnode, hdata⟩ := hholds
  have hname : name ∉ found.take (found.length - manager.retention) := by
    intro hmem
    obtain ⟨d, hd, -⟩ := hcomplete.2.directory
    rw [hgone name hmem] at hd
    cases hd
  have hkept : ∀ q, manager.parts ++ [name] <+: q → w.fs.lookup q = w'.fs.lookup q := by
    intro q hq
    refine (hsame q ?_ ?_).symm
    · rintro rfl
      exact absurd hq.length_le (by simp)
    · rintro b hb hbelow
      exact hname (eq_of_below hbelow hq ▸ hb)
  have hbefore := hcomplete.congr hkept
  have hmem := (hall name).mpr hbefore
  rw [← List.take_append_drop (found.length - manager.retention) found] at hmem
  refine ⟨Recent.of_mem_drop hsorted hall ((List.mem_append.mp hmem).resolve_left hname), hbefore,
    node, ?_, hdata⟩
  rw [hkept _ (List.prefix_append _ _), hnode]

end Quiet

end Hapatchy
