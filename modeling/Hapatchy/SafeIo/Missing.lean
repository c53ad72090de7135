import Hapatchy.SafeIo.Quiet

/-!
# Files that are missing

A guarded file is reported as missing only where it is, or a directory above it.
-/

open Effects Prog

namespace Hapatchy

/-- No call fails as if a path were missing. -/
def Env.Honest (env : Env) : Prop :=
  ∀ n fault, env.fault n = some fault → fault.error ≠ .fileNotFound

/-- Nothing is at the path, or at one above it. -/
def Fs.Missing (fs : Fs) (p : Path) : Prop := ∃ q, q <+: p ∧ fs.lookup q = none

def Exc.SaysMissing : Exc → Prop
  | .os error => error = .fileNotFound
  | .patch error => error.status = .missingTarget
  | _ => False

/-- In the tree `fs`, which it leaves, `m` says that a file is missing only if `T` is. -/
def Candid {α : Type} (fs : Fs) (T : Path) (m : Io α) : Prop :=
  Prog.Keeps (fun w => w.fs = fs) (fun e w => w.fs = fs ∧ (e.SaysMissing → fs.Missing T)) m

variable {env : Env} {α β : Type} {fs : Fs} {T : Path} {m : Io α}

theorem candid_raise {e : Exc} (h : ¬ e.SaysMissing) : Candid fs T (raise e : Io α) :=
  fun _ hw => ⟨hw, fun he => absurd he h⟩

theorem candid_raisePatch {reason : Reason} {status : Status} (h : status ≠ .missingTarget) :
    Candid fs T (raisePatch reason status : Io α) := candid_raise h

theorem candid_ofPatch {x : Except PatchError α} (h : ∀ e, x = .error e → e.status ≠ .missingTarget) :
    Candid fs T (ofPatch x) := by
  intro w hw
  unfold ofPatch lift
  cases x with
  | ok a => exact hw
  | error e => exact ⟨hw, fun he => absurd he (h e rfl)⟩

/-- An error of the operating system becomes another one. -/
theorem candid_rescueOs {handler : OsError → Io α} (hm : Candid fs T m)
    (hmissing : fs.Missing T → Candid fs T (handler .fileNotFound))
    (hother : ∀ e, e ≠ .fileNotFound → Candid fs T (handler e)) :
    Candid fs T (rescueOs m handler) := by
  apply keeps_rescue hm
  intro e w hw
  cases e with
  | os error =>
    by_cases herror : error = .fileNotFound
    · subst herror
      exact hmissing (hw.2 rfl) w hw.1
    · exact hother error herror w hw.1
  | _ => exact hw

theorem candid_ensure {cleanup : Except Exc α → Io Unit} (hm : Candid fs T m)
    (hcleanup : ∀ out, Candid fs T (cleanup out)) : Candid fs T (ensure m cleanup) := by
  intro w hw
  have hbody := hm w hw
  unfold ensure
  rcases hrun : m w with ⟨out, t⟩
  rw [hrun] at hbody
  have ht : t.fs = fs := by
    cases out with
    | ok a => exact hbody
    | error e => exact hbody.1
  have hclean := hcleanup out t ht
  simp only
  rcases hrun' : cleanup out t with ⟨e | u, t'⟩ <;> rw [hrun'] at hclean
  · exact hclean
  · cases out with
    | ok a => exact hclean
    | error e => exact ⟨hclean, hbody.2⟩

theorem candid_onError {cleanup : Io Unit} (hm : Candid fs T m) (hcleanup : Candid fs T cleanup) :
    Candid fs T (onError m cleanup) := by
  apply keeps_rescue hm
  intro e w hw
  have hclean := hcleanup w hw.1
  rw [bind_run]
  rcases hrun : cleanup w with ⟨e' | u, t⟩ <;> rw [hrun] at hclean
  · exact hclean
  · exact ⟨hclean, hw.2⟩

/-! ## Directories that are open -/

theorem guardedEnter_current (hcalm : env.Calm) {path : Text} {file : GuardedFile} {w w' : World}
    (h : GuardedFile.enter env path false w = (.ok file, w')) :
    file.directory.Current w.fs ∧ file.directory.parts = (path.splitOn '/').dropLast := by
  obtain ⟨parts, t, hlift, h⟩ := bind_ok_iff.mp h
  obtain ⟨hparts, rfl⟩ := ofPatch_ok hlift
  obtain rfl := relativeParts_ok hparts
  obtain ⟨directory, t', henter, h⟩ := bind_ok_iff.mp h
  obtain ⟨⟨⟩, -⟩ := pure_eq_iff.mp h
  rcases rescueOs_ok henter with henter | ⟨e, u, -, hhandler⟩
  · obtain ⟨hparts, -, hcurrent⟩ := enter_current (fun _ _ => hcalm.spares) henter
    rw [Steps.calls_fs hcalm ((does_enter trivial fun hc =>
      absurd hc Bool.false_ne_true).of_eq henter)] at hcurrent
    exact ⟨hcurrent, hparts⟩
  · cases e <;> cases (raise_eq_iff.mp hhandler).1

/-! ## Calls -/

section Calls

variable (hcalm : env.Calm) (hhonest : env.Honest)

include hcalm hhonest

theorem candid_look {act : Nat → Fs → Except OsError α}
    (hact : ∀ n, act n fs = .error .fileNotFound → fs.Missing T) : Candid fs T (look env act) := by
  intro w hw
  have hfs : (arrive env w).fs = fs := (hcalm.arrive_fs w).trans hw
  unfold look
  split
  · rename_i fault hfault
    exact ⟨hfs, fun he => absurd he (hhonest _ _ hfault)⟩
  · rw [hfs]
    cases hresult : act w.step fs with
    | ok a => exact hfs
    | error e =>
      refine ⟨hfs, fun he => hact w.step ?_⟩
      rw [hresult]
      exact congrArg _ he

theorem candid_close {handle : Handle} : Candid fs T (close env handle) := by
  apply candid_look hcalm hhonest
  intro n h
  cases h

theorem candid_fstatDirectory {handle : Handle} : Candid fs T (fstatDirectory env handle) := by
  apply candid_look hcalm hhonest
  intro n h
  cases h

theorem candid_lstat {p : Path} (hp : p <+: T) : Candid fs T (lstat env p) := by
  apply candid_look hcalm hhonest
  intro n h
  split at h
  · rename_i hnone
    exact ⟨p, hp, hnone⟩
  · cases h

theorem candid_openDirectory {p : Path} (hp : p <+: T) : Candid fs T (openDirectory env p) := by
  apply candid_look hcalm hhonest
  intro n h
  split at h
  · rename_i hnone
    exact ⟨p, hp, hnone⟩
  · split at h <;> cases h

theorem candid_openFile {p : Path} (hp : p <+: T) : Candid fs T (openFile env p) := by
  apply candid_look hcalm hhonest
  intro n h
  split at h
  · rename_i hnone
    exact ⟨p, hp, hnone⟩
  · split at h <;> cases h

/-! ## Directories -/

theorem candid_exit {directory : GuardedDirectory} : Candid fs T (directory.exit env) :=
  keeps_forM fun _ _ => candid_close hcalm hhonest

theorem candid_verifyBelow {parent : Handle} {handles : List Handle} {names : List Text}
    (hcurrent : CurrentBelow fs parent.path handles names) (hnames : parent.path ++ names <+: T) :
    Candid fs T (verifyBelow env parent handles names) := by
  induction handles generalizing parent names with
  | nil => exact keeps_pure
  | cons child handles ih =>
    cases names with
    | nil => exact keeps_pure
    | cons name names =>
      obtain ⟨hpath, -, hrest⟩ := hcurrent
      have hassoc : parent.path ++ [name] ++ names = parent.path ++ name :: names := by simp
      rw [← hassoc] at hnames
      apply keeps_bind (candid_lstat hcalm hhonest ((List.prefix_append _ _).trans hnames))
      intro current
      apply keeps_bind (candid_fstatDirectory hcalm hhonest)
      intro opened
      apply keeps_ite
      · exact fun _ => candid_raisePatch Status.noConfusion
      · exact fun _ => ih hrest (hpath ▸ hnames)

theorem candid_verify {directory : GuardedDirectory} (hcurrent : directory.Current fs)
    (hparts : directory.parts <+: T) : Candid fs T (directory.verify env) := by
  unfold GuardedDirectory.Current at hcurrent
  unfold GuardedDirectory.verify
  cases hhandles : directory.handles with
  | nil => exact keeps_pure
  | cons root handles =>
    simp only [hhandles] at hcurrent
    obtain ⟨hpath, -, hrest⟩ := hcurrent
    apply keeps_bind (candid_lstat hcalm hhonest List.nil_prefix)
    intro info
    apply keeps_bind (candid_fstatDirectory hcalm hhonest)
    intro opened
    apply keeps_ite
    · exact fun _ => candid_raisePatch Status.noConfusion
    · intro _
      apply candid_verifyBelow hcalm hhonest (hpath ▸ hrest)
      rw [hpath]
      exact hparts

theorem candid_openParts {done rest : List Text} {root parent : Handle} {handles : List Handle}
    (hroot : root.path = [] ∧ OpenAt fs root) (hcurrent : CurrentBelow fs [] handles done)
    (hparent : parent.path = done) (hparts : done ++ rest <+: T) :
    Candid fs T (openParts env false (done ++ rest) parent (root :: handles) rest) := by
  induction rest generalizing done parent handles with
  | nil =>
    rw [List.append_nil] at hparts ⊢
    apply keeps_bind
    · apply candid_onError
      · exact candid_verify hcalm hhonest ⟨hroot.1, hroot.2, hcurrent⟩ hparts
      · exact candid_exit hcalm hhonest
    · exact fun _ => keeps_pure
  | cons part rest ih =>
    have hassoc : done ++ part :: rest = done ++ [part] ++ rest := by simp
    rw [hassoc] at hparts ⊢
    apply keeps_bind_of
    · apply candid_onError
      · apply candid_openDirectory hcalm hhonest
        rw [hparent]
        exact (List.prefix_append _ _).trans hparts
      · exact candid_exit hcalm hhonest
    · intro child w w' hw hopen
      obtain ⟨hchild, node, hnode, hkind, hino⟩ :=
        openDirectory_ok (p := parent.path ++ [part]) (onError_ok hopen)
      have ht : w'.fs = w.fs :=
        Steps.calls_fs hcalm ((does_openDirectory trivial).of_eq (onError_ok hopen))
      rw [hparent] at hchild hnode
      have hopened : OpenAt fs child := ⟨node, by rw [hchild, ← hw, ← ht, hnode], hkind, hino⟩
      exact ih (hcurrent.append hchild hopened) hchild hparts

theorem candid_enter {parts : List Text} (hparts : parts <+: T) :
    Candid fs T (GuardedDirectory.enter env parts false) := by
  apply keeps_bind_of
  · exact candid_openDirectory hcalm hhonest List.nil_prefix
  · intro root w w' hw hroot
    obtain ⟨hpath, node, hnode, hkind, hino⟩ := openDirectory_ok hroot
    have ht : w'.fs = w.fs := Steps.calls_fs hcalm ((does_openDirectory trivial).of_eq hroot)
    have hnone : CurrentBelow fs [] [] [] := trivial
    apply candid_openParts hcalm hhonest ⟨hpath, ?_⟩ hnone hpath hparts
    exact ⟨node, by rw [hpath, ← hw, ← ht, hnode], hkind, hino⟩

/-! ## Files -/

/-- A guarded file is reported as missing only where a part of its path is. -/
theorem candid_guardedEnter {path : Text} (hpath : path.splitOn '/' = T) :
    Candid fs T (GuardedFile.enter env path false) := by
  apply keeps_bind_of
  · apply candid_ofPatch
    intro e he
    rw [relativeParts] at he
    split at he
    · cases he
      exact Status.noConfusion
    split at he
    · cases he
      exact Status.noConfusion
    · cases he
  intro parts w w' hw hparts
  obtain rfl := relativeParts_ok (ofPatch_ok hparts).1
  apply keeps_bind
  · apply candid_rescueOs
    · apply candid_enter hcalm hhonest
      rw [hpath]
      exact List.dropLast_prefix T
    · exact fun hmissing w hw => ⟨hw, fun _ => hmissing⟩
    · intro e he
      cases e with
      | fileNotFound => exact absurd rfl he
      | _ => exact candid_raisePatch Status.noConfusion
  · exact fun _ => keeps_pure

theorem candid_readChunks {handle : Handle} {limit fuel : Nat} {data : Bytes} :
    Candid fs T (readChunks env handle limit fuel data) := by
  induction fuel generalizing data with
  | zero => exact keeps_pure
  | succ fuel ih =>
    apply keeps_bind
    · apply candid_look hcalm hhonest
      intro n h
      cases h
    · intro chunk
      apply keeps_ite
      · exact fun _ => keeps_pure
      · intro _
        apply keeps_ite
        · exact fun _ => candid_raisePatch Status.noConfusion
        · exact fun _ => ih

theorem candid_fstatFile {handle : Handle} : Candid fs T (fstatFile env handle) := by
  apply candid_look hcalm hhonest
  intro n h
  cases h

theorem candid_readOpen {handle : Handle} {limit : Nat} :
    Candid fs T (GuardedFile.readOpen env handle limit) := by
  apply keeps_bind (candid_fstatFile hcalm hhonest)
  intro before
  apply keeps_ite
  · exact fun _ => candid_raisePatch Status.noConfusion
  intro _
  apply keeps_ite
  · exact fun _ => candid_raisePatch Status.noConfusion
  intro _
  apply keeps_bind (candid_readChunks hcalm hhonest)
  intro data
  apply keeps_bind (candid_fstatFile hcalm hhonest)
  intro after
  apply keeps_ite
  · exact fun _ => candid_raisePatch Status.noConfusion
  · exact fun _ => keeps_pure

theorem candid_read {target : GuardedFile} {limit : Nat} (hcurrent : target.directory.Current fs)
    (hparts : target.directory.parts <+: T) (hpath : target.path = T) :
    Candid fs T (target.read env limit) := by
  apply candid_rescueOs
  · apply keeps_bind (candid_verify hcalm hhonest hcurrent hparts)
    intro _
    apply keeps_bind
    · apply candid_openFile hcalm hhonest
      rw [hpath]
    · intro handle
      apply candid_ensure (candid_readOpen hcalm hhonest)
      exact fun _ => candid_close hcalm hhonest
  · exact fun hmissing w hw => ⟨hw, fun _ => hmissing⟩
  · intro e he
    cases e with
    | fileNotFound => exact absurd rfl he
    | _ => exact candid_raisePatch Status.noConfusion

end Calls

end Hapatchy
