import Hapatchy.Os.Outcomes
import Hapatchy.SafeIo

/-!
# What guarded access does

Guarded reads change nothing, raise controlled errors only, and return the
target as it is when nobody acts meanwhile.
-/

open Effects Prog

namespace Hapatchy

variable {env : Env} {α : Type} {L : Label → Prop} {w w' : World}

/-! ## Exceptions -/

theorem does_rescueOs {body : Io α} {handler : OsError → Io α} (hbody : Does env L body)
    (hhandler : ∀ e, Does env L (handler e)) : Does env L (rescueOs body handler) :=
  runs_rescue hbody fun e => by
    cases e with
    | os e => exact hhandler e
    | _ => exact runs_raise

theorem does_onError {body : Io α} {cleanup : Io Unit} (hbody : Does env L body)
    (hcleanup : Does env L cleanup) : Does env L (onError body cleanup) :=
  runs_rescue hbody fun _ => runs_bind hcleanup fun _ => runs_raise

theorem does_ofPatch {x : Except PatchError α} : Does env L (ofPatch x) := runs_lift

theorem does_raisePatch {reason : Reason} {status : Status} :
    Does env L (raisePatch reason status : Io α) := runs_raise

theorem ofPatch_ok {x : Except PatchError α} {a : α} (h : ofPatch x w = (.ok a, w')) :
    x = .ok a ∧ w' = w := by
  obtain ⟨hx, hw⟩ := lift_eq_iff.mp h
  exact ⟨Results.mapError_eq_ok.mp hx.symm, hw⟩

theorem rescueOs_ok {body : Io α} {handler : OsError → Io α} {a : α}
    (h : rescueOs body handler w = (.ok a, w')) :
    body w = (.ok a, w') ∨ ∃ e t, body w = (.error (.os e), t) ∧ handler e t = (.ok a, w') := by
  rcases rescue_eq_iff.mp h with ⟨a', hbody, ⟨⟩⟩ | ⟨e, t, hbody, hhandler⟩
  · exact Or.inl hbody
  · cases e with
    | os e => exact Or.inr ⟨e, t, hbody, hhandler⟩
    | _ => simp at hhandler

theorem onError_ok {body : Io α} {cleanup : Io Unit} {a : α}
    (h : onError body cleanup w = (.ok a, w')) : body w = (.ok a, w') := by
  rcases rescue_eq_iff.mp h with ⟨a', hbody, ⟨⟩⟩ | ⟨e, t, -, hhandler⟩
  · exact hbody
  · simp [bind_ok_iff] at hhandler

/-- `PatchError`s. -/
def Exc.IsPatch : Exc → Prop
  | .patch _ => True
  | _ => False

theorem raises_raisePatch {P : Exc → Prop} {reason : Reason} {status : Status}
    (hP : ∀ e, P (.patch e)) : Raises P (raisePatch reason status : Io α) := raises_raise (hP _)

theorem raises_ofPatch {P : Exc → Prop} {x : Except PatchError α} (hP : ∀ e, P (.patch e)) :
    Raises P (ofPatch x) :=
  raises_lift fun e h => by
    obtain ⟨e', -, rfl⟩ := Results.mapError_eq_error.mp h
    exact hP e'

theorem raises_rescueOs {P : Exc → Prop} {body : Io α} {handler : OsError → Io α}
    (hbody : Raises (fun e => P e ∨ e.IsOs) body) (hhandler : ∀ e, Raises P (handler e)) :
    Raises P (rescueOs body handler) :=
  raises_rescue hbody fun e he => by
    cases e with
    | os e => exact hhandler e
    | _ => exact raises_raise (he.resolve_right id)

theorem raises_onError {P : Exc → Prop} {body : Io α} {cleanup : Io Unit} (hbody : Raises P body)
    (hcleanup : Raises P cleanup) : Raises P (onError body cleanup) :=
  raises_rescue hbody fun _ he => raises_bind hcleanup fun _ => raises_raise he

/-! ## Directories -/

theorem openDirectory_ok {p : Path} {handle : Handle}
    (h : openDirectory env p w = (.ok handle, w')) :
    handle.path = p ∧ ∃ node, w'.fs.lookup p = some node ∧ node.kind = .directory ∧
      node.ino = handle.ino := by
  rw [openDirectory, look] at h
  split at h
  · cases h
  · simp only [Prod.mk.injEq] at h
    obtain ⟨h, rfl⟩ := h
    rw [Results.mapError_eq_ok] at h
    split at h
    · cases h
    · rename_i node hnode
      split at h
      · rename_i hkind
        cases h
        exact ⟨rfl, node, hnode, hkind, rfl⟩
      · cases h

theorem openPart_ok {create : Bool} {parent child : Handle} {part : Text}
    (h : openPart env create parent part w = (.ok child, w')) :
    child.path = parent.path ++ [part] := by
  cases create
  · exact (openDirectory_ok h).1
  · obtain ⟨_, _, -, hopen⟩ := bind_ok_iff.mp h
    exact (openDirectory_ok hopen).1

theorem GuardedDirectory.path_of_last {directory : GuardedDirectory} {handle : Handle}
    (h : directory.handles.getLast? = some handle) : directory.path = handle.path := by
  rw [GuardedDirectory.path, h]
  rfl

theorem openParts_ok {create : Bool} {parts rest : List Text} {parent : Handle}
    {opened : List Handle} {directory : GuardedDirectory} (hlast : opened.getLast? = some parent)
    (h : openParts env create parts parent opened rest w = (.ok directory, w')) :
    directory.path = parent.path ++ rest := by
  induction rest generalizing parent opened w with
  | nil =>
    obtain ⟨_, t, -, hpure⟩ := bind_ok_iff.mp h
    obtain ⟨⟨⟩, rfl⟩ := pure_eq_iff.mp hpure
    rw [GuardedDirectory.path_of_last hlast, List.append_nil]
  | cons part rest ih =>
    obtain ⟨child, t, hopen, hrest⟩ := bind_ok_iff.mp h
    rw [ih (by simp) hrest, openPart_ok (onError_ok hopen), List.append_assoc,
      List.singleton_append]

/-- A guarded directory is at its parts. -/
theorem enter_ok {parts : List Text} {create : Bool} {directory : GuardedDirectory}
    (h : GuardedDirectory.enter env parts create w = (.ok directory, w')) :
    directory.path = parts := by
  obtain ⟨root, t, hroot, hparts⟩ := bind_ok_iff.mp h
  rw [openParts_ok rfl hparts, (openDirectory_ok hroot).1, List.nil_append]

section Looking

variable (h : L .call)

include h

theorem does_verifyBelow {parent : Handle} {handles : List Handle} {names : List Text} :
    Does env L (verifyBelow env parent handles names) := by
  induction handles generalizing parent names with
  | nil => exact runs_pure
  | cons child handles ih =>
    cases names with
    | nil => exact runs_pure
    | cons name names =>
      refine runs_bind (does_lstat h) fun current => runs_bind (does_fstatDirectory h) fun ino => ?_
      exact runs_ite (fun _ => does_raisePatch) fun _ => ih

theorem does_verify {directory : GuardedDirectory} : Does env L (directory.verify env) := by
  rw [GuardedDirectory.verify]
  split
  · exact runs_pure
  · refine runs_bind (does_lstat h) fun info => runs_bind (does_fstatDirectory h) fun ino => ?_
    exact runs_ite (fun _ => does_raisePatch) fun _ => does_verifyBelow h

theorem does_exit {directory : GuardedDirectory} : Does env L (directory.exit env) :=
  runs_forM fun _ _ => does_close h

/-- Entering edits the parts only where it creates them. -/
theorem does_openParts {create : Bool} {parts rest : List Text} {parent : Handle}
    {opened : List Handle}
    (hcreate : create → ∀ q part, parent.path <+: q → q ++ [part] <+: parent.path ++ rest →
      L (.edit (q ++ [part])) ∧ L (.sync q)) :
    Does env L (openParts env create parts parent opened rest) := by
  induction rest generalizing parent opened with
  | nil =>
    exact runs_bind (does_onError (does_verify h) (does_exit h)) fun _ => runs_pure
  | cons part rest ih =>
    have hopen : Does env L (openPart env create parent part) := by
      cases create
      · exact does_openDirectory h
      · obtain ⟨hedit, hsync⟩ := hcreate rfl parent.path part (List.prefix_refl _) (by simp)
        refine runs_bind (does_rescueOs ?_ fun e => ?_) fun _ => does_openDirectory h
        · exact runs_bind (does_mkdir h hedit) fun _ => does_fsync h hsync
        · cases e
          · exact runs_raise
          · exact runs_pure
          · exact runs_raise
    refine runs_bind_of (does_onError hopen (does_exit h)) fun child s s' hrun => ?_
    have hchild := openPart_ok (onError_ok hrun)
    refine ih fun hc q part' hq hpre => hcreate hc q part' ?_ ?_
    · exact (List.prefix_append _ _).trans (hchild ▸ hq)
    · rw [hchild, List.append_assoc, List.singleton_append] at hpre
      exact hpre

theorem does_enter {parts : List Text} {create : Bool}
    (hcreate : create → ∀ q part, q ++ [part] <+: parts → L (.edit (q ++ [part])) ∧ L (.sync q)) :
    Does env L (GuardedDirectory.enter env parts create) := by
  refine runs_bind_of (does_openDirectory h) fun root s s' hrun => does_openParts h ?_
  rw [(openDirectory_ok hrun).1, List.nil_append]
  exact fun hc q part _ hpre => hcreate hc q part hpre

theorem does_withDirectory {parts : List Text} {create : Bool} {body : GuardedDirectory → Io α}
    (hcreate : create → ∀ q part, q ++ [part] <+: parts → L (.edit (q ++ [part])) ∧ L (.sync q))
    (hbody : ∀ directory, directory.path = parts → Does env L (body directory)) :
    Does env L (withDirectory env parts create body) :=
  runs_bind_of (does_enter h hcreate) fun directory _ _ hrun =>
    runs_ensure (hbody directory (enter_ok hrun)) fun _ => does_exit h

/-- What was done in a guarded directory, between two rows of calls. -/
theorem withDirectory_ok {parts : List Text} {create : Bool} {body : GuardedDirectory → Io α}
    {a : α} (h' : withDirectory env parts create body w = (.ok a, w')) :
    ∃ directory t t', directory.path = parts ∧
      GuardedDirectory.enter env parts create w = (.ok directory, t) ∧
      body directory t = (.ok a, t') ∧ Steps env L t' w' := by
  obtain ⟨directory, t, henter, h'⟩ := bind_ok_iff.mp h'
  obtain ⟨out, t', hbody, ⟨hexit, rfl⟩ | ⟨e, -, ⟨⟩⟩⟩ := ensure_eq_iff.mp h'
  exact ⟨directory, t, t', enter_ok henter, henter, hbody, (does_exit h).of_eq hexit⟩

/-! ## Files -/

theorem does_readChunks {handle : Handle} {limit fuel : Nat} {data : Bytes} :
    Does env L (readChunks env handle limit fuel data) := by
  induction fuel generalizing data with
  | zero => exact runs_pure
  | succ fuel ih =>
    refine runs_bind (does_readAt h) fun chunk => runs_ite (fun _ => runs_pure) fun _ => ?_
    exact runs_ite (fun _ => does_raisePatch) fun _ => ih

theorem does_readOpen {handle : Handle} {limit : Nat} :
    Does env L (GuardedFile.readOpen env handle limit) := by
  refine runs_bind (does_fstatFile h) fun before => runs_ite (fun _ => does_raisePatch) fun _ => ?_
  refine runs_ite (fun _ => does_raisePatch) fun _ => runs_bind (does_readChunks h) fun data => ?_
  refine runs_bind (does_fstatFile h) fun after => ?_
  exact runs_ite (fun _ => does_raisePatch) fun _ => runs_pure

theorem does_guardedRead {target : GuardedFile} {limit : Nat} : Does env L (target.read env limit) := by
  refine does_rescueOs ?_ fun e => ?_
  · refine runs_bind (does_verify h) fun _ => runs_bind (does_openFile h) fun handle => ?_
    exact runs_ensure (does_readOpen h) fun _ => does_close h
  · cases e <;> exact does_raisePatch

theorem does_guardedEnter {path : Text} {internal : Bool} :
    Does env L (GuardedFile.enter env path internal) := by
  refine runs_bind does_ofPatch fun parts => runs_bind (does_rescueOs ?_ fun e => ?_) fun _ =>
    runs_pure
  · exact does_enter h fun hc => absurd hc Bool.false_ne_true
  · cases e <;> exact does_raisePatch

theorem does_guardedExit {target : GuardedFile} : Does env L (target.exit env) := does_exit h

theorem does_verifySnapshot {target : GuardedFile} {snapshot : Snapshot} (hv : L .verify) :
    Does env L (target.verifySnapshot env snapshot) := by
  refine runs_bind (fun w => Steps.single hv (.verify w)) fun _ =>
    runs_bind (does_guardedRead h) fun current => ?_
  exact runs_ite (fun _ => does_raisePatch) fun _ => runs_pure

end Looking

theorem relativeParts_ok {path : Text} {internal : Bool} {parts : List Text}
    (h : relativeParts path internal = .ok parts) : parts = path.splitOn '/' := by
  rw [relativeParts] at h
  split at h
  · cases h
  split at h
  · cases h
  · exact (Results.pure_eq_ok.mp h).symm

theorem guardedEnter_ok {path : Text} {internal : Bool} {target : GuardedFile}
    (h : GuardedFile.enter env path internal w = (.ok target, w')) :
    relativeParts path internal = .ok (path.splitOn '/') ∧ target.path = path.splitOn '/' := by
  obtain ⟨parts, t, hlift, h⟩ := bind_ok_iff.mp h
  obtain ⟨hparts, rfl⟩ := ofPatch_ok hlift
  obtain rfl := relativeParts_ok hparts
  obtain ⟨directory, t', henter, h⟩ := bind_ok_iff.mp h
  obtain ⟨⟨⟩, rfl⟩ := pure_eq_iff.mp h
  refine ⟨hparts, ?_⟩
  have hne : path.splitOn '/' ≠ [] := List.splitOn_ne_nil _ _
  rcases rescueOs_ok henter with henter | ⟨e, t'', -, hhandler⟩
  · rw [GuardedFile.path, GuardedFile.parent, enter_ok henter, List.getLast?_eq_some_getLast hne,
      Option.getD_some, List.dropLast_append_getLast hne]
  · cases e <;> cases (raise_eq_iff.mp hhandler).1

/-! ## What can be raised -/

theorem raises_verifyBelow {P : Exc → Prop} (hos : ∀ e, P (.os e)) (hpatch : ∀ e, P (.patch e))
    {parent : Handle} {handles : List Handle} {names : List Text} :
    Raises P (verifyBelow env parent handles names) := by
  induction handles generalizing parent names with
  | nil => exact raises_pure
  | cons child handles ih =>
    cases names with
    | nil => exact raises_pure
    | cons name names =>
      refine raises_bind (raises_look hos) fun current => raises_bind (raises_look hos) fun ino => ?_
      split
      · exact raises_raisePatch hpatch
      · exact ih

theorem raises_verify {P : Exc → Prop} (hos : ∀ e, P (.os e)) (hpatch : ∀ e, P (.patch e))
    {directory : GuardedDirectory} : Raises P (directory.verify env) := by
  rw [GuardedDirectory.verify]
  split
  · exact raises_pure
  · refine raises_bind (raises_look hos) fun info => raises_bind (raises_look hos) fun ino => ?_
    split
    · exact raises_raisePatch hpatch
    · exact raises_verifyBelow hos hpatch

theorem raises_exit {P : Exc → Prop} (hos : ∀ e, P (.os e)) {directory : GuardedDirectory} :
    Raises P (directory.exit env) := raises_forM fun _ _ => raises_look hos

theorem raises_openParts {P : Exc → Prop} (hos : ∀ e, P (.os e)) (hpatch : ∀ e, P (.patch e))
    {create : Bool} {parts rest : List Text} {parent : Handle} {opened : List Handle} :
    Raises P (openParts env create parts parent opened rest) := by
  induction rest generalizing parent opened with
  | nil =>
    exact raises_bind (raises_onError (raises_verify hos hpatch) (raises_exit hos)) fun _ =>
      raises_pure
  | cons part rest ih =>
    refine raises_bind (raises_onError ?_ (raises_exit hos)) fun _ => ih
    cases create
    · exact raises_openDirectory hos
    · refine raises_bind (raises_rescueOs ?_ fun e => ?_) fun _ => raises_openDirectory hos
      · exact raises_bind (raises_alter fun e => Or.inr trivial) fun _ =>
          raises_fsync fun e => Or.inr trivial
      · cases e <;> first | exact raises_pure | exact raises_raise (hos _)

theorem raises_enter {P : Exc → Prop} (hos : ∀ e, P (.os e)) (hpatch : ∀ e, P (.patch e))
    {parts : List Text} {create : Bool} :
    Raises P (GuardedDirectory.enter env parts create) :=
  raises_bind (raises_look hos) fun _ => raises_openParts hos hpatch

theorem raises_withDirectory {P : Exc → Prop} (hos : ∀ e, P (.os e)) (hpatch : ∀ e, P (.patch e))
    {parts : List Text} {create : Bool} {body : GuardedDirectory → Io α}
    (hbody : ∀ directory, Raises P (body directory)) :
    Raises P (withDirectory env parts create body) :=
  raises_bind (raises_enter hos hpatch) fun directory =>
    raises_ensure (hbody directory) fun _ => raises_exit hos

theorem raises_readChunks {P : Exc → Prop} (hos : ∀ e, P (.os e)) (hpatch : ∀ e, P (.patch e))
    {handle : Handle} {limit fuel : Nat} {data : Bytes} :
    Raises P (readChunks env handle limit fuel data) := by
  induction fuel generalizing data with
  | zero => exact raises_pure
  | succ fuel ih =>
    refine raises_bind (raises_look hos) fun chunk => ?_
    split
    · exact raises_pure
    · split
      · exact raises_raisePatch hpatch
      · exact ih

theorem raises_readOpen {P : Exc → Prop} (hos : ∀ e, P (.os e)) (hpatch : ∀ e, P (.patch e))
    {handle : Handle} {limit : Nat} : Raises P (GuardedFile.readOpen env handle limit) := by
  refine raises_bind (raises_look hos) fun before => ?_
  split
  · exact raises_raisePatch hpatch
  split
  · exact raises_raisePatch hpatch
  refine raises_bind (raises_readChunks hos hpatch) fun data => ?_
  refine raises_bind (raises_look hos) fun after => ?_
  split
  · exact raises_raisePatch hpatch
  · exact raises_pure

/-- A guarded read turns every `OSError` into a controlled error. -/
theorem raises_guardedRead {target : GuardedFile} {limit : Nat} :
    Raises Exc.IsPatch (target.read env limit) := by
  refine raises_rescueOs ?_ fun e => ?_
  · refine raises_bind (raises_verify (fun _ => Or.inr trivial) fun _ => Or.inl trivial) fun _ => ?_
    refine raises_bind (raises_look fun _ => Or.inr trivial) fun handle => ?_
    exact raises_ensure (raises_readOpen (fun _ => Or.inr trivial) fun _ => Or.inl trivial) fun _ =>
      raises_look fun _ => Or.inr trivial
  · cases e <;> exact raises_raise trivial

theorem raises_verifySnapshot {target : GuardedFile} {snapshot : Snapshot} :
    Raises Exc.IsPatch (target.verifySnapshot env snapshot) := by
  refine raises_bind raises_change fun _ => raises_bind raises_guardedRead fun current => ?_
  split
  · exact raises_raise trivial
  · exact raises_pure

theorem raises_guardedEnter {path : Text} {internal : Bool} :
    Raises Exc.IsPatch (GuardedFile.enter env path internal) := by
  refine raises_bind (raises_ofPatch fun _ => trivial) fun parts => ?_
  refine raises_bind (raises_rescueOs ?_ fun e => ?_) fun _ => raises_pure
  · exact raises_enter (fun _ => Or.inr trivial) fun _ => Or.inl trivial
  · cases e <;> exact raises_raise trivial

/-! ## What a read returns -/

/-- A sequence whose second part only looks, after which nobody has acted. -/
theorem bind_quiet {β : Type} {m : Io α} {f : α → Io β} {b : β}
    (hf : ∀ a, Does env OnlyCalls (f a)) (h : (m >>= f) w = (.ok b, w'))
    (hq : Undisturbed env w') :
    ∃ a t, m w = (.ok a, t) ∧ f a t = (.ok b, w') ∧ Undisturbed env t ∧ w'.fs = t.fs := by
  obtain ⟨a, t, hm, hrest⟩ := bind_ok_iff.mp h
  obtain ⟨ht, hfs⟩ := Steps.undisturbed ((hf a).of_eq hrest) (fun _ => OnlyCalls.looks) hq
  exact ⟨a, t, hm, hrest, ht, hfs⟩

/-- A file that nobody touches is read to its end. -/
theorem readChunks_ok {handle : Handle} {limit fuel : Nat} {data out : Bytes} {node : Node}
    (h : readChunks env handle limit fuel data w = (.ok out, w')) (hq : Undisturbed env w')
    (hnode : ∀ n, nodeAt env n handle w'.fs = node) (hdata : data <+: node.data)
    (hlimit : data.length ≤ limit) (hfuel : limit + 1 ≤ fuel + data.length) : out = node.data := by
  induction fuel generalizing data w with
  | zero => omega
  | succ fuel ih =>
    have hnext : ∀ chunk, Does env OnlyCalls (if chunk = [] then pure data
        else if data.length + chunk.length > limit then raisePatch .sizeLimit
        else readChunks env handle limit fuel (data ++ chunk)) := fun chunk =>
      runs_ite (fun _ => runs_pure) fun _ =>
        runs_ite (fun _ => does_raisePatch) fun _ => does_readChunks trivial
    obtain ⟨chunk, t, hread, hrest, -, hfs⟩ := bind_quiet hnext h hq
    have hchunk := (look_ok hread).1
    rw [← hfs, hnode, Results.pure_eq_ok] at hchunk
    obtain ⟨rest, hrest'⟩ := hdata
    have hdrop : node.data.drop data.length = rest := by rw [← hrest', List.drop_left]
    rw [hdrop] at hchunk
    split at hrest
    · rename_i hnil
      obtain ⟨⟨⟩, rfl⟩ := pure_eq_iff.mp hrest
      rw [hnil, List.take_eq_nil_iff] at hchunk
      rcases hchunk with hzero | rfl
      · omega
      · rw [← hrest', List.append_nil]
    · rename_i hne
      split at hrest
      · cases (raise_eq_iff.mp hrest).1
      · rename_i hsize
        refine ih hrest ⟨rest.drop (min 65536 (limit + 1 - data.length)), ?_⟩ ?_ ?_
        · rw [← hchunk, List.append_assoc, List.take_append_drop, hrest']
        · rw [List.length_append]
          omega
        · rw [List.length_append]
          have := List.length_pos_of_ne_nil hne
          omega

/-- What `read` returns when nobody acts meanwhile: the one regular file at the path. -/
structure ReadOf (env : Env) (fs : Fs) (path : Path) (snapshot : Snapshot) (node : Node) :
    Prop where
  lookup : fs.lookup path = some node
  kind : node.kind = .file
  nlink : node.nlink = 1
  eq : snapshot = ⟨node.data, env.sha256 node.data, node.stat⟩

theorem readOpen_ok {handle : Handle} {limit : Nat} {snapshot : Snapshot} {node : Node}
    (h : GuardedFile.readOpen env handle limit w = (.ok snapshot, w')) (hq : Undisturbed env w')
    (hnode : ∀ n, nodeAt env n handle w'.fs = node) :
    node.kind = .file ∧ node.nlink = 1 ∧
      snapshot = ⟨node.data, env.sha256 node.data, node.stat⟩ := by
  have hafter : ∀ (before : Stat) (data : Bytes), Does env OnlyCalls
      (fstatFile env handle >>= fun after =>
        if before ≠ after then raisePatch .targetChanged .applyError
        else pure (⟨data, env.sha256 data, before⟩ : Snapshot)) := fun before data =>
    runs_bind (does_fstatFile trivial) fun after =>
      runs_ite (fun _ => does_raisePatch) fun _ => runs_pure
  have hdata : ∀ before : Stat, Does env OnlyCalls
      (readChunks env handle limit (limit + 1) [] >>= fun data =>
        fstatFile env handle >>= fun after =>
          if before ≠ after then raisePatch .targetChanged .applyError
          else pure (⟨data, env.sha256 data, before⟩ : Snapshot)) := fun before =>
    runs_bind (does_readChunks trivial) (hafter before)
  obtain ⟨before, t, hbefore, h, ht, hfs⟩ := bind_quiet (fun before =>
    runs_ite (fun _ => does_raisePatch) fun _ =>
      runs_ite (fun _ => does_raisePatch) fun _ => hdata before) h hq
  obtain rfl : before = node.stat := by
    have := (look_ok hbefore).1
    rw [← hfs, hnode, Results.pure_eq_ok] at this
    exact this.symm
  split at h
  · cases (raise_eq_iff.mp h).1
  rename_i hkind
  split at h
  · cases (raise_eq_iff.mp h).1
  obtain ⟨data, t', hread, h, ht', hfs'⟩ := bind_quiet (hafter _) h hq
  obtain rfl : data = node.data := readChunks_ok hread ht' (hfs' ▸ hnode) List.nil_prefix
    (by simp) (by simp)
  obtain ⟨after, t'', -, h⟩ := bind_ok_iff.mp h
  split at h
  · cases (raise_eq_iff.mp h).1
  obtain ⟨⟨⟩, rfl⟩ := pure_eq_iff.mp h
  simp only [not_or, not_not] at hkind
  exact ⟨hkind.1, hkind.2, rfl⟩

/-- Whatever others do, a snapshot has the hash of its own bytes. -/
theorem read_sha {target : GuardedFile} {limit : Nat} {snapshot : Snapshot}
    (h : target.read env limit w = (.ok snapshot, w')) :
    snapshot.sha256 = env.sha256 snapshot.data := by
  rcases rescueOs_ok h with h | ⟨e, t, -, hhandler⟩
  · obtain ⟨_, _, -, h⟩ := bind_ok_iff.mp h
    obtain ⟨handle, _, -, h⟩ := bind_ok_iff.mp h
    obtain ⟨out, _, h, ⟨-, rfl⟩ | ⟨e, -, ⟨⟩⟩⟩ := ensure_eq_iff.mp h
    obtain ⟨before, _, -, h⟩ := bind_ok_iff.mp h
    split at h
    · cases (raise_eq_iff.mp h).1
    split at h
    · cases (raise_eq_iff.mp h).1
    obtain ⟨data, _, -, h⟩ := bind_ok_iff.mp h
    obtain ⟨after, _, -, h⟩ := bind_ok_iff.mp h
    split at h
    · cases (raise_eq_iff.mp h).1
    obtain ⟨⟨⟩, -⟩ := pure_eq_iff.mp h
    rfl
  · cases e <;> cases (raise_eq_iff.mp hhandler).1

/-- A read during which nobody acts returns the file. -/
theorem read_ok {target : GuardedFile} {limit : Nat} {snapshot : Snapshot}
    (h : target.read env limit w = (.ok snapshot, w')) (hq : Undisturbed env w') :
    ∃ node, ReadOf env w'.fs target.path snapshot node := by
  rcases rescueOs_ok h with h | ⟨e, t, -, hhandler⟩
  · have hread : ∀ handle, Does env OnlyCalls
        (ensure (GuardedFile.readOpen env handle limit) fun _ => close env handle) := fun handle =>
      runs_ensure (does_readOpen trivial) fun _ => does_close trivial
    obtain ⟨_, t, -, h, -, -⟩ := bind_quiet
      (fun _ => runs_bind (does_openFile trivial) hread) h hq
    obtain ⟨handle, t', hopen, h, ht', hfs⟩ := bind_quiet hread h hq
    have hhandle := (look_ok hopen).1
    split at hhandle
    · cases hhandle
    rename_i node hlookup
    split at hhandle
    · cases hhandle
    obtain rfl := Results.pure_eq_ok.mp hhandle
    obtain ⟨out, t'', hopened, ⟨hclose, hout⟩ | ⟨e, -, hout⟩⟩ := ensure_eq_iff.mp h
    · subst hout
      obtain ⟨ht'', hfs'⟩ :=
        Steps.undisturbed ((does_close trivial).of_eq hclose) (fun _ => OnlyCalls.looks) hq
      have hsame : t''.fs.lookup target.path = some node := by rw [← hfs', hfs, hlookup]
      obtain ⟨hkind, hnlink, heq⟩ := @readOpen_ok _ _ _ _ _ _ node hopened ht'' fun n => by
        simp [nodeAt, hsame]
      exact ⟨node, by rw [hfs', hsame], hkind, hnlink, heq⟩
    · cases hout
  · cases e <;> cases (raise_eq_iff.mp hhandler).1

/-- A verified snapshot is of the file that is there, if nobody has acted since it began. -/
theorem verifySnapshot_ok {target : GuardedFile} {snapshot : Snapshot} {u : Unit}
    (h : target.verifySnapshot env snapshot w = (.ok u, w')) (hq : Undisturbed env w') :
    ∃ node, w'.fs.lookup target.path = some node ∧ node.kind = .file ∧
      node.stat = snapshot.info ∧ env.sha256 node.data = snapshot.sha256 := by
  obtain ⟨_, t, -, h⟩ := bind_ok_iff.mp h
  obtain ⟨current, t', hread, h⟩ := bind_ok_iff.mp h
  split at h
  · cases (raise_eq_iff.mp h).1
  rename_i hsame
  obtain ⟨-, rfl⟩ := pure_eq_iff.mp h
  obtain ⟨node, hnode⟩ := read_ok hread hq
  simp only [not_or, not_not, hnode.eq] at hsame
  exact ⟨node, hnode.lookup, hnode.kind, hsame.1, hsame.2⟩

end Hapatchy
