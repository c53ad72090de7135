import Hapatchy.SafeIo.Specs

/-!
# When nothing fails

With no failing call and nobody else at work, the tree alone decides what a
call returns and does.
-/

open Effects Prog

namespace Hapatchy

/-- No call fails, and no other program acts. -/
structure Env.Quiet (env : Env) : Prop where
  calm : env.Calm
  fault : ∀ n, env.fault n = none

variable {env : Env} {α β : Type} {fs fs' fs'' : Fs}

/-- From the tree `fs`, `m` returns `a` and leaves `fs'`. -/
def Goes (m : Io α) (fs : Fs) (a : α) (fs' : Fs) : Prop :=
  ∀ w, w.fs = fs → ∃ w', m w = (.ok a, w') ∧ w'.fs = fs'

theorem goes_pure {a : α} : Goes (pure a) fs a fs := fun w hw => ⟨w, rfl, hw⟩

theorem goes_bind {m : Io α} {f : α → Io β} {a : α} {b : β} (hm : Goes m fs a fs')
    (hf : Goes (f a) fs' b fs'') : Goes (m >>= f) fs b fs'' := by
  intro w hw
  obtain ⟨t, hrun, ht⟩ := hm w hw
  obtain ⟨w', hrun', hw'⟩ := hf t ht
  exact ⟨w', bind_ok_iff.mpr ⟨a, t, hrun, hrun'⟩, hw'⟩

theorem goes_rescue {m : Io α} {handler : Exc → Io α} {a : α} (h : Goes m fs a fs') :
    Goes (rescue m handler) fs a fs' := by
  intro w hw
  obtain ⟨t, hrun, ht⟩ := h w hw
  exact ⟨t, rescue_eq_iff.mpr (Or.inl ⟨a, hrun, rfl⟩), ht⟩

theorem goes_ensure {m : Io α} {cleanup : Except Exc α → Io Unit} {a : α} (hm : Goes m fs a fs')
    (hc : Goes (cleanup (.ok a)) fs' () fs'') : Goes (ensure m cleanup) fs a fs'' := by
  intro w hw
  obtain ⟨t, hrun, ht⟩ := hm w hw
  obtain ⟨w', hrun', hw'⟩ := hc t ht
  exact ⟨w', ensure_eq_iff.mpr ⟨_, t, hrun, Or.inl ⟨hrun', rfl⟩⟩, hw'⟩

theorem Goes.run_of {m : Io α} {a : α} {w w' : World} {out : Except Exc α} (h : Goes m fs a fs')
    (hrun : m w = (out, w')) (hw : w.fs = fs) : out = .ok a ∧ w'.fs = fs' := by
  obtain ⟨t, hrun', ht⟩ := h w hw
  rw [hrun] at hrun'
  cases hrun'
  exact ⟨rfl, ht⟩

theorem Goes.run {m : Io α} {a : α} {w w' : World} {out : Except Exc α} (h : Goes m w.fs a fs')
    (hrun : m w = (out, w')) : out = .ok a ∧ w'.fs = fs' := h.run_of hrun rfl

/-- From the tree `fs`, `m` raises `e`. -/
def Breaks (m : Io α) (fs : Fs) (e : Exc) : Prop := ∀ w, w.fs = fs → (m w).1 = .error e

theorem breaks_raise {e : Exc} : Breaks (raise e : Io α) fs e := fun _ _ => rfl

theorem breaks_bind_left {m : Io α} {f : α → Io β} {e : Exc} (h : Breaks m fs e) :
    Breaks (m >>= f) fs e := by
  intro w hw
  have hm := h w hw
  rw [bind_run]
  rcases hrun : m w with ⟨out, t⟩
  rw [hrun] at hm
  cases hm
  rfl

theorem breaks_bind {m : Io α} {f : α → Io β} {a : α} {e : Exc} (hm : Goes m fs a fs')
    (hf : Breaks (f a) fs' e) : Breaks (m >>= f) fs e := by
  intro w hw
  obtain ⟨t, hrun, ht⟩ := hm w hw
  rw [bind_run, hrun]
  exact hf t ht

theorem breaks_rescue {m : Io α} {handler : Exc → Io α} {e e' : Exc} (hm : Breaks m fs e)
    (hh : ∀ fs', Breaks (handler e) fs' e') : Breaks (rescue m handler) fs e' := by
  intro w hw
  have hm' := hm w hw
  rw [rescue]
  rcases hrun : m w with ⟨out, t⟩
  rw [hrun] at hm'
  cases hm'
  exact hh t.fs t rfl

theorem Env.Calm.arrive_fs (h : env.Calm) (w : World) : (arrive env w).fs = w.fs := by
  rw [arrive, h]

theorem Steps.calls_fs {w w' : World} (h : env.Calm) (hsteps : Steps env OnlyCalls w w') :
    w'.fs = w.fs := (Steps.undisturbed hsteps (fun _ => OnlyCalls.looks) (Or.inr h)).2

section Quiet

variable (h : env.Quiet)

include h

theorem goes_look {act : Nat → Fs → Except OsError α} {a : α} (hact : ∀ n, act n fs = .ok a) :
    Goes (look env act) fs a fs := by
  rintro w rfl
  refine ⟨arrive env w, ?_, h.calm.arrive_fs w⟩
  rw [look, h.fault, h.calm.arrive_fs, hact]
  rfl

theorem goes_alter {p : Path} {act : Nat → Fs → Except OsError (Option Node)} {x : Option Node}
    (hact : ∀ n, act n fs = .ok x) : Goes (alter env p act) fs () (fs.put p x) := by
  rintro w rfl
  refine ⟨(arrive env w).edit p x, ?_, by rw [World.edit, h.calm.arrive_fs]⟩
  simp only [alter, h.fault, h.calm.arrive_fs, hact]

theorem goes_close {handle : Handle} : Goes (close env handle) fs () fs := goes_look h fun _ => rfl

theorem goes_lstat {p : Path} {node : Node} (hnode : fs.lookup p = some node) :
    Goes (lstat env p) fs node.stat fs := goes_look h fun _ => by simp only [hnode]; rfl

theorem goes_openDirectory {p : Path} {node : Node} (hnode : fs.lookup p = some node)
    (hkind : node.kind = .directory) : Goes (openDirectory env p) fs ⟨p, node.ino⟩ fs :=
  goes_look h fun _ => by simp only [hnode, if_pos hkind]; rfl

theorem goes_openFile {p : Path} {node : Node} (hnode : fs.lookup p = some node)
    (hkind : node.kind = .file) : Goes (openFile env p) fs ⟨p, node.ino⟩ fs :=
  goes_look h fun _ => by simp only [hnode, hkind]; rfl

theorem goes_readAt {p : Path} {node : Node} {offset count : Nat} (hnode : fs.lookup p = some node) :
    Goes (readAt env ⟨p, node.ino⟩ offset count) fs ((node.data.drop offset).take count) fs :=
  goes_look h fun _ => by simp only [nodeAt, hnode, if_true]; rfl

theorem goes_listdir {handle : Handle} : Goes (listdir env handle) fs (fs.names handle.path) fs :=
  goes_look h fun _ => rfl

theorem goes_unlink {p : Path} {node : Node} (hnode : fs.lookup p = some node)
    (hkind : node.kind ≠ .directory) : Goes (unlink env p) fs () (fs.put p none) := by
  rintro w rfl
  refine ⟨(arrive env w).edit p none, ?_, by rw [World.edit, h.calm.arrive_fs]⟩
  simp only [unlink, h.fault, h.calm.arrive_fs, hnode, if_neg hkind]

theorem goes_rmdir {p : Path} {node : Node} (hnode : fs.lookup p = some node)
    (hkind : node.kind = .directory) (hnames : fs.names p = []) :
    Goes (rmdir env p) fs () (fs.put p none) :=
  goes_alter h fun _ => by simp only [hnode, if_pos (And.intro hkind hnames)]; rfl

theorem goes_fsync {p : Path} : Goes (fsync env p) fs () (fs.put p ((fs.lookup p).map fun node =>
    { node with synced := some (node.data, fs.names p) })) := by
  rintro w rfl
  simp [fsync, h.fault, h.calm.arrive_fs]

end Quiet

/-! ## Directories -/

/-- The directory at the path of `handle` is the one that was opened there. -/
def OpenAt (fs : Fs) (handle : Handle) : Prop :=
  ∃ node, fs.lookup handle.path = some node ∧ node.kind = .directory ∧ node.ino = handle.ino

/-- The handles of a traversal of `names` from `p` on. -/
def CurrentBelow (fs : Fs) : Path → List Handle → List Text → Prop
  | p, child :: handles, name :: names =>
    child.path = p ++ [name] ∧ OpenAt fs child ∧ CurrentBelow fs child.path handles names
  | _, [], [] => True
  | _, _, _ => False

/-- The handles show the directories that are at their paths now. -/
def GuardedDirectory.Current (fs : Fs) (directory : GuardedDirectory) : Prop :=
  match directory.handles with
  | [] => False
  | root :: handles => root.path = [] ∧ OpenAt fs root ∧ CurrentBelow fs [] handles directory.parts

/-- The same directory is at `p`. -/
def SameDirectory (fs fs' : Fs) (p : Path) : Prop :=
  ∀ node, fs.lookup p = some node →
    ∃ node', fs'.lookup p = some node' ∧ node'.kind = node.kind ∧ node'.ino = node.ino

theorem SameDirectory.of_eq {p : Path} (h : fs'.lookup p = fs.lookup p) : SameDirectory fs fs' p :=
  fun node hnode => ⟨node, h.trans hnode, rfl, rfl⟩

theorem OpenAt.same {handle : Handle} (h : OpenAt fs handle)
    (hfs : SameDirectory fs fs' handle.path) : OpenAt fs' handle := by
  obtain ⟨node, hnode, hkind, hino⟩ := h
  obtain ⟨node', hnode', hkind', hino'⟩ := hfs node hnode
  exact ⟨node', hnode', hkind'.trans hkind, hino'.trans hino⟩

theorem CurrentBelow.same {p : Path} {handles : List Handle} {names : List Text}
    (h : CurrentBelow fs p handles names)
    (hfs : ∀ q, q <+: names → SameDirectory fs fs' (p ++ q)) :
    CurrentBelow fs' p handles names := by
  induction handles generalizing p names with
  | nil =>
    cases names with
    | nil => trivial
    | cons => exact h.elim
  | cons child handles ih =>
    cases names with
    | nil => exact h.elim
    | cons name names =>
      obtain ⟨hpath, hopen, hrest⟩ := h
      refine ⟨hpath, hopen.same ?_, ih hrest fun q hq => ?_⟩
      · rw [hpath]
        exact hfs _ (by simp)
      · rw [hpath, List.append_assoc]
        exact hfs _ (by simpa using hq)

theorem CurrentBelow.congr {p : Path} {handles : List Handle} {names : List Text}
    (h : CurrentBelow fs p handles names)
    (hfs : ∀ q, q <+: names → fs'.lookup (p ++ q) = fs.lookup (p ++ q)) :
    CurrentBelow fs' p handles names := h.same fun q hq => .of_eq (hfs q hq)

theorem GuardedDirectory.Current.same {directory : GuardedDirectory} (h : directory.Current fs)
    (hfs : ∀ p, p <+: directory.parts → SameDirectory fs fs' p) : directory.Current fs' := by
  rw [GuardedDirectory.Current] at h ⊢
  split at h
  · exact h.elim
  · obtain ⟨hpath, hopen, hrest⟩ := h
    refine ⟨hpath, hopen.same ?_, hrest.same hfs⟩
    rw [hpath]
    exact hfs [] List.nil_prefix

theorem GuardedDirectory.Current.congr {directory : GuardedDirectory} (h : directory.Current fs)
    (hfs : ∀ p, p <+: directory.parts → fs'.lookup p = fs.lookup p) : directory.Current fs' :=
  h.same fun p hp => .of_eq (hfs p hp)

theorem CurrentBelow.append {p : Path} {child : Handle} {handles : List Handle} {names : List Text}
    {name : Text} (h : CurrentBelow fs p handles names) (hpath : child.path = p ++ names ++ [name])
    (hchild : OpenAt fs child) : CurrentBelow fs p (handles ++ [child]) (names ++ [name]) := by
  induction handles generalizing p names with
  | nil =>
    cases names with
    | nil => exact ⟨by simpa using hpath, hchild, trivial⟩
    | cons => exact h.elim
  | cons handle handles ih =>
    cases names with
    | nil => exact h.elim
    | cons name' names =>
      obtain ⟨hpath', hopen, hrest⟩ := h
      exact ⟨hpath', hopen, ih hrest (by simp [hpath, hpath'])⟩

section Quiet

variable (h : env.Quiet)

include h

theorem goes_fstatDirectory {handle : Handle} : Goes (fstatDirectory env handle) fs handle.ino fs :=
  goes_look h fun _ => rfl

theorem goes_verifyBelow {parent : Handle} {handles : List Handle} {names : List Text}
    (hcurrent : CurrentBelow fs parent.path handles names) :
    Goes (verifyBelow env parent handles names) fs () fs := by
  induction handles generalizing parent names with
  | nil => exact goes_pure
  | cons child handles ih =>
    cases names with
    | nil => exact goes_pure
    | cons name names =>
      obtain ⟨hpath, ⟨node, hnode, hkind, hino⟩, hrest⟩ := hcurrent
      refine goes_bind (goes_lstat h (hpath ▸ hnode)) (goes_bind (goes_fstatDirectory h) ?_)
      rw [if_neg (by simp [Node.stat, hkind, hino])]
      exact ih hrest

theorem goes_verify {directory : GuardedDirectory} (hcurrent : directory.Current fs) :
    Goes (directory.verify env) fs () fs := by
  rw [GuardedDirectory.Current] at hcurrent
  rw [GuardedDirectory.verify]
  cases hhandles : directory.handles with
  | nil => exact goes_pure
  | cons root handles =>
    simp only [hhandles] at hcurrent
    obtain ⟨hpath, ⟨node, hnode, hkind, hino⟩, hrest⟩ := hcurrent
    refine goes_bind (goes_lstat h (hpath ▸ hnode)) (goes_bind (goes_fstatDirectory h) ?_)
    rw [if_neg (by simp [Node.stat, hkind, hino])]
    exact goes_verifyBelow h (hpath ▸ hrest)

theorem goes_exit {directory : GuardedDirectory} : Goes (directory.exit env) fs () fs := by
  have hclose : ∀ handles : List Handle, Goes (handles.forM (close env)) fs () fs := fun handles => by
    induction handles with
    | nil => exact goes_pure
    | cons handle handles ih => exact goes_bind (goes_close h) ih
  exact hclose _

theorem goes_openParts {done rest : List Text} {root parent : Handle} {handles : List Handle}
    (hroot : root.path = [] ∧ OpenAt fs root) (hcurrent : CurrentBelow fs [] handles done)
    (hlast : (root :: handles).getLast? = some parent) (hparent : parent.path = done)
    (hdirs : ∀ p, p <+: done ++ rest → ∃ node, fs.lookup p = some node ∧ node.kind = .directory) :
    ∃ directory, directory.path = done ++ rest ∧ directory.parts = done ++ rest ∧
      directory.Current fs ∧
      Goes (openParts env false (done ++ rest) parent (root :: handles) rest) fs directory fs := by
  induction rest generalizing done parent handles with
  | nil =>
    rw [List.append_nil] at hdirs ⊢
    have hdirectory : GuardedDirectory.Current fs ⟨done, root :: handles⟩ :=
      ⟨hroot.1, hroot.2, hcurrent⟩
    refine ⟨_, (GuardedDirectory.path_of_last hlast).trans hparent, rfl, hdirectory, ?_⟩
    exact goes_bind (goes_rescue (goes_verify h hdirectory)) goes_pure
  | cons part rest ih =>
    obtain ⟨node, hnode, hkind⟩ := hdirs (done ++ [part]) ⟨rest, by simp⟩
    have hassoc : done ++ part :: rest = done ++ [part] ++ rest := by simp
    let child : Handle := ⟨done ++ [part], node.ino⟩
    have hlast' : (root :: (handles ++ [child])).getLast? = some child := by
      rw [← List.cons_append, List.getLast?_concat]
    obtain ⟨directory, hpath, hparts, hcur, hgoes⟩ := @ih (done ++ [part]) child (handles ++ [child])
      (hcurrent.append rfl ⟨node, hnode, hkind, rfl⟩) hlast' rfl (hassoc ▸ hdirs)
    refine ⟨directory, hassoc ▸ hpath, hassoc ▸ hparts, hcur, ?_⟩
    have hopen : Goes (openPart env false parent part) fs child fs := by
      have hchild : child = ⟨parent.path ++ [part], node.ino⟩ := by rw [hparent]
      rw [hchild]
      exact goes_openDirectory h (hparent ▸ hnode) hkind
    exact goes_bind (goes_rescue hopen) (hassoc ▸ hgoes)

/-- A directory is entered when it and all above it are there. -/
theorem goes_enter {parts : List Text}
    (hdirs : ∀ p, p <+: parts → ∃ node, fs.lookup p = some node ∧ node.kind = .directory) :
    ∃ directory, directory.path = parts ∧ directory.parts = parts ∧ directory.Current fs ∧
      Goes (GuardedDirectory.enter env parts false) fs directory fs := by
  obtain ⟨node, hnode, hkind⟩ := hdirs [] List.nil_prefix
  obtain ⟨directory, hpath, hparts, hcurrent, hgoes⟩ :=
    @goes_openParts env fs h [] parts ⟨[], node.ino⟩ ⟨[], node.ino⟩ []
      ⟨rfl, node, hnode, hkind, rfl⟩ trivial rfl rfl (by simpa using hdirs)
  exact ⟨directory, hpath, hparts, hcurrent, goes_bind (goes_openDirectory h hnode hkind) hgoes⟩

theorem goes_withDirectory {parts : List Text} {body : GuardedDirectory → Io α} {a : α}
    (hdirs : ∀ p, p <+: parts → ∃ node, fs.lookup p = some node ∧ node.kind = .directory)
    (hbody : ∀ directory, directory.path = parts → directory.parts = parts →
      directory.Current fs → Goes (body directory) fs a fs') :
    Goes (withDirectory env parts false body) fs a fs' := by
  obtain ⟨directory, hpath, hparts, hcurrent, henter⟩ := goes_enter h hdirs
  exact goes_bind henter (goes_ensure (hbody directory hpath hparts hcurrent) (goes_exit h))

end Quiet

/-! ## What a verification has seen -/

/-- The handles are at the paths of a traversal of `names` from `p` on. -/
def AlignedBelow : Path → List Handle → List Text → Prop
  | p, child :: handles, name :: names =>
    child.path = p ++ [name] ∧ AlignedBelow child.path handles names
  | _, [], [] => True
  | _, _, _ => False

def GuardedDirectory.Aligned (directory : GuardedDirectory) : Prop :=
  match directory.handles with
  | [] => False
  | root :: handles => root.path = [] ∧ AlignedBelow [] handles directory.parts

theorem AlignedBelow.append {p : Path} {child : Handle} {handles : List Handle} {names : List Text}
    {name : Text} (h : AlignedBelow p handles names) (hpath : child.path = p ++ names ++ [name]) :
    AlignedBelow p (handles ++ [child]) (names ++ [name]) := by
  induction handles generalizing p names with
  | nil =>
    cases names with
    | nil => exact ⟨by simpa using hpath, trivial⟩
    | cons => exact h.elim
  | cons handle handles ih =>
    cases names with
    | nil => exact h.elim
    | cons name' names =>
      obtain ⟨hpath', hrest⟩ := h
      exact ⟨hpath', ih hrest (by simp [hpath, hpath'])⟩

section Verified

variable {w w' : World}

theorem lstat_ok {p : Path} {stat : Stat} (henv : env.Spares p)
    (h : lstat env p w = (.ok stat, w')) : ∃ node, w.fs.lookup p = some node ∧ stat = node.stat := by
  obtain ⟨hact, rfl⟩ := look_ok h
  rw [arrive_lookup henv] at hact
  split at hact
  · cases hact
  · rename_i node hnode
    exact ⟨node, hnode, (Results.pure_eq_ok.mp hact).symm⟩

theorem verifyBelow_current {parent : Handle} {handles : List Handle} {names : List Text}
    (hspares : ∀ p, p <+: names → env.Spares (parent.path ++ p))
    (haligned : AlignedBelow parent.path handles names) {u : Unit}
    (h : verifyBelow env parent handles names w = (.ok u, w')) :
    CurrentBelow w.fs parent.path handles names := by
  induction handles generalizing parent names w with
  | nil =>
    cases names with
    | nil => trivial
    | cons => exact haligned.elim
  | cons child handles ih =>
    cases names with
    | nil => exact haligned.elim
    | cons name names =>
      obtain ⟨hpath, haligned⟩ := haligned
      obtain ⟨current, t, hlstat, h⟩ := bind_ok_iff.mp h
      obtain ⟨opened, t', hfstat, h⟩ := bind_ok_iff.mp h
      obtain ⟨hopened, rfl⟩ := look_ok hfstat
      obtain rfl := Results.pure_eq_ok.mp hopened
      obtain ⟨node, hnode, rfl⟩ := lstat_ok (hspares _ (by simp)) hlstat
      split at h
      · cases (raise_eq_iff.mp h).1
      rename_i hsame
      rw [not_or, not_not, not_not] at hsame
      have hsteps : Steps env OnlyCalls w (arrive env t) :=
        ((does_lstat trivial).of_eq hlstat).trans ((does_fstatDirectory trivial).of_eq hfstat)
      have hbelow : ∀ p, p <+: names → env.Spares (child.path ++ p) := by
        intro p hp
        rw [hpath, List.append_assoc, List.singleton_append]
        exact hspares _ (by simpa using hp)
      refine ⟨hpath, ⟨node, hpath ▸ hnode, hsame⟩, (ih hbelow haligned h).congr fun p hp => ?_⟩
      exact (hsteps.calls_lookup (hbelow p hp)).symm

/-- A verification that succeeds has seen the directories that were opened. -/
theorem verify_current {directory : GuardedDirectory}
    (hspares : ∀ p, p <+: directory.parts → env.Spares p) (haligned : directory.Aligned) {u : Unit}
    (h : directory.verify env w = (.ok u, w')) : directory.Current w.fs := by
  rw [GuardedDirectory.Aligned] at haligned
  rw [GuardedDirectory.verify] at h
  rw [GuardedDirectory.Current]
  cases hhandles : directory.handles with
  | nil =>
    rw [hhandles] at haligned
    exact haligned
  | cons root handles =>
    rw [hhandles] at haligned h
    obtain ⟨hroot, haligned⟩ := haligned
    obtain ⟨info, t, hlstat, h⟩ := bind_ok_iff.mp h
    obtain ⟨opened, t', hfstat, h⟩ := bind_ok_iff.mp h
    obtain ⟨hopened, rfl⟩ := look_ok hfstat
    obtain rfl := Results.pure_eq_ok.mp hopened
    obtain ⟨node, hnode, rfl⟩ := lstat_ok (hspares _ List.nil_prefix) hlstat
    split at h
    · cases (raise_eq_iff.mp h).1
    rename_i hsame
    rw [not_or, not_not, not_not] at hsame
    have hsteps : Steps env OnlyCalls w (arrive env t) :=
      ((does_lstat trivial).of_eq hlstat).trans ((does_fstatDirectory trivial).of_eq hfstat)
    refine ⟨hroot, ⟨node, hroot ▸ hnode, hsame⟩, ?_⟩
    rw [← hroot] at haligned ⊢
    refine (verifyBelow_current (fun p hp => ?_) haligned h).congr fun p hp => ?_
    · rw [hroot]
      exact hspares p hp
    · rw [hroot]
      exact (hsteps.calls_lookup (hspares p hp)).symm

theorem openParts_current {create : Bool} {done rest : List Text} {root parent : Handle}
    {handles : List Handle} {directory : GuardedDirectory}
    (hspares : ∀ p, p <+: done ++ rest → env.Spares p) (hroot : root.path = [])
    (haligned : AlignedBelow [] handles done) (hparent : parent.path = done)
    (h : openParts env create (done ++ rest) parent (root :: handles) rest w = (.ok directory, w')) :
    directory.parts = done ++ rest ∧ directory.Aligned ∧ directory.Current w'.fs := by
  induction rest generalizing done parent handles w with
  | nil =>
    rw [List.append_nil] at h hspares ⊢
    obtain ⟨_, t, hverify, hpure⟩ := bind_ok_iff.mp h
    obtain ⟨⟨⟩, rfl⟩ := pure_eq_iff.mp hpure
    have hverify := onError_ok hverify
    have hdirectory : GuardedDirectory.Aligned ⟨done, root :: handles⟩ := ⟨hroot, haligned⟩
    refine ⟨rfl, hdirectory, (verify_current hspares hdirectory hverify).congr fun p hp => ?_⟩
    have hsteps : Steps env OnlyCalls w w' := (does_verify trivial).of_eq hverify
    exact hsteps.calls_lookup (hspares p hp)
  | cons part rest ih =>
    have hassoc : done ++ part :: rest = done ++ [part] ++ rest := by simp
    obtain ⟨child, t, hopen, hrest⟩ := bind_ok_iff.mp h
    have hchild := openPart_ok (onError_ok hopen)
    rw [hparent] at hchild
    rw [hassoc] at hspares hrest ⊢
    rw [List.cons_append] at hrest
    exact ih hspares (haligned.append hchild) hchild hrest

/-- A traversal ends with a verification. -/
theorem enter_current {create : Bool} {parts : List Text} {directory : GuardedDirectory}
    (hspares : ∀ p, p <+: parts → env.Spares p)
    (h : GuardedDirectory.enter env parts create w = (.ok directory, w')) :
    directory.parts = parts ∧ directory.Aligned ∧ directory.Current w'.fs := by
  obtain ⟨root, t, hroot, hparts⟩ := bind_ok_iff.mp h
  have hpath := (openDirectory_ok hroot).1
  have haligned : AlignedBelow [] [] [] := trivial
  exact openParts_current (List.nil_append parts ▸ hspares) hpath haligned hpath hparts

theorem CurrentBelow.isPrefix {p q : Path} {handles : List Handle} {names : List Text}
    (h : CurrentBelow fs p handles names) (hq : q <+: names) (hne : q ≠ []) :
    ∃ node, fs.lookup (p ++ q) = some node ∧ node.kind = .directory := by
  induction handles generalizing p q names with
  | nil =>
    cases names with
    | nil => exact absurd (List.prefix_nil.mp hq) hne
    | cons => exact h.elim
  | cons child handles ih =>
    cases names with
    | nil => exact h.elim
    | cons name names =>
      obtain ⟨hpath, ⟨node, hnode, hkind, -⟩, hrest⟩ := h
      obtain ⟨head, q, rfl⟩ := List.exists_cons_of_ne_nil hne
      obtain ⟨rfl, hbelow⟩ := List.cons_prefix_cons.mp hq
      by_cases hnil : q = []
      · subst hnil
        exact ⟨node, hpath ▸ hnode, hkind⟩
      · have hbelow := ih hrest hbelow hnil
        rwa [hpath, List.append_assoc, List.singleton_append] at hbelow

theorem GuardedDirectory.Current.isPrefix {directory : GuardedDirectory} {p : Path}
    (h : directory.Current fs) (hp : p <+: directory.parts) :
    ∃ node, fs.lookup p = some node ∧ node.kind = .directory := by
  rw [GuardedDirectory.Current] at h
  split at h
  · exact h.elim
  obtain ⟨hroot, ⟨node, hnode, hkind, -⟩, hrest⟩ := h
  by_cases hnil : p = []
  · subst hnil
    exact ⟨node, hroot ▸ hnode, hkind⟩
  · exact hrest.isPrefix hp hnil

/-- What was entered is there, and all above it. -/
theorem enter_isPrefix (hcalm : env.Calm) {parts : List Text} {directory : GuardedDirectory}
    {p : Path} (h : GuardedDirectory.enter env parts false w = (.ok directory, w'))
    (hp : p <+: parts) : ∃ node, w.fs.lookup p = some node ∧ node.kind = .directory := by
  obtain ⟨rfl, -, hcurrent⟩ := enter_current (fun _ _ => hcalm.spares) h
  rw [← Steps.calls_fs hcalm ((does_enter trivial fun hc => absurd hc Bool.false_ne_true).of_eq h)]
  exact hcurrent.isPrefix hp

end Verified

/-! ## Reading a file -/

section Quiet

variable (h : env.Quiet)

include h

theorem goes_readChunks {p : Path} {node : Node} {limit fuel : Nat} {data rest : Bytes}
    (hnode : fs.lookup p = some node) (hdata : data ++ rest = node.data)
    (hlimit : node.data.length ≤ limit) (hfuel : limit + 1 ≤ fuel + data.length) :
    Goes (readChunks env ⟨p, node.ino⟩ limit fuel data) fs node.data fs := by
  induction fuel generalizing data rest with
  | zero =>
    have := congrArg List.length hdata
    rw [List.length_append] at this
    omega
  | succ fuel ih =>
    have hlength := congrArg List.length hdata
    rw [List.length_append] at hlength
    have hread : Goes (readAt env ⟨p, node.ino⟩ data.length (min 65536 (limit + 1 - data.length))) fs
        (rest.take (min 65536 (limit + 1 - data.length))) fs := by
      have hgoes : Goes (readAt env ⟨p, node.ino⟩ data.length
          (min 65536 (limit + 1 - data.length))) fs
          ((node.data.drop data.length).take (min 65536 (limit + 1 - data.length))) fs :=
        goes_readAt h hnode
      rwa [← hdata, List.drop_left] at hgoes
    refine goes_bind hread ?_
    by_cases hnil : rest.take (min 65536 (limit + 1 - data.length)) = []
    · rw [if_pos hnil]
      rw [List.take_eq_nil_iff] at hnil
      rcases hnil with hzero | rfl
      · omega
      · rw [List.append_nil] at hdata
        exact hdata ▸ goes_pure
    · have hchunk := List.length_take_le (min 65536 (limit + 1 - data.length)) rest
      have hpos := List.length_pos_of_ne_nil hnil
      have hle := List.length_take_le' (min 65536 (limit + 1 - data.length)) rest
      rw [if_neg hnil, if_neg (by omega)]
      have hrest : data ++ rest.take (min 65536 (limit + 1 - data.length)) ++
          rest.drop (min 65536 (limit + 1 - data.length)) = node.data := by
        rw [List.append_assoc, List.take_append_drop, hdata]
      refine ih hrest ?_
      rw [List.length_append]
      omega

/-- A regular file of its own, in directories that are there, is read. -/
theorem goes_guardedRead {target : GuardedFile} {limit : Nat} {node : Node}
    (hcurrent : target.directory.Current fs) (hnode : fs.lookup target.path = some node)
    (hkind : node.kind = .file) (hnlink : node.nlink = 1) (hsize : node.data.length ≤ limit) :
    Goes (target.read env limit) fs ⟨node.data, env.sha256 node.data, node.stat⟩ fs := by
  have hstat : Goes (fstatFile env ⟨target.path, node.ino⟩) fs node.stat fs :=
    goes_look h fun _ => by simp only [nodeAt, hnode, if_true]; rfl
  refine goes_rescue (goes_bind (goes_verify h hcurrent) (goes_bind (goes_openFile h hnode hkind)
    (goes_ensure (goes_bind hstat ?_) (goes_close h))))
  rw [if_neg (by simp [Node.stat, hkind, hnlink]), if_neg (by simpa [Node.stat] using hsize)]
  refine goes_bind (goes_readChunks h hnode (List.nil_append _) hsize (by simp)) (goes_bind hstat ?_)
  rw [if_neg (by simp)]
  exact goes_pure

end Quiet

end Hapatchy
