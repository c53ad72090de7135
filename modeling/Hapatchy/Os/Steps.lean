import Hapatchy.Os

/-!
# What a call can do

Every call is a few labelled steps of the world. What a function may do is a
set of labels, and frames and logs follow from the labels alone.
-/

open Effects Prog

namespace Hapatchy

inductive Label where
  | call
  | edit (path : Path)
  | sync (path : Path)
  | unlinkFailed (path : Path)
  | replace (source target : Path)
  | verify
  | check (definition : PatchDefinition)
  | record

variable (env : Env)

inductive Step : Label → World → World → Prop where
  | call (w) : Step .call w (arrive env w)
  | edit (w p x) : Step (.edit p) w (w.edit p x)
  | sync (w p) : Step (.sync p) w { w with
      fs := w.fs.put p ((w.fs.lookup p).map fun node =>
        { node with synced := some (node.data, w.fs.names p) })
      log := w.log ++ [.synced p] }
  | unlinkFailed (w p) : Step (.unlinkFailed p) w { w with log := w.log ++ [.unlinkFailed p] }
  | replace (w source target node) (h : w.fs.lookup source = some node) :
      Step (.replace source target) w { w with
        fs := (w.fs.put source none).put target (some node)
        log := w.log ++ [.replaced ⟨target, w.fs, node, w.disturbed⟩] }
  | verify (w) : Step .verify w { w with disturbed := false }
  | check (w d) : Step (.check d) w { w with log := w.log ++ [.checked d] }
  | record (w) (f : Progress → Progress) : Step .record w { w with progress := f w.progress }

abbrev Steps (L : Label → Prop) : World → World → Prop :=
  Relation.ReflTransGen fun w w' => ∃ l, L l ∧ Step env l w w'

/-- All that `m` does is in `L`. -/
abbrev Does {α : Type} (L : Label → Prop) (m : Io α) : Prop :=
  Runs (fun w w' => ∃ l, L l ∧ Step env l w w') m

variable {env} {α : Type} {L L' : Label → Prop} {m : Io α} {w w' : World}

theorem Does.mono (h : Does env L m) (hL : ∀ l, L l → L' l) : Does env L' m :=
  Runs.mono h fun _ _ ⟨l, hl, hstep⟩ => ⟨l, hL l hl, hstep⟩

theorem Steps.mono (h : Steps env L w w') (hL : ∀ l, L l → L' l) : Steps env L' w w' :=
  Relation.ReflTransGen.mono (fun _ _ ⟨l, hl, hstep⟩ => ⟨l, hL l hl, hstep⟩) _ _ h

theorem Steps.single {l : Label} (hl : L l) (h : Step env l w w') : Steps env L w w' :=
  Relation.ReflTransGen.single ⟨l, hl, h⟩

/-! ## Logs -/

/-- The events that steps in `L` leave. -/
def Allowed (L : Label → Prop) : Event → Prop
  | .call => L .call
  | .changed p => L (.edit p)
  | .synced p => L (.sync p)
  | .unlinkFailed p => L (.unlinkFailed p)
  | .checked d => L (.check d)
  | .replaced r => ∃ source, L (.replace source r.target)

theorem Step.log {l : Label} (h : Step env l w w') (hl : L l) :
    ∃ new, w'.log = w.log ++ new ∧ ∀ e ∈ new, Allowed L e := by
  cases h with
  | call =>
    refine ⟨[.call], ?_, by simpa [Allowed] using hl⟩
    rw [arrive]
    split <;> rfl
  | edit _ p x => exact ⟨[.changed p], rfl, by simpa [Allowed] using hl⟩
  | sync _ p => exact ⟨[.synced p], rfl, by simpa [Allowed] using hl⟩
  | unlinkFailed _ p => exact ⟨[.unlinkFailed p], rfl, by simpa [Allowed] using hl⟩
  | replace _ source target node hnode =>
    exact ⟨_, rfl, by simpa [Allowed] using ⟨source, hl⟩⟩
  | verify => exact ⟨[], by simp, by simp⟩
  | check _ d => exact ⟨[.checked d], rfl, by simpa [Allowed] using hl⟩
  | record _ f => exact ⟨[], by simp, by simp⟩

/-- The log only grows, by events of the steps taken. -/
theorem Steps.log (h : Steps env L w w') :
    ∃ new, w'.log = w.log ++ new ∧ ∀ e ∈ new, Allowed L e := by
  induction h with
  | refl => exact ⟨[], by simp, by simp⟩
  | tail _ hstep ih =>
    obtain ⟨new, hlog, hall⟩ := ih
    obtain ⟨l, hl, hstep⟩ := hstep
    obtain ⟨new', hlog', hall'⟩ := hstep.log hl
    refine ⟨new ++ new', by rw [hlog', hlog, List.append_assoc], fun e he => ?_⟩
    exact (List.mem_append.mp he).elim (hall e) (hall' e)

/-! ## Frames -/

/-- The other programs leave `p` alone. -/
def Env.Spares (env : Env) (p : Path) : Prop :=
  ∀ n act, env.interfere n = some act → ∀ fs : Fs, (act fs).lookup p = fs.lookup p

/-- The steps in `L` leave `p` alone. -/
structure Frame (L : Label → Prop) (p : Path) : Prop where
  edit : ¬ L (.edit p)
  sync : ¬ L (.sync p)
  replace : ∀ source target, L (.replace source target) → p ≠ source ∧ p ≠ target

theorem arrive_lookup {p : Path} (h : env.Spares p) :
    (arrive env w).fs.lookup p = w.fs.lookup p := by
  rw [arrive]
  split
  · rfl
  · rename_i act hact
    exact h _ _ hact _

theorem Step.lookup {l : Label} {p : Path} (hstep : Step env l w w') (hl : L l) (h : Frame L p)
    (henv : env.Spares p) : w'.fs.lookup p = w.fs.lookup p := by
  cases hstep with
  | call => exact arrive_lookup henv
  | edit _ q x =>
    refine Fs.lookup_put_ne ?_
    rintro rfl
    exact h.edit hl
  | sync _ q =>
    refine Fs.lookup_put_ne ?_
    rintro rfl
    exact h.sync hl
  | replace _ source target node hnode =>
    obtain ⟨hsource, htarget⟩ := h.replace _ _ hl
    rw [Fs.lookup_put_ne htarget, Fs.lookup_put_ne hsource]
  | _ => rfl

theorem Steps.lookup {p : Path} (hsteps : Steps env L w w') (h : Frame L p)
    (henv : env.Spares p) : w'.fs.lookup p = w.fs.lookup p := by
  induction hsteps with
  | refl => rfl
  | tail _ hstep ih =>
    obtain ⟨l, hl, hstep⟩ := hstep
    rw [hstep.lookup hl h henv, ih]

/-! ## Undisturbed steps -/

/-- Labels of steps that change no file and begin no verification. -/
def Looks : Label → Prop
  | .call => True
  | .check _ => True
  | _ => False

/-- Labels of steps that change no file. -/
def NoEdit : Label → Prop
  | .verify => True
  | l => Looks l

/-- Only calls that change nothing. -/
def OnlyCalls : Label → Prop
  | .call => True
  | _ => False

theorem Looks.noEdit {l : Label} (h : Looks l) : NoEdit l := by
  cases l <;> trivial

theorem frame_noEdit {p : Path} : Frame NoEdit p := ⟨False.elim, False.elim, fun _ _ h => h.elim⟩

/-- Steps at the one path. -/
def OnlyAt (p : Path) : Label → Prop
  | .call => True
  | .edit q => q = p
  | .sync q => q = p
  | _ => False

theorem frame_onlyAt {p q : Path} (h : q ≠ p) : Frame (OnlyAt p) q := ⟨h, h, fun _ _ => False.elim⟩

theorem OnlyCalls.looks {l : Label} (h : OnlyCalls l) : Looks l := by
  cases l <;> trivial

/-- No other program acts. -/
def Env.Calm (env : Env) : Prop := ∀ n, env.interfere n = none

theorem Env.Calm.spares {p : Path} (h : env.Calm) : env.Spares p := by
  intro n act hact
  rw [h n] at hact
  cases hact

variable (env) in
/-- Nobody else has acted since the last verification began. -/
def Undisturbed (w : World) : Prop := w.disturbed = false ∨ env.Calm

theorem Steps.undisturbed (h : Steps env L w w') (hL : ∀ l, L l → Looks l)
    (hw : Undisturbed env w') : Undisturbed env w ∧ w'.fs = w.fs := by
  induction h with
  | refl => exact ⟨hw, rfl⟩
  | tail _ hstep ih =>
    obtain ⟨l, hl, hstep⟩ := hstep
    have hlook := hL l hl
    cases hstep with
    | call =>
      rw [arrive] at hw ⊢
      split at hw
      · exact ih hw
      · rename_i hact
        rcases hw with ⟨⟨⟩⟩ | hcalm
        rw [hcalm] at hact
        cases hact
    | check => exact ih hw
    | _ => exact hlook.elim

theorem Steps.calls_lookup {p : Path} (h : Steps env OnlyCalls w w') (henv : env.Spares p) :
    w'.fs.lookup p = w.fs.lookup p :=
  h.lookup ⟨False.elim, False.elim, fun _ _ => False.elim⟩ henv

theorem Steps.progress (h : Steps env L w w') (hL : ¬ L .record) : w'.progress = w.progress := by
  induction h with
  | refl => rfl
  | tail _ hstep ih =>
    obtain ⟨l, hl, hstep⟩ := hstep
    cases hstep with
    | call =>
      rw [← ih, arrive]
      split <;> rfl
    | record => exact absurd hl hL
    | _ => exact ih

/-! ## Calls -/

theorem does_look {act : Nat → Fs → Except OsError α} (h : L .call) : Does env L (look env act) := by
  intro w
  rw [look]
  split <;> exact .single ⟨_, h, .call w⟩

theorem does_alter {p : Path} {act : Nat → Fs → Except OsError (Option Node)} (h : L .call)
    (hp : L (.edit p)) : Does env L (alter env p act) := by
  intro w
  have hcall : Steps env L w (arrive env w) := .single h (.call w)
  rw [alter]
  split
  · exact hcall
  · split
    · exact hcall.tail ⟨_, hp, .edit _ _ _⟩
    · exact hcall

section Calls

variable (h : L .call)

include h

theorem does_openDirectory {p : Path} : Does env L (openDirectory env p) := does_look h
theorem does_openFile {p : Path} : Does env L (openFile env p) := does_look h
theorem does_close {handle : Handle} : Does env L (close env handle) := does_look h
theorem does_lstat {p : Path} : Does env L (lstat env p) := does_look h
theorem does_fstatDirectory {handle : Handle} : Does env L (fstatDirectory env handle) :=
  does_look h
theorem does_fstatFile {handle : Handle} : Does env L (fstatFile env handle) := does_look h
theorem does_readAt {handle : Handle} {offset count : Nat} :
    Does env L (readAt env handle offset count) := does_look h
theorem does_listdir {handle : Handle} : Does env L (listdir env handle) := does_look h

variable {p : Path}

theorem does_mkdir (hp : L (.edit p)) : Does env L (mkdir env p) := does_alter h hp
theorem does_rmdir (hp : L (.edit p)) : Does env L (rmdir env p) := does_alter h hp
theorem does_modify {f : Stamp → Node → Node} (hp : L (.edit p)) : Does env L (modify env p f) :=
  does_alter h hp
theorem does_fchown {uid gid : Nat} (hp : L (.edit p)) : Does env L (fchown env p uid gid) :=
  does_modify h hp
theorem does_fchmod {mode : Nat} (hp : L (.edit p)) : Does env L (fchmod env p mode) :=
  does_modify h hp

theorem does_createExclusive (hp : L (.edit p)) : Does env L (createExclusive env p) :=
  runs_bind runs_read fun _ => runs_bind (does_alter h hp) fun _ => runs_pure

theorem does_write {data : Bytes} (hp : L (.edit p)) : Does env L (write env p data) := by
  intro w
  rw [write]
  split
  · exact (Steps.single h (.call w)).tail ⟨_, hp, .edit _ _ _⟩
  · exact does_modify h hp w

theorem does_fsync (hp : L (.sync p)) : Does env L (fsync env p) := by
  intro w
  rw [fsync]
  split
  · exact .single ⟨_, h, .call w⟩
  · exact (Steps.single h (.call w)).tail ⟨_, hp, .sync _ _⟩

theorem does_unlink (hp : L (.edit p)) (hfail : L (.unlinkFailed p)) :
    Does env L (unlink env p) := by
  intro w
  have hcall : Steps env L w (arrive env w) := .single h (.call w)
  rw [unlink]
  split
  · exact hcall.tail ⟨_, hfail, .unlinkFailed _ _⟩
  · split
    · exact hcall
    · split
      · exact hcall.tail ⟨_, hfail, .unlinkFailed _ _⟩
      · exact hcall.tail ⟨_, hp, .edit _ _ _⟩

theorem does_replace {source target : Path} (hr : L (.replace source target)) :
    Does env L (replace env source target) := by
  intro w
  have hcall : Steps env L w (arrive env w) := .single h (.call w)
  rw [replace]
  split
  · exact hcall
  · split
    · exact hcall
    · rename_i node old hnode
      split
      · exact hcall
      · exact hcall.tail ⟨_, hr, .replace _ _ _ _ hnode⟩

end Calls

/-! ## Exceptions -/

/-- `OSError`s. -/
def Exc.IsOs : Exc → Prop
  | .os _ => True
  | _ => False

theorem raises_look {P : Exc → Prop} {act : Nat → Fs → Except OsError α} (hP : ∀ e, P (.os e)) :
    Raises P (look env act) := by
  intro w e w' h
  rw [look] at h
  split at h
  · cases h
    exact hP _
  · rcases hact : act w.step (arrive env w).fs with e' | a <;> rw [hact] at h <;> cases h
    exact hP _

theorem raises_alter {P : Exc → Prop} {p : Path} {act : Nat → Fs → Except OsError (Option Node)}
    (hP : ∀ e, P (.os e)) : Raises P (alter env p act) := by
  intro w e w' h
  rw [alter] at h
  split at h
  · cases h
    exact hP _
  · split at h <;> cases h
    exact hP _

theorem raises_mkdir {P : Exc → Prop} {p : Path} (hP : ∀ e, P (.os e)) :
    Raises P (mkdir env p) := raises_alter hP

theorem raises_rmdir {P : Exc → Prop} {p : Path} (hP : ∀ e, P (.os e)) :
    Raises P (rmdir env p) := raises_alter hP

theorem raises_modify {P : Exc → Prop} {p : Path} {f : Stamp → Node → Node}
    (hP : ∀ e, P (.os e)) : Raises P (modify env p f) := raises_alter hP

theorem raises_fchown {P : Exc → Prop} {p : Path} {uid gid : Nat} (hP : ∀ e, P (.os e)) :
    Raises P (fchown env p uid gid) := raises_modify hP

theorem raises_fchmod {P : Exc → Prop} {p : Path} {mode : Nat} (hP : ∀ e, P (.os e)) :
    Raises P (fchmod env p mode) := raises_modify hP

theorem raises_openDirectory {P : Exc → Prop} {p : Path} (hP : ∀ e, P (.os e)) :
    Raises P (openDirectory env p) := raises_look hP

theorem raises_fsync {P : Exc → Prop} {p : Path} (hP : ∀ e, P (.os e)) :
    Raises P (fsync env p) := by
  intro w e w' h
  rw [fsync] at h
  split at h <;> cases h
  exact hP _

theorem raises_write {P : Exc → Prop} {p : Path} {data : Bytes} (hP : ∀ e, P (.os e)) :
    Raises P (write env p data) := by
  intro w e w' h
  rw [write] at h
  split at h
  · cases h
    exact hP _
  · exact raises_alter hP _ _ _ h

theorem raises_unlink {P : Exc → Prop} {p : Path} (hP : ∀ e, P (.os e)) :
    Raises P (unlink env p) := by
  intro w e w' h
  rw [unlink] at h
  split at h
  · cases h
    exact hP _
  · split at h
    · cases h
      exact hP _
    · split at h <;> cases h
      exact hP _

theorem raises_replace {P : Exc → Prop} {source target : Path} (hP : ∀ e, P (.os e)) :
    Raises P (replace env source target) := by
  intro w e w' h
  rw [replace] at h
  split at h
  · cases h
    exact hP _
  · split at h
    · cases h
      exact hP _
    · split at h <;> cases h
      exact hP _

theorem raises_createExclusive {P : Exc → Prop} {p : Path} (hP : ∀ e, P (.os e)) :
    Raises P (createExclusive env p) :=
  raises_bind raises_read fun _ => raises_bind (raises_alter hP) fun _ => raises_pure

end Hapatchy
