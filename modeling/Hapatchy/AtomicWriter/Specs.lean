import Hapatchy.AtomicWriter
import Hapatchy.SafeIo.Specs

/-!
# What a commit does

It replaces the target or it does not, the exception tells which, and the
temporary file is gone unless its removal has failed.
-/

open Effects Prog

namespace Hapatchy

variable {env : Env} {T p : Path} {w w' : World}

/-! ## What goes on beside the target -/

/-- Below `.hapatchy`. -/
def Internal (p : Path) : Prop := [".hapatchy".toList] <+: p

variable (env) in
/-- A temporary file of a commit to `T`. -/
def Temp (T p : Path) : Prop := ∃ n, p = T.dropLast ++ [tempName (env.uuid n)]

variable (env) in
/-- Steps that leave `T` and its temporary files alone. -/
def Aside (T : Path) : Label → Prop
  | .edit p => Internal p
  | .sync p => p ≠ T ∧ ¬ Temp env T p
  | .unlinkFailed p => Internal p
  | .replace _ _ => False
  | .record => False
  | _ => True

variable (env) in
/-- The same, with changes of the progress record. -/
def Beside (T : Path) (l : Label) : Prop := Aside env T l ∨ l = .record

theorem NoEdit.aside {l : Label} (h : NoEdit l) : Aside env T l := by
  cases l <;> trivial

theorem tempName_length (hex : Hex32) : 32 ≤ (tempName hex).length := by
  have hlen : ∀ a b : Text, 32 ≤ (a ++ hex.val ++ b).length := fun a b => by
    rw [List.length_append, List.length_append, hex.property.1]
    omega
  exact hlen _ _

theorem tempName_ne (hex : Hex32) : tempName hex ≠ ".hapatchy".toList := by
  intro h
  have hlen := tempName_length hex
  rw [h] at hlen
  exact absurd hlen (by decide +kernel)

variable (env) in
/-- What a run is about: a path outside `.hapatchy` that only other programs and the replacement
change, and that no `uuid4` hits. -/
structure IsTarget (T : Path) : Prop where
  external : ¬ Internal T
  ne_nil : T ≠ []
  fresh : ¬ Temp env T T
  alone : ∀ p, p ≠ T → env.Spares p

theorem Temp.external (h : Temp env T p) (hT : ¬ Internal T) : ¬ Internal p := by
  obtain ⟨n, rfl⟩ := h
  rintro ⟨rest, hrest⟩
  rcases hdir : T.dropLast with _ | ⟨part, parts⟩ <;> rw [hdir] at hrest
  · exact tempName_ne _ (List.cons.inj hrest).1.symm
  · refine hT (List.IsPrefix.trans ?_ (List.dropLast_prefix T))
    rw [hdir, (List.cons.inj hrest).1]
    exact List.prefix_append [part] parts

theorem Temp.spares (h : Temp env T p) (hT : IsTarget env T) : env.Spares p := by
  refine hT.alone p ?_
  rintro rfl
  exact hT.fresh h

theorem IsTarget.ne_temp {path : Path} (hT : IsTarget env T) (h : Temp env T path) : T ≠ path :=
  fun heq => hT.fresh (heq ▸ h)

theorem frame_beside (hT : ¬ Internal T) : Frame (Beside env T) T where
  edit := fun h => h.elim hT Label.noConfusion
  sync := fun h => h.elim (fun h => h.1 rfl) Label.noConfusion
  replace := fun _ _ h => h.elim False.elim Label.noConfusion

theorem frame_beside_temp (hT : ¬ Internal T) (hp : Temp env T p) : Frame (Beside env T) p where
  edit := fun h => h.elim (hp.external hT) Label.noConfusion
  sync := fun h => h.elim (fun h => h.2 hp) Label.noConfusion
  replace := fun _ _ h => h.elim False.elim Label.noConfusion

/-! ## Logs -/

def replacements (log : List Event) : List Replacement := log.filterMap fun
  | .replaced r => some r
  | _ => none

@[simp] theorem replacements_append (a b : List Event) :
    replacements (a ++ b) = replacements a ++ replacements b := List.filterMap_append

theorem mem_replacements {log : List Event} {r : Replacement} :
    r ∈ replacements log ↔ .replaced r ∈ log := by
  rw [replacements, List.mem_filterMap]
  constructor
  · rintro ⟨e, he, hr⟩
    cases e <;> cases hr
    exact he
  · exact fun h => ⟨_, h, rfl⟩

variable (env) in
/-- A part of a run: its events, and what it did to `T` and its temporary files by itself. -/
structure Segment (T : Path) (w w' : World) (new : List Event) : Prop where
  log : w'.log = w.log ++ new
  untouched : .changed T ∉ new
  temp : ∀ p, Temp env T p → (.changed p ∉ new ∧ w'.fs.lookup p = w.fs.lookup p) ∨
    w'.fs.lookup p = none ∨ .unlinkFailed p ∈ new
  kept : env.Spares T → replacements new = [] → w'.fs.lookup T = w.fs.lookup T

theorem Segment.trans {w'' : World} {a b : List Event} (h : Segment env T w w' a)
    (h' : Segment env T w' w'' b) : Segment env T w w'' (a ++ b) where
  log := by rw [h'.log, h.log, List.append_assoc]
  untouched := by simp [h.untouched, h'.untouched]
  temp p hp := by
    rcases h'.temp p hp with ⟨hb, hlookup⟩ | hnone | hfailed
    · rcases h.temp p hp with ⟨ha, hsame⟩ | hnone | hfailed
      · exact Or.inl ⟨by simp [ha, hb], hlookup.trans hsame⟩
      · exact Or.inr (Or.inl (hlookup.trans hnone))
      · exact Or.inr (Or.inr (List.mem_append_left _ hfailed))
    · exact Or.inr (Or.inl hnone)
    · exact Or.inr (Or.inr (List.mem_append_right _ hfailed))
  kept henv hnone := by
    rw [replacements_append, List.append_eq_nil_iff] at hnone
    exact (h'.kept henv hnone.2).trans (h.kept henv hnone.1)

/-- What goes on beside the target replaces nothing. -/
theorem Steps.segment (h : Steps env (Beside env T) w w') (hT : IsTarget env T) :
    ∃ new, Segment env T w w' new ∧ replacements new = [] := by
  obtain ⟨new, hlog, hall⟩ := h.log
  refine ⟨new, ⟨hlog, fun hmem => ?_, fun p hp => Or.inl ⟨fun hmem => ?_, ?_⟩,
    fun henv _ => h.lookup (frame_beside hT.external) henv⟩, ?_⟩
  · exact (hall _ hmem).elim hT.external Label.noConfusion
  · exact (hall _ hmem).elim (hp.external hT.external) Label.noConfusion
  · exact h.lookup (frame_beside_temp hT.external hp) (hp.spares hT)
  · rw [List.eq_nil_iff_forall_not_mem]
    intro r hr
    obtain ⟨source, hs⟩ := hall _ (mem_replacements.mp hr)
    exact hs.elim id Label.noConfusion

/-! ## The temporary file -/

variable {L : Label → Prop} {target : GuardedFile} {snapshot : Snapshot} {output : Bytes}
  {beforeReplace : Option (Io Unit)} {beforeCommit : Io Unit} {temp : Handle}

variable (env) in
/-- Steps of a commit with its temporary file at `path`, before the replacement. -/
def Filling (T path : Path) : Label → Prop
  | .edit p => Internal p ∨ p = path
  | .sync p => (p ≠ T ∧ ¬ Temp env T p) ∨ p = path
  | .unlinkFailed p => Internal p ∨ p = path
  | .replace _ _ => False
  | .record => False
  | _ => True

theorem Aside.filling {path : Path} {l : Label} (h : Aside env T l) : Filling env T path l := by
  cases l with
  | edit | sync | unlinkFailed => exact Or.inl h
  | replace | record => exact h
  | _ => trivial

theorem Steps.filling {path : Path} (h : Steps env (Filling env T path) w w')
    (hT : IsTarget env T) (hpath : Temp env T path) :
    ∃ new, w'.log = w.log ++ new ∧ .changed T ∉ new ∧ replacements new = [] ∧
      (∀ p, Temp env T p → p ≠ path → .changed p ∉ new ∧ w'.fs.lookup p = w.fs.lookup p) ∧
      (env.Spares T → w'.fs.lookup T = w.fs.lookup T) := by
  obtain ⟨new, hlog, hall⟩ := h.log
  refine ⟨new, hlog, fun hmem => ?_, ?_, fun p hp hne => ⟨fun hmem => ?_, ?_⟩, fun henv => ?_⟩
  · rcases hall _ hmem with hint | rfl
    · exact hT.external hint
    · exact hT.fresh hpath
  · rw [List.eq_nil_iff_forall_not_mem]
    intro r hr
    obtain ⟨source, hs⟩ := hall _ (mem_replacements.mp hr)
    exact hs
  · exact (hall _ hmem).elim (hp.external hT.external) hne
  · refine h.lookup ⟨fun he => ?_, fun hs => ?_, fun _ _ => False.elim⟩ (hp.spares hT)
    · exact he.elim (hp.external hT.external) hne
    · exact hs.elim (fun hs => hs.2 hp) hne
  · have hne : T ≠ path := hT.ne_temp hpath
    refine h.lookup ⟨fun he => ?_, fun hs => ?_, fun _ _ => False.elim⟩ henv
    · exact he.elim hT.external hne
    · exact hs.elim (fun hs => hs.1 rfl) hne

theorem does_commitErrorOnOs {reason : Reason} {replaced : Bool} {body : Io Unit}
    (h : Does env L body) : Does env L (commitErrorOnOs reason replaced body) :=
  does_rescueOs h fun _ => runs_raise

/-- The state is the one in which the body has failed. -/
theorem commitErrorOnOs_error {reason : Reason} {replaced : Bool} {body : Io Unit} {e : Exc}
    (h : commitErrorOnOs reason replaced body w = (.error e, w')) :
    ∃ e', body w = (.error e', w') := by
  rcases rescue_eq_iff.mp h with ⟨_, -, ⟨⟩⟩ | ⟨e', t, hbody, hhandler⟩
  cases e' <;> obtain ⟨-, rfl⟩ := raise_eq_iff.mp hhandler <;> exact ⟨_, hbody⟩

theorem does_fillTemp (h : L .call) (hedit : L (.edit temp.path)) (hsync : L (.sync temp.path)) :
    Does env L (fillTemp env temp snapshot output) := by
  refine runs_ensure ?_ fun _ => does_close h
  refine runs_bind (does_write h hedit) fun _ => runs_bind (does_fstatFile h) fun current => ?_
  have hrest : Does env L (fchmod env temp.path snapshot.info.mode >>= fun _ =>
      fsync env temp.path) := runs_bind (does_fchmod h hedit) fun _ => does_fsync h hsync
  exact runs_ite (fun _ => runs_bind (does_fchown h hedit) fun _ => hrest) fun _ => hrest

/-- A file that `fillTemp` has filled. -/
structure Filled (snapshot : Snapshot) (output : Bytes) (node : Node) : Prop where
  kind : node.kind = .file
  data : node.data = output
  mode : node.mode = snapshot.info.mode
  uid : node.uid = snapshot.info.uid
  gid : node.gid = snapshot.info.gid
  nlink : node.nlink = 1

theorem fillTemp_ok {node : Node} {u : Unit} (henv : env.Spares temp.path)
    (h : fillTemp env temp snapshot output w = (.ok u, w'))
    (hnode : w.fs.lookup temp.path = some node) (hkind : node.kind = .file)
    (hdata : node.data = []) (hino : node.ino = temp.ino) (hnlink : node.nlink = 1) :
    ∃ node', w'.fs.lookup temp.path = some node' ∧ Filled snapshot output node' := by
  obtain ⟨out, t₅, hbody, ⟨hclose, rfl⟩ | ⟨e, -, ⟨⟩⟩⟩ := ensure_eq_iff.mp h
  obtain ⟨_, t₁, hwrite, hbody⟩ := bind_ok_iff.mp hbody
  have hwritten := write_ok henv hwrite hnode
  obtain ⟨current, t₂, hstat, hbody⟩ := bind_ok_iff.mp hbody
  obtain ⟨hcurrent, rfl⟩ := look_ok hstat
  rw [Results.pure_eq_ok] at hcurrent
  have hlookup : (arrive env t₁).fs.lookup temp.path = _ := (arrive_lookup henv).trans hwritten
  -- The owner of the file is that of the snapshot, with or without `fchown`.
  have howned : ∃ t node', t.fs.lookup temp.path = some node' ∧ node'.kind = .file ∧
      node'.data = output ∧ node'.uid = snapshot.info.uid ∧ node'.gid = snapshot.info.gid ∧
      node'.nlink = 1 ∧
      (fchmod env temp.path snapshot.info.mode >>= fun _ => fsync env temp.path) t =
        (.ok u, t₅) := by
    split at hbody
    · obtain ⟨_, t₃, hown, hbody⟩ := bind_ok_iff.mp hbody
      exact ⟨t₃, _, modify_ok henv hown hlookup, hkind, by simp [Node.appended, hdata], rfl, rfl,
        hnlink, hbody⟩
    · rename_i hsame
      rw [← hcurrent, nodeAt, hlookup] at hsame
      simp only [Node.appended, hino, if_true, Node.stat, not_or, not_not] at hsame
      exact ⟨_, _, hlookup, hkind, by simp [Node.appended, hdata], hsame.1, hsame.2, hnlink, hbody⟩
  obtain ⟨t, node', hnode', hkind', hdata', huid, hgid, hnlink', hrest⟩ := howned
  obtain ⟨_, t₄, hmode, hsync⟩ := bind_ok_iff.mp hrest
  obtain ⟨names, hsynced, -, -⟩ := fsync_ok henv hsync (modify_ok henv hmode hnode')
  obtain ⟨-, rfl⟩ := look_ok hclose
  exact ⟨_, (arrive_lookup henv).trans hsynced, hkind', hdata', rfl, huid, hgid, hnlink'⟩

/-! ## The replacement -/

/-- What the callers of `commit` hand over: a backup that leaves `P` behind, aside of the target,
and a check that only looks. -/
structure Hooks (env : Env) (T : Path) (P : Fs → Prop) (beforeReplace : Option (Io Unit))
    (beforeCommit : Io Unit) : Prop where
  aside : ∀ before ∈ beforeReplace, Does env (Aside env T) before
  post : ∀ before ∈ beforeReplace, ∀ w w', before w = (.ok (), w') → P w'.fs
  vacuous : beforeReplace = none → ∀ fs, P fs
  looks : Does env Looks beforeCommit
  denies : Raises Exc.IsPatch beforeCommit
  stable : ∀ w w', Steps env NoEdit w w' → P w.fs → P w'.fs

variable (env) in
/-- The target is the one regular file of the snapshot. -/
def Verified (fs : Fs) (T : Path) (snapshot : Snapshot) : Prop :=
  ∃ node, fs.lookup T = some node ∧ node.kind = .file ∧ node.stat = snapshot.info ∧
    env.sha256 node.data = snapshot.sha256

variable (env) in
/-- A replacement by a commit. -/
structure Replaced (T : Path) (snapshot : Snapshot) (output : Bytes) (P : Fs → Prop)
    (r : Replacement) : Prop where
  target : r.target = T
  installed : Filled snapshot output r.installed
  hook : P r.before
  verified : r.disturbed = false ∨ env.Calm → Verified env r.before T snapshot

/-- Not a `CommitError` after the replacement. -/
def Exc.Unreplaced : Exc → Prop
  | .commit _ replaced => replaced = false
  | _ => True

theorem Exc.IsPatch.unreplaced {e : Exc} (h : e.IsPatch) : e.Unreplaced := by
  cases e <;> trivial

theorem raises_commitErrorOnOs {P : Exc → Prop} {reason : Reason} {replaced : Bool}
    {body : Io Unit} (hbody : Raises (fun e => P e ∨ e.IsOs) body)
    (hP : P (.commit reason replaced)) : Raises P (commitErrorOnOs reason replaced body) :=
  raises_rescueOs hbody fun _ => raises_raise hP

theorem raises_fillTemp {P : Exc → Prop} (hP : ∀ e, P (.os e)) :
    Raises P (fillTemp env temp snapshot output) := by
  refine raises_ensure ?_ fun _ => raises_look hP
  refine raises_bind (raises_write hP) fun _ => raises_bind (raises_look hP) fun current => ?_
  have hrest : Raises P (fchmod env temp.path snapshot.info.mode >>= fun _ =>
      fsync env temp.path) := raises_bind (raises_fchmod hP) fun _ => raises_fsync hP
  split
  · exact raises_bind (raises_fchown hP) fun _ => hrest
  · exact hrest

theorem raises_unlinkTemp {P : Exc → Prop} {path : Path} (hP : ∀ e, P (.os e)) :
    Raises P (unlinkTemp env path) :=
  raises_rescueOs (raises_unlink fun _ => Or.inr trivial) fun e => by
    cases e <;> first | exact raises_pure | exact raises_raise (hP _)

/-- A commit that has removed its temporary file without a replacement. -/
theorem Segment.of_filling {path : Path} {t : World} (hT : IsTarget env T)
    (hpath : Temp env T path) (h : Steps env (Filling env T path) w t)
    (h' : Steps env (Filling env T path) t w')
    (hgone : w'.fs.lookup path = none ∨ w'.log = t.log ++ [.call, .unlinkFailed path]) :
    ∃ new, Segment env T w w' new ∧ replacements new = [] := by
  obtain ⟨new, hlog, huntouched, hnone, hother, hkept⟩ := Steps.filling (h.trans h') hT hpath
  refine ⟨new, ⟨hlog, huntouched, fun p hp => ?_, fun henv _ => hkept henv⟩, hnone⟩
  by_cases hne : p = path
  · subst hne
    refine Or.inr (hgone.imp_right fun hfailed => ?_)
    obtain ⟨before, hbefore, -⟩ := h.log
    rw [hfailed, hbefore, List.append_assoc, List.append_cancel_left_eq] at hlog
    rw [← hlog]
    simp
  · exact Or.inl (hother p hp hne)

/-- A commit whose temporary file has become the target. -/
theorem Segment.of_replaced {path : Path} {t : World} {r : Replacement} (hT : IsTarget env T)
    (hpath : Temp env T path) (h : Steps env (Filling env T path) w t)
    (hlog : w'.log = t.log ++ [.replaced r]) (hgone : w'.fs.lookup path = none)
    (hother : ∀ p, p ≠ T → p ≠ path → w'.fs.lookup p = t.fs.lookup p) :
    ∃ new, Segment env T w w' new ∧ replacements new = [r] := by
  obtain ⟨new, hnew, huntouched, hnone, htemp, -⟩ := h.filling hT hpath
  have hone : replacements (new ++ [.replaced r]) = [r] := by
    rw [replacements_append, hnone]
    rfl
  refine ⟨new ++ [.replaced r], ⟨by rw [hlog, hnew, List.append_assoc], by simpa using huntouched,
    fun p hp => ?_, fun _ hnil => absurd (hone.symm.trans hnil) (List.cons_ne_nil _ _)⟩, hone⟩
  by_cases hne : p = path
  · rw [hne]
    exact Or.inr (Or.inl hgone)
  · obtain ⟨hmem, hsame⟩ := htemp p hp hne
    exact Or.inl ⟨by simpa using hmem, (hother p (hT.ne_temp hp).symm hne).trans hsame⟩

theorem not_temp_dropLast : ¬ Temp env T T.dropLast := by
  rintro ⟨n, h⟩
  simpa using congrArg List.length h

variable (env) in
/-- How a commit ends: it fails before its replacement, with no exception that says otherwise, or
it replaces the target once. -/
def CommitEnd (T : Path) (snapshot : Snapshot) (output : Bytes) (P : Fs → Prop) (w w' : World)
    (out : Except Exc Unit) : Prop :=
  ∃ new, Segment env T w w' new ∧
    ((replacements new = [] ∧ ∃ e, out = .error e ∧ e.Unreplaced) ∨
      ∃ r, replacements new = [r] ∧ Replaced env T snapshot output P r ∧
        (out = .ok () ∨ out = .error (.commit .durabilityUnconfirmed true)) ∧
        ∀ p, Internal p → w'.fs.lookup p = r.before.lookup p)

theorem CommitEnd.of_aside {P : Fs → Prop} {e : Exc} (hT : IsTarget env T)
    (h : Steps env (Aside env T) w w') (he : e.Unreplaced) :
    CommitEnd env T snapshot output P w w' (.error e) := by
  obtain ⟨new, hsegment, hnone⟩ := Steps.segment (h.mono fun _ => Or.inl) hT
  exact ⟨new, hsegment, Or.inl ⟨hnone, e, rfl, he⟩⟩

/-- A commit raises what the hooks raise, or controlled errors. -/
theorem raises_commit {Q : Exc → Prop} (hpatch : ∀ e, Q (.patch e))
    (hcommit : ∀ reason replaced, Q (.commit reason replaced)) (hos : ∀ e, Q (.os e))
    (hbefore : ∀ before ∈ beforeReplace, Raises Q before)
    (hcheck : Raises Exc.IsPatch beforeCommit) :
    Raises Q (commit env target snapshot output beforeReplace beforeCommit) := by
  have hpatch' : ∀ e, e.IsPatch → Q e := fun e he => by
    cases e with
    | patch e => exact hpatch e
    | _ => exact he.elim
  have hverify : Raises Q (target.verifySnapshot env snapshot) := raises_verifySnapshot.mono hpatch'
  have hrest : Raises Q (target.verifySnapshot env snapshot >>= fun _ => beforeCommit) :=
    raises_bind hverify fun _ => hcheck.mono hpatch'
  have hprepare : ∀ temp, Raises Q
      (prepare env target snapshot output beforeReplace beforeCommit temp) := by
    intro temp
    refine raises_bind (raises_fillTemp hos) fun _ => ?_
    cases hsome : beforeReplace with
    | none => exact hrest
    | some before =>
      refine raises_bind (raises_rescue (hbefore before (by simp [hsome])) fun e he => ?_) fun _ =>
        hrest
      cases e with
      | value | recursion => exact raises_raise he
      | _ => exact raises_raise (hcommit _ _)
  refine raises_bind raises_read fun w => raises_bind (raises_commitErrorOnOs
    (hverify.mono fun _ => Or.inl) (hcommit _ _)) fun _ => raises_bind (raises_rescueOs
    (raises_createExclusive fun _ => Or.inr trivial) fun _ => raises_raise (hcommit _ _))
    fun temp => raises_bind (raises_onError (raises_commitErrorOnOs ?_ (hcommit _ _))
      (raises_unlinkTemp hos)) fun _ => ?_
  · exact raises_bind ((hprepare temp).mono fun _ => Or.inl) fun _ =>
      raises_replace fun _ => Or.inr trivial
  · exact raises_commitErrorOnOs (raises_fsync fun _ => Or.inr trivial) (hcommit _ _)

theorem does_prepare (h : L .call) (hverify : L .verify)
    (htemp : L (.edit temp.path) ∧ L (.sync temp.path))
    (hbefore : ∀ before ∈ beforeReplace, Does env L before) (hcheck : Does env L beforeCommit) :
    Does env L (prepare env target snapshot output beforeReplace beforeCommit temp) := by
  have hrest : Does env L (target.verifySnapshot env snapshot >>= fun _ => beforeCommit) :=
    runs_bind (does_verifySnapshot h hverify) fun _ => hcheck
  refine runs_bind (does_fillTemp h htemp.1 htemp.2) fun _ => ?_
  cases hsome : beforeReplace with
  | none => exact hrest
  | some before =>
    refine runs_bind (runs_rescue (hbefore before (by simp [hsome])) fun e => ?_) fun _ => hrest
    cases e <;> exact runs_raise

theorem raises_prepare (hcheck : Raises Exc.IsPatch beforeCommit) :
    Raises Exc.Unreplaced (prepare env target snapshot output beforeReplace beforeCommit
      temp) := by
  have hrest : Raises Exc.Unreplaced
      (target.verifySnapshot env snapshot >>= fun _ => beforeCommit) :=
    raises_bind (raises_verifySnapshot.mono fun _ => Exc.IsPatch.unreplaced) fun _ =>
      hcheck.mono fun _ => Exc.IsPatch.unreplaced
  refine raises_bind (raises_fillTemp fun _ => trivial) fun _ => ?_
  cases beforeReplace with
  | none => exact hrest
  | some before =>
    refine raises_bind (raises_rescue (Q := fun _ => True) (fun _ _ _ _ => trivial) fun e _ => ?_)
      fun _ => hrest
    cases e with
    | value | recursion => exact raises_raise trivial
    | _ => exact raises_raise rfl

section Commit

variable {P : Fs → Prop} (hooks : Hooks env target.path P beforeReplace beforeCommit)

include hooks

theorem does_prepare_filling : Does env (Filling env target.path temp.path)
    (prepare env target snapshot output beforeReplace beforeCommit temp) :=
  does_prepare trivial trivial ⟨Or.inr rfl, Or.inr rfl⟩
    (fun before hbefore => (hooks.aside before hbefore).mono fun _ => Aside.filling)
    (hooks.looks.mono fun _ h => h.noEdit.aside.filling)

/-- After the block, the temporary file is filled, the backup is made, and the target is as it
was read unless somebody has acted since. -/
theorem prepare_ok {node : Node} {u : Unit} (hT : IsTarget env target.path)
    (htemp : Temp env target.path temp.path)
    (h : prepare env target snapshot output beforeReplace beforeCommit temp w = (.ok u, w'))
    (hnode : w.fs.lookup temp.path = some node) (hkind : node.kind = .file)
    (hdata : node.data = []) (hino : node.ino = temp.ino) (hnlink : node.nlink = 1) :
    (∃ node', w'.fs.lookup temp.path = some node' ∧ Filled snapshot output node') ∧ P w'.fs ∧
      (Undisturbed env w' → Verified env w'.fs target.path snapshot) := by
  have henv := htemp.spares hT
  obtain ⟨_, t, hfill, h⟩ := bind_ok_iff.mp h
  obtain ⟨node', hnode', hfilled⟩ := fillTemp_ok henv hfill hnode hkind hdata hino hnlink
  -- The backup leaves the temporary file alone, and what follows changes nothing.
  have hbacked : ∃ t', t'.fs.lookup temp.path = some node' ∧ P t'.fs ∧
      (target.verifySnapshot env snapshot >>= fun _ => beforeCommit) t' = (.ok u, w') := by
    cases hbefore : beforeReplace with
    | none =>
      rw [hbefore] at h
      exact ⟨t, hnode', hooks.vacuous hbefore _, h⟩
    | some before =>
      rw [hbefore] at h
      obtain ⟨_, t', hrun, h⟩ := bind_ok_iff.mp h
      rcases rescue_eq_iff.mp hrun with ⟨_, hrun, -⟩ | ⟨e, _, -, hhandler⟩
      · have hbeside : Does env (Beside env target.path) before :=
          (hooks.aside before (by simp [hbefore])).mono fun _ => Or.inl
        have hsteps := hbeside.of_eq hrun
        refine ⟨t', ?_, hooks.post before (by simp [hbefore]) _ _ hrun, h⟩
        rw [Steps.lookup hsteps (frame_beside_temp hT.external htemp) henv, hnode']
      · cases e <;> cases (raise_eq_iff.mp hhandler).1
  obtain ⟨t', hnode', hP, h⟩ := hbacked
  obtain ⟨_, t'', hverify, hcheck⟩ := bind_ok_iff.mp h
  have hquiet : Steps env NoEdit t' t'' := (does_verifySnapshot trivial trivial).of_eq hverify
  have hlooks : Steps env Looks t'' w' := hooks.looks.of_eq hcheck
  have hall := hquiet.trans (hlooks.mono fun _ => Looks.noEdit)
  refine ⟨⟨node', ?_, hfilled⟩, hooks.stable _ _ hall hP, fun hq => ?_⟩
  · rw [Steps.lookup hall frame_noEdit henv, hnode']
  · obtain ⟨hq', hfs⟩ := hlooks.undisturbed (fun _ => id) hq
    rw [hfs]
    exact verifySnapshot_ok hverify hq'

/-- A failure up to the replacement is one without it. -/
theorem replaceBlock_error {e : Exc}
    (h : commitErrorOnOs .commitFailed false (do
        prepare env target snapshot output beforeReplace beforeCommit temp
        replace env temp.path target.path) w = (.error e, w')) :
    Steps env (Filling env target.path temp.path) w w' ∧ e.Unreplaced := by
  constructor
  · obtain ⟨e', hbody⟩ := commitErrorOnOs_error h
    rcases bind_eq_iff.mp hbody with ⟨_, hprepare, -⟩ | ⟨_, t, hprepare, hreplace⟩
    · exact (does_prepare_filling hooks).of_eq hprepare
    · rw [replace_error hreplace]
      exact ((does_prepare_filling hooks).of_eq hprepare).tail ⟨.call, trivial, .call t⟩
  · refine raises_commitErrorOnOs (P := Exc.Unreplaced) ?_ rfl _ _ _ h
    exact raises_bind ((raises_prepare hooks.denies).mono fun _ => Or.inl) fun _ =>
      raises_replace fun _ => Or.inr trivial

/-- The replacement itself, from a filled temporary file. -/
theorem replaceBlock_ok {node : Node} {u : Unit} (hT : IsTarget env target.path)
    (htemp : Temp env target.path temp.path)
    (h : commitErrorOnOs .commitFailed false (do
        prepare env target snapshot output beforeReplace beforeCommit temp
        replace env temp.path target.path) w = (.ok u, w'))
    (hnode : w.fs.lookup temp.path = some node) (hkind : node.kind = .file)
    (hdata : node.data = []) (hino : node.ino = temp.ino) (hnlink : node.nlink = 1) :
    ∃ t r, Steps env (Filling env target.path temp.path) w t ∧
      w'.log = t.log ++ [.replaced r] ∧ Replaced env target.path snapshot output P r ∧
      w'.fs.lookup temp.path = none ∧ r.before = t.fs ∧
      ∀ p, p ≠ target.path → p ≠ temp.path → w'.fs.lookup p = t.fs.lookup p := by
  rcases rescueOs_ok h with hbody | ⟨e, t, -, hhandler⟩
  · obtain ⟨_, t, hprepare, hreplace⟩ := bind_ok_iff.mp hbody
    have hne := hT.ne_temp htemp
    obtain ⟨⟨node', hnode', hfilled⟩, hP, hverified⟩ :=
      prepare_ok hooks hT htemp hprepare hnode hkind hdata hino hnlink
    have hcall : Step env .call t (arrive env t) := .call t
    obtain ⟨installed, hinstalled, rfl⟩ := replace_ok hreplace
    obtain rfl : installed = node' := by
      rw [arrive_lookup (htemp.spares hT), hnode'] at hinstalled
      exact (Option.some.inj hinstalled).symm
    refine ⟨arrive env t, ⟨target.path, (arrive env t).fs, installed, (arrive env t).disturbed⟩,
      ((does_prepare_filling hooks).of_eq hprepare).tail ⟨.call, trivial, hcall⟩, rfl, ⟨rfl, hfilled, ?_, ?_⟩,
      ?_, rfl, ?_⟩
    · exact hooks.stable _ _ (Steps.single (l := .call) trivial hcall) hP
    · intro hq
      have hcalls : Steps env Looks t (arrive env t) :=
        Steps.single (l := .call) trivial hcall
      obtain ⟨hq', hfs⟩ := hcalls.undisturbed (fun _ => id) hq
      simp only [hfs]
      exact hverified hq'
    · rw [Fs.lookup_put_ne hne.symm, Fs.lookup_put]
    · intro p hp hp'
      rw [Fs.lookup_put_ne hp, Fs.lookup_put_ne hp']
  · cases (raise_eq_iff.mp hhandler).1

/-- A failure while the temporary file exists. -/
theorem onError_error {e : Exc} (h : onError (commitErrorOnOs .commitFailed false (do
        prepare env target snapshot output beforeReplace beforeCommit temp
        replace env temp.path target.path)) (unlinkTemp env temp.path) w = (.error e, w')) :
    ∃ t, Steps env (Filling env target.path temp.path) w t ∧
      Steps env (Filling env target.path temp.path) t w' ∧ e.Unreplaced ∧
      (w'.fs.lookup temp.path = none ∨ w'.log = t.log ++ [.call, .unlinkFailed temp.path]) := by
  rcases rescue_eq_iff.mp h with ⟨_, -, ⟨⟩⟩ | ⟨e', t, hblock, hcleanup⟩
  obtain ⟨hfilling, hun⟩ := replaceBlock_error hooks hblock
  -- Whatever the handlers raise, the state is the one that `unlink` has left.
  have hunlink : ∃ o, unlink env temp.path t = (o, w') := by
    have hstate : ∀ o t', unlinkTemp env temp.path t = (o, t') →
        ∃ o', unlink env temp.path t = (o', t') := by
      intro o t' hrun
      rcases rescue_eq_iff.mp hrun with ⟨a, hok, -⟩ | ⟨e'', t'', herror, hhandler⟩
      · exact ⟨_, hok⟩
      · refine ⟨.error e'', ?_⟩
        rw [herror]
        cases e'' with
        | os e'' => cases e'' <;> simp_all
        | _ => simp_all
    rcases bind_eq_iff.mp hcleanup with ⟨_, hrun, -⟩ | ⟨_, t', hrun, hraise⟩
    · exact hstate _ _ hrun
    · obtain ⟨-, rfl⟩ := raise_eq_iff.mp hraise
      exact hstate _ _ hrun
  obtain ⟨o, hunlink⟩ := hunlink
  refine ⟨t, hfilling, ?_, ?_, unlink_gone hunlink⟩
  · exact (does_unlink trivial (Or.inr rfl) (Or.inr rfl)).of_eq hunlink
  · rcases bind_eq_iff.mp hcleanup with ⟨e'', hrun, heq⟩ | ⟨_, t', -, hraise⟩
    · cases heq
      exact raises_unlinkTemp (P := Exc.Unreplaced) (fun _ => trivial) _ _ _ hrun
    · cases (raise_eq_iff.mp hraise).1
      exact hun

theorem commit_run {out : Except Exc Unit} (hT : IsTarget env target.path)
    (h : commit env target snapshot output beforeReplace beforeCommit w = (out, w')) :
    CommitEnd env target.path snapshot output P w w' out := by
  have hparent : target.parent = target.path.dropLast := by
    rw [GuardedFile.path, List.dropLast_concat]
  rw [commit, read_bind] at h
  obtain ⟨path, hpath⟩ : ∃ path, path = target.parent ++ [tempName (env.uuid w.step)] := ⟨_, rfl⟩
  rw [← hpath] at h
  have htemp : Temp env target.path path := ⟨w.step, by rw [hpath, hparent]⟩
  rcases bind_eq_iff.mp h with ⟨e, hverify, rfl⟩ | ⟨_, t₁, hverify, h⟩
  · have hsteps : Steps env (Aside env target.path) _ _ :=
      (does_commitErrorOnOs (does_verifySnapshot trivial trivial)).of_eq hverify
    refine CommitEnd.of_aside hT hsteps ?_
    exact raises_commitErrorOnOs (P := Exc.Unreplaced)
      (raises_verifySnapshot.mono fun _ he => Or.inl he.unreplaced) rfl _ _ _ hverify
  have hverified : Steps env (Aside env target.path) _ t₁ :=
    (does_commitErrorOnOs (does_verifySnapshot trivial trivial)).of_eq hverify
  rcases bind_eq_iff.mp h with ⟨e, hcreate, rfl⟩ | ⟨temp, t₂, hcreate, h⟩
  · rcases rescue_eq_iff.mp hcreate with ⟨_, -, ⟨⟩⟩ | ⟨e', t, herror, hhandler⟩
    obtain rfl := createExclusive_error herror
    have hstate : w' = arrive env t₁ ∧ e.Unreplaced := by
      have := raises_createExclusive (P := Exc.IsOs) (fun _ => trivial) _ _ _ herror
      cases e' with
      | os e' =>
        obtain ⟨⟨⟩, rfl⟩ := raise_eq_iff.mp hhandler
        exact ⟨rfl, rfl⟩
      | _ => exact this.elim
    rw [hstate.1]
    exact CommitEnd.of_aside hT (hverified.tail ⟨.call, trivial, .call t₁⟩) hstate.2
  have hcreate : createExclusive env path t₁ = (.ok temp, t₂) := by
    rcases rescueOs_ok hcreate with hok | ⟨_, _, -, hraise⟩
    · exact hok
    · cases (raise_eq_iff.mp hraise).1
  obtain ⟨rfl, -, rfl⟩ := createExclusive_ok hcreate
  have hcreated : Steps env (Filling env target.path path) w _ :=
    ((hverified.mono fun _ => Aside.filling).tail ⟨.call, trivial, .call t₁⟩).tail
      ⟨.edit _, Or.inr rfl, .edit _ path (some (fresh env t₁.step .file 0o600))⟩
  rcases bind_eq_iff.mp h with ⟨e, hblock, rfl⟩ | ⟨_, t₃, hblock, hsync⟩
  · obtain ⟨t, hbefore, hafter, hun, hgone⟩ := onError_error hooks hblock
    obtain ⟨new, hsegment, hnone⟩ := Segment.of_filling hT htemp (hcreated.trans hbefore) hafter hgone
    exact ⟨new, hsegment, Or.inl ⟨hnone, e, rfl, hun⟩⟩
  · obtain ⟨t, r, hsteps, hlog, hreplaced, hgone, hbefore, hother⟩ :=
      replaceBlock_ok hooks hT htemp (onError_ok hblock) World.edit_lookup rfl rfl rfl rfl
    obtain ⟨new, hsegment, hone⟩ :=
      Segment.of_replaced hT htemp (hcreated.trans hsteps) hlog hgone hother
    have hsynced : Steps env (Aside env target.path) t₃ w' := by
      refine (does_commitErrorOnOs (does_fsync trivial ⟨?_, ?_⟩)).of_eq hsync
      · simp [GuardedFile.path]
      · rw [hparent]
        exact not_temp_dropLast
    obtain ⟨new', hsegment', hnone⟩ := Steps.segment (hsynced.mono fun _ => Or.inl) hT
    have hinternal : ∀ p, Internal p → w'.fs.lookup p = r.before.lookup p := by
      intro p hp
      have hne : p ≠ target.path := fun heq => hT.external (heq ▸ hp)
      have hparent' : p ≠ target.parent := by
        rw [hparent]
        rintro rfl
        exact hT.external (hp.trans (List.dropLast_prefix _))
      have honly : Steps env (OnlyAt target.parent) t₃ w' :=
        (does_commitErrorOnOs (does_fsync (L := OnlyAt target.parent) trivial rfl)).of_eq hsync
      rw [honly.lookup (frame_onlyAt hparent') (hT.alone p hne), hbefore]
      refine hother p hne ?_
      rintro rfl
      exact htemp.external hT.external hp
    refine ⟨new ++ new', hsegment.trans hsegment', Or.inr ⟨r, by simp [hone, hnone], hreplaced, ?_,
      hinternal⟩⟩
    rcases rescue_eq_iff.mp hsync with ⟨_, -, rfl⟩ | ⟨e, _, herror, hhandler⟩
    · exact Or.inl rfl
    · have := raises_fsync (P := Exc.IsOs) (fun _ => trivial) _ _ _ herror
      cases e with
      | os e => exact Or.inr (raise_eq_iff.mp hhandler).1
      | _ => exact this.elim

end Commit

/-- A commit leaves the progress record alone, if its hooks do. -/
theorem does_commit (hbefore : ∀ before ∈ beforeReplace, Does env (· ≠ .record) before)
    (hcheck : Does env (· ≠ .record) beforeCommit) : Does env (· ≠ .record)
      (commit env target snapshot output beforeReplace beforeCommit) := by
  have hcall : Label.call ≠ .record := Label.noConfusion
  refine runs_bind runs_read fun w => runs_bind (does_commitErrorOnOs (does_verifySnapshot hcall
    Label.noConfusion)) fun _ => ?_
  refine runs_bind (does_rescueOs (does_createExclusive hcall Label.noConfusion) fun _ => runs_raise)
    fun temp => runs_bind (does_onError (does_commitErrorOnOs ?_) (does_rescueOs
      (does_unlink hcall Label.noConfusion Label.noConfusion) fun e => ?_)) fun _ => ?_
  · exact runs_bind (does_prepare hcall Label.noConfusion ⟨Label.noConfusion, Label.noConfusion⟩
      hbefore hcheck) fun _ => does_replace hcall Label.noConfusion
  · cases e <;> first | exact runs_pure | exact runs_raise
  · exact does_commitErrorOnOs (does_fsync hcall Label.noConfusion)

theorem Hooks.does_commit {P : Fs → Prop} (hooks : Hooks env target.path P beforeReplace beforeCommit) :
    Does env (· ≠ .record) (commit env target snapshot output beforeReplace beforeCommit) :=
  Hapatchy.does_commit (fun before h => (hooks.aside before h).mono fun l hl => by
    rintro rfl
    exact hl) (hooks.looks.mono fun l hl => by
    rintro rfl
    exact hl)

end Hapatchy
