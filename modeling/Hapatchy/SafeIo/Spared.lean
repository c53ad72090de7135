import Hapatchy.SafeIo.Specs

/-!
# Files that the others leave alone

A read returns the bytes of the file, whatever happens to other paths, and what
it refuses is never the permission of Home Assistant.
-/

open Effects Prog

namespace Hapatchy

variable {env : Env} {α : Type} {w w' : World}

/-! ## Reads -/

section Reads

variable {handle : Handle} {node : Node} (henv : env.Spares handle.path)
  (hino : node.ino = handle.ino)

include hino in
theorem nodeAt_spared {n : Nat} {fs : Fs} (hnode : fs.lookup handle.path = some node) :
    nodeAt env n handle fs = node := by
  unfold nodeAt
  simp only [hnode, hino, if_true]

include henv hino

theorem readChunks_spared {limit fuel : Nat} {data out : Bytes}
    (h : readChunks env handle limit fuel data w = (.ok out, w'))
    (hnode : w.fs.lookup handle.path = some node) (hdata : data <+: node.data)
    (hfuel : limit + 1 ≤ fuel + data.length) (hlimit : data.length ≤ limit) : out = node.data := by
  induction fuel generalizing data w with
  | zero => omega
  | succ fuel ih =>
    obtain ⟨chunk, t, hread, hrest⟩ := bind_ok_iff.mp h
    obtain ⟨hchunk, rfl⟩ := look_ok hread
    have hthere : (arrive env w).fs.lookup handle.path = some node := by
      rw [arrive_lookup henv, hnode]
    rw [nodeAt_spared hino hthere, Results.pure_eq_ok] at hchunk
    obtain ⟨rest, hsplit⟩ := hdata
    rw [← hsplit, List.drop_left] at hchunk
    split at hrest
    · rename_i hnil
      obtain ⟨⟨⟩, -⟩ := pure_eq_iff.mp hrest
      rw [hnil, List.take_eq_nil_iff] at hchunk
      rcases hchunk with hzero | rfl
      · omega
      · rw [← hsplit, List.append_nil]
    · rename_i hne
      split at hrest
      · cases (raise_eq_iff.mp hrest).1
      · rename_i hsize
        have hpos := List.length_pos_of_ne_nil hne
        refine ih hrest hthere ⟨rest.drop (min 65536 (limit + 1 - data.length)), ?_⟩ ?_ ?_
        · rw [← hchunk, List.append_assoc, List.take_append_drop, hsplit]
        · rw [List.length_append]
          omega
        · rw [List.length_append]
          omega

theorem readOpen_spared {limit : Nat} {snapshot : Snapshot}
    (h : GuardedFile.readOpen env handle limit w = (.ok snapshot, w'))
    (hnode : w.fs.lookup handle.path = some node) : snapshot.data = node.data := by
  obtain ⟨before, t, hbefore, h⟩ := bind_ok_iff.mp h
  split at h
  · cases (raise_eq_iff.mp h).1
  split at h
  · cases (raise_eq_iff.mp h).1
  obtain ⟨data, t', hread, h⟩ := bind_ok_iff.mp h
  obtain ⟨after, _, -, h⟩ := bind_ok_iff.mp h
  split at h
  · cases (raise_eq_iff.mp h).1
  obtain ⟨⟨⟩, -⟩ := pure_eq_iff.mp h
  refine readChunks_spared henv hino hread ?_ List.nil_prefix (by simp) (by simp)
  rw [Steps.calls_lookup ((does_fstatFile trivial).of_eq hbefore) henv, hnode]

end Reads

/-- A read returns the bytes of a file that the others leave alone. -/
theorem read_spared {target : GuardedFile} {limit : Nat} {snapshot : Snapshot}
    (henv : env.Spares target.path) (h : target.read env limit w = (.ok snapshot, w')) :
    (w.fs.lookup target.path).map Node.data = some snapshot.data := by
  rcases rescueOs_ok h with h | ⟨e, t, -, hhandler⟩
  · obtain ⟨_, t, hverify, h⟩ := bind_ok_iff.mp h
    obtain ⟨handle, t', hopen, h⟩ := bind_ok_iff.mp h
    obtain ⟨hhandle, rfl⟩ := look_ok hopen
    have hsame : (arrive env t).fs.lookup target.path = w.fs.lookup target.path := by
      rw [arrive_lookup henv, Steps.calls_lookup ((does_verify trivial).of_eq hverify) henv]
    obtain ⟨out, t'', hread, ⟨-, rfl⟩ | ⟨e, -, ⟨⟩⟩⟩ := ensure_eq_iff.mp h
    split at hhandle
    · cases hhandle
    rename_i node hnode
    split at hhandle
    · cases hhandle
    obtain rfl := Results.pure_eq_ok.mp hhandle
    rw [← hsame, hnode, readOpen_spared henv rfl hread hnode, Option.map_some]
  · cases e <;> cases (raise_eq_iff.mp hhandler).1

/-! ## Refusals -/

/-- Not the refusal of `is_allowed_path`. -/
def Exc.Guarded : Exc → Prop
  | .patch error => error.reason ≠ .haPathNotAllowed
  | _ => True

theorem guarded_raisePatch {reason : Reason} {status : Status} (h : reason ≠ .haPathNotAllowed) :
    Raises Exc.Guarded (raisePatch reason status : Io α) := raises_raise h

theorem guarded_os : ∀ e, Exc.Guarded (.os e) := fun _ => trivial

theorem guarded_rescueOs {body : Io α} {handler : OsError → Io α} (hbody : Raises Exc.Guarded body)
    (hhandler : ∀ e, Raises Exc.Guarded (handler e)) : Raises Exc.Guarded (rescueOs body handler) :=
  raises_rescueOs (hbody.mono fun _ => Or.inl) hhandler

theorem guarded_verifyBelow {parent : Handle} {handles : List Handle} {names : List Text} :
    Raises Exc.Guarded (verifyBelow env parent handles names) := by
  induction handles generalizing parent names with
  | nil => exact raises_pure
  | cons child handles ih =>
    cases names with
    | nil => exact raises_pure
    | cons name names =>
      refine raises_bind (raises_look guarded_os) fun _ => raises_bind (raises_look guarded_os)
        fun _ => ?_
      split
      · exact guarded_raisePatch Reason.noConfusion
      · exact ih

theorem guarded_verify {directory : GuardedDirectory} :
    Raises Exc.Guarded (directory.verify env) := by
  unfold GuardedDirectory.verify
  split
  · exact raises_pure
  · refine raises_bind (raises_look guarded_os) fun _ => raises_bind (raises_look guarded_os)
      fun _ => ?_
    split
    · exact guarded_raisePatch Reason.noConfusion
    · exact guarded_verifyBelow

theorem guarded_openParts {create : Bool} {parts rest : List Text} {parent : Handle}
    {opened : List Handle} :
    Raises Exc.Guarded (openParts env create parts parent opened rest) := by
  induction rest generalizing parent opened with
  | nil =>
    exact raises_bind (raises_onError guarded_verify (raises_exit guarded_os)) fun _ => raises_pure
  | cons part rest ih =>
    refine raises_bind (raises_onError ?_ (raises_exit guarded_os)) fun _ => ih
    cases create with
    | false => exact raises_openDirectory guarded_os
    | true =>
      refine raises_bind (guarded_rescueOs ?_ fun e => ?_) fun _ => raises_openDirectory guarded_os
      · exact raises_bind (raises_alter guarded_os) fun _ => raises_fsync guarded_os
      · cases e with
        | fileExists => exact raises_pure
        | _ => exact raises_raise trivial

theorem guarded_enter {parts : List Text} {create : Bool} :
    Raises Exc.Guarded (GuardedDirectory.enter env parts create) :=
  raises_bind (raises_look guarded_os) fun _ => guarded_openParts

theorem guarded_withDirectory {parts : List Text} {create : Bool} {body : GuardedDirectory → Io α}
    (hbody : ∀ directory, Raises Exc.Guarded (body directory)) :
    Raises Exc.Guarded (withDirectory env parts create body) :=
  raises_bind guarded_enter fun directory =>
    raises_ensure (hbody directory) fun _ => raises_exit guarded_os

theorem guarded_readChunks {handle : Handle} {limit fuel : Nat} {data : Bytes} :
    Raises Exc.Guarded (readChunks env handle limit fuel data) := by
  induction fuel generalizing data with
  | zero => exact raises_pure
  | succ fuel ih =>
    refine raises_bind (raises_look guarded_os) fun chunk => ?_
    split
    · exact raises_pure
    split
    · exact guarded_raisePatch Reason.noConfusion
    · exact ih

theorem guarded_read {target : GuardedFile} {limit : Nat} :
    Raises Exc.Guarded (target.read env limit) := by
  refine guarded_rescueOs ?_ fun e => ?_
  · refine raises_bind guarded_verify fun _ => raises_bind (raises_look guarded_os) fun handle =>
      raises_ensure ?_ fun _ => raises_look guarded_os
    refine raises_bind (raises_look guarded_os) fun before => ?_
    split
    · exact guarded_raisePatch Reason.noConfusion
    split
    · exact guarded_raisePatch Reason.noConfusion
    refine raises_bind guarded_readChunks fun data => raises_bind (raises_look guarded_os)
      fun after => ?_
    split
    · exact guarded_raisePatch Reason.noConfusion
    · exact raises_pure
  · cases e with
    | fileNotFound => exact guarded_raisePatch Reason.noConfusion
    | _ => exact guarded_raisePatch Reason.noConfusion

end Hapatchy
