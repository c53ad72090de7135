import Hapatchy.ManagedSource

/-!
# What a system call leaves alone

The directory is sound after every system call, and one call changes nothing
that another save or load relies on.
-/

namespace Hapatchy.ManagedPatchStore

open Hapatchy.PatchEngine

namespace Store

/-! ## A sound directory -/

def Has (store : Store) (revision : Text) : Prop := ∃ ino, store.entries (.revision revision) = some ino

def Published (store : Store) (ino : Nat) : Prop :=
  ∃ revision, store.entries (.revision revision) = some ino

def Pending (store : Store) (ino : Nat) : Prop := ∃ call, store.entries (.pending call) = some ino

/-- The revision is published, and no temporary name is left for its file. -/
def SettledAt (store : Store) (revision : Text) (ino : Nat) : Prop :=
  store.entries (.revision revision) = some ino ∧ ¬ store.Pending ino

open Classical in
/-- A file has at most one name of each kind. -/
noncomputable def names (store : Store) (ino : Nat) : Nat :=
  (if store.Published ino then 1 else 0) + (if store.Pending ino then 1 else 0)

/-- Revisions hold contents of `contents` under their digest, temporary files belong to one save,
and files count their names. -/
structure Sound (sha256 : Bytes → Text) (contents : Bytes → Prop) (store : Store) : Prop where
  fresh : ∀ name ino, store.entries name = some ino → ino < store.next
  own : ∀ call call' ino, store.entries (.pending call) = some ino →
    store.entries (.pending call') = some ino → call = call'
  content : ∀ revision ino, store.entries (.revision revision) = some ino →
    sha256 (store.inodes ino).data = revision ∧ contents (store.inodes ino).data
  links : ∀ ino, ino < store.next → (store.inodes ino).nlink = store.names ino

/-- What a system call of `id` leaves alone. -/
structure Keeps (id : Nat) (before after : Store) : Prop where
  revision : ∀ revision ino, before.entries (.revision revision) = some ino →
    after.entries (.revision revision) = some ino
  data : ∀ ino, before.Published ino → (after.inodes ino).data = (before.inodes ino).data
  pending : ∀ call, call ≠ id → after.entries (.pending call) = before.entries (.pending call)
  inodes : ∀ ino, ino < before.next → before.entries (.pending id) ≠ some ino →
    after.inodes ino = before.inodes ino
  linked : ∀ ino, ino < before.next → after.Published ino →
    before.Published ino ∨ before.entries (.pending id) = some ino
  created : ∀ ino, after.entries (.pending id) = some ino →
    before.entries (.pending id) = some ino ∨ before.next ≤ ino

theorem Keeps.refl (id : Nat) (store : Store) : Keeps id store store where
  revision _ _ h := h
  data _ _ := rfl
  pending _ _ := rfl
  inodes _ _ _ := rfl
  linked _ _ h := Or.inl h
  created _ h := Or.inl h

section Calls

variable {sha256 : Bytes → Text} {contents : Bytes → Prop} {store after : Store} {id ino : Nat}
  {revision : Text}

theorem Keeps.has (hkeeps : Keeps id store after) (h : store.Has revision) : after.Has revision := by
  obtain ⟨ino, h⟩ := h
  exact ⟨ino, hkeeps.revision _ _ h⟩

theorem Keeps.settledAt (hkeeps : Keeps id store after) (hsound : store.Sound sha256 contents)
    (h : store.SettledAt revision ino) :
    after.SettledAt revision ino ∧ after.inodes ino = store.inodes ino := by
  obtain ⟨hrevision, hpending⟩ := h
  have hfresh := hsound.fresh _ _ hrevision
  have hown : store.entries (.pending id) ≠ some ino := fun h => hpending ⟨id, h⟩
  refine ⟨⟨hkeeps.revision _ _ hrevision, ?_⟩, hkeeps.inodes ino hfresh hown⟩
  rintro ⟨call, hcall⟩
  by_cases hid : call = id
  · subst hid
    rcases hkeeps.created ino hcall with h | h
    · exact hown h
    · omega
  · rw [hkeeps.pending call hid] at hcall
    exact hpending ⟨call, hcall⟩

/-- A file that is published and not pending has one name. -/
theorem Sound.nlink_eq_one (hsound : store.Sound sha256 contents) (h : store.SettledAt revision ino) :
    (store.inodes ino).nlink = 1 := by
  rw [hsound.links ino (hsound.fresh _ _ h.1), names, if_pos ⟨revision, h.1⟩, if_neg h.2]

theorem Sound.nlink_eq_two (hsound : store.Sound sha256 contents)
    (hrevision : store.entries (.revision revision) = some ino) (h : store.Pending ino) :
    (store.inodes ino).nlink = 2 := by
  rw [hsound.links ino (hsound.fresh _ _ hrevision), names, if_pos ⟨revision, hrevision⟩, if_pos h]

/-! ## A new temporary file -/

theorem create_entries (name : Name) : (store.create id).entries name =
    if name = .pending id then some store.next else store.entries name :=
  Function.update_apply ..

theorem create_inodes (i : Nat) : (store.create id).inodes i =
    if i = store.next then { mtime := store.clock, ctime := store.clock } else store.inodes i :=
  Function.update_apply ..

theorem published_create : (store.create id).Published ino ↔ store.Published ino := by
  simp [Published, create_entries]

theorem pending_create (hfree : store.entries (.pending id) = none) :
    (store.create id).Pending ino ↔ ino = store.next ∨ store.Pending ino := by
  simp only [Pending, create_entries, Name.pending.injEq]
  constructor
  · rintro ⟨call, h⟩
    split at h
    · exact Or.inl (Option.some.inj h).symm
    · exact Or.inr ⟨call, h⟩
  · rintro (rfl | ⟨call, h⟩)
    · exact ⟨id, if_pos rfl⟩
    · refine ⟨call, ?_⟩
      rw [if_neg, h]
      rintro rfl
      rw [hfree] at h
      cases h

theorem keeps_create (hsound : store.Sound sha256 contents) : Keeps id store (store.create id) where
  revision r i h := by rwa [create_entries, if_neg (by simp)]
  data i h := by
    obtain ⟨r, hr⟩ := h
    rw [create_inodes, if_neg (Nat.ne_of_lt (hsound.fresh _ _ hr))]
  pending k hk := by rw [create_entries, if_neg (by simpa using hk)]
  inodes i hi _ := by rw [create_inodes, if_neg (Nat.ne_of_lt hi)]
  linked i _ h := Or.inl (published_create.mp h)
  created i h := by
    rw [create_entries, if_pos rfl] at h
    exact Or.inr (Nat.le_of_eq (Option.some.inj h))

open Classical in
theorem sound_create (hsound : store.Sound sha256 contents)
    (hfree : store.entries (.pending id) = none) : (store.create id).Sound sha256 contents where
  fresh name i h := by
    rw [create_entries] at h
    show i < store.next + 1
    split at h
    · cases h
      omega
    · have := hsound.fresh _ _ h
      omega
  own k k' i h h' := by
    rw [create_entries] at h h'
    have hfresh := fun k => hsound.fresh (.pending k) i
    split at h <;> split at h'
    · simp_all
    · cases h
      exact absurd (hfresh k' h') (Nat.lt_irrefl _)
    · cases h'
      exact absurd (hfresh k h) (Nat.lt_irrefl _)
    · exact hsound.own _ _ _ h h'
  content r i h := by
    rw [create_entries, if_neg (by simp)] at h
    rw [create_inodes, if_neg (Nat.ne_of_lt (hsound.fresh _ _ h))]
    exact hsound.content _ _ h
  links i hi := by
    have hi : i < store.next + 1 := hi
    rw [create_inodes]
    simp only [names, published_create, pending_create hfree]
    split
    · rename_i hnext
      have hnot : ¬ store.Published i := fun ⟨r, hr⟩ =>
        absurd (hsound.fresh _ _ hr) (by omega)
      rw [if_neg hnot, if_pos (Or.inl hnext)]
    · rename_i hnext
      rw [hsound.links i (by omega), names]
      simp only [hnext, false_or]

/-! ## A write -/

theorem append_inodes (data : Bytes) (i : Nat) : (store.append ino data).inodes i =
    if i = ino then { store.inodes ino with
      data := (store.inodes ino).data ++ data, mtime := store.clock, ctime := store.clock }
    else store.inodes i :=
  Function.update_apply ..

theorem keeps_append (data : Bytes) (hown : store.entries (.pending id) = some ino)
    (hnot : ¬ store.Published ino) : Keeps id store (store.append ino data) where
  revision _ _ h := h
  data i h := by
    rw [append_inodes, if_neg]
    rintro rfl
    exact hnot h
  pending _ _ := rfl
  inodes i _ h := by
    rw [append_inodes, if_neg]
    rintro rfl
    exact h hown
  linked _ _ h := Or.inl h
  created _ h := Or.inl h

theorem sound_append (data : Bytes) (hsound : store.Sound sha256 contents)
    (hnot : ¬ store.Published ino) : (store.append ino data).Sound sha256 contents where
  fresh := hsound.fresh
  own := hsound.own
  content r i h := by
    have h : store.entries (.revision r) = some i := h
    rw [append_inodes, if_neg]
    · exact hsound.content _ _ h
    · rintro rfl
      exact hnot ⟨r, h⟩
  links i hi := by
    show _ = store.names i
    rw [append_inodes, ← hsound.links i hi]
    split
    · rename_i h
      rw [h]
    · rfl

/-! ## Publication -/

theorem link_entries (name : Name) : (store.link ino revision).entries name =
    if name = .revision revision then some ino else store.entries name :=
  Function.update_apply ..

theorem link_inodes (i : Nat) : (store.link ino revision).inodes i =
    if i = ino then { store.inodes ino with
      nlink := (store.inodes ino).nlink + 1, ctime := store.clock }
    else store.inodes i :=
  Function.update_apply ..

theorem pending_link : (store.link ino revision).Pending id ↔ store.Pending id := by
  simp [Pending, link_entries]

theorem published_link {i : Nat} (hfree : store.entries (.revision revision) = none) :
    (store.link ino revision).Published i ↔ i = ino ∨ store.Published i := by
  simp only [Published, link_entries, Name.revision.injEq]
  constructor
  · rintro ⟨r, h⟩
    split at h
    · exact Or.inl (Option.some.inj h).symm
    · exact Or.inr ⟨r, h⟩
  · rintro (rfl | ⟨r, h⟩)
    · exact ⟨revision, if_pos rfl⟩
    · refine ⟨r, ?_⟩
      rw [if_neg, h]
      rintro rfl
      rw [hfree] at h
      cases h

theorem keeps_link (hfree : store.entries (.revision revision) = none)
    (hown : store.entries (.pending id) = some ino) : Keeps id store (store.link ino revision) where
  revision r i h := by
    rw [link_entries, if_neg, h]
    intro hr
    rw [hr, hfree] at h
    cases h
  data i _ := by
    rw [link_inodes]
    split
    · rename_i h
      rw [h]
    · rfl
  pending k _ := by rw [link_entries, if_neg (by simp)]
  inodes i _ h := by
    rw [link_inodes, if_neg]
    rintro rfl
    exact h hown
  linked i _ h := by
    rcases (published_link hfree).mp h with rfl | h
    · exact Or.inr hown
    · exact Or.inl h
  created i h := by
    rw [link_entries, if_neg (by simp)] at h
    exact Or.inl h

open Classical in
theorem sound_link (hsound : store.Sound sha256 contents)
    (hfree : store.entries (.revision revision) = none)
    (hown : store.entries (.pending id) = some ino) (hnot : ¬ store.Published ino)
    (hdigest : sha256 (store.inodes ino).data = revision) (hcontent : contents (store.inodes ino).data) :
    (store.link ino revision).Sound sha256 contents where
  fresh name i h := by
    rw [link_entries] at h
    show i < store.next
    split at h
    · cases h
      exact hsound.fresh _ _ hown
    · exact hsound.fresh _ _ h
  own k k' i h h' := by
    rw [link_entries, if_neg (by simp)] at h h'
    exact hsound.own _ _ _ h h'
  content r i h := by
    rw [link_entries] at h
    rw [link_inodes]
    split at h
    · rename_i hr
      cases h
      cases hr
      rw [if_pos rfl]
      exact ⟨hdigest, hcontent⟩
    · rw [if_neg]
      · exact hsound.content _ _ h
      · rintro rfl
        exact hnot ⟨r, h⟩
  links i hi := by
    have hlinks := hsound.links i hi
    rw [link_inodes]
    simp only [names, published_link hfree, pending_link] at hlinks ⊢
    split
    · rename_i h
      subst h
      have hpending : store.Pending i := ⟨id, hown⟩
      rw [hlinks, if_neg hnot, if_pos hpending, if_pos (Or.inl rfl)]
    · rename_i h
      simp only [h, false_or]
      exact hlinks

/-! ## A temporary name goes away -/

theorem unlink_of_none (h : store.entries (.pending id) = none) : store.unlink id = store := by
  rw [unlink, h]

theorem unlink_entries (hown : store.entries (.pending id) = some ino) (name : Name) :
    (store.unlink id).entries name = if name = .pending id then none else store.entries name := by
  rw [unlink, hown]
  exact Function.update_apply ..

theorem unlink_inodes (hown : store.entries (.pending id) = some ino) (i : Nat) :
    (store.unlink id).inodes i =
      if i = ino then { store.inodes ino with
        nlink := (store.inodes ino).nlink - 1, ctime := store.clock }
      else store.inodes i := by
  rw [unlink, hown]
  exact Function.update_apply ..

theorem unlink_next : (store.unlink id).next = store.next := by
  unfold unlink
  split <;> rfl

theorem published_unlink {i : Nat} (hown : store.entries (.pending id) = some ino) :
    (store.unlink id).Published i ↔ store.Published i := by
  simp [Published, unlink_entries hown]

theorem pending_unlink {i : Nat} (hsound : store.Sound sha256 contents)
    (hown : store.entries (.pending id) = some ino) :
    (store.unlink id).Pending i ↔ i ≠ ino ∧ store.Pending i := by
  simp only [Pending, unlink_entries hown, Name.pending.injEq]
  constructor
  · rintro ⟨k, h⟩
    split at h
    · cases h
    · rename_i hk
      refine ⟨?_, k, h⟩
      rintro rfl
      exact hk (hsound.own _ _ _ h hown)
  · rintro ⟨hne, k, h⟩
    refine ⟨k, ?_⟩
    rw [if_neg, h]
    rintro rfl
    rw [hown] at h
    exact hne (Option.some.inj h).symm

theorem keeps_unlink : Keeps id store (store.unlink id) := by
  cases hown : store.entries (.pending id) with
  | none =>
    rw [unlink_of_none hown]
    exact Keeps.refl ..
  | some ino =>
    refine ⟨?_, ?_, ?_, ?_, ?_, ?_⟩
    · intro r i h
      rwa [unlink_entries hown, if_neg (by simp)]
    · intro i _
      rw [unlink_inodes hown]
      split
      · rename_i h
        rw [h]
      · rfl
    · intro k hk
      rw [unlink_entries hown, if_neg (by simpa using hk)]
    · intro i _ h
      rw [unlink_inodes hown, if_neg]
      rintro rfl
      exact h hown
    · intro i _ h
      exact Or.inl ((published_unlink hown).mp h)
    · intro i h
      rw [unlink_entries hown, if_pos rfl] at h
      cases h

open Classical in
theorem sound_unlink (hsound : store.Sound sha256 contents) :
    (store.unlink id).Sound sha256 contents := by
  cases hown : store.entries (.pending id) with
  | none =>
    rw [unlink_of_none hown]
    exact hsound
  | some ino =>
    have hold : ∀ name i, (store.unlink id).entries name = some i → store.entries name = some i := by
      intro name i h
      rw [unlink_entries hown] at h
      split at h
      · cases h
      · exact h
    refine ⟨?_, ?_, ?_, ?_⟩
    · intro name i h
      rw [unlink_next]
      exact hsound.fresh _ _ (hold _ _ h)
    · intro k k' i h h'
      exact hsound.own _ _ _ (hold _ _ h) (hold _ _ h')
    · intro r i h
      rw [keeps_unlink.data i ⟨r, hold _ _ h⟩]
      exact hsound.content _ _ (hold _ _ h)
    · intro i hi
      rw [unlink_next] at hi
      have hlinks := hsound.links i hi
      rw [unlink_inodes hown]
      simp only [names, published_unlink hown, pending_unlink hsound hown] at hlinks ⊢
      split
      · rename_i h
        subst h
        have hpending : store.Pending i := ⟨id, hown⟩
        have hgone : ¬ (i ≠ i ∧ store.Pending i) := fun h => h.1 rfl
        rw [hlinks, if_pos hpending, if_neg hgone]
        rfl
      · rename_i h
        simp only [h, ne_eq, not_false_eq_true, true_and]
        exact hlinks

end Calls

end Store

end Hapatchy.ManagedPatchStore
