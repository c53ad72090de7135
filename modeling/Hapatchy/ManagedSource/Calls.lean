import Hapatchy.ManagedSource.Steps

/-!
# One system call of a save or load

The temporary file of a save stays its own, and a reader that has seen a single
link reads the content: from then on nobody changes the file.
-/

namespace Hapatchy.ManagedPatchStore

open Hapatchy.PatchEngine

/-! ## The temporary file of a save -/

/-- A temporary file that is not published yet, and what it holds so far. -/
structure Store.Writes (store : Store) (contents : Bytes → Prop) (id ino : Nat) (data : Bytes) : Prop where
  own : store.entries (.pending id) = some ino
  unpublished : ¬ store.Published ino
  known : contents data
  written : (store.inodes ino).data <+: data

/-- The part of a save that comes before its temporary file has a second name. -/
def Position.Owns (store : Store) (contents : Bytes → Prop) (id : Nat) : Call → Position → Prop
  | .save data, .read .before _ => store.entries (.pending id) = none ∧ contents data
  | .save data, .create => store.entries (.pending id) = none ∧ contents data
  | .save data, .write ino => store.Writes contents id ino data
  | .save data, .syncFile ino => store.Writes contents id ino data ∧ (store.inodes ino).data = data
  | .save data, .link ino => store.Writes contents id ino data ∧ (store.inodes ino).data = data
  | .save _, _ => True
  | .load _, .read .load _ => True
  | .load _, .loaded _ => True
  | .load _, .stopped => True
  | .load _, _ => False

section Processes

variable {sha256 : Bytes → Text} {contents : Bytes → Prop} {store after : Store}
  {id count ino : Nat} {call : Call} {position position' : Position} {data : Bytes} {revision : Text}
  {site : Site} {reading : Reading}

theorem Store.Keeps.writes {id' : Nat} (hkeeps : Store.Keeps id' store after)
    (hsound : store.Sound sha256 contents) (hne : id ≠ id') (h : store.Writes contents id ino data) :
    after.Writes contents id ino data ∧ after.inodes ino = store.inodes ino := by
  have hfresh := hsound.fresh _ _ h.own
  have hother : store.entries (.pending id') ≠ some ino := fun h' => hne (hsound.own _ _ _ h.own h')
  have hinode := hkeeps.inodes ino hfresh hother
  refine ⟨⟨?_, ?_, h.known, ?_⟩, hinode⟩
  · rw [hkeeps.pending id hne]
    exact h.own
  · intro hpublished
    rcases hkeeps.linked ino hfresh hpublished with h' | h'
    · exact h.unpublished h'
    · exact hother h'
  · rw [hinode]
    exact h.written

/-- What another call does leaves a save its temporary file. -/
theorem Position.Owns.keeps {id' : Nat} (hkeeps : Store.Keeps id' store after)
    (hsound : store.Sound sha256 contents) (hne : id ≠ id')
    (h : position.Owns store contents id call) : position.Owns after contents id call := by
  have hpending := hkeeps.pending id hne
  cases call with
  | load revision =>
    cases position with
    | read site reading => cases site <;> exact h
    | _ => exact h
  | save data =>
    cases position with
    | read site reading =>
      cases site with
      | before => exact ⟨hpending.trans h.1, h.2⟩
      | _ => trivial
    | create => exact ⟨hpending.trans h.1, h.2⟩
    | write ino => exact (hkeeps.writes hsound hne h).1
    | syncFile ino =>
      obtain ⟨hwrites, hinode⟩ := hkeeps.writes hsound hne h.1
      exact ⟨hwrites, hinode ▸ h.2⟩
    | link ino =>
      obtain ⟨hwrites, hinode⟩ := hkeeps.writes hsound hne h.1
      exact ⟨hwrites, hinode ▸ h.2⟩
    | _ => trivial

theorem owns_resume (result : Except PatchError Bytes)
    (h : (Position.read site reading).Owns store contents id call) :
    (resume revision site result).Owns store contents id call := by
  cases call <;> cases site <;> cases result <;> simp only [resume] <;> (try split) <;> trivial

theorem owns_readStep (h : (Position.read site reading).Owns store contents id call) :
    (readStep sha256 store revision site reading).Owns store contents id call := by
  have hread : ∀ reading', (Position.read site reading').Owns store contents id call := by
    intro reading'
    cases call <;> cases site <;> exact h
  cases reading <;> simp only [readStep] <;> (repeat' split) <;>
    first | exact hread _ | exact owns_resume _ h

theorem owns_failStep (h : position.Owns store contents id call)
    (hstep : failStep revision position = some position') :
    position'.Owns store contents id call := by
  cases position with
  | read site reading =>
    cases hstep
    exact owns_resume _ h
  | saved | loaded | stopped => cases hstep
  | _ =>
    cases hstep
    cases call with
    | save => trivial
    | load => exact h

/-- One system call keeps the directory sound, and the temporary file of its save. -/
theorem runStep_keeps (hsound : store.Sound sha256 contents) (hown : position.Owns store contents id call)
    (hstep : runStep sha256 store id count call position = some (after, position')) :
    after.Sound sha256 contents ∧ Store.Keeps id store after ∧ position'.Owns after contents id call := by
  cases position with
  | read site reading =>
    cases hstep
    exact ⟨hsound, .refl .., owns_readStep hown⟩
  | saved | loaded | stopped => cases hstep
  | syncFound =>
    cases hstep
    cases call with
    | save => exact ⟨hsound, .refl .., trivial⟩
    | load => cases hown
  | syncDirectory =>
    cases hstep
    cases call with
    | save => exact ⟨hsound, .refl .., trivial⟩
    | load => cases hown
  | create =>
    cases hstep
    cases call with
    | load => cases hown
    | save data =>
      refine ⟨Store.sound_create hsound hown.1, Store.keeps_create hsound, ?_, ?_, hown.2, ?_⟩
      · rw [Store.create_entries, if_pos rfl]
      · rw [Store.published_create]
        rintro ⟨revision, h⟩
        exact absurd (hsound.fresh _ _ h) (Nat.lt_irrefl _)
      · rw [Store.create_inodes, if_pos rfl]
        exact List.nil_prefix
  | write ino =>
    cases call with
    | load => cases hown
    | save data =>
      obtain ⟨rest, hrest⟩ := hown.written
      have hdrop : data.drop (store.inodes ino).data.length = rest := by
        rw [← hrest, List.drop_left]
      simp only [runStep, hdrop] at hstep
      cases rest with
      | nil =>
        cases hstep
        rw [List.append_nil] at hrest
        exact ⟨hsound, .refl .., hown, hrest⟩
      | cons byte rest =>
        cases hstep
        refine ⟨Store.sound_append _ hsound hown.unpublished,
          Store.keeps_append _ hown.own hown.unpublished, hown.own, hown.unpublished, hown.known, ?_⟩
        rw [Store.append_inodes, if_pos rfl]
        refine ⟨(byte :: rest).drop (count + 1), ?_⟩
        rw [List.append_assoc, List.take_append_drop, hrest]
  | syncFile ino =>
    cases hstep
    cases call with
    | load => cases hown
    | save data => exact ⟨hsound, .refl .., hown⟩
  | link ino =>
    cases call with
    | load => cases hown
    | save data =>
      obtain ⟨hwrites, hdata⟩ := hown
      simp only [runStep] at hstep
      split at hstep <;> rename_i hentry
      · cases hstep
        exact ⟨hsound, .refl .., trivial⟩
      · cases hstep
        refine ⟨Store.sound_link hsound hentry hwrites.own hwrites.unpublished ?_ ?_,
          Store.keeps_link hentry hwrites.own, trivial⟩
        · rw [hdata]
          rfl
        · rw [hdata]
          exact hwrites.known
  | unlink raised =>
    cases hstep
    refine ⟨Store.sound_unlink hsound, Store.keeps_unlink, ?_⟩
    cases call with
    | load => cases hown
    | save data => cases raised <;> trivial

/-! ## What a reader knows -/

/-- Once `fstat` has seen a single link, nobody changes the file. -/
def Reading.Holds (store : Store) (revision : Text) : Reading → Prop
  | .opening => True
  | .fstat ino => store.entries (.revision revision) = some ino
  | .chunks ino before data => store.SettledAt revision ino ∧ before = store.info ino ∧
      data <+: (store.inodes ino).data
  | .again ino before data => store.SettledAt revision ino ∧ before = store.info ino ∧
      data = (store.inodes ino).data

/-- The revision is there once a save has seen it or has published it. -/
def Position.Reads (sha256 : Bytes → Text) (contents : Bytes → Prop) (store : Store) (revision : Text) :
    Position → Prop
  | .read .existing reading => reading.Holds store revision ∧ store.Has revision
  | .read .after reading => reading.Holds store revision ∧ store.Has revision
  | .read _ reading => reading.Holds store revision
  | .syncFound => store.Has revision
  | .unlink none => store.Has revision
  | .syncDirectory => store.Has revision
  | .saved (.ok found) => found = revision ∧ store.Has revision
  | .loaded (.ok data) => sha256 data = revision ∧ contents data
  | _ => True

/-- No temporary name is left for the file that `_read` is about to stat. -/
def Position.Alone (store : Store) : Position → Prop
  | .read _ (.fstat ino) => ¬ store.Pending ino
  | _ => True

theorem Reading.Holds.keeps (hkeeps : Store.Keeps id store after) (hsound : store.Sound sha256 contents)
    (h : reading.Holds store revision) : reading.Holds after revision := by
  have hinfo : ∀ ino, after.inodes ino = store.inodes ino → after.info ino = store.info ino := by
    intro ino h
    rw [Store.info, Store.info, h]
  cases reading with
  | opening => trivial
  | fstat ino => exact hkeeps.revision _ _ h
  | chunks ino before data =>
    obtain ⟨hsettled, hbefore, hdata⟩ := h
    obtain ⟨hsettled, hinode⟩ := hkeeps.settledAt hsound hsettled
    exact ⟨hsettled, hbefore.trans (hinfo ino hinode).symm, hinode ▸ hdata⟩
  | again ino before data =>
    obtain ⟨hsettled, hbefore, hdata⟩ := h
    obtain ⟨hsettled, hinode⟩ := hkeeps.settledAt hsound hsettled
    exact ⟨hsettled, hbefore.trans (hinfo ino hinode).symm, hinode ▸ hdata⟩

theorem Position.Reads.keeps (hkeeps : Store.Keeps id store after)
    (hsound : store.Sound sha256 contents) (h : position.Reads sha256 contents store revision) :
    position.Reads sha256 contents after revision := by
  cases position with
  | read site reading =>
    cases site with
    | before => exact Reading.Holds.keeps hkeeps hsound h
    | load => exact Reading.Holds.keeps hkeeps hsound h
    | existing => exact ⟨h.1.keeps hkeeps hsound, hkeeps.has h.2⟩
    | after => exact ⟨h.1.keeps hkeeps hsound, hkeeps.has h.2⟩
  | syncFound => exact hkeeps.has h
  | syncDirectory => exact hkeeps.has h
  | unlink raised =>
    cases raised with
    | none => exact hkeeps.has h
    | some error => trivial
  | saved result =>
    cases result with
    | ok found => exact ⟨h.1, hkeeps.has h.2⟩
    | error error => trivial
  | loaded result =>
    cases result with
    | ok data => exact h
    | error error => trivial
  | _ => trivial

theorem Position.Reads.holds
    (h : (Position.read site reading).Reads sha256 contents store revision) :
    reading.Holds store revision := by
  cases site with
  | before => exact h
  | load => exact h
  | existing => exact h.1
  | after => exact h.1

theorem readStep_of_not_alone (hsound : store.Sound sha256 contents) (h : reading.Holds store revision)
    (halone : ¬ (Position.read site reading).Alone store) :
    readStep sha256 store revision site reading = resume revision site (.error unsafeFile) := by
  cases reading with
  | fstat ino =>
    have hlinks : (store.info ino).nlink = 2 := hsound.nlink_eq_two h (not_not.mp halone)
    simp only [readStep, hlinks]
    rfl
  | _ => exact absurd trivial halone

/-- A guarded read goes on, gives the content, finds nothing, or meets a second name. -/
theorem readStep_cases (hsound : store.Sound sha256 contents)
    (hsize : ∀ data, contents data → data.length ≤ maxPatchBytes)
    (h : reading.Holds store revision) :
    (∃ reading', readStep sha256 store revision site reading = .read site reading' ∧
      reading'.Holds store revision) ∨
    (∃ data, readStep sha256 store revision site reading = resume revision site (.ok data) ∧
      sha256 data = revision ∧ contents data ∧ store.Has revision) ∨
    (readStep sha256 store revision site reading = resume revision site (.error missingTarget) ∧
      ¬ store.Has revision) ∨
    (readStep sha256 store revision site reading =
      resume revision site (.error ⟨.invalidManagedSource, .securityError⟩) ∧
      isRevision revision = false) ∨
    (readStep sha256 store revision site reading = resume revision site (.error unsafeFile) ∧
      ¬ (Position.read site reading).Alone store) := by
  cases reading with
  | opening =>
    simp only [readStep]
    split
    · rename_i hrevision
      exact Or.inr (Or.inr (Or.inr (Or.inl ⟨rfl, by simpa using hrevision⟩)))
    · split <;> rename_i hentry
      · refine Or.inr (Or.inr (Or.inl ⟨rfl, ?_⟩))
        rintro ⟨ino, h⟩
        rw [hentry] at h
        cases h
      · exact Or.inl ⟨_, rfl, hentry⟩
  | fstat ino =>
    have hentry : store.entries (.revision revision) = some ino := h
    by_cases hpending : store.Pending ino
    · have halone : ¬ (Position.read site (.fstat ino)).Alone store := fun h => h hpending
      exact Or.inr (Or.inr (Or.inr (Or.inr ⟨readStep_of_not_alone hsound h halone, halone⟩)))
    · have hsettled : store.SettledAt revision ino := ⟨hentry, hpending⟩
      have hlinks : (store.info ino).nlink = 1 := hsound.nlink_eq_one hsettled
      have hbound : ¬ (store.info ino).size > maxPatchBytes :=
        Nat.not_lt.mpr (hsize _ (hsound.content _ _ hentry).2)
      simp only [readStep, hlinks, ne_eq, not_true_eq_false, if_false, if_neg hbound]
      exact Or.inl ⟨_, rfl, hsettled, rfl, List.nil_prefix⟩
  | chunks ino before data =>
    obtain ⟨hsettled, hbefore, rest, hrest⟩ := h
    have hbound : data.length + rest.length ≤ maxPatchBytes := by
      rw [← List.length_append, hrest]
      exact hsize _ (hsound.content _ _ hsettled.1).2
    have hdrop : (store.inodes ino).data.drop data.length = rest := by
      rw [← hrest, List.drop_left]
    simp only [readStep, hdrop]
    split
    · rename_i hchunk
      refine Or.inl ⟨_, rfl, hsettled, hbefore, ?_⟩
      rcases List.take_eq_nil_iff.mp hchunk with hzero | hnil
      · omega
      · rw [← hrest, hnil, List.append_nil]
    · have hlength := List.length_take_le' (min 65536 (maxPatchBytes + 1 - data.length)) rest
      rw [if_neg (by omega)]
      refine Or.inl ⟨_, rfl, hsettled, hbefore, ?_⟩
      rw [← hrest]
      exact (List.prefix_append_right_inj data).mpr (List.take_prefix ..)
  | again ino before data =>
    obtain ⟨hsettled, hbefore, hdata⟩ := h
    obtain ⟨hdigest, hcontent⟩ := hsound.content _ _ hsettled.1
    rw [← hdata] at hdigest hcontent
    simp only [readStep, hbefore, hdigest, ne_eq, not_true_eq_false, if_false]
    exact Or.inr (Or.inl ⟨data, rfl, hdigest, hcontent, ino, hsettled.1⟩)

/-- No system call of the save has raised. -/
def Position.Clean : Position → Prop
  | .unlink (some _) => False
  | .saved (.error _) => False
  | _ => True

theorem reads_resume_ok (hdigest : sha256 data = revision) (hcontent : contents data)
    (hhas : store.Has revision) :
    (resume revision site (.ok data)).Reads sha256 contents store revision ∧
      (resume revision site (.ok data)).Clean := by
  cases site with
  | before => exact ⟨hhas, trivial⟩
  | existing => exact ⟨hhas, trivial⟩
  | after => exact ⟨⟨rfl, hhas⟩, trivial⟩
  | load => exact ⟨⟨hdigest, hcontent⟩, trivial⟩

theorem reads_resume_error (error : PatchError) :
    (resume revision site (.error error)).Reads sha256 contents store revision := by
  cases site <;> simp only [resume] <;> (try split) <;> trivial

theorem reads_failStep (hstep : failStep revision position = some position') :
    position'.Reads sha256 contents store revision := by
  cases position with
  | read site reading =>
    cases hstep
    exact reads_resume_error _
  | saved | loaded | stopped => cases hstep
  | _ =>
    cases hstep
    trivial

theorem runStep_reads (hsound : store.Sound sha256 contents)
    (hsize : ∀ data, contents data → data.length ≤ maxPatchBytes)
    (hkeeps : Store.Keeps id store after)
    (hreads : position.Reads sha256 contents store (call.revision sha256))
    (hstep : runStep sha256 store id count call position = some (after, position')) :
    position'.Reads sha256 contents after (call.revision sha256) := by
  cases position with
  | read site reading =>
    cases hstep
    rcases readStep_cases hsound hsize hreads.holds with
      ⟨reading', hread, hnext⟩ | ⟨data, hread, hdigest, hcontent, hhas⟩ | ⟨hread, -⟩ | ⟨hread, -⟩ |
      ⟨hread, -⟩
    · rw [hread]
      cases site with
      | before => exact hnext
      | load => exact hnext
      | existing => exact ⟨hnext, hreads.2⟩
      | after => exact ⟨hnext, hreads.2⟩
    · rw [hread]
      exact (reads_resume_ok hdigest hcontent hhas).1
    all_goals
      rw [hread]
      exact reads_resume_error _
  | saved | loaded | stopped => cases hstep
  | syncFound =>
    cases hstep
    exact ⟨rfl, hreads⟩
  | create =>
    cases hstep
    trivial
  | write ino =>
    cases call with
    | load => cases hstep
    | save data =>
      simp only [runStep] at hstep
      split at hstep <;> cases hstep <;> trivial
  | syncFile ino =>
    cases hstep
    trivial
  | link ino =>
    simp only [runStep] at hstep
    split at hstep <;> rename_i hentry <;> cases hstep
    · exact ⟨trivial, _, hentry⟩
    · exact ⟨ino, by rw [Store.link_entries, if_pos rfl]⟩
  | unlink raised =>
    cases hstep
    cases raised with
    | none => exact hkeeps.has hreads
    | some error => trivial
  | syncDirectory =>
    cases hstep
    exact ⟨trivial, hreads⟩

/-- A save that sees no second name goes on. -/
theorem runStep_clean (hsound : store.Sound sha256 contents)
    (hsize : ∀ data, contents data → data.length ≤ maxPatchBytes)
    (hreads : position.Reads sha256 contents store (sha256 data))
    (halone : position.Alone store) (hrevision : isRevision (sha256 data) = true)
    (hclean : position.Clean)
    (hstep : runStep sha256 store id count (.save data) position = some (after, position')) :
    position'.Clean := by
  cases position with
  | read site reading =>
    cases hstep
    rcases readStep_cases hsound hsize hreads.holds with
      ⟨reading', hread, -⟩ | ⟨data', hread, hdigest, hcontent, hhas⟩ | ⟨hread, hnone⟩ | ⟨-, hnot⟩ |
      ⟨-, hnot⟩
    · rw [Call.revision, hread]
      trivial
    · rw [Call.revision, hread]
      exact (reads_resume_ok hdigest hcontent hhas).2
    · rw [Call.revision, hread]
      cases site with
      | before => trivial
      | load => trivial
      | existing => exact absurd hreads.2 hnone
      | after => exact absurd hreads.2 hnone
    · rw [hrevision] at hnot
      cases hnot
    · exact absurd halone hnot
  | saved | loaded | stopped => cases hstep
  | write ino =>
    simp only [runStep] at hstep
    split at hstep <;> cases hstep <;> trivial
  | link ino =>
    simp only [runStep] at hstep
    split at hstep <;> cases hstep <;> trivial
  | unlink raised =>
    cases hstep
    cases raised with
    | none => trivial
    | some error => cases hclean
  | _ =>
    cases hstep
    trivial

/-- A load of a revision that is there finds it. -/
theorem runStep_found (hsound : store.Sound sha256 contents)
    (hsize : ∀ data, contents data → data.length ≤ maxPatchBytes)
    (hown : position.Owns store contents id (.load revision))
    (hreads : position.Reads sha256 contents store revision) (halone : position.Alone store)
    (hrevision : isRevision revision = true) (hhas : store.Has revision)
    (hstep : runStep sha256 store id count (.load revision) position = some (after, position')) :
    ∀ error, position' ≠ .loaded (.error error) := by
  cases position with
  | read site reading =>
    cases hstep
    cases site with
    | before | existing | after => cases hown
    | load =>
      rcases readStep_cases hsound hsize hreads.holds with
        ⟨reading', hread, -⟩ | ⟨data, hread, -⟩ | ⟨-, hnone⟩ | ⟨-, hnot⟩ | ⟨-, hnot⟩
      · rw [Call.revision, hread]
        simp
      · rw [Call.revision, hread]
        simp [resume]
      · exact absurd hhas hnone
      · rw [hrevision] at hnot
        cases hnot
      · exact absurd halone hnot
  | saved | loaded | stopped => cases hstep
  | _ => cases hown

/-! ## Calls that will not succeed -/

/-- It has raised, or has stopped. -/
def Position.Lost : Position → Prop
  | .unlink (some _) => True
  | .saved (.error _) => True
  | .loaded (.error _) => True
  | .stopped => True
  | _ => False

theorem lost_resume : (resume revision site (.error unsafeFile)).Lost := by
  cases site <;> trivial

theorem lost_runStep (h : position.Lost)
    (hstep : runStep sha256 store id count call position = some (after, position')) :
    position'.Lost := by
  cases position with
  | unlink raised =>
    cases hstep
    cases raised with
    | none => cases h
    | some error => trivial
  | saved | loaded | stopped => cases hstep
  | _ => cases h

theorem lost_failStep (h : position.Lost) (hstep : failStep revision position = some position') :
    position'.Lost := by
  cases position with
  | unlink raised =>
    cases hstep
    trivial
  | saved | loaded | stopped => cases hstep
  | _ => cases h

end Processes

end Hapatchy.ManagedPatchStore
