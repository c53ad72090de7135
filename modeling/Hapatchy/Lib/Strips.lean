import Hapatchy.Lib.Blocks

/-!
# Blocks cut from the strips of a text

Where a block stands in a woven text, told from the gaps and the blocks that
the text is woven from.
-/

namespace Blocks

variable {α β : Type*} {nl : α}

/-- The gaps, and the blocks between them, in turn. Blocks are marked. -/
def strips (side : β → List α) : List α → List (β × List α) → List (Bool × List α)
  | g, [] => [(false, g)]
  | g, (h, g') :: rest => (false, g) :: (true, side h) :: strips side g' rest

/-- `b` starts in the first of the strips `run` and ends in the last, as whole lines, after the
strips `left` and before `right`. -/
structure CutFrom (nl : α) (left run right : List (Bool × List α)) (b : List α) (j : Nat)
    (x y : List α) : Prop where
  eq : run.flatMap Prod.snd = x ++ b ++ y
  first : ∀ p ∈ run.head?, x.length < p.2.length
  last : ∀ p ∈ run.getLast?, y.length < p.2.length
  start : Closed nl (left.flatMap Prod.snd ++ x)
  stop : Ends nl b ∨ y ++ right.flatMap Prod.snd = []
  offset : (left.flatMap Prod.snd ++ x).length = j

/-- `b` can be cut at `j` from a run of the strips `ps` of which `P` holds. -/
def Cut (nl : α) (P : List (Bool × List α) → Prop) (ps : List (Bool × List α)) (b : List α)
    (j : Nat) : Prop :=
  ∃ left run right x y, ps = left ++ run ++ right ∧ P run ∧ CutFrom nl left run right b j x y

/-- The blocks stand at `is`, each nowhere else, in order and without overlap from `c` on. -/
def OnceFrom (stands : List α → Nat → Prop) : Nat → List (List α) → List Nat → Prop
  | _, [], [] => True
  | c, b :: bs, i :: is =>
    c ≤ i ∧ (stands b i ∧ ∀ j, stands b j → j = i) ∧ OnceFrom stands (i + b.length) bs is
  | _, _, _ => False

theorem OnceFrom.congr {stands stands' : List α → Nat → Prop} {c : Nat} {bs : List (List α)}
    {is : List Nat} (h : OnceFrom stands c bs is) (heq : ∀ b ∈ bs, ∀ j, stands b j ↔ stands' b j) :
    OnceFrom stands' c bs is := by
  induction bs generalizing c is with
  | nil =>
    cases is with
    | nil => trivial
    | cons i is => cases h
  | cons b bs ih =>
    match is, h with
    | i :: is, ⟨hle, ⟨hi, honly⟩, hrest⟩ =>
      have hb := heq b List.mem_cons_self
      exact ⟨hle, ⟨(hb i).mp hi, fun j hj => honly j ((hb j).mpr hj)⟩,
        ih hrest fun b' hb' => heq b' (List.mem_cons_of_mem _ hb')⟩

theorem placedFrom_iff_onceFrom {t : List α} {c : Nat} {bs : List (List α)} {is : List Nat} :
    PlacedFrom nl t c bs is ↔ OnceFrom (OccursAt nl t) c bs is := by
  induction bs generalizing c is with
  | nil => cases is <;> exact Iff.rfl
  | cons b bs ih =>
    cases is with
    | nil => exact Iff.rfl
    | cons i is => exact and_congr_right fun _ => and_congr_right fun _ => ih

/-! ## Every occurrence is cut from a run -/

section Runs

variable {ps : List (Bool × List α)} {b pre post : List α} {j : Nat}

/-- What a text starts with ends in one of its strips. -/
theorem exists_run_of_prefix (hb : b ≠ []) (h : ps.flatMap Prod.snd = b ++ post) :
    ∃ run right y, ps = run ++ right ∧ run ≠ [] ∧ run.flatMap Prod.snd = b ++ y ∧
      (∀ p ∈ run.getLast?, y.length < p.2.length) ∧ post = y ++ right.flatMap Prod.snd := by
  induction ps generalizing b with
  | nil => exact absurd (List.append_eq_nil_iff.mp h.symm).1 hb
  | cons p ps ih =>
    rw [List.flatMap_cons] at h
    rcases List.append_eq_append_iff.mp h with ⟨b', rfl, hrest⟩ | ⟨y, hp, rfl⟩
    · -- The strip is shorter than what is left of the block.
      rcases eq_or_ne b' [] with rfl | hne
      · refine ⟨[p], ps, [], rfl, List.cons_ne_nil _ _, by simp, ?_, by simpa using hrest.symm⟩
        simpa using List.length_pos_of_ne_nil (by simpa using hb)
      · obtain ⟨run, right, y, rfl, hrun, heq, hlast, hpost⟩ := ih hne hrest
        refine ⟨p :: run, right, y, rfl, List.cons_ne_nil _ _, ?_, ?_, hpost⟩
        · rw [List.flatMap_cons, heq, List.append_assoc]
        · rwa [List.getLast?_cons_of_ne_nil hrun]
    · refine ⟨[p], ps, y, rfl, List.cons_ne_nil _ _, by simp [hp], ?_, rfl⟩
      have hpos := List.length_pos_of_ne_nil hb
      simp only [List.getLast?_singleton, Option.mem_some_iff, forall_eq', hp, List.length_append]
      omega

theorem exists_run (hb : b ≠ []) (h : ps.flatMap Prod.snd = pre ++ b ++ post) :
    ∃ left run right x y, ps = left ++ run ++ right ∧ pre = left.flatMap Prod.snd ++ x ∧
      post = y ++ right.flatMap Prod.snd ∧ run.flatMap Prod.snd = x ++ b ++ y ∧
      (∀ p ∈ run.head?, x.length < p.2.length) ∧ ∀ p ∈ run.getLast?, y.length < p.2.length := by
  induction ps generalizing pre with
  | nil => exact absurd (List.append_eq_nil_iff.mp (List.append_eq_nil_iff.mp h.symm).1).2 hb
  | cons p ps ih =>
    by_cases hp : p.2.length ≤ pre.length
    · -- The strip ends before the block starts.
      rw [List.flatMap_cons, List.append_assoc] at h
      obtain ⟨pre', rfl⟩ := List.prefix_of_prefix_length_le ⟨_, h⟩ ⟨_, rfl⟩ hp
      rw [List.append_assoc, List.append_right_inj, ← List.append_assoc] at h
      obtain ⟨left, run, right, x, y, rfl, rfl, hpost, hrun⟩ := ih h
      exact ⟨p :: left, run, right, x, y, rfl, by rw [List.flatMap_cons, List.append_assoc], hpost,
        hrun⟩
    · obtain ⟨run, right, y, hps, hne, heq, hlast, hpost⟩ :=
        exists_run_of_prefix (List.append_ne_nil_of_right_ne_nil pre hb) h
      refine ⟨[], run, right, pre, y, hps, rfl, hpost, heq, ?_, hlast⟩
      obtain ⟨q, rest, rfl⟩ := List.exists_cons_of_ne_nil hne
      obtain ⟨rfl, -⟩ := List.cons.inj hps
      simpa using hp

/-- A block stands in a text where it can be cut from its strips. -/
theorem occursAt_iff_cut :
    OccursAt nl (ps.flatMap Prod.snd) b j ↔ Cut nl (fun _ => True) ps b j := by
  constructor
  · rintro ⟨pre, post, heq, rfl, hclosed, hend⟩
    rcases eq_or_ne b [] with rfl | hb
    · have hpost : post = [] := hend.resolve_left not_ends_nil
      rw [hpost, List.append_nil, List.append_nil] at heq
      exact ⟨ps, [], [], [], [], by simp, trivial, rfl, by simp, by simp, by rwa [heq, List.append_nil],
        Or.inr rfl, by rw [heq, List.append_nil]⟩
    · obtain ⟨left, run, right, x, y, hps, rfl, rfl, hrun, hfirst, hlast⟩ := exists_run hb heq
      exact ⟨left, run, right, x, y, hps, trivial, hrun, hfirst, hlast, hclosed, hend, rfl⟩
  · rintro ⟨left, run, right, x, y, rfl, -, h⟩
    refine ⟨left.flatMap Prod.snd ++ x, y ++ right.flatMap Prod.snd, ?_, h.offset, h.start, h.stop⟩
    rw [List.flatMap_append, List.flatMap_append, h.eq]
    simp

end Runs

/-! ## Cuts that touch a block -/

/-- A part of a block, or a part of several strips, is more than a part of one gap. -/
def Touches (b : List α) (run : List (Bool × List α)) : Prop := b ≠ [] → ∃ p ∈ run, p.1 = true

theorem flatMap_strips {side : β → List α} {g : List α} {segs : List (β × List α)} :
    (strips side g segs).flatMap Prod.snd = weave side g segs := by
  induction segs generalizing g with
  | nil => simp [strips, weave]
  | cons s rest ih =>
    obtain ⟨h, g'⟩ := s
    rw [strips, List.flatMap_cons, List.flatMap_cons, ih, weave, List.append_assoc]

/-- Gaps do not follow each other. -/
theorem singleton_of_unmarked {side : β → List α} {g : List α} {segs : List (β × List α)}
    {left run right : List (Bool × List α)} (h : strips side g segs = left ++ run ++ right)
    (hrun : ∀ p ∈ run, p.1 = false) : run.length ≤ 1 := by
  induction segs generalizing g left with
  | nil =>
    have hlength := congrArg List.length h
    simp only [strips, List.length_append, List.length_cons, List.length_nil] at hlength
    omega
  | cons s rest ih =>
    obtain ⟨b, g'⟩ := s
    rw [strips] at h
    match left, h with
    | [], h =>
      match run, h, hrun with
      | [], _, _ => exact Nat.zero_le 1
      | [_], _, _ => exact Nat.le_refl 1
      | _ :: p :: run, h, hrun =>
        simp only [List.nil_append, List.cons_append, List.cons.injEq] at h
        obtain ⟨-, rfl, -⟩ := h
        exact absurd (hrun (true, side b) (by simp)) Bool.true_eq_false.mp
    | [_], h =>
      match run, h, hrun with
      | [], _, _ => exact Nat.zero_le 1
      | p :: run, h, hrun =>
        simp only [List.cons_append, List.nil_append, List.cons.injEq] at h
        obtain ⟨-, rfl, -⟩ := h
        exact absurd (hrun (true, side b) (by simp)) Bool.true_eq_false.mp
    | _ :: _ :: left, h =>
      simp only [List.cons_append, List.cons.injEq] at h
      exact ih h.2.2

/-- What is cut from one gap lies in a gap. -/
theorem inGap_of_gap {side : β → List α} {g p x b y : List α} {segs : List (β × List α)} {c : Nat}
    {left right : List (Bool × List α)} (h : strips side g segs = left ++ [(false, p)] ++ right)
    (hp : p = x ++ b ++ y) :
    InGap side b c g segs (c + (left.flatMap Prod.snd ++ x).length) := by
  have hlength := congrArg List.length hp
  simp only [List.length_append] at hlength
  have hgap : ∀ {rest : List (Bool × List α)} {g : List α},
      (false, g) :: rest = [] ++ [(false, p)] ++ right → x.length + b.length ≤ g.length := by
    intro rest g h
    obtain ⟨heq, -⟩ := List.cons.inj h
    obtain ⟨-, rfl⟩ := Prod.mk.inj heq
    omega
  induction segs generalizing g left c with
  | nil =>
    match left, h with
    | [], h =>
      have hle := hgap h
      simp only [InGap, List.flatMap_nil, List.nil_append]
      omega
    | _ :: left, h =>
      obtain ⟨-, h⟩ := List.cons.inj h
      cases left <;> cases h
  | cons s rest ih =>
    obtain ⟨a, g'⟩ := s
    match left, h with
    | [], h =>
      have hle := hgap h
      refine Or.inl ?_
      simp only [List.flatMap_nil, List.nil_append]
      omega
    | [_], h =>
      simp only [strips, List.cons_append, List.nil_append, List.cons.injEq, Prod.mk.injEq] at h
      exact absurd h.2.1.1 (by decide)
    | _ :: _ :: left, h =>
      simp only [strips, List.cons_append, List.cons.injEq] at h
      obtain ⟨rfl, rfl, h⟩ := h
      have hin := ih (c := c + g.length + (side a).length) h
      refine Or.inr ?_
      convert hin using 1
      simp only [List.flatMap_cons, List.length_append]
      omega

/-- A block found in the old text is found in the new one only with a part of a block put in. -/
theorem Located.occursAt_iff_touches {old new : β → List α} {t g : List α}
    {segs : List (β × List α)} {s : β × List α} {j : Nat} (ht : Located nl old t g segs)
    (hs : s ∈ segs) :
    OccursAt nl (weave new g segs) (old s.1) j ↔
      Cut nl (Touches (old s.1)) (strips new g segs) (old s.1) j := by
  rw [← flatMap_strips, occursAt_iff_cut]
  constructor
  · rintro ⟨left, run, right, x, y, hps, -, h⟩
    refine ⟨left, run, right, x, y, hps, fun hne => ?_, h⟩
    by_contra hnone
    simp only [not_exists, not_and, Bool.not_eq_true] at hnone
    have hocc : OccursAt nl (weave new g segs) (old s.1) j := by
      rw [← flatMap_strips]
      exact occursAt_iff_cut.mpr ⟨left, run, right, x, y, hps, trivial, h⟩
    refine Located.across ht hs hne hocc ?_
    have heq := h.eq
    match run, singleton_of_unmarked hps hnone, heq with
    | [], _, heq => exact absurd (List.append_eq_nil_iff.mp (List.append_eq_nil_iff.mp heq.symm).1).2 hne
    | [(mark, p)], _, heq =>
      obtain rfl : mark = false := hnone _ List.mem_cons_self
      rw [List.flatMap_singleton] at heq
      rw [← h.offset, ← Nat.zero_add (List.length _)]
      exact inGap_of_gap hps heq
  · rintro ⟨left, run, right, x, y, hps, -, h⟩
    exact ⟨left, run, right, x, y, hps, trivial, h⟩

end Blocks
