import Mathlib.Data.List.Basic

/-!
# Blocks of whole lines in a text

A text is a list over any alphabet with one separator `nl`. A block is found
in a text where it starts a line and ends one, or the text.
-/

namespace Blocks

variable {α β : Type*}

/-! ## Line boundaries -/

/-- `xs` ends in the separator. -/
def Ends (nl : α) (xs : List α) : Prop := xs.getLast? = some nl

/-- A line can start after `xs`. -/
def Closed (nl : α) (xs : List α) : Prop := xs = [] ∨ Ends nl xs

instance [DecidableEq α] (nl : α) (xs : List α) : Decidable (Ends nl xs) :=
  inferInstanceAs (Decidable (_ = _))

instance [DecidableEq α] (nl : α) (xs : List α) : Decidable (Closed nl xs) :=
  inferInstanceAs (Decidable (_ ∨ _))

variable {nl : α}

@[simp] theorem not_ends_nil : ¬ Ends nl [] := by simp [Ends]

@[simp] theorem closed_nil : Closed nl [] := Or.inl rfl

theorem Ends.closed {xs : List α} (h : Ends nl xs) : Closed nl xs := Or.inr h

theorem Ends.ne_nil {xs : List α} (h : Ends nl xs) : xs ≠ [] := by
  rintro rfl; exact not_ends_nil h

theorem ends_append {xs ys : List α} (hy : ys ≠ []) : Ends nl (xs ++ ys) ↔ Ends nl ys := by
  unfold Ends
  rw [List.getLast?_append_of_ne_nil _ hy]

theorem Ends.append_left {ys : List α} (xs : List α) (h : Ends nl ys) : Ends nl (xs ++ ys) :=
  (ends_append h.ne_nil).mpr h

theorem closed_iff_of_ne_nil {xs : List α} (h : xs ≠ []) : Closed nl xs ↔ Ends nl xs := by
  simp [Closed, h]

theorem Closed.append {xs ys : List α} (hx : Closed nl xs) (hy : Closed nl ys) :
    Closed nl (xs ++ ys) := by
  rcases hy with rfl | hy
  · simpa using hx
  · exact (hy.append_left xs).closed

/-- Only the last piece of a prefix decides whether a line can start after it. -/
theorem Closed.of_append {xs ys : List α} (h : Closed nl (xs ++ ys)) : Closed nl ys := by
  rcases eq_or_ne ys [] with rfl | hy
  · exact closed_nil
  · rcases h with h | h
    · exact absurd (List.append_eq_nil_iff.mp h).2 hy
    · exact ((ends_append hy).mp h).closed

theorem ends_of_closed_append {xs ys : List α} (h : Closed nl (xs ++ ys)) (hy : ys ≠ []) :
    Ends nl ys := (closed_iff_of_ne_nil hy).mp h.of_append

/-! ## Occurrences -/

/-- `b` stands in `t` at offset `i` as a run of whole lines. -/
def OccursAt (nl : α) (t b : List α) (i : Nat) : Prop :=
  ∃ pre post, t = pre ++ b ++ post ∧ pre.length = i ∧ Closed nl pre ∧ (Ends nl b ∨ post = [])

/-- `i` is the one place where `b` stands in `t`. -/
def FoundAt (nl : α) (t b : List α) (i : Nat) : Prop :=
  OccursAt nl t b i ∧ ∀ j, OccursAt nl t b j → j = i

theorem OccursAt.le {t b : List α} {i : Nat} (h : OccursAt nl t b i) : i + b.length ≤ t.length := by
  obtain ⟨pre, post, rfl, rfl, -⟩ := h
  simp

/-- A text is found in itself. -/
theorem foundAt_self (t : List α) : FoundAt nl t t 0 := by
  refine ⟨⟨[], [], by simp, rfl, closed_nil, Or.inr rfl⟩, fun j hj => ?_⟩
  have hle := hj.le
  omega

theorem FoundAt.unique {t b : List α} {i j : Nat} (hi : FoundAt nl t b i) (hj : FoundAt nl t b j) :
    i = j := hj.2 i hi.1

theorem occursAt_append {pre b post : List α} (hpre : Closed nl pre) (hend : Ends nl b ∨ post = []) :
    OccursAt nl (pre ++ b ++ post) b pre.length := ⟨pre, post, rfl, rfl, hpre, hend⟩

theorem take_split (pre b post : List α) : (pre ++ b ++ post).take pre.length = pre := by simp

theorem drop_split (pre b post : List α) :
    (pre ++ b ++ post).drop (pre.length + b.length) = post := by
  rw [← List.length_append, List.drop_left]

/-- The pieces around an occurrence are the two ends of the text. -/
theorem OccursAt.split {t b : List α} {i : Nat} (h : OccursAt nl t b i) :
    t = t.take i ++ b ++ t.drop (i + b.length) ∧ Closed nl (t.take i) ∧
      (Ends nl b ∨ t.drop (i + b.length) = []) := by
  obtain ⟨pre, post, rfl, rfl, hpre, hend⟩ := h
  rw [take_split, drop_split]
  exact ⟨rfl, hpre, hend⟩

/-- An occurrence at a known split of the text. -/
theorem occursAt_split_iff {pre b post : List α} :
    OccursAt nl (pre ++ b ++ post) b pre.length ↔ Closed nl pre ∧ (Ends nl b ∨ post = []) := by
  constructor
  · intro h
    obtain ⟨-, hpre, hend⟩ := h.split
    rw [take_split] at hpre
    rw [drop_split] at hend
    exact ⟨hpre, hend⟩
  · rintro ⟨hpre, hend⟩
    exact occursAt_append hpre hend

/-! ## Placing a list of blocks -/

/-- The blocks stand at `is`, each nowhere else, in order and without overlap from `c` on. -/
def PlacedFrom (nl : α) (t : List α) : Nat → List (List α) → List Nat → Prop
  | _, [], [] => True
  | c, b :: bs, i :: is => c ≤ i ∧ FoundAt nl t b i ∧ PlacedFrom nl t (i + b.length) bs is
  | _, _, _ => False

def Placeable (nl : α) (t : List α) (bs : List (List α)) : Prop := ∃ is, PlacedFrom nl t 0 bs is

theorem PlacedFrom.unique {t : List α} {c : Nat} {bs : List (List α)} {is js : List Nat}
    (hi : PlacedFrom nl t c bs is) (hj : PlacedFrom nl t c bs js) : is = js := by
  induction bs generalizing c is js with
  | nil =>
    cases is <;> cases js <;> simp_all [PlacedFrom]
  | cons b bs ih =>
    match is, js, hi, hj with
    | i :: is, j :: js, ⟨_, hfi, hri⟩, ⟨_, hfj, hrj⟩ =>
      obtain rfl := hfi.unique hfj
      rw [ih hri hrj]

/-- `t` from `c` on, with the block of each hunk replaced by its other side. -/
def spliced (side other : β → List α) (t : List α) : Nat → List β → List Nat → List α
  | c, h :: hs, i :: is =>
    t.extract c i ++ other h ++ spliced side other t (i + (side h).length) hs is
  | c, _, _ => t.drop c

/-! ## Weaving: gaps and blocks in turn -/

/-- The first gap, then each block with the gap after it. -/
def weave (side : β → List α) : List α → List (β × List α) → List α
  | g, [] => g
  | g, (h, g') :: rest => g ++ side h ++ weave side g' rest

/-- `pre` and the woven text make up `t`, and each block is found there and nowhere else. -/
def LocatedFrom (nl : α) (side : β → List α) (t : List α) :
    List α → List α → List (β × List α) → Prop
  | pre, g, [] => t = pre ++ g
  | pre, g, (h, g') :: rest =>
    FoundAt nl t (side h) (pre ++ g).length ∧ LocatedFrom nl side t (pre ++ g ++ side h) g' rest

/-- The whole text is woven from the gaps and the blocks found between them. -/
def Located (nl : α) (side : β → List α) (t g : List α) (segs : List (β × List α)) : Prop :=
  LocatedFrom nl side t [] g segs

theorem LocatedFrom.eq {side : β → List α} {t pre g : List α} {segs : List (β × List α)}
    (h : LocatedFrom nl side t pre g segs) : t = pre ++ weave side g segs := by
  induction segs generalizing pre g with
  | nil => exact h
  | cons s rest ih =>
    obtain ⟨b, g'⟩ := s
    rw [ih h.2]
    simp [weave]

theorem Located.eq {side : β → List α} {t g : List α} {segs : List (β × List α)}
    (h : Located nl side t g segs) : t = weave side g segs := by
  simpa using LocatedFrom.eq h

/-- At a block of a located text, the two ends are line boundaries. -/
theorem LocatedFrom.boundary {side : β → List α} {t pre g g' : List α} {b : β}
    {rest : List (β × List α)} (h : LocatedFrom nl side t pre g ((b, g') :: rest)) :
    Closed nl (pre ++ g) ∧ (Ends nl (side b) ∨ weave side g' rest = []) := by
  have ht : t = pre ++ g ++ side b ++ weave side g' rest := by simpa [weave] using h.eq
  have hocc := h.1.1
  rw [ht] at hocc
  exact occursAt_split_iff.mp hocc

theorem weave_eq_nil_iff {side : β → List α} {g : List α} {segs : List (β × List α)} :
    weave side g segs = [] ↔ g = [] ∧ ∀ s ∈ segs, side s.1 = [] ∧ s.2 = [] := by
  induction segs generalizing g with
  | nil => simp [weave]
  | cons s rest ih =>
    obtain ⟨b, g'⟩ := s
    simp only [weave, List.append_eq_nil_iff, ih, List.forall_mem_cons]
    tauto

theorem mem_weave_iff {x : α} {side : β → List α} {g : List α} {segs : List (β × List α)} :
    x ∈ weave side g segs ↔ x ∈ g ∨ ∃ s ∈ segs, x ∈ side s.1 ∨ x ∈ s.2 := by
  induction segs generalizing g with
  | nil => simp [weave]
  | cons s rest ih =>
    simp only [weave, List.mem_append, ih, List.exists_mem_cons_iff, or_assoc]

/-- Where the blocks of a woven text stand, for a text whose first gap starts at `c`. -/
def offsets (side : β → List α) : Nat → List α → List (β × List α) → List Nat
  | _, _, [] => []
  | c, g, (h, g') :: rest =>
    (c + g.length) :: offsets side (c + g.length + (side h).length) g' rest

theorem LocatedFrom.placed {side : β → List α} {t pre g : List α} {segs : List (β × List α)}
    (h : LocatedFrom nl side t pre g segs) :
    PlacedFrom nl t pre.length (segs.map fun s => side s.1) (offsets side pre.length g segs) := by
  induction segs generalizing pre g with
  | nil => trivial
  | cons s rest ih =>
    obtain ⟨b, g'⟩ := s
    obtain ⟨hfound, hrest⟩ := h
    have hnext := ih hrest
    simp only [List.length_append] at hfound hnext
    exact ⟨by omega, hfound, hnext⟩

/-- Placed blocks cut the text into gaps, and splicing is weaving the other side. -/
theorem PlacedFrom.located {side : β → List α} {t : List α} {c : Nat} {hs : List β}
    {is : List Nat} (h : PlacedFrom nl t c (hs.map side) is) :
    ∃ g segs, segs.map Prod.fst = hs ∧ LocatedFrom nl side t (t.take c) g segs ∧
      ∀ other : β → List α, spliced side other t c hs is = weave other g segs := by
  induction hs generalizing c is with
  | nil =>
    match is, h with
    | [], _ => exact ⟨t.drop c, [], rfl, (List.take_append_drop c t).symm, fun _ => rfl⟩
  | cons b hs ih =>
    match is, h with
    | i :: is, ⟨hci, hfound, hrest⟩ =>
      obtain ⟨g', segs, hfst, hloc, hsplice⟩ := ih hrest
      have hle := hfound.1.le
      obtain ⟨ht, -, -⟩ := hfound.1.split
      have hgap : t.take c ++ t.extract c i = t.take i := by
        rw [List.extract_eq_take_drop, ← List.take_add, Nat.add_sub_cancel' hci]
      have hblock : t.take (i + (side b).length) = t.take i ++ side b := by
        conv_lhs => rw [ht]
        rw [List.take_left' (by simp; omega)]
      refine ⟨t.extract c i, (b, g') :: segs, by simp [hfst], ⟨?_, ?_⟩, ?_⟩
      · rw [hgap, List.length_take_of_le (by omega)]
        exact hfound
      · rw [hgap, ← hblock]
        exact hloc
      · intro other
        simp only [spliced, weave, hsplice]

/-- A text has one way to be cut at the blocks found in it. -/
theorem LocatedFrom.unique {side : β → List α} {t pre g g' : List α}
    {segs segs' : List (β × List α)} (h : LocatedFrom nl side t pre g segs)
    (h' : LocatedFrom nl side t pre g' segs') (hfst : segs.map Prod.fst = segs'.map Prod.fst) :
    g = g' ∧ segs = segs' := by
  induction segs generalizing pre g g' segs' with
  | nil =>
    obtain rfl : segs' = [] := by simpa using hfst.symm
    exact ⟨List.append_cancel_left (h.symm.trans h'), rfl⟩
  | cons s rest ih =>
    obtain ⟨b, g2⟩ := s
    obtain ⟨⟨b', g2'⟩, rest', rfl⟩ : ∃ s' rest', segs' = s' :: rest' := by
      cases segs' with
      | nil => simp at hfst
      | cons s' rest' => exact ⟨s', rest', rfl⟩
    simp only [List.map_cons, List.cons.injEq] at hfst
    obtain ⟨rfl, hfst⟩ := hfst
    have hlen := h.1.unique h'.1
    have heq : pre ++ g ++ (side b ++ weave side g2 rest) =
        pre ++ g' ++ (side b ++ weave side g2' rest') := by
      simpa [weave] using h.eq.symm.trans h'.eq
    obtain rfl : g = g' := List.append_cancel_left (List.append_inj heq hlen).1
    obtain ⟨rfl, rfl⟩ := ih h.2 h'.2 hfst
    exact ⟨rfl, rfl⟩

/-- The gap before a block found in a text ends a line. -/
theorem LocatedFrom.closed_gap {side : β → List α} {t pre g g' : List α} {b : β}
    {rest : List (β × List α)} (h : LocatedFrom nl side t pre g ((b, g') :: rest)) : Closed nl g :=
  h.boundary.1.of_append

/-- What holds of the pieces and of appended texts holds of the woven text. -/
theorem weave_induction {P : List α → Prop} (happ : ∀ x y, P x → P y → P (x ++ y))
    {side : β → List α} {g : List α} {segs : List (β × List α)} (hg : P g)
    (hsegs : ∀ s ∈ segs, P (side s.1) ∧ P s.2) : P (weave side g segs) := by
  induction segs generalizing g with
  | nil => exact hg
  | cons s rest ih =>
    obtain ⟨hside, hgap⟩ := hsegs s List.mem_cons_self
    exact happ _ _ (happ _ _ hg hside) (ih hgap fun s' hs' => hsegs s' (List.mem_cons_of_mem _ hs'))

/-- What survives a cut at a line start holds of the gaps between the blocks. -/
theorem LocatedFrom.gaps {P : List α → Prop}
    (hcut : ∀ x y, Closed nl x → P (x ++ y) → P x ∧ P y) {side : β → List α} {t pre g : List α}
    {segs : List (β × List α)} (h : LocatedFrom nl side t pre g segs)
    (hP : P (weave side g segs)) : P g ∧ ∀ s ∈ segs, P s.2 := by
  induction segs generalizing pre g with
  | nil => exact ⟨hP, by simp⟩
  | cons s rest ih =>
    obtain ⟨b, g'⟩ := s
    rw [weave, List.append_assoc] at hP
    obtain ⟨hg, hP⟩ := hcut _ _ h.closed_gap hP
    have hrest : P (weave side g' rest) := by
      rcases h.boundary.2 with hend | hnil
      · exact (hcut _ _ hend.closed hP).2
      · rw [hnil]
        exact (hcut [] _ closed_nil hP).1
    obtain ⟨hg', hall⟩ := ih h.2 hrest
    exact ⟨hg, List.forall_mem_cons.mpr ⟨hg', hall⟩⟩

/-! ## Changing sides -/

/-- Every block ends a line, or nothing follows it. -/
def Anchored (nl : α) (side : β → List α) : List (β × List α) → Prop
  | [] => True
  | (h, g) :: rest => (Ends nl (side h) ∨ weave side g rest = []) ∧ Anchored nl side rest

theorem anchored_of_weave_nil {side : β → List α} {g : List α} {segs : List (β × List α)}
    (h : weave side g segs = []) : Anchored nl side segs := by
  induction segs generalizing g with
  | nil => trivial
  | cons s rest ih =>
    obtain ⟨b, g'⟩ := s
    simp only [weave, List.append_eq_nil_iff] at h
    exact ⟨Or.inr h.2, ih h.2⟩

/-- No block is joined to what follows it. -/
def Unjoined (nl : α) (side : β → List α) : List (β × List α) → Prop
  | [] => True
  | (h, g) :: rest => (Closed nl (side h) ∨ weave side g rest = []) ∧ Unjoined nl side rest

theorem Anchored.unjoined {side : β → List α} {segs : List (β × List α)}
    (h : Anchored nl side segs) : Unjoined nl side segs := by
  induction segs with
  | nil => trivial
  | cons s rest ih => exact ⟨h.1.imp_left Ends.closed, ih h.2⟩

/-- Without gaps, the blocks alone make the segments. -/
theorem segs_eq_of_no_gaps {segs segs' : List (β × List α)}
    (hfst : segs.map Prod.fst = segs'.map Prod.fst) (h : ∀ s ∈ segs, s.2 = [])
    (h' : ∀ s ∈ segs', s.2 = []) : segs = segs' := by
  have key : ∀ l : List (β × List α), (∀ s ∈ l, s.2 = []) → l = (l.map Prod.fst).map (·, []) := by
    intro l hl
    rw [List.map_map]
    refine (List.map_id l).symm.trans (List.map_congr_left ?_)
    intro s hs
    exact Prod.ext rfl (hl s hs)
  rw [key segs h, key segs' h', hfst]

section Back

variable {old new : β → List α} {t n preT preN g g' : List α} {segs segs' : List (β × List α)}

/-- A gap that closes a line in one text closes it after any line start. -/
theorem closed_append_of_closed (hpre : Closed nl preN) (h : Closed nl (preT ++ g)) :
    Closed nl (preN ++ g) := hpre.append h.of_append

/-- Locating the new blocks afresh in the new text leads back to the old text exactly when
every new block stood on line boundaries. -/
theorem LocatedFrom.weave_back_iff (ht : LocatedFrom nl old t preT g segs)
    (hn : LocatedFrom nl new n preN g' segs') (hfst : segs.map Prod.fst = segs'.map Prod.fst)
    (hw : n = preN ++ weave new g segs) (hpre : Closed nl preN) :
    weave old g' segs' = weave old g segs ↔ Anchored nl new segs := by
  induction segs generalizing preT preN g g' segs' with
  | nil =>
    obtain rfl : segs' = [] := by simpa using hfst.symm
    have hg : g = g' := List.append_cancel_left (hw.symm.trans hn)
    simp [weave, Anchored, hg]
  | cons s rest ih =>
    obtain ⟨h, g2⟩ := s
    obtain ⟨⟨h', g2'⟩, rest', rfl⟩ : ∃ s' rest', segs' = s' :: rest' := by
      cases segs' with
      | nil => simp at hfst
      | cons s' rest' => exact ⟨s', rest', rfl⟩
    simp only [List.map_cons, List.cons.injEq] at hfst
    obtain ⟨rfl, hfst⟩ := hfst
    have hpreg : Closed nl (preN ++ g) := closed_append_of_closed hpre ht.boundary.1
    have hsplit : n = preN ++ g ++ new h ++ weave new g2 rest := by simpa [weave] using hw
    by_cases hanch : Ends nl (new h) ∨ weave new g2 rest = []
    · -- The new block stands on line boundaries, so it is found where it was put.
      have hpos : (preN ++ g).length = (preN ++ g').length := by
        refine hn.1.2 _ ?_
        rw [hsplit]
        exact occursAt_append hpreg hanch
      have hg : g = g' := by
        have hn' : n = preN ++ g' ++ (new h ++ weave new g2' rest') := by simpa [weave] using hn.eq
        rw [hsplit, List.append_assoc] at hn'
        exact List.append_cancel_left (List.append_inj hn' hpos).1
      subst hg
      rcases hanch with hend | hnil
      · have hnext := ih ht.2 hn.2 hfst hsplit ((hend.append_left _).closed)
        simp only [weave, Anchored, hend, true_or, true_and, List.append_cancel_left_eq]
        exact hnext
      · -- Nothing follows: every later block and gap is empty on both sides.
        have hnil' : weave new g2' rest' = [] := by
          have := hn.2.eq
          rw [hsplit, hnil] at this
          simpa using this
        obtain ⟨rfl, hall⟩ := weave_eq_nil_iff.mp hnil
        obtain ⟨rfl, hall'⟩ := weave_eq_nil_iff.mp hnil'
        obtain rfl : rest = rest' :=
          segs_eq_of_no_gaps hfst (fun s hs => (hall s hs).2) (fun s hs => (hall' s hs).2)
        exact iff_of_true rfl ⟨Or.inr hnil, anchored_of_weave_nil hnil⟩
    · -- The new block is joined to what follows, so it was found at the end of the text.
      refine iff_of_false ?_ fun h => hanch h.1
      obtain ⟨hopen, hrest⟩ := not_or.mp hanch
      obtain ⟨hclosed', hend'⟩ := hn.boundary
      have hn' : n = preN ++ g' ++ new h := by
        have := hn.2.eq
        rwa [hend'.resolve_left hopen, List.append_nil] at this
      have hlen : g'.length = g.length + (weave new g2 rest).length := by
        have := congrArg List.length (hn'.symm.trans hsplit)
        simp only [List.length_append] at this
        omega
      have hpos : 0 < (weave new g2 rest).length := List.length_pos_of_ne_nil hrest
      have hg' : g' ≠ [] := List.ne_nil_of_length_pos (by omega)
      intro hback
      have ht' : t = preT ++ g' ++ old h ++ weave old g2' rest' := by
        rw [ht.eq, ← hback]
        simp [weave]
      have hold : Ends nl (old h) ∨ weave old g2' rest' = [] := by
        refine ht.boundary.2.imp_right fun hnil => ?_
        have hlast : t = preT ++ g ++ old h := by simpa [weave, hnil] using ht.eq
        have := congrArg List.length (hlast.symm.trans ht')
        simp only [List.length_append] at this
        omega
      have hocc : OccursAt nl t (old h) (preT ++ g').length := by
        rw [ht']
        exact occursAt_append ((ends_of_closed_append hclosed' hg').append_left _).closed hold
      have := ht.1.2 _ hocc
      simp only [List.length_append] at this
      omega

end Back

/-! ## Blocks found across the pieces of another text -/

section Gaps

/-- `b` at `j` lies within one gap of the text woven from offset `c` on. -/
def InGap (side : β → List α) (b : List α) : Nat → List α → List (β × List α) → Nat → Prop
  | c, g, [], j => c ≤ j ∧ j + b.length ≤ c + g.length
  | c, g, (h, g') :: rest, j =>
    (c ≤ j ∧ j + b.length ≤ c + g.length) ∨
      InGap side b (c + g.length + (side h).length) g' rest j

theorem InGap.le {side : β → List α} {b : List α} {c j : Nat} {g : List α}
    {segs : List (β × List α)} (h : InGap side b c g segs j) : c ≤ j := by
  induction segs generalizing c g with
  | nil => exact h.1
  | cons s rest ih =>
    rcases h with h | h
    · exact h.1
    · have := ih h
      omega

variable {old new : β → List α} {t n preT preN g : List α} {segs : List (β × List α)}

/-- A block found where it was cut out lies in no gap. -/
theorem LocatedFrom.not_inGap {s : β × List α} (ht : LocatedFrom nl old t preT g segs)
    (hs : s ∈ segs) (hne : old s.1 ≠ []) :
    ∃ i, preT.length + g.length ≤ i ∧ FoundAt nl t (old s.1) i ∧
      ¬ InGap old (old s.1) preT.length g segs i := by
  have hpos := List.length_pos_of_ne_nil hne
  induction segs generalizing preT g with
  | nil => cases hs
  | cons s' rest ih =>
    obtain ⟨hfound, hrest⟩ := ht
    have hlen : (preT ++ g).length = preT.length + g.length := List.length_append
    rcases List.mem_cons.mp hs with rfl | hs
    · refine ⟨_, Nat.le_of_eq hlen.symm, hfound, ?_⟩
      rintro (hin | hin)
      · omega
      · have := hin.le
        omega
    · obtain ⟨i, hi, hfoundi, hnot⟩ := ih hrest hs
      simp only [List.length_append] at hi hnot
      refine ⟨i, by omega, hfoundi, ?_⟩
      rintro (hin | hin)
      · omega
      · exact hnot hin

/-- A piece of a text that holds an occurrence. -/
theorem OccursAt.split_piece {x y b : List α} {j : Nat} (h : OccursAt nl (x ++ g ++ y) b j)
    (hx : x.length ≤ j) (hy : j + b.length ≤ x.length + g.length) :
    ∃ u v, g = u ++ b ++ v ∧ Closed nl (x ++ u) ∧ (Ends nl b ∨ v ++ y = []) := by
  obtain ⟨pre, post, heq, rfl, hpre, hend⟩ := h
  have hxy : x ++ (g ++ y) = pre ++ (b ++ post) := by simpa using heq
  obtain ⟨u, rfl⟩ : x <+: pre := List.prefix_of_prefix_length_le ⟨_, hxy⟩ ⟨_, rfl⟩ hx
  rw [List.append_assoc, List.append_right_inj] at hxy
  rw [List.length_append] at hy
  obtain ⟨v, rfl⟩ : u ++ b <+: g := by
    refine List.prefix_of_prefix_length_le ⟨post, ?_⟩ ⟨y, hxy⟩ (by simp; omega)
    simp
  refine ⟨u, v, rfl, hpre, hend.imp_right ?_⟩
  rintro rfl
  simpa using hxy

/-- A block within a gap stands there in any text where the gap starts a line and, unless it
is last, ends one. -/
theorem OccursAt.of_piece {x x' y y' b : List α} {j : Nat} (hb : b ≠ [])
    (hocc : OccursAt nl (x ++ g ++ y) b j) (hx : x.length ≤ j)
    (hjb : j + b.length ≤ x.length + g.length) (hx' : Closed nl x' ∨ g = [])
    (hlast : y' = [] ∨ Closed nl g) :
    ∃ i, (x'.length ≤ i ∧ i + b.length ≤ x'.length + g.length) ∧
      OccursAt nl (x' ++ g ++ y') b i := by
  obtain ⟨u, v, rfl, hclosed, hend⟩ := hocc.split_piece hx hjb
  refine ⟨(x' ++ u).length, by simp only [List.length_append]; omega, ?_⟩
  rw [show x' ++ (u ++ b ++ v) ++ y' = x' ++ u ++ b ++ (v ++ y') by simp]
  apply occursAt_append
  · rcases eq_or_ne u [] with rfl | hu
    · rw [List.append_nil]
      exact hx'.resolve_right (by simp [hb])
    · exact ((ends_of_closed_append hclosed hu).append_left _).closed
  · rcases hend with hend | hnil
    · exact Or.inl hend
    · obtain ⟨rfl, rfl⟩ := List.append_eq_nil_iff.mp hnil
      rcases hlast with rfl | hg
      · exact Or.inr rfl
      · rw [List.append_nil] at hg
        exact Or.inl (ends_of_closed_append hg hb)

/-- What stands within a gap of the new text stands within that gap of the old one. -/
theorem LocatedFrom.occursAt_of_inGap {b : List α} {j : Nat} (hb : b ≠ [])
    (ht : LocatedFrom nl old t preT g segs) (hn : n = preN ++ weave new g segs)
    (hpre : Closed nl preT ∨ weave old g segs = []) (hocc : OccursAt nl n b j)
    (hin : InGap new b preN.length g segs j) :
    ∃ i, InGap old b preT.length g segs i ∧ OccursAt nl t b i := by
  have hx : Closed nl preT ∨ g = [] := hpre.imp_right fun hnil => (weave_eq_nil_iff.mp hnil).1
  induction segs generalizing preT preN g with
  | nil =>
    obtain rfl : t = preT ++ g := ht
    rw [hn, weave, ← List.append_nil (preN ++ g)] at hocc
    obtain ⟨i, hi, hocc'⟩ := hocc.of_piece hb hin.1 hin.2 hx (Or.inl rfl)
    exact ⟨i, hi, by simpa using hocc'⟩
  | cons s rest ih =>
    obtain ⟨h, g'⟩ := s
    rcases hin with ⟨hj, hjb⟩ | hin
    · rw [hn, weave, List.append_assoc g, ← List.append_assoc] at hocc
      obtain ⟨i, hi, hocc'⟩ := hocc.of_piece hb hj hjb hx (Or.inr ht.closed_gap)
      refine ⟨i, Or.inl hi, ?_⟩
      rw [ht.eq, weave, List.append_assoc g, ← List.append_assoc]
      exact hocc'
    · have hpre' : Closed nl (preT ++ g ++ old h) ∨ weave old g' rest = [] :=
        ht.boundary.2.imp_left fun hend => (hend.append_left _).closed
      have hlen : (preN ++ g ++ new h).length = preN.length + g.length + (new h).length := by
        simp only [List.length_append]
      have hn' : n = preN ++ g ++ new h ++ weave new g' rest := by simpa [weave] using hn
      obtain ⟨i, hi, hocc'⟩ := ih ht.2 hn' hpre' (hlen ▸ hin) (hpre'.imp_right fun hnil => (weave_eq_nil_iff.mp hnil).1)
      refine ⟨i, Or.inr ?_, hocc'⟩
      simpa only [List.length_append] using hi

/-- A block found once in the old text is found in the new one only across a block put in. -/
theorem Located.across {s : β × List α} {j : Nat} (ht : Located nl old t g segs) (hs : s ∈ segs)
    (hne : old s.1 ≠ []) (hocc : OccursAt nl (weave new g segs) (old s.1) j) :
    ¬ InGap new (old s.1) 0 g segs j := by
  intro hin
  obtain ⟨i, hi, hocc'⟩ := LocatedFrom.occursAt_of_inGap hne ht (List.nil_append _).symm
    (Or.inl closed_nil) hocc hin
  obtain ⟨k, -, hfound, hnot⟩ := LocatedFrom.not_inGap ht hs hne
  exact hnot (hfound.2 i hocc' ▸ hi)

end Gaps

end Blocks
