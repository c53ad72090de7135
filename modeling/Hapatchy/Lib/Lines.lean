import Hapatchy.Lib.Blocks

/-!
# The lines of a text

Each line keeps its separator, and only the last one may lack it.
-/

namespace Blocks

variable {α β : Type*} [DecidableEq α] {nl : α}

def lines (nl : α) : List α → List (List α)
  | [] => []
  | x :: xs =>
    if x = nl then [x] :: lines nl xs
    else match lines nl xs with
      | [] => [[x]]
      | l :: ls => (x :: l) :: ls

@[simp] theorem lines_nil : lines nl [] = [] := rfl

theorem lines_eq_nil_iff {xs : List α} : lines nl xs = [] ↔ xs = [] := by
  cases xs with
  | nil => simp
  | cons x xs =>
    simp only [lines, reduceCtorEq, iff_false]
    split
    · simp
    · split <;> simp

theorem flatten_lines (xs : List α) : (lines nl xs).flatten = xs := by
  induction xs with
  | nil => rfl
  | cons x xs ih =>
    simp only [lines]
    split
    · simp [ih]
    · split <;> rename_i hl
      · simp [lines_eq_nil_iff.mp hl]
      · rw [hl] at ih
        simpa using ih

/-- A line start cuts the list of lines. -/
theorem lines_append {xs ys : List α} (h : Closed nl xs) :
    lines nl (xs ++ ys) = lines nl xs ++ lines nl ys := by
  induction xs with
  | nil => rfl
  | cons x xs ih =>
    rcases eq_or_ne xs [] with rfl | hne
    · have hx : x = nl := by simpa [Closed, Ends] using h
      simp [lines, hx]
    · have hxs : Closed nl xs := by
        rw [← List.singleton_append] at h
        exact h.of_append
      have hcons : lines nl xs ≠ [] := fun hl => hne (lines_eq_nil_iff.mp hl)
      obtain ⟨l, ls, hl⟩ := List.exists_cons_of_ne_nil hcons
      rw [List.cons_append, lines, ih hxs, lines, hl]
      split <;> rfl

/-- Every line but the last ends in the separator. -/
theorem ends_of_mem_dropLast {xs l : List α} (h : l ∈ (lines nl xs).dropLast) : Ends nl l := by
  induction xs generalizing l with
  | nil => simp at h
  | cons x xs ih =>
    simp only [lines] at h
    split at h
    · rename_i hx
      rcases eq_or_ne (lines nl xs) [] with hl | hl
      · simp [hl] at h
      · rw [List.dropLast_cons_of_ne_nil hl] at h
        rcases List.mem_cons.mp h with rfl | h
        · simp [Ends, hx]
        · exact ih h
    · split at h
      · simp at h
      · rename_i l' ls hl
        rcases eq_or_ne ls [] with rfl | hls
        · simp at h
        · rw [List.dropLast_cons_of_ne_nil hls] at h
          have hmem : ∀ k, k ∈ (l' :: ls).dropLast → Ends nl k := fun k hk => ih (hl ▸ hk)
          rw [List.dropLast_cons_of_ne_nil hls] at hmem
          rcases List.mem_cons.mp h with rfl | h
          · have hend := hmem l' List.mem_cons_self
            rw [Ends, List.getLast?_cons_of_ne_nil hend.ne_nil]
            exact hend
          · exact hmem l (List.mem_cons_of_mem _ h)

/-- Every line of a terminated text ends in the separator. -/
theorem ends_of_mem_lines {xs l : List α} (hxs : Ends nl xs) (h : l ∈ lines nl xs) : Ends nl l := by
  induction xs generalizing l with
  | nil => cases h
  | cons x xs ih =>
    have hrest : xs ≠ [] → Ends nl xs := fun hne => by
      rwa [Ends, List.getLast?_cons_of_ne_nil hne] at hxs
    have hne : ∀ k ∈ lines nl xs, xs ≠ [] := by
      rintro k hk rfl
      cases hk
    rw [lines] at h
    split at h
    · rename_i hx
      rcases List.mem_cons.mp h with rfl | h
      · rw [hx]
        rfl
      · exact ih (hrest (hne l h)) h
    · rename_i hx
      split at h
      · rename_i hnil
        rw [lines_eq_nil_iff.mp hnil] at hxs
        exact absurd (Option.some.inj hxs) hx
      · rename_i k ks hlines
        have hmem : ∀ j ∈ k :: ks, Ends nl j := fun j hj =>
          ih (hrest (hne j (hlines ▸ hj))) (hlines ▸ hj)
        rcases List.mem_cons.mp h with rfl | h
        · have hk := hmem k List.mem_cons_self
          rw [Ends, List.getLast?_cons_of_ne_nil hk.ne_nil]
          exact hk
        · exact hmem l (List.mem_cons_of_mem _ h)

/-- An unterminated text leaves an unterminated last line. -/
theorem exists_open_line {xs : List α} (h : ¬ Closed nl xs) :
    ∃ init l, lines nl xs = init ++ [l] ∧ ¬ Ends nl l := by
  have hne : xs ≠ [] := fun hx => h (Or.inl hx)
  have hl : lines nl xs ≠ [] := fun hl => hne (lines_eq_nil_iff.mp hl)
  refine ⟨_, _, (List.dropLast_append_getLast hl).symm, fun hend => h (Or.inr ?_)⟩
  rw [← @flatten_lines _ _ nl xs, ← List.dropLast_append_getLast hl, List.flatten_append]
  simpa using hend.append_left _

/-- Text that goes on after an unterminated line joins that line. -/
theorem lines_append_ne {xs ys : List α} {ls : List (List α)} (h : ¬ Closed nl xs) (hls : ls ≠ []) :
    lines nl (xs ++ ys) ≠ lines nl xs ++ ls := by
  intro heq
  obtain ⟨init, l, hl, hopen⟩ := exists_open_line h
  have hmem : l ∈ (lines nl (xs ++ ys)).dropLast := by
    rw [heq, hl, List.dropLast_append_of_ne_nil hls]
    simp
  exact hopen (ends_of_mem_dropLast hmem)

/-! ## Joined lines -/

theorem lines_of_not_mem_dropLast {l : List α} (hne : l ≠ []) (h : nl ∉ l.dropLast) :
    lines nl l = [l] := by
  induction l with
  | nil => exact absurd rfl hne
  | cons x xs ih =>
    rcases eq_or_ne xs [] with rfl | hxs
    · rw [lines]
      split <;> rfl
    · rw [List.dropLast_cons_of_ne_nil hxs, List.mem_cons, not_or] at h
      rw [lines, if_neg (fun hx => h.1 hx.symm), ih hxs h.2]

theorem lines_line_append {x t : List α} (h : nl ∉ x) :
    lines nl (x ++ [nl] ++ t) = (x ++ [nl]) :: lines nl t := by
  have hends : Ends nl (x ++ [nl]) := List.getLast?_concat
  rw [lines_append hends.closed, lines_of_not_mem_dropLast hends.ne_nil (by rwa [List.dropLast_concat]),
    List.singleton_append]

/-- The lines of joined lines are those that are not empty. -/
theorem lines_flatten {ls : List (List α)} (hends : ∀ l ∈ ls.dropLast, Ends nl l)
    (hbare : ∀ l ∈ ls, nl ∉ l.dropLast) : lines nl ls.flatten = ls.filter (· ≠ []) := by
  induction ls with
  | nil => rfl
  | cons l ls ih =>
    have hl : lines nl l = [l].filter (· ≠ []) := by
      rcases eq_or_ne l [] with rfl | hne
      · rfl
      · simp [lines_of_not_mem_dropLast hne (hbare l List.mem_cons_self), hne]
    rcases eq_or_ne ls [] with rfl | hls
    · rw [List.flatten_singleton, hl]
    · rw [List.dropLast_cons_of_ne_nil hls] at hends
      have hrest := ih (fun k hk => hends k (List.mem_cons_of_mem _ hk))
        fun k hk => hbare k (List.mem_cons_of_mem _ hk)
      rw [List.flatten_cons, lines_append (hends l List.mem_cons_self).closed, hl, hrest,
        ← List.filter_append, List.singleton_append]

omit [DecidableEq α] in
/-- Only the last line can be empty. -/
theorem filter_ne_nil_cases {ls : List (List α)} [DecidablePred fun l : List α => l ≠ []]
    (hends : ∀ l ∈ ls.dropLast, Ends nl l) :
    ls = ls.filter (· ≠ []) ∨ ls = ls.filter (· ≠ []) ++ [[]] := by
  rcases List.eq_nil_or_concat ls with rfl | ⟨init, last, rfl⟩
  · exact Or.inl rfl
  · rw [List.concat_eq_append] at hends ⊢
    rw [List.dropLast_concat] at hends
    have hinit : init.filter (· ≠ []) = init :=
      List.filter_eq_self.mpr fun l hl => decide_eq_true (hends l hl).ne_nil
    rw [List.filter_append, hinit]
    rcases eq_or_ne last [] with rfl | hlast
    · exact Or.inr (by simp)
    · exact Or.inl (by simp [hlast])

omit [DecidableEq α] in
theorem length_le_length_flatten {ps : List (List α)} (h : ∀ p ∈ ps, p ≠ []) :
    ps.length ≤ ps.flatten.length := by
  induction ps with
  | nil => exact Nat.le_refl 0
  | cons p ps ih =>
    have hp := List.length_pos_iff.mpr (h p List.mem_cons_self)
    have hps := ih fun q hq => h q (List.mem_cons_of_mem _ hq)
    rw [List.flatten_cons, List.length_append, List.length_cons]
    omega

/-- A piece of a line goes on into what follows, unless it ends the line. -/
theorem lines_piece_append {p t : List α} (hne : p ≠ []) (hbare : nl ∉ p.dropLast) :
    lines nl (p ++ t) = if Ends nl p then p :: lines nl t
      else match lines nl t with
        | [] => [p]
        | l :: ls => (p ++ l) :: ls := by
  split
  · rename_i hends
    rw [lines_append hends.closed, lines_of_not_mem_dropLast hne hbare, List.singleton_append]
  · rename_i hopen
    induction p with
    | nil => exact absurd rfl hne
    | cons x xs ih =>
      have hx : x ≠ nl := by
        rintro rfl
        rcases eq_or_ne xs [] with rfl | hxs
        · exact hopen rfl
        · rw [List.dropLast_cons_of_ne_nil hxs] at hbare
          exact hbare List.mem_cons_self
      rw [List.cons_append, lines, if_neg hx]
      rcases eq_or_ne xs [] with rfl | hxs
      · rfl
      · rw [List.dropLast_cons_of_ne_nil hxs, List.mem_cons, not_or] at hbare
        rw [Ends, List.getLast?_cons_of_ne_nil hxs] at hopen
        rw [ih hxs hbare.2 hopen]
        cases lines nl t <;> rfl

section Pieces

variable {ps : List (List α)} (hps : ∀ p ∈ ps, p ≠ [] ∧ nl ∉ p.dropLast)

include hps

/-- Every line starts with a piece, and a piece that ends a line is all of it. -/
theorem exists_piece_of_mem_lines {l : List α} (h : l ∈ lines nl ps.flatten) :
    ∃ p ∈ ps, ∃ x, l = p ++ x ∧ (Ends nl p → x = []) := by
  induction ps generalizing l with
  | nil => simp at h
  | cons p ps ih =>
    obtain ⟨hne, hbare⟩ := hps p List.mem_cons_self
    have hrest := fun k (hk : k ∈ lines nl ps.flatten) =>
      ih (fun q hq => hps q (List.mem_cons_of_mem _ hq)) hk
    have htail : ∀ k ∈ lines nl ps.flatten,
        ∃ q ∈ p :: ps, ∃ x, k = q ++ x ∧ (Ends nl q → x = []) := by
      intro k hk
      obtain ⟨q, hq, x, rfl, hx⟩ := hrest k hk
      exact ⟨q, List.mem_cons_of_mem _ hq, x, rfl, hx⟩
    rw [List.flatten_cons, lines_piece_append hne hbare] at h
    split at h
    · rcases List.mem_cons.mp h with rfl | h
      · exact ⟨l, List.mem_cons_self, [], (List.append_nil _).symm, fun _ => rfl⟩
      · exact htail l h
    · rename_i hopen
      split at h
      · rw [List.mem_singleton.mp h]
        exact ⟨p, List.mem_cons_self, [], (List.append_nil _).symm, fun _ => rfl⟩
      · rename_i k ks hlines
        rcases List.mem_cons.mp h with rfl | h
        · exact ⟨p, List.mem_cons_self, k, rfl, fun hends => absurd hends hopen⟩
        · exact htail l (hlines ▸ List.mem_cons_of_mem _ h)

/-- The lines start where pieces do, in order. -/
theorem heads_lines_sublist : ((lines nl ps.flatten).map List.head?).Sublist (ps.map List.head?) := by
  induction ps with
  | nil => exact List.Sublist.refl _
  | cons p ps ih =>
    obtain ⟨hne, hbare⟩ := hps p List.mem_cons_self
    have hrest := ih fun q hq => hps q (List.mem_cons_of_mem _ hq)
    rw [List.flatten_cons, lines_piece_append hne hbare, List.map_cons]
    split
    · exact hrest.cons_cons _
    · split
      · exact (List.nil_sublist _).cons_cons _
      · rename_i l ls hlines
        rw [hlines, List.map_cons] at hrest
        rw [List.map_cons, List.head?_append_of_ne_nil _ hne]
        exact (List.sublist_of_cons_sublist hrest).cons_cons _

/-- An open piece shares its line with the next. -/
theorem length_lines_flatten_lt (hlast : ∀ p ∈ ps.getLast?, Ends nl p)
    (hopen : ∃ p ∈ ps, ¬ Ends nl p) : (lines nl ps.flatten).length < ps.length := by
  induction ps with
  | nil =>
    obtain ⟨p, hp, -⟩ := hopen
    cases hp
  | cons p ps ih =>
    obtain ⟨hne, hbare⟩ := hps p List.mem_cons_self
    have hpieces : ∀ q ∈ ps, q ≠ [] ∧ nl ∉ q.dropLast :=
      fun q hq => hps q (List.mem_cons_of_mem _ hq)
    have hle := (heads_lines_sublist hpieces).length_le
    rw [List.length_map, List.length_map] at hle
    rw [List.flatten_cons, lines_piece_append hne hbare, List.length_cons]
    rcases eq_or_ne ps [] with rfl | hps'
    · obtain ⟨q, hq, hopen⟩ := hopen
      rw [List.mem_singleton.mp hq] at hopen
      exact absurd (hlast p rfl) hopen
    rw [List.getLast?_cons_of_ne_nil hps'] at hlast
    split
    · rename_i hends
      have hopen' : ∃ q ∈ ps, ¬ Ends nl q := by
        obtain ⟨q, hq, hopen⟩ := hopen
        rcases List.mem_cons.mp hq with rfl | hq
        · exact absurd hends hopen
        · exact ⟨q, hq, hopen⟩
      have hlt := ih hpieces hlast hopen'
      rw [List.length_cons]
      omega
    · split
      · have hpos := List.length_pos_iff.mpr hps'
        simp only [List.length_cons, List.length_nil]
        omega
      · rename_i l ls hlines
        rw [hlines, List.length_cons] at hle
        rw [List.length_cons]
        omega

end Pieces

section Joined

variable {a b : List (List α)} (ha : ∀ l ∈ a.dropLast, Ends nl l)

include ha

omit [DecidableEq α] in
theorem flatten_eq_nil_iff_of_ends (hne : a ≠ []) : a.flatten = [] ↔ a = [[]] := by
  classical
  refine ⟨fun h => ?_, fun h => by rw [h]; rfl⟩
  have hnil : a.filter (· ≠ []) = [] := by
    rw [List.filter_eq_nil_iff]
    intro l hl
    simpa using List.flatten_eq_nil_iff.mp h l hl
  rcases filter_ne_nil_cases ha with heq | heq
  · exact absurd (heq.trans hnil) hne
  · rw [hnil] at heq
    exact heq

/-- Different lines join to the same text only up to an empty last line. -/
theorem flatten_eq_flatten_iff (hb : ∀ l ∈ b.dropLast, Ends nl l)
    (hbareA : ∀ l ∈ a, nl ∉ l.dropLast) (hbareB : ∀ l ∈ b, nl ∉ l.dropLast) (hne : a ≠ b) :
    a.flatten = b.flatten ↔ a = b ++ [[]] ∨ b = a ++ [[]] := by
  constructor
  · intro h
    have hfilter : a.filter (· ≠ []) = b.filter (· ≠ []) := by
      rw [← lines_flatten ha hbareA, ← lines_flatten hb hbareB, h]
    rcases filter_ne_nil_cases ha with heqA | heqA <;>
      rcases filter_ne_nil_cases hb with heqB | heqB
    · exact absurd (heqA.trans (hfilter.trans heqB.symm)) hne
    · rw [← hfilter, ← heqA] at heqB
      exact Or.inr heqB
    · rw [hfilter, ← heqB] at heqA
      exact Or.inl heqA
    · exact absurd (heqA.trans (hfilter ▸ heqB.symm)) hne
  · rintro (rfl | rfl) <;> simp

end Joined

theorem infix_lines_of_occursAt {t b : List α} {i : Nat} (h : OccursAt nl t b i) (hb : Ends nl b) :
    lines nl b <:+: lines nl t := by
  obtain ⟨pre, post, rfl, -, hpre, -⟩ := h
  rw [lines_append (hpre.append hb.closed), lines_append hpre]
  exact ⟨_, _, rfl⟩

/-! ## Terminated lines -/

/-- The text whose lines are `ls`, all of them terminated. -/
def unlines (nl : α) (ls : List (List α)) : List α := ls.flatMap (· ++ [nl])

theorem not_mem_of_mem_splitOn {xs l : List α} (h : l ∈ xs.splitOn nl) : nl ∉ l := by
  induction xs generalizing l with
  | nil =>
    rw [List.splitOn_nil, List.mem_singleton] at h
    simp [h]
  | cons x xs ih =>
    rw [List.splitOn_cons_eq_if_modifyHead] at h
    split at h
    · rcases List.mem_cons.mp h with rfl | h
      · simp
      · exact ih h
    · rename_i hx
      obtain ⟨first, rest, hsplit⟩ := List.exists_cons_of_ne_nil (List.splitOn_ne_nil nl xs)
      rw [hsplit, List.modifyHead_cons] at h
      rcases List.mem_cons.mp h with rfl | h
      · have hfirst := ih (hsplit ▸ List.mem_cons_self)
        simp only [List.mem_cons, not_or]
        exact ⟨fun heq => hx (by simp [heq]), hfirst⟩
      · exact ih (hsplit ▸ List.mem_cons_of_mem _ h)

omit [DecidableEq α] in
theorem unlines_eq_intercalate {ls : List (List α)} (h : ls ≠ []) :
    unlines nl ls = [nl].intercalate ls ++ [nl] := by
  induction ls with
  | nil => exact absurd rfl h
  | cons l ls ih =>
    cases ls with
    | nil => simp [unlines, List.intercalate]
    | cons l' ls =>
      have hrest := ih (List.cons_ne_nil _ _)
      rw [unlines, List.flatMap_cons, ← unlines, hrest]
      simp [List.intercalate, List.intersperse]

/-- The lines of a text that ends in the separator. -/
theorem splitOn_unlines_iff {t : List α} {ls : List (List α)} :
    t.getLast? = some nl ∧ t.dropLast.splitOn nl = ls ↔
      ls ≠ [] ∧ t = unlines nl ls ∧ ∀ l ∈ ls, nl ∉ l := by
  constructor
  · rintro ⟨hlast, rfl⟩
    have hne : t.dropLast.splitOn nl ≠ [] := List.splitOn_ne_nil _ _
    obtain ⟨init, rfl⟩ := List.getLast?_eq_some_iff.mp hlast
    refine ⟨hne, ?_, fun l hl => not_mem_of_mem_splitOn hl⟩
    rw [unlines_eq_intercalate hne, List.intercalate_splitOn, List.dropLast_concat]
  · rintro ⟨hne, rfl, hall⟩
    rw [unlines_eq_intercalate hne, List.dropLast_concat]
    exact ⟨List.getLast?_concat, List.splitOn_intercalate _ hall hne⟩

theorem lines_unlines {ls : List (List α)} (h : ∀ l ∈ ls, nl ∉ l) :
    lines nl (unlines nl ls) = ls.map (· ++ [nl]) := by
  have hends : ∀ l ∈ ls.map (· ++ [nl]), Ends nl l ∧ nl ∉ l.dropLast := by
    intro l hl
    obtain ⟨k, hk, rfl⟩ := List.mem_map.mp hl
    rw [List.dropLast_concat]
    exact ⟨List.getLast?_concat, h k hk⟩
  rw [unlines, List.flatMap_def, lines_flatten
    (fun l hl => (hends l ((List.dropLast_sublist _).subset hl)).1) fun l hl => (hends l hl).2]
  exact List.filter_eq_self.mpr fun l hl => decide_eq_true (hends l hl).1.ne_nil

/-! ## Woven lines -/

/-- The lines of the gaps and of the blocks, in turn. -/
def wovenLines (nl : α) (side : β → List α) : List α → List (β × List α) → List (List α)
  | g, [] => lines nl g
  | g, (h, g') :: rest => lines nl g ++ lines nl (side h) ++ wovenLines nl side g' rest

theorem flatten_wovenLines (side : β → List α) (g : List α) (segs : List (β × List α)) :
    (wovenLines nl side g segs).flatten = weave side g segs := by
  induction segs generalizing g with
  | nil => simp [wovenLines, weave, flatten_lines]
  | cons s rest ih => simp [wovenLines, weave, flatten_lines, ih]

/-- The new text has the woven lines exactly when no block is joined to what follows it. -/
theorem LocatedFrom.lines_weave_iff {old new : β → List α} {t pre g : List α}
    {segs : List (β × List α)} (h : LocatedFrom nl old t pre g segs) :
    lines nl (weave new g segs) = wovenLines nl new g segs ↔ Unjoined nl new segs := by
  induction segs generalizing pre g with
  | nil => simp [weave, wovenLines, Unjoined]
  | cons s rest ih =>
    obtain ⟨b, g'⟩ := s
    have hnext := ih h.2
    rw [weave, wovenLines, Unjoined, List.append_assoc, lines_append h.closed_gap,
      List.append_assoc, List.append_right_inj]
    by_cases hclosed : Closed nl (new b)
    · rw [lines_append hclosed, List.append_right_inj]
      simpa [hclosed] using hnext
    · rcases eq_or_ne (weave new g' rest) [] with hnil | hne
      · have hlines : wovenLines nl new g' rest = [] := by
          rw [← hnext.mpr (anchored_of_weave_nil hnil).unjoined, hnil, lines_nil]
        exact iff_of_true (by simp [hnil, hlines])
          ⟨Or.inr hnil, (anchored_of_weave_nil hnil).unjoined⟩
      · refine iff_of_false ?_ fun h => (h.1.elim hclosed hne)
        apply lines_append_ne hclosed
        intro hlines
        apply hne
        rw [← flatten_wovenLines, hlines, List.flatten_nil]

/-- The old text has the woven lines: its blocks were found on line boundaries. -/
theorem LocatedFrom.lines_weave {side : β → List α} {t pre g : List α} {segs : List (β × List α)}
    (h : LocatedFrom nl side t pre g segs) :
    lines nl (weave side g segs) = wovenLines nl side g segs := by
  refine h.lines_weave_iff.mpr ?_
  induction segs generalizing pre g with
  | nil => trivial
  | cons s rest ih => exact ⟨h.boundary.2.imp_left Ends.closed, ih h.2⟩

end Blocks
