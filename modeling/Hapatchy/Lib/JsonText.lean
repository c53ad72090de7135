import Mathlib.Data.Bool.AllAny
import Hapatchy.Lib.Utf8

/-!
# The text of a JSON object

How `json.dumps` writes an object of numbers and strings, and why a text that
was cut off is no JSON document: its first bracket stays open.
-/

namespace JsonText

/-! ## Brackets -/

/-- Where a character of a document stands. -/
inductive Mode where
  | plain
  | quoted
  /-- Right after a backslash. -/
  | escaped
  deriving DecidableEq

/-- What comes after the bracket that closes the outermost one, of `depth` that are open. -/
def close : Nat → Mode → List Char → Option (List Char)
  | _, _, [] => none
  | depth, .escaped, _ :: t => close depth .quoted t
  | depth, .quoted, c :: t =>
    close depth (if c = '\\' then .escaped else if c = '"' then .plain else .quoted) t
  | depth, .plain, c :: t =>
    if c = '"' then close depth .quoted t
    else if c = '{' ∨ c = '[' then close (depth + 1) .plain t
    else if c = '}' ∨ c = ']' then if depth ≤ 1 then some t else close (depth - 1) .plain t
    else close depth .plain t

/-- A JSON document is not empty, and an object is over with the bracket that closes it, but for
white space. -/
def Document : List Char → Prop
  | [] => False
  | '{' :: t => ∃ rest, close 0 .plain ('{' :: t) = some rest ∧
      ∀ c ∈ rest, c ∈ [' ', '\t', '\n', '\r']
  | _ => True

variable {depth : Nat} {mode : Mode} {s t p rest : List Char} {c : Char}

/-- The bracket that closes a text also closes what the text begins. -/
theorem close_append (h : close depth mode t = some rest) (q : List Char) :
    close depth mode (t ++ q) = some (rest ++ q) := by
  induction t generalizing depth mode with
  | nil => cases h
  | cons c t ih =>
    rw [List.cons_append]
    cases mode with
    | escaped =>
      unfold close at h ⊢
      exact ih h
    | quoted =>
      unfold close at h ⊢
      exact ih h
    | plain =>
      unfold close at h ⊢
      split at h
      · rw [if_pos ‹_›]
        exact ih h
      · rw [if_neg ‹_›]
        split at h
        · rw [if_pos ‹_›]
          exact ih h
        · rw [if_neg ‹_›]
          split at h
          · rw [if_pos ‹_›]
            split at h
            · rw [if_pos ‹_›]
              cases h
              rfl
            · rw [if_neg ‹_›]
              exact ih h
          · rw [if_neg ‹_›]
            exact ih h

/-- An object that was cut off is no document. -/
theorem eq_of_isPrefix (hclose : close 0 .plain ('{' :: t) = some []) (hp : p <+: '{' :: t)
    (hdocument : Document p) : p = '{' :: t := by
  obtain ⟨q, hq⟩ := hp
  cases p with
  | nil => cases hdocument
  | cons c p =>
    obtain ⟨rfl, -⟩ := List.cons_eq_cons.mp (List.cons_append ▸ hq)
    obtain ⟨rest, hrest, -⟩ := hdocument
    have hwhole := close_append hrest q
    rw [hq, hclose, Option.some_inj, eq_comm, List.append_eq_nil_iff] at hwhole
    rw [← hq, hwhole.2, List.append_nil]

/-! ## What is written -/

/-- `\u{0:04x}` -/
def unicode (n : Nat) : List Char :=
  '\\' :: 'u' :: [n / 4096 % 16, n / 256 % 16, n / 16 % 16, n % 16].map Nat.digitChar

/-- A character of a string, with `ensure_ascii`. -/
def escape (c : Char) : List Char :=
  if c = '"' then ['\\', '"']
  else if c = '\\' then ['\\', '\\']
  else if c = '\n' then ['\\', 'n']
  else if c = '\r' then ['\\', 'r']
  else if c = '\t' then ['\\', 't']
  else if c = '\x08' then ['\\', 'b']
  else if c = '\x0c' then ['\\', 'f']
  else if ' ' ≤ c ∧ c ≤ '~' then [c]
  else if c.toNat < 0x10000 then unicode c.toNat
  else
    unicode (0xD800 + (c.toNat - 0x10000) / 0x400) ++ unicode (0xDC00 + (c.toNat - 0x10000) % 0x400)

def quote (t : List Char) : List Char := '"' :: (t.flatMap escape ++ ['"'])

inductive Scalar where
  | number (n : Nat)
  | string (t : List Char)

def Scalar.text : Scalar → List Char
  | .number n => Nat.toDigits 10 n
  | .string t => quote t

/-- The members of an object. -/
def members : List (List Char × Scalar) → List Char
  | [] => []
  | [(key, value)] => quote key ++ ": ".toList ++ value.text
  | (key, value) :: rest => quote key ++ ": ".toList ++ value.text ++ ", ".toList ++ members rest

/-- `json.dumps` of an object. -/
def object (entries : List (List Char × Scalar)) : List Char := '{' :: (members entries ++ ['}'])

/-! ## It closes -/

/-- No bracket closes, or stays open, in `s`. -/
def Passes (s : List Char) : Prop :=
  ∀ depth t, close depth .plain (s ++ t) = close depth .plain t

theorem passes_nil : Passes [] := fun _ _ => rfl

theorem Passes.append (hs : Passes s) (ht : Passes t) : Passes (s ++ t) := by
  intro depth u
  rw [List.append_assoc, hs, ht]

theorem passes_cons (hc : c ∉ ['"', '{', '[', '}', ']']) (hs : Passes s) : Passes (c :: s) := by
  intro depth t
  simp only [List.mem_cons, List.not_mem_nil, or_false, not_or] at hc
  obtain ⟨hquote, hbrace, hbracket, hbrace', hbracket'⟩ := hc
  rw [List.cons_append, close]
  rw [if_neg hquote, if_neg (not_or.mpr ⟨hbrace, hbracket⟩),
    if_neg (not_or.mpr ⟨hbrace', hbracket'⟩)]
  exact hs depth t

theorem passes_of_forall (h : ∀ c ∈ s, c ∉ ['"', '{', '[', '}', ']']) : Passes s := by
  induction s with
  | nil => exact passes_nil
  | cons c s ih =>
    exact passes_cons (h c List.mem_cons_self) (ih fun d hd => h d (List.mem_cons_of_mem _ hd))

theorem close_quoted (hquote : c ≠ '"') (hslash : c ≠ '\\') :
    close depth .quoted (c :: t) = close depth .quoted t := by
  rw [close, if_neg hslash, if_neg hquote]

theorem close_escaped : close depth .quoted ('\\' :: c :: t) = close depth .quoted t := rfl

theorem digitChar_ne : ∀ n < 16, Nat.digitChar n ≠ '"' ∧ Nat.digitChar n ≠ '\\' := by decide

theorem close_unicode (n : Nat) :
    close depth .quoted (unicode n ++ t) = close depth .quoted t := by
  have hdigit (m : Nat) {u : List Char} :
      close depth .quoted (Nat.digitChar (m % 16) :: u) = close depth .quoted u :=
    close_quoted (digitChar_ne _ (Nat.mod_lt _ (by decide))).1
      (digitChar_ne _ (Nat.mod_lt _ (by decide))).2
  unfold unicode
  simp only [List.map_cons, List.map_nil, List.cons_append, List.nil_append, close_escaped, hdigit]

theorem close_escape (c : Char) :
    close depth .quoted (escape c ++ t) = close depth .quoted t := by
  unfold escape
  split
  · exact close_escaped
  split
  · exact close_escaped
  split
  · exact close_escaped
  split
  · exact close_escaped
  split
  · exact close_escaped
  split
  · exact close_escaped
  split
  · exact close_escaped
  split
  · exact close_quoted ‹_› ‹_›
  split
  · exact close_unicode _
  · rw [List.append_assoc, close_unicode, close_unicode]

theorem passes_quote (t : List Char) : Passes (quote t) := by
  intro depth u
  have hescaped : close depth .quoted (t.flatMap escape ++ '"' :: u) =
      close depth .quoted ('"' :: u) := by
    induction t with
    | nil => rfl
    | cons c t ih => rw [List.flatMap_cons, List.append_assoc, close_escape, ih]
  have hopen : quote t ++ u = '"' :: (t.flatMap escape ++ '"' :: u) := by
    simp [quote]
  have hquoted : close depth .plain (quote t ++ u) =
      close depth .quoted (t.flatMap escape ++ '"' :: u) := by
    rw [hopen]
    rfl
  rw [hquoted, hescaped]
  rfl

theorem digit_of_mem_toDigits {n : Nat} (h : c ∈ Nat.toDigits 10 n) :
    48 ≤ c.toNat ∧ c.toNat < 58 := by
  have hdigit := Nat.isDigit_of_mem_toDigits (by decide) (by decide) h
  simp only [Char.isDigit, Bool.and_eq_true, decide_eq_true_eq] at hdigit
  exact ⟨UInt32.le_iff_toNat_le.mp hdigit.1,
    Nat.lt_succ_of_le (UInt32.le_iff_toNat_le.mp hdigit.2)⟩

theorem passes_text (value : Scalar) : Passes value.text := by
  cases value with
  | number n =>
    refine passes_of_forall fun c hc hmem => ?_
    have hrange := digit_of_mem_toDigits hc
    have hout : ∀ d ∈ ['"', '{', '[', '}', ']'], ¬ (48 ≤ d.toNat ∧ d.toNat < 58) :=
      List.all_iff_forall_prop.mp (by decide)
    exact hout c hmem hrange
  | string t => exact passes_quote t

theorem passes_members (entries : List (List Char × Scalar)) : Passes (members entries) := by
  have hcolon : Passes ": ".toList := passes_of_forall (List.all_iff_forall_prop.mp (by decide))
  have hcomma : Passes ", ".toList := passes_of_forall (List.all_iff_forall_prop.mp (by decide))
  induction entries with
  | nil => exact passes_nil
  | cons entry rest ih =>
    have hentry := ((passes_quote entry.1).append hcolon).append (passes_text entry.2)
    cases rest with
    | nil => exact hentry
    | cons next rest => exact (hentry.append hcomma).append ih

theorem close_object (entries : List (List Char × Scalar)) :
    close 0 .plain (object entries) = some [] := by
  have hbody := passes_members entries 1 ['}']
  exact hbody

theorem document_object (entries : List (List Char × Scalar)) : Document (object entries) :=
  ⟨[], close_object entries, nofun⟩

/-! ## It is ASCII -/

/-- `' '` to `'~'` -/
def Printable (c : Char) : Prop := 32 ≤ c.toNat ∧ c.toNat ≤ 126

instance : DecidablePred Printable := fun c => inferInstanceAs (Decidable (32 ≤ c.toNat ∧ c.toNat ≤ 126))

theorem printable_digitChar : ∀ n < 16, Printable (Nat.digitChar n) := by decide

theorem printable_unicode (n : Nat) (hc : c ∈ unicode n) : Printable c := by
  rcases List.mem_cons.mp hc with rfl | hc
  · decide
  rcases List.mem_cons.mp hc with rfl | hc
  · decide
  obtain ⟨m, hm, rfl⟩ := List.mem_map.mp hc
  refine printable_digitChar m ?_
  simp only [List.mem_cons, List.not_mem_nil, or_false] at hm
  omega

theorem printable_escape {e : Char} (hc : c ∈ escape e) : Printable c := by
  have hall (l : List Char) (h : l.all fun d => Printable d) (hmem : c ∈ l) : Printable c :=
    List.all_iff_forall_prop.mp h c hmem
  unfold escape at hc
  split at hc
  · exact hall _ (by decide) hc
  split at hc
  · exact hall _ (by decide) hc
  split at hc
  · exact hall _ (by decide) hc
  split at hc
  · exact hall _ (by decide) hc
  split at hc
  · exact hall _ (by decide) hc
  split at hc
  · exact hall _ (by decide) hc
  split at hc
  · exact hall _ (by decide) hc
  split at hc
  · rename_i hrange
    obtain rfl := List.mem_singleton.mp hc
    exact hrange
  split at hc
  · exact printable_unicode _ hc
  · rcases List.mem_append.mp hc with hc | hc
    · exact printable_unicode _ hc
    · exact printable_unicode _ hc

theorem printable_quote (hc : c ∈ quote t) : Printable c := by
  simp only [quote, List.mem_cons, List.mem_append, List.mem_flatMap, List.not_mem_nil,
    or_false] at hc
  rcases hc with rfl | ⟨e, -, hc⟩ | rfl
  · decide
  · exact printable_escape hc
  · decide

theorem printable_text {value : Scalar} (hc : c ∈ value.text) : Printable c := by
  cases value with
  | number n =>
    have hrange := digit_of_mem_toDigits hc
    exact ⟨by omega, by omega⟩
  | string t => exact printable_quote hc

theorem printable_members {entries : List (List Char × Scalar)} (hc : c ∈ members entries) :
    Printable c := by
  have hcolon : ∀ d ∈ ": ".toList, Printable d := List.all_iff_forall_prop.mp (by decide)
  have hcomma : ∀ d ∈ ", ".toList, Printable d := List.all_iff_forall_prop.mp (by decide)
  induction entries with
  | nil => cases hc
  | cons entry rest ih =>
    have hentry (h : c ∈ quote entry.1 ++ ": ".toList ++ entry.2.text) : Printable c := by
      rw [List.mem_append, List.mem_append] at h
      rcases h with (h | h) | h
      · exact printable_quote h
      · exact hcolon c h
      · exact printable_text h
    cases rest with
    | nil => exact hentry hc
    | cons next rest =>
      unfold members at hc
      rw [List.mem_append, List.mem_append] at hc
      rcases hc with (hc | hc) | hc
      · exact hentry hc
      · exact hcomma c hc
      · exact ih hc

theorem printable_object {entries : List (List Char × Scalar)} (hc : c ∈ object entries) :
    Printable c := by
  unfold object at hc
  rw [List.mem_cons, List.mem_append, List.mem_singleton] at hc
  rcases hc with rfl | hc | rfl
  · decide
  · exact printable_members hc
  · decide

/-! ## Its bytes -/

theorem encode_printable (h : ∀ c ∈ t, Printable c) :
    Utf8.encode t = t.map fun c => UInt8.ofNat c.toNat := by
  induction t with
  | nil => rfl
  | cons c t ih =>
    have hc := h c List.mem_cons_self
    rw [Utf8.encode_cons, Utf8.encodeChar_ascii (Nat.lt_of_le_of_lt hc.2 (by decide)),
      ih fun d hd => h d (List.mem_cons_of_mem _ hd)]
    rfl

/-- What is left of an object that was cut off, but for the whole, no reader of JSON accepts. -/
theorem eq_of_torn {entries : List (List Char × Scalar)} {data : List UInt8}
    (hdata : data <+: Utf8.encode (object entries))
    (hdocument : ∀ p, (∀ c ∈ p, Printable c) → data = Utf8.encode p → Document p) :
    data = Utf8.encode (object entries) := by
  have hprintable : ∀ c ∈ object entries, Printable c := fun c => printable_object
  rw [encode_printable hprintable] at hdata
  obtain ⟨p, hp, rfl⟩ : ∃ p, p <+: object entries ∧
      data = p.map fun c => UInt8.ofNat c.toNat := by
    refine ⟨(object entries).take data.length, List.take_prefix _ _, ?_⟩
    rw [List.map_take]
    exact List.prefix_iff_eq_take.mp hdata
  have hpart : ∀ c ∈ p, Printable c := fun c hc => hprintable c (hp.subset hc)
  rw [encode_printable hprintable]
  rw [eq_of_isPrefix (close_object entries) hp
    (hdocument p hpart (encode_printable hpart).symm)]
  rfl

end JsonText
