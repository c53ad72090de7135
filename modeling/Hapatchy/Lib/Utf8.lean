import Hapatchy.Lib.Newlines

/-!
# UTF-8 text as a list of bytes

`encode` and `decode` over lists, and how ASCII symbols sit in an encoded text.
-/

namespace Utf8

def encode (t : List Char) : List UInt8 := t.flatMap String.utf8EncodeChar

/-- The characters of `b`, or `none` where `b` is not UTF-8. -/
def decode (b : List UInt8) : Option (List Char) :=
  (ByteArray.utf8Decode? b.toByteArray).map Array.toList

@[simp] theorem encode_nil : encode [] = [] := rfl

theorem encode_cons (c : Char) (t : List Char) :
    encode (c :: t) = String.utf8EncodeChar c ++ encode t := rfl

theorem encode_append (s t : List Char) : encode (s ++ t) = encode s ++ encode t := by
  simp [encode]

theorem toByteArray_encode (t : List Char) : (encode t).toByteArray = t.utf8Encode := rfl

@[simp] theorem decode_encode (t : List Char) : decode (encode t) = some t := by
  simp [decode, toByteArray_encode]

theorem encode_of_decode {b : List UInt8} {t : List Char} (h : decode b = some t) :
    encode t = b := by
  simp only [decode, Option.map_eq_some_iff] at h
  obtain ⟨cs, hcs, rfl⟩ := h
  have hsome : (ByteArray.utf8Decode? b.toByteArray).isSome := by simp [hcs]
  have hget := ByteArray.utf8Encode_get_utf8Decode? (h := hsome)
  simp only [hcs, Option.get_some] at hget
  rw [← toByteArray_encode] at hget
  simpa using congrArg (fun a => a.data.toList) hget

theorem encode_injective : Function.Injective encode := by
  intro s t h
  have := congrArg decode h
  simpa using this

theorem decode_eq_some_iff {b : List UInt8} {t : List Char} : decode b = some t ↔ b = encode t :=
  ⟨fun h => (encode_of_decode h).symm, fun h => h ▸ decode_encode t⟩

theorem length_le_encode (t : List Char) : t.length ≤ (encode t).length := by
  induction t with
  | nil => exact Nat.le_refl 0
  | cons c t ih =>
    have hchar := List.length_pos_iff.mpr (String.utf8EncodeChar_ne_nil (c := c))
    rw [encode_cons, List.length_append, List.length_cons]
    omega

theorem length_encode_le (t : List Char) : (encode t).length ≤ 4 * t.length := by
  induction t with
  | nil => simp
  | cons c t ih =>
    have := c.utf8Size_le_four
    rw [encode_cons, List.length_append, String.length_utf8EncodeChar, List.length_cons]
    omega

/-! ## Valid bytes -/

/-- `b` is UTF-8. -/
def Valid (b : List UInt8) : Prop := ∃ t, encode t = b

theorem valid_iff_decode {b : List UInt8} : Valid b ↔ (decode b).isSome := by
  rw [Option.isSome_iff_exists]
  exact exists_congr fun t => by rw [decode_eq_some_iff, eq_comm]

theorem valid_nil : Valid [] := ⟨[], rfl⟩

theorem valid_encode (t : List Char) : Valid (encode t) := ⟨t, rfl⟩

theorem Valid.append {b b' : List UInt8} (h : Valid b) (h' : Valid b') : Valid (b ++ b') := by
  obtain ⟨t, rfl⟩ := h
  obtain ⟨t', rfl⟩ := h'
  exact ⟨t ++ t', encode_append t t'⟩

/-! ## ASCII -/

theorem encodeChar_ascii {c : Char} (h : c.toNat < 128) :
    String.utf8EncodeChar c = [UInt8.ofNat c.toNat] := by
  rw [String.utf8EncodeChar]
  exact if_pos (show c.toNat ≤ 127 by omega)

/-- Below 128, a byte stands for itself. -/
theorem ascii_of_mem_encodeChar {c : Char} {b : UInt8} (hb : b ∈ String.utf8EncodeChar c)
    (h : b.toNat < 128) : c.toNat = b.toNat := by
  rcases Nat.lt_or_ge c.toNat 128 with hc | hc
  · rw [encodeChar_ascii hc, List.mem_singleton] at hb
    subst hb
    simp only [UInt8.toNat_ofNat']
    omega
  · -- Every byte of a longer sequence has its top bit set.
    exfalso
    have hv : ¬ c.val.toNat ≤ 0x7f := by change ¬ c.toNat ≤ 127; omega
    rw [String.utf8EncodeChar, if_neg hv] at hb
    split at hb
    · simp only [List.mem_cons, List.not_mem_nil, or_false] at hb
      rcases hb with rfl | rfl <;> (simp only [UInt8.toNat_ofNat'] at h; omega)
    · split at hb <;> simp only [List.mem_cons, List.not_mem_nil, or_false] at hb
      · rcases hb with rfl | rfl | rfl <;> (simp only [UInt8.toNat_ofNat'] at h; omega)
      · rcases hb with rfl | rfl | rfl | rfl <;> (simp only [UInt8.toNat_ofNat'] at h; omega)

section Ascii

variable {c d : Char} (hc : c.toNat < 128) (hd : d.toNat < 128)

include hc

theorem ofNat_toNat_lt : (UInt8.ofNat c.toNat).toNat = c.toNat := by
  simp only [UInt8.toNat_ofNat']
  omega

theorem char_eq_of_mem_encodeChar {e : Char}
    (h : UInt8.ofNat c.toNat ∈ String.utf8EncodeChar e) : e = c := by
  have := ascii_of_mem_encodeChar h (by rw [ofNat_toNat_lt hc]; exact hc)
  rw [ofNat_toNat_lt hc] at this
  exact Char.toNat_inj.mp this

theorem mem_encode_iff {t : List Char} : UInt8.ofNat c.toNat ∈ encode t ↔ c ∈ t := by
  rw [encode, List.mem_flatMap]
  constructor
  · rintro ⟨e, he, hmem⟩
    exact char_eq_of_mem_encodeChar hc hmem ▸ he
  · intro h
    exact ⟨c, h, by simp [encodeChar_ascii hc]⟩

/-- An ASCII first byte is the first character. -/
theorem head?_encode_iff {t : List Char} :
    (encode t).head? = some (UInt8.ofNat c.toNat) ↔ t.head? = some c := by
  cases t with
  | nil => simp
  | cons e t =>
    rw [encode_cons, List.head?_append_of_ne_nil _ String.utf8EncodeChar_ne_nil, List.head?_cons,
      Option.some.injEq]
    constructor
    · intro h
      exact char_eq_of_mem_encodeChar hc (List.mem_of_mem_head? h)
    · rintro rfl
      rw [encodeChar_ascii hc, List.head?_cons]

/-- An ASCII byte stands between two characters. -/
theorem encode_eq_append_cons {t : List Char} {x y : List UInt8}
    (h : encode t = x ++ UInt8.ofNat c.toNat :: y) :
    ∃ t₁ t₂, t = t₁ ++ c :: t₂ ∧ encode t₁ = x ∧ encode t₂ = y := by
  induction t generalizing x with
  | nil => simp at h
  | cons e t ih =>
    by_cases hec : e = c
    · subst hec
      rw [encode_cons, encodeChar_ascii hc, List.singleton_append] at h
      cases x with
      | nil => exact ⟨[], t, rfl, rfl, by simpa using h⟩
      | cons b x =>
        obtain ⟨rfl, hrest⟩ := List.cons.inj h
        obtain ⟨t₁, t₂, rfl, rfl, rfl⟩ := ih hrest
        exact ⟨e :: t₁, t₂, rfl, by rw [encode_cons, encodeChar_ascii hc]; rfl, rfl⟩
    · -- The bytes of another character hold no such byte.
      rw [encode_cons] at h
      rcases List.append_eq_append_iff.mp h with ⟨x', rfl, hx⟩ | ⟨x', he, hx⟩
      · obtain ⟨t₁, t₂, rfl, rfl, rfl⟩ := ih hx
        exact ⟨e :: t₁, t₂, rfl, rfl, rfl⟩
      · cases x' with
        | nil =>
          obtain ⟨t₁, t₂, rfl, ht₁, rfl⟩ := ih (x := []) hx.symm
          exact ⟨e :: t₁, t₂, rfl, by simp [encode_cons, ht₁, he], rfl⟩
        | cons b x' =>
          obtain ⟨rfl, -⟩ := List.cons.inj hx
          exact absurd (char_eq_of_mem_encodeChar hc (he ▸ by simp)) hec

include hd

/-- Replacing a pair of ASCII characters can be done on the bytes. -/
theorem encode_replacePair (new t : List Char) :
    encode (Newlines.replacePair c d new t) =
      Newlines.replacePair (UInt8.ofNat c.toNat) (UInt8.ofNat d.toNat) (encode new) (encode t) := by
  induction t using Newlines.pair_induction c d with
  | nil => rfl
  | pair rest ih =>
    rw [Newlines.replacePair_pair, encode_append, ih, encode_cons, encode_cons,
      encodeChar_ascii hc, encodeChar_ascii hd]
    exact (Newlines.replacePair_pair _).symm
  | cons e rest he ih =>
    rw [Newlines.replacePair_cons he, encode_cons, encode_cons, ih]
    by_cases hec : e = c
    · subst hec
      rw [encodeChar_ascii hc, List.singleton_append, List.singleton_append,
        Newlines.replacePair_cons]
      intro _
      rw [Ne, head?_encode_iff hd]
      exact he rfl
    · rw [Newlines.replacePair_append_of_not_mem]
      exact fun hmem => hec (char_eq_of_mem_encodeChar hc hmem)

theorem pair_infix_encode_iff {t : List Char} :
    [UInt8.ofNat c.toNat, UInt8.ofNat d.toNat] <:+: encode t ↔ [c, d] <:+: t := by
  rw [Newlines.infix_iff_replacePair_ne, Newlines.infix_iff_replacePair_ne, ← encode_nil,
    ← encode_replacePair hc hd]
  exact encode_injective.ne_iff

theorem encode_toCrlf (t : List Char) :
    encode (Newlines.toCrlf c d t) =
      Newlines.toCrlf (UInt8.ofNat c.toNat) (UInt8.ofNat d.toNat) (encode t) := by
  induction t with
  | nil => rfl
  | cons e t ih =>
    rw [Newlines.toCrlf_cons, encode_append, ih, encode_cons, Newlines.toCrlf_append]
    congr 1
    by_cases hed : e = d
    · subst hed
      rw [if_pos rfl, encodeChar_ascii hd, encode_cons, encode_cons, encodeChar_ascii hc,
        encodeChar_ascii hd]
      simp [Newlines.toCrlf]
    · rw [if_neg hed, Newlines.toCrlf_of_not_mem]
      · simp [encode]
      · exact fun hmem => hed (char_eq_of_mem_encodeChar hd hmem)

end Ascii

end Utf8
