import Mathlib.Data.List.Infix
import Mathlib.Data.List.Basic

/-!
# Texts as bytes

`utf8` writes a text as its bytes.  The first byte of a character is told from the bytes that follow
(`encode_eq_cons`) and no character's bytes begin another's (`encode_append`), so that a search for one
text's bytes in another's finds just the places where the characters are: `utf8_prefix_iff`,
`utf8_suffix_iff`, `utf8_infix_iff`.
-/

namespace Utf8

open String (utf8EncodeChar)

variable {c d : Char} {s t : List Char} {b r : List UInt8}

/-- The bytes of a text. -/
def utf8 (s : List Char) : List UInt8 := s.flatMap utf8EncodeChar

@[simp] lemma utf8_nil : utf8 [] = [] := rfl

@[simp] lemma utf8_cons : utf8 (c :: s) = utf8EncodeChar c ++ utf8 s := by
  simp [utf8]

@[simp] lemma utf8_append : utf8 (s ++ t) = utf8 s ++ utf8 t := by
  simp [utf8]

/-! ## One character -/

lemma encode_append (h : utf8EncodeChar c ++ b = utf8EncodeChar d ++ r) : c = d ∧ b = r := by
  have hc := @ByteArray.utf8DecodeChar?_utf8EncodeChar_append b.toByteArray c
  rw [← List.toByteArray_append, h, List.toByteArray_append,
    ByteArray.utf8DecodeChar?_utf8EncodeChar_append] at hc
  obtain rfl : d = c := by simpa using hc
  exact ⟨rfl, List.append_cancel_left h⟩

/-- The first byte and the bytes that follow it. -/
lemma encode_eq_cons (c : Char) : ∃ x rest, utf8EncodeChar c = x :: rest ∧ x.IsUTF8FirstByte ∧
    ∀ y ∈ rest, ¬ y.IsUTF8FirstByte := by
  cases h : utf8EncodeChar c with
  | nil => exact absurd h String.utf8EncodeChar_ne_nil
  | cons x rest =>
      have hat : ∀ i (hi : i < (x :: rest).length), ((x :: rest)[i]).IsUTF8FirstByte ↔ i = 0 := by
        rw [← h]
        intro i hi
        exact UInt8.isUTF8FirstByte_getElem_utf8EncodeChar
      refine ⟨x, rest, rfl, (hat 0 (by simp)).mpr rfl, fun y hy => ?_⟩
      obtain ⟨i, hi, rfl⟩ := List.getElem_of_mem hy
      have := hat (i + 1) (by simpa using hi)
      simpa using this

/-- **A character begins where another ends.**  Bytes that begin with a first byte start at a
character of the text. -/
lemma exists_boundary {x : UInt8} (hx : x.IsUTF8FirstByte) :
    ∀ {s : List Char} {a : List UInt8}, a ++ x :: r = utf8 s →
      ∃ u v, s = u ++ v ∧ utf8 u = a ∧ utf8 v = x :: r
  | [], a, h => by simp at h
  | c :: s, [], h => ⟨[], c :: s, rfl, rfl, h.symm⟩
  | c :: s, y :: a, h => by
      obtain ⟨x', rest, hc, -, hrest⟩ := encode_eq_cons c
      rw [utf8_cons, hc, List.cons_append, List.cons_append, List.cons.injEq] at h
      obtain ⟨rfl, h⟩ := h
      -- the rest of `c` ends before `x`, which is a first byte
      rcases List.append_eq_append_iff.mp h with ⟨e, hrest', he⟩ | ⟨e, ha, he⟩
      · cases e with
        | nil =>
            obtain ⟨u, v, rfl, hu, hv⟩ := exists_boundary (s := s) (a := []) hx (by simpa using he)
            obtain rfl : a = rest := by simpa using hrest'.symm
            exact ⟨c :: u, v, rfl, by simp [hu, hc], hv⟩
        | cons z e =>
            obtain ⟨rfl, -⟩ : x = z ∧ r = e ++ utf8 s := by simpa using he
            exact absurd hx (hrest x (by simp [hrest']))
      · obtain ⟨u, v, rfl, hu, hv⟩ := exists_boundary (s := s) (a := e) hx he.symm
        exact ⟨c :: u, v, rfl, by simp [hu, hc, ha], hv⟩

/-! ## Texts -/

lemma utf8_prefix (h : utf8 s ++ b = utf8 t) : ∃ v, t = s ++ v ∧ utf8 v = b := by
  induction s generalizing t with
  | nil => exact ⟨t, rfl, h.symm⟩
  | cons c s ih =>
      cases t with
      | nil => simp [String.utf8EncodeChar_ne_nil] at h
      | cons d t =>
          rw [utf8_cons, utf8_cons, List.append_assoc] at h
          obtain ⟨rfl, h'⟩ := encode_append h
          obtain ⟨v, rfl, hv⟩ := ih h'
          exact ⟨v, rfl, hv⟩

lemma utf8_eq_nil : utf8 s = [] ↔ s = [] := by
  cases s with
  | nil => simp
  | cons c s => simp [String.utf8EncodeChar_ne_nil]

lemma utf8_injective : Function.Injective utf8 := by
  intro s t h
  obtain ⟨v, rfl, hv⟩ := utf8_prefix (s := s) (t := t) (b := []) (by simpa using h)
  rw [utf8_eq_nil.mp hv, List.append_nil]

lemma utf8_prefix_iff : utf8 s <+: utf8 t ↔ s <+: t := by
  constructor
  · rintro ⟨b, h⟩
    obtain ⟨v, rfl, -⟩ := utf8_prefix h
    exact s.prefix_append v
  · rintro ⟨v, rfl⟩
    exact ⟨utf8 v, utf8_append.symm⟩

lemma utf8_infix_iff : utf8 s <:+: utf8 t ↔ s <:+: t := by
  constructor
  · rintro ⟨a, b, h⟩
    cases s with
    | nil => exact List.nil_infix
    | cons c s =>
        obtain ⟨x, rest, hc, hx, -⟩ := encode_eq_cons c
        have h' : a ++ x :: (rest ++ utf8 s ++ b) = utf8 t := by simpa [hc] using h
        obtain ⟨u, v, rfl, -, hv⟩ := exists_boundary hx h'
        have hv' : utf8 (c :: s) ++ b = utf8 v := by simp [hv, hc]
        obtain ⟨w, rfl, -⟩ := utf8_prefix hv'
        exact ⟨u, w, by simp⟩
  · exact fun h => h.flatMap utf8EncodeChar

lemma utf8_suffix_iff : utf8 s <:+ utf8 t ↔ s <:+ t := by
  constructor
  · rintro ⟨a, h⟩
    cases s with
    | nil => exact List.nil_suffix
    | cons c s =>
        obtain ⟨x, rest, hc, hx, -⟩ := encode_eq_cons c
        have h' : a ++ x :: (rest ++ utf8 s) = utf8 t := by simpa [hc] using h
        obtain ⟨u, v, rfl, -, hv⟩ := exists_boundary hx h'
        have hv' : utf8 v = utf8 (c :: s) := by simp [hv, hc]
        rw [utf8_injective hv']
        exact List.suffix_append u _
  · rintro ⟨u, rfl⟩
    exact ⟨utf8 u, utf8_append.symm⟩

end Utf8
