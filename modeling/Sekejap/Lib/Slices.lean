import Mathlib.Data.List.DropRight
import Sekejap.Lib.Outcome
import Sekejap.Lib.Utf8

/-!
# Slices of texts

A text is cut at byte offsets, and a cut is good where a character ends.  A slice that is not aborts.

* **`cutAt_eq_some`** — a text cut at an offset is two texts, the first of so many bytes.
* **`byteAt_iff`** — an ASCII byte at an offset is a character there.
* **`eq_nil_of_trim`** — what ends a trimmed text is not blank.
-/

namespace Utf8

open String (utf8EncodeChar)

variable {c : Char} {s t u v : List Char} {i j : ℕ}

/-- The bytes of a text, counted. -/
def size (s : List Char) : ℕ := (utf8 s).length

@[simp] lemma size_nil : size [] = 0 := rfl

@[simp] lemma size_cons : size (c :: s) = c.utf8Size + size s := by
  simp [size]

@[simp] lemma size_append : size (s ++ t) = size s + size t := by
  simp [size]

lemma size_eq_zero : size s = 0 ↔ s = [] := by
  rw [size, List.length_eq_zero_iff, utf8_eq_nil]

/-- The text in two, the first part of so many bytes. -/
def cutAt : List Char → ℕ → Option (List Char × List Char)
  | s, 0 => some ([], s)
  | [], _ + 1 => none
  | c :: s, n + 1 => if c.utf8Size ≤ n + 1 then (cutAt s (n + 1 - c.utf8Size)).map fun p => (c :: p.1, p.2) else none

/-- **Where a text can be cut.** -/
lemma cutAt_eq_some : cutAt s i = some (u, v) ↔ s = u ++ v ∧ size u = i := by
  induction s, i using cutAt.induct generalizing u with
  | case1 s =>
      rw [cutAt, size_eq_zero]
      aesop
  | case2 n =>
      rw [cutAt]
      constructor
      · rintro ⟨⟩
      · rintro ⟨hnil, hsize⟩
        rw [(List.append_eq_nil_iff.1 hnil.symm).1] at hsize
        cases hsize
  | case3 n c s hle ih =>
      rw [cutAt, if_pos hle, Option.map_eq_some_iff]
      constructor
      · rintro ⟨⟨a, b⟩, hab, heq⟩
        cases heq
        obtain ⟨rfl, hsize⟩ := ih.1 hab
        refine ⟨rfl, ?_⟩
        rw [size_cons, hsize]
        omega
      · rintro ⟨happ, hsize⟩
        cases u with
        | nil => cases hsize
        | cons d a =>
            obtain ⟨rfl, rfl⟩ := List.cons.inj happ
            rw [size_cons] at hsize
            exact ⟨(a, v), ih.2 ⟨rfl, by omega⟩, rfl⟩
  | case4 n c s hnle =>
      rw [cutAt, if_neg hnle]
      constructor
      · rintro ⟨⟩
      · rintro ⟨happ, hsize⟩
        cases u with
        | nil => cases hsize
        | cons d a =>
            obtain ⟨rfl, -⟩ := List.cons.inj happ
            rw [size_cons] at hsize
            omega

lemma cutAt_append (h : size u = i) : cutAt (u ++ v) i = some (u, v) := cutAt_eq_some.2 ⟨rfl, h⟩

/-- Two beginnings of a text with as many bytes. -/
lemma append_inj_of_size {u' v' : List Char} (h : u ++ v = u' ++ v') (hsize : size u = size u') : u = u' ∧ v = v' := by
  have hcut := @cutAt_append u v _ rfl
  rw [h, cutAt_append hsize.symm] at hcut
  cases hcut
  exact ⟨rfl, rfl⟩

/-- `s.get(i..j)`. -/
def get (s : List Char) (i j : ℕ) : Option (List Char) := do
  let (front, _) ← cutAt s j
  let (_, middle) ← cutAt front i
  return middle

/-- `&s[i..j]`. -/
def slice {ε : Type} (s : List Char) (i j : ℕ) : Outcome ε (List Char) :=
  match get s i j with
  | some middle => .ok middle
  | none => .abort

/-- `&s[i..]`. -/
def sliceFrom {ε : Type} (s : List Char) (i : ℕ) : Outcome ε (List Char) :=
  match cutAt s i with
  | some (_, rest) => .ok rest
  | none => .abort

/-- `bytes[i]`. -/
def index {ε : Type} (bytes : List UInt8) (i : ℕ) : Outcome ε UInt8 :=
  match bytes[i]? with
  | some b => .ok b
  | none => .abort

lemma get_eq_some {middle : List Char} :
    get s i j = some middle ↔ ∃ u v, s = u ++ middle ++ v ∧ size u = i ∧ size (u ++ middle) = j := by
  rw [get]
  constructor
  · intro h
    obtain ⟨⟨front, v⟩, hfront, h⟩ := Option.bind_eq_some_iff.1 h
    obtain ⟨⟨u, middle'⟩, hmiddle, h⟩ := Option.bind_eq_some_iff.1 h
    cases h
    obtain ⟨rfl, hj⟩ := cutAt_eq_some.1 hfront
    obtain ⟨rfl, hi⟩ := cutAt_eq_some.1 hmiddle
    exact ⟨u, v, rfl, hi, hj⟩
  · rintro ⟨u, v, rfl, hi, hj⟩
    rw [cutAt_append hj]
    dsimp only [Option.bind_eq_bind, Option.bind_some]
    rw [cutAt_append hi]
    rfl

lemma get_append (hi : size u = i) (hj : i + size t = j) : get (u ++ (t ++ v)) i j = some t :=
  get_eq_some.2 ⟨u, v, (List.append_assoc _ _ _).symm, hi, by rw [size_append, hi, hj]⟩

lemma slice_append {ε : Type} (hi : size u = i) (hj : i + size t = j) :
    (slice (u ++ (t ++ v)) i j : Outcome ε (List Char)) = .ok t := by
  rw [slice, get_append hi hj]

lemma sliceFrom_append {ε : Type} (h : size u = i) : (sliceFrom (u ++ v) i : Outcome ε (List Char)) = .ok v := by
  rw [sliceFrom, cutAt_append h]

/-- There are so many bytes, but a character lies across the last. -/
def Torn (n : ℕ) (s : List Char) : Prop := n ≤ size s ∧ cutAt s n = none

/-- A text is too short to cut, or torn, or cut. -/
lemma cut_cases (n : ℕ) (s : List Char) : size s < n ∨ Torn n s ∨ ∃ u v, s = u ++ v ∧ size u = n := by
  by_cases hlt : size s < n
  · exact Or.inl hlt
  · right
    cases hcut : cutAt s n with
    | none => exact Or.inl ⟨not_lt.1 hlt, hcut⟩
    | some p => exact Or.inr ⟨p.1, p.2, cutAt_eq_some.1 hcut⟩

lemma get_torn {n : ℕ} (hi : size u = i) (h : Torn n v) : get (u ++ v) i (i + n) = none := by
  rw [Option.eq_none_iff_forall_ne_some]
  intro middle hmiddle
  obtain ⟨u', v', happ, hu', hj⟩ := get_eq_some.1 hmiddle
  rw [List.append_assoc] at happ
  obtain ⟨rfl, rfl⟩ := append_inj_of_size happ (hi.trans hu'.symm)
  rw [size_append, hu'] at hj
  have hcut := h.2
  rw [cutAt_append (by omega : size middle = n)] at hcut
  cases hcut

lemma slice_torn {ε : Type} {n : ℕ} (hi : size u = i) (h : Torn n v) :
    (slice (u ++ v) i (i + n) : Outcome ε (List Char)) = .abort := by
  rw [slice, get_torn hi h]

/-! ## Bytes of characters -/

/-- The byte of an ASCII character. -/
def byte (c : Char) : UInt8 := c.val.toUInt8

lemma toNat_byte (h : c.toNat < 128) : (byte c).toNat = c.toNat := by
  rw [byte, UInt32.toNat_toUInt8]
  exact Nat.mod_eq_of_lt (h.trans (by decide))

lemma ofNat_table : ∀ n < 128, (Char.ofNat n).toNat = n := by
  decide

/-- A byte below 128 is that of a character. -/
lemma exists_byte {b : UInt8} (h : b.toNat < 128) : ∃ c : Char, c.toNat = b.toNat ∧ byte c = b := by
  have hchar := ofNat_table b.toNat h
  refine ⟨Char.ofNat b.toNat, hchar, UInt8.toNat_inj.1 ?_⟩
  rw [toNat_byte (hchar.trans_lt h), hchar]

lemma encode_ascii (h : c.toNat < 128) : utf8EncodeChar c = [byte c] := by
  have hle : c.val.toNat ≤ 127 := Nat.le_of_lt_succ h
  rw [String.utf8EncodeChar, if_pos hle]
  rfl

lemma size_ascii (h : c.toNat < 128) : c.utf8Size = 1 := by
  rw [← String.length_utf8EncodeChar, encode_ascii h]
  rfl

/-- **An ASCII byte is a character.** -/
lemma byteAt_iff (hc : c.toNat < 128) : (utf8 s)[i]? = some (byte c) ↔ ∃ u v, s = u ++ c :: v ∧ size u = i := by
  constructor
  · intro h
    obtain ⟨hi, hbyte⟩ := List.getElem?_eq_some_iff.1 h
    obtain ⟨x, rest, hx, hfirst, -⟩ := encode_eq_cons c
    rw [encode_ascii hc] at hx
    cases hx
    have hsplit : (utf8 s).take i ++ byte c :: (utf8 s).drop (i + 1) = utf8 s := by
      rw [← hbyte, ← List.drop_eq_getElem_cons hi, List.take_append_drop]
    obtain ⟨u, v, rfl, hu, hv⟩ := exists_boundary hfirst hsplit
    have hv' : utf8 [c] ++ (utf8 (u ++ v)).drop (i + 1) = utf8 v := by
      rw [hv, utf8_cons, encode_ascii hc]
      rfl
    obtain ⟨v', rfl, -⟩ := utf8_prefix hv'
    refine ⟨u, v', rfl, ?_⟩
    rw [size, hu, List.length_take]
    omega
  · rintro ⟨u, v, rfl, rfl⟩
    rw [utf8_append, size, List.getElem?_append_right le_rfl, Nat.sub_self, utf8_cons, encode_ascii hc]
    rfl

/-- The byte at an offset within the text. -/
lemma exists_index {ε : Type} (h : i < size s) : ∃ b, (index (utf8 s) i : Outcome ε UInt8) = .ok b ∧
    ∀ c : Char, c.toNat < 128 → (b = byte c ↔ ∃ u v, s = u ++ c :: v ∧ size u = i) := by
  have hget : (utf8 s)[i]? = some ((utf8 s).get ⟨i, h⟩) := List.getElem?_eq_getElem h
  refine ⟨(utf8 s).get ⟨i, h⟩, by rw [index, hget], fun c hc => ?_⟩
  rw [← byteAt_iff hc, hget, Option.some_inj]

/-- The first byte of a text. -/
lemma exists_index_zero {ε : Type} (d : Char) (r : List Char) : ∃ b,
    (index (utf8 (d :: r)) 0 : Outcome ε UInt8) = .ok b ∧ ∀ c : Char, c.toNat < 128 → (b = byte c ↔ d = c) := by
  have hpos : 0 < size (d :: r) := by
    rw [size_cons]
    exact Nat.add_pos_left d.utf8Size_pos _
  obtain ⟨b, hb, hbyte⟩ := @exists_index _ _ ε hpos
  refine ⟨b, hb, fun c hc => ?_⟩
  rw [hbyte c hc]
  constructor
  · rintro ⟨u, v, happ, hu⟩
    obtain rfl := size_eq_zero.1 hu
    exact (List.cons.inj happ).1
  · rintro rfl
    exact ⟨[], r, rfl, rfl⟩

lemma head_iff (hc : c.toNat < 128) : (utf8 s).head? = some (byte c) ↔ ∃ r, s = c :: r := by
  rw [List.head?_eq_getElem?, byteAt_iff hc]
  constructor
  · rintro ⟨u, v, rfl, hu⟩
    obtain rfl := size_eq_zero.1 hu
    exact ⟨v, rfl⟩
  · rintro ⟨r, rfl⟩
    exact ⟨[], r, rfl, rfl⟩

/-- What a text starts with, told by its bytes. -/
lemma length_takeWhile {p : Char → Bool} {q : UInt8 → Bool} (hp : ∀ c, p c → c.toNat < 128)
    (hq : ∀ b, q b → b.toNat < 128) (hpq : ∀ c, c.toNat < 128 → q (byte c) = p c) (t : List Char) :
    ((utf8 t).takeWhile q).length = (t.takeWhile p).length := by
  induction t with
  | nil => rfl
  | cons c t ih =>
      by_cases hc : p c
      · have hascii := hp c hc
        rw [utf8_cons, encode_ascii hascii, List.cons_append, List.nil_append,
          List.takeWhile_cons_of_pos (by rw [hpq c hascii, hc]), List.takeWhile_cons_of_pos hc,
          List.length_cons, List.length_cons, ih]
      · rw [List.takeWhile_cons_of_neg hc]
        obtain ⟨x, bytes, hx, -, -⟩ := encode_eq_cons c
        rw [utf8_cons, hx, List.cons_append, List.takeWhile_cons_of_neg]
        · rfl
        · intro hbyte
          obtain ⟨d, hd, rfl⟩ := exists_byte (hq x hbyte)
          have hd128 : d.toNat < 128 := hd.trans_lt (hq _ hbyte)
          have hhead : (utf8 (c :: t)).head? = some (byte d) := by
            rw [utf8_cons, hx]
            rfl
          obtain ⟨r, hr⟩ := (head_iff hd128).1 hhead
          obtain ⟨rfl, -⟩ := List.cons.inj hr
          exact hc (by rw [← hpq c hd128, hbyte])

/-! ## Whitespace -/

/-- `char::is_whitespace`. -/
def isWhitespace (c : Char) : Bool :=
  decide ((9 ≤ c.toNat ∧ c.toNat ≤ 13) ∨ c.toNat = 32 ∨ c.toNat = 133 ∨ c.toNat = 160 ∨ c.toNat = 5760
    ∨ (8192 ≤ c.toNat ∧ c.toNat ≤ 8202) ∨ c.toNat = 8232 ∨ c.toNat = 8233 ∨ c.toNat = 8239 ∨ c.toNat = 8287
    ∨ c.toNat = 12288)

def trimStart (s : List Char) : List Char := s.dropWhile isWhitespace

def trim (s : List Char) : List Char := (trimStart s).rdropWhile isWhitespace

lemma trim_eq_nil_iff : trim s = [] ↔ ∀ c ∈ s, isWhitespace c := by
  rw [trim, List.rdropWhile_eq_nil_iff]
  constructor
  · intro h c hc
    rw [← List.takeWhile_append_dropWhile (p := isWhitespace) (l := s)] at hc
    obtain hfront | hback := List.mem_append.1 hc
    · exact List.mem_takeWhile_imp hfront
    · exact h c hback
  · intro h c hc
    exact h c ((List.dropWhile_suffix _).subset hc)

/-- **The end of a trimmed text** is not blank. -/
lemma eq_nil_of_trim (h : trim s = u ++ v) (hv : trim v = []) : v = [] := by
  by_contra hne
  have hlast : ¬ isWhitespace (v.getLast hne) := by
    have hs : trim s ≠ [] := by
      rw [h]
      exact List.append_ne_nil_of_right_ne_nil u hne
    have := List.rdropWhile_last_not isWhitespace (trimStart s) hs
    rw [trim] at h
    simp only [h, List.getLast_append_of_ne_nil _ hne] at this
    exact this
  exact hlast (trim_eq_nil_iff.1 hv _ (List.getLast_mem hne))

lemma trim_nil : trim [] = [] := rfl

/-- A text that neither starts nor ends with a blank. -/
lemma trim_eq_self {d : Char} (hc : ¬ isWhitespace c) (hd : ¬ isWhitespace d) :
    trim (c :: (s ++ [d])) = c :: (s ++ [d]) := by
  rw [trim, trimStart, List.dropWhile_cons_of_neg hc, ← List.cons_append, List.rdropWhile_concat_neg _ _ _ hd]

end Utf8
