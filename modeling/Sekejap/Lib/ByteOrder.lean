import Mathlib.Data.List.Lex
import Sekejap.Lib.Bytes

/-!
# The order of byte strings

Keys are compared as byte strings, and a key is made of parts written one after another.  For the order of
the whole to be that of the first part that differs, parts have to differ at a byte that both of them
have: `Before`.

* **`Before.append_lt`** — what follows does not matter then.
* **`before_bigEndian`** — numbers of one width, highest byte first.
* **`before_escaped`** — strings with their zero bytes escaped, ended by two.
* **`prefix_of_between`** — strings between a prefix and one of its extensions are extensions of it.
* **`parts_lt_iff`**, **`parts_prefix_iff`** — keys made of parts that differ so: their order is that of
  the lists of the parts, and one is a prefix of another when its parts are the other's first.
-/

namespace Bytes

instance : LinearOrder UInt8 where
  le_refl := UInt8.le_refl
  le_trans _ _ _ := UInt8.le_trans
  lt_iff_le_not_ge a b := by
    rw [UInt8.lt_iff_toNat_lt, UInt8.le_iff_toNat_le, UInt8.le_iff_toNat_le]
    omega
  le_antisymm _ _ := UInt8.le_antisymm
  le_total := UInt8.le_total
  toDecidableLE := inferInstance
  toDecidableLT := inferInstance
  toDecidableEq := inferInstance

/-- At the first byte where they differ both strings have one, and that of the first is less. -/
def Before (a b : Bytes) : Prop :=
  ∃ common x y u v, a = common ++ x :: u ∧ b = common ++ y :: v ∧ x < y

section Before

variable {a b c s t : Bytes}

lemma Before.append (h : Before a b) : Before (a ++ s) (b ++ t) := by
  obtain ⟨common, x, y, u, v, rfl, rfl, hlt⟩ := h
  exact ⟨common, x, y, u ++ s, v ++ t, by simp, by simp, hlt⟩

lemma Before.after (h : Before a b) : Before (c ++ a) (c ++ b) := by
  obtain ⟨common, x, y, u, v, rfl, rfl, hlt⟩ := h
  exact ⟨c ++ common, x, y, u, v, by simp, by simp, hlt⟩

lemma before_cons {x y : UInt8} (h : x < y) : Before (x :: a) (y :: b) := ⟨[], x, y, a, b, rfl, rfl, h⟩

lemma Before.lt (h : Before a b) : a < b := by
  obtain ⟨common, x, y, u, v, rfl, rfl, hlt⟩ := h
  induction common with
  | nil => exact List.Lex.rel hlt
  | cons z common ih => exact List.Lex.cons ih

/-- **What follows does not matter.** -/
lemma Before.append_lt (h : Before a b) : a ++ s < b ++ t := h.append.lt

end Before

/-! ## Prefixes -/

section Prefix

variable {p k m : Bytes}

lemma cons_le_cons_iff {x y : UInt8} : x :: p ≤ y :: k ↔ x < y ∨ x = y ∧ p ≤ k := by
  rw [← not_lt, List.cons_lt_cons_iff, not_or, not_and, not_lt]
  constructor
  · rintro ⟨hle, hrest⟩
    exact hle.lt_or_eq.imp_right fun heq => ⟨heq, not_lt.1 (hrest heq.symm)⟩
  · rintro (hlt | ⟨rfl, hle⟩)
    · exact ⟨hlt.le, fun heq => absurd hlt (heq ▸ lt_irrefl _)⟩
    · exact ⟨le_rfl, fun _ => not_lt.2 hle⟩

lemma le_of_isPrefix (h : p <+: k) : p ≤ k := by
  obtain ⟨r, rfl⟩ := h
  induction p with
  | nil => exact not_lt.1 (List.not_lt_nil _)
  | cons x p ih => exact cons_le_cons_iff.mpr (Or.inr ⟨rfl, ih⟩)

/-- **Strings between a prefix and one of its extensions** are extensions of it. -/
lemma prefix_of_between (hk : p ≤ k) (hm : k ≤ m) (h : p <+: m) : p <+: k := by
  induction p generalizing k m with
  | nil => exact List.nil_prefix
  | cons x p ih =>
      cases m with
      | nil => simp at h
      | cons z m =>
          obtain ⟨rfl, hpm⟩ := List.cons_prefix_cons.mp h
          cases k with
          | nil => exact absurd hk (List.nil_lt_cons x p).not_ge
          | cons y k =>
              rcases cons_le_cons_iff.mp hk with hxy | ⟨rfl, hpk⟩
              · rcases cons_le_cons_iff.mp hm with hyx | ⟨rfl, -⟩
                · exact absurd hyx hxy.not_gt
                · exact absurd hxy (lt_irrefl _)
              · rcases cons_le_cons_iff.mp hm with hlt | ⟨-, hkm⟩
                · exact absurd hlt (lt_irrefl _)
                · exact List.cons_prefix_cons.mpr ⟨rfl, ih hpk hkm hpm⟩

end Prefix

/-! ## Numbers -/

/-- The low `n` bytes of `x`, most significant byte first. -/
def bigEndian (n x : ℕ) : Bytes := (leBytes n x).reverse

/-- The number a byte string stores, most significant byte first. -/
def bigEndianNat (b : Bytes) : ℕ := leNat b.reverse

@[simp] lemma length_bigEndian (n x : ℕ) : (bigEndian n x).length = n := by
  simp [bigEndian]

lemma bigEndianNat_bigEndian {n x : ℕ} (h : x < 256 ^ n) : bigEndianNat (bigEndian n x) = x := by
  rw [bigEndianNat, bigEndian, List.reverse_reverse, leNat_leBytes_of_lt h]

lemma bigEndian_bigEndianNat {n : ℕ} {b : Bytes} (h : b.length = n) :
    bigEndian n (bigEndianNat b) = b := by
  rw [bigEndian, bigEndianNat, ← h, ← List.length_reverse, leBytes_leNat, List.reverse_reverse]

lemma bigEndianNat_lt (b : Bytes) : bigEndianNat b < 256 ^ b.length := by
  have := leNat_lt b.reverse
  rwa [List.length_reverse] at this

/-- **Numbers of one width are in order.** -/
lemma before_bigEndian {n x y : ℕ} (h : x < y) (hy : y < 256 ^ n) :
    Before (bigEndian n x) (bigEndian n y) := by
  induction n generalizing x y with
  | zero =>
      rw [pow_zero] at hy
      omega
  | succ n ih =>
      have hsplit : ∀ z, bigEndian (n + 1) z = bigEndian n (z / 256) ++ [UInt8.ofNat z] := by
        intro z
        simp [bigEndian, leBytes]
      rw [hsplit, hsplit]
      rcases (Nat.div_le_div_right (c := 256) h.le).eq_or_lt with heq | hlt
      · rw [heq]
        refine (before_cons ?_).after
        rw [UInt8.lt_iff_toNat_lt, UInt8.toNat_ofNat', UInt8.toNat_ofNat']
        omega
      · refine (ih hlt ?_).append
        rw [pow_succ] at hy
        exact Nat.div_lt_of_lt_mul (by omega)

/-! ## Escaped strings -/

/-- A zero byte is followed by 255. -/
def escape (b : Bytes) : Bytes := b.flatMap fun x => if x = 0 then [0, 255] else [x]

@[simp] lemma escape_nil : escape [] = [] := rfl

lemma escape_zero (b : Bytes) : escape (0 :: b) = 0 :: 255 :: escape b := rfl

lemma escape_cons {x : UInt8} (h : x ≠ 0) (b : Bytes) : escape (x :: b) = x :: escape b := by
  simp [escape, h]

/-- **Escaped strings that are ended by two zeros are in order.** -/
lemma before_escaped {a b : Bytes} (h : a < b) : Before (escape a ++ [0, 0]) (escape b ++ [0, 0]) := by
  induction a generalizing b with
  | nil =>
      cases b with
      | nil => exact absurd h (List.lt_irrefl _)
      | cons y b =>
          by_cases hy : y = 0
          · subst hy
            exact ⟨[0], 0, 255, [], escape b ++ [0, 0], rfl, rfl, by decide⟩
          · rw [escape_cons hy]
            refine before_cons ?_
            rw [UInt8.lt_iff_toNat_lt]
            have : y.toNat ≠ 0 := fun h0 => hy (UInt8.toNat_inj.1 h0)
            exact Nat.pos_of_ne_zero this
  | cons x a ih =>
      cases b with
      | nil => exact absurd h (List.not_lt_nil _)
      | cons y b =>
          rw [List.cons_lt_cons_iff] at h
          rcases h with hlt | ⟨rfl, hlt⟩
          · -- the first bytes differ, and a zero's is the lesser whatever follows it
            have hy : y ≠ 0 := by
              rintro rfl
              rw [UInt8.lt_iff_toNat_lt] at hlt
              exact absurd hlt (Nat.not_lt_zero _)
            rw [escape_cons hy]
            by_cases hx : x = 0
            · subst hx
              exact before_cons hlt
            · rw [escape_cons hx]
              exact before_cons hlt
          · by_cases hx : x = 0
            · subst hx
              rw [escape_zero, escape_zero]
              exact (ih hlt).after (c := [0, 255])
            · rw [escape_cons hx, escape_cons hx]
              exact (ih hlt).after (c := [x])

/-! ## Keys made of parts -/

section Parts

variable {α : Type*} [LinearOrder α] {e : α → Bytes} {P : α → Prop} {s t : List α} {a b : Bytes}

lemma Before.apart (h : Before a b) : ¬ a <+: b ∧ ¬ b <+: a := by
  obtain ⟨c, x, y, u, v, rfl, rfl, hlt⟩ := h
  constructor
  · rintro ⟨r, hr⟩
    rw [List.append_assoc] at hr
    obtain ⟨hxy, -⟩ := List.cons.inj (List.append_cancel_left hr)
    exact hlt.ne hxy
  · rintro ⟨r, hr⟩
    rw [List.append_assoc] at hr
    obtain ⟨hxy, -⟩ := List.cons.inj (List.append_cancel_left hr)
    exact hlt.ne' hxy

/-- A code of parts: what is less is written before, and nothing is written as nothing. -/
structure PartCode (e : α → Bytes) (P : α → Prop) : Prop where
  before : ∀ {x y}, P x → P y → x < y → Before (e x) (e y)
  ne_nil : ∀ x, e x ≠ []

variable (he : PartCode e P)

include he

/-- Parts that begin one another are the same. -/
lemma PartCode.eq_of_prefix {x y : α} (hx : P x) (hy : P y) (h : e x <+: e y ∨ e y <+: e x) : x = y := by
  rcases lt_trichotomy x y with hlt | rfl | hlt
  · have := (he.before hx hy hlt).apart
    tauto
  · rfl
  · have := (he.before hy hx hlt).apart
    tauto

/-- **A key is a prefix of another when its parts are the other's first.** -/
lemma PartCode.parts_prefix_iff (hs : ∀ x ∈ s, P x) (ht : ∀ x ∈ t, P x) :
    s.flatMap e <+: t.flatMap e ↔ s <+: t := by
  constructor
  · intro h
    induction s generalizing t with
    | nil => exact List.nil_prefix
    | cons x s ih =>
        cases t with
        | nil => simp [he.ne_nil] at h
        | cons y t =>
            rw [List.flatMap_cons, List.flatMap_cons] at h
            have hxy := List.prefix_or_prefix_of_prefix ((List.prefix_append _ _).trans h)
              (List.prefix_append (e y) _)
            obtain rfl := he.eq_of_prefix (hs x List.mem_cons_self) (ht y List.mem_cons_self) hxy
            rw [List.prefix_append_right_inj] at h
            rw [List.cons_prefix_cons]
            exact ⟨rfl, ih (fun z hz => hs z (List.mem_cons_of_mem x hz))
              (fun z hz => ht z (List.mem_cons_of_mem x hz)) h⟩
  · rintro ⟨r, rfl⟩
    rw [List.flatMap_append]
    exact List.prefix_append _ _

/-- Keys in the order of their parts. -/
lemma PartCode.parts_lt (hs : ∀ x ∈ s, P x) (ht : ∀ x ∈ t, P x) (h : s < t) :
    s.flatMap e < t.flatMap e := by
  induction s generalizing t with
  | nil =>
      cases t with
      | nil => exact absurd h (List.lt_irrefl _)
      | cons y t =>
          cases hy : e y with
          | nil => exact absurd hy (he.ne_nil y)
          | cons b r =>
              rw [List.flatMap_cons, hy]
              exact List.nil_lt_cons _ _
  | cons x s ih =>
      cases t with
      | nil => exact absurd h (List.not_lt_nil _)
      | cons y t =>
          rw [List.flatMap_cons, List.flatMap_cons]
          rcases List.cons_lt_cons_iff.mp h with hlt | ⟨rfl, hlt⟩
          · exact (he.before (hs x List.mem_cons_self) (ht y List.mem_cons_self) hlt).append_lt
          · exact List.append_left_lt (ih (fun z hz => hs z (List.mem_cons_of_mem x hz))
              (fun z hz => ht z (List.mem_cons_of_mem x hz)) hlt)

/-- **The order of keys is that of their parts.** -/
lemma PartCode.parts_lt_iff (hs : ∀ x ∈ s, P x) (ht : ∀ x ∈ t, P x) :
    s.flatMap e < t.flatMap e ↔ s < t := by
  constructor
  · intro h
    rcases lt_trichotomy s t with hlt | rfl | hlt
    · exact hlt
    · exact absurd h (lt_irrefl _)
    · exact absurd h (he.parts_lt ht hs hlt).not_gt
  · exact he.parts_lt hs ht

end Parts

end Bytes
