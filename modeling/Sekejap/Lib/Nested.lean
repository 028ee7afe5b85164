import Mathlib.Order.Lex
import Mathlib.Data.Prod.Lex
import Mathlib.Data.List.Basic

/-!
# The order of nested values

Values that hold lists of values are compared item by item, a prefix first.  Any such value is a key: labels,
each with a key below it and a key after it.  A comparison that is the comparison of keys has all the laws.

* **`Key.cmp`** — the order of keys, with its laws as instances.
* **`cmp_row`** — lists are compared as the rows of their keys are.
-/

namespace Nested

open Std

/-- A key: nothing, or a label with what lies below it and what comes after it. -/
inductive Key (α : Type*) where
  | nil
  | node (label : α) (below after : Key α)

namespace Key

variable {α : Type*}

def leaf (label : α) : Key α := .node label .nil .nil

/-- Keys one after the other, under one label. -/
def row (label : α) : List (Key α) → Key α
  | [] => nil
  | k :: ks => node label k (row label ks)

lemma row_inj {label : α} {ks ks' : List (Key α)} (h : row label ks = row label ks') : ks = ks' := by
  induction ks generalizing ks' with
  | nil =>
      cases ks' with
      | nil => rfl
      | cons k' ks' => cases h
  | cons k ks ih =>
      cases ks' with
      | nil => cases h
      | cons k' ks' =>
          simp only [row, node.injEq, true_and] at h
          rw [h.1, ih h.2]

variable [Ord α]

/-- The first label that differs decides; what lies below a label comes before what is after it. -/
def cmp : Key α → Key α → Ordering
  | nil, nil => .eq
  | nil, node .. => .lt
  | node .., nil => .gt
  | node a x u, node b y v => (compare a b).then ((cmp x y).then (cmp u v))

instance [OrientedOrd α] : OrientedCmp (cmp : Key α → Key α → Ordering) where
  eq_swap := by
    intro k l
    induction k generalizing l with
    | nil => cases l <;> rfl
    | node a x u hx hu =>
        cases l with
        | nil => rfl
        | node b y v =>
            rw [cmp, cmp, Ordering.swap_then, Ordering.swap_then, ← hx, ← hu, ← OrientedOrd.eq_swap]

instance [LawfulEqOrd α] : LawfulEqCmp (cmp : Key α → Key α → Ordering) where
  compare_self := by
    intro k
    induction k with
    | nil => rfl
    | node a x u hx hu => rw [cmp, hx, hu, ReflOrd.compare_self]; rfl
  eq_of_compare := by
    intro k l
    induction k generalizing l with
    | nil =>
        cases l with
        | nil => exact fun _ => rfl
        | node b y v =>
            intro h
            cases h
    | node a x u hx hu =>
        cases l with
        | nil =>
            intro h
            cases h
        | node b y v =>
            intro h
            rw [cmp, Ordering.then_eq_eq, Ordering.then_eq_eq] at h
            rw [LawfulEqOrd.eq_of_compare h.1, hx h.2.1, hu h.2.2]

lemma le_cases {o p : Ordering} (h : (o.then p).isLE) : o = .lt ∨ o = .eq ∧ p.isLE := by
  cases o with
  | lt => exact Or.inl rfl
  | eq => exact Or.inr ⟨rfl, h⟩
  | gt => cases h

/-- Two comparisons one after the other are transitive where each is. -/
lemma then_isLE_trans {β : Type*} {c : β → β → Ordering} [OrientedCmp c] [LawfulEqCmp c] {x y z : β}
    {o p q : Ordering} (htrans : (c x y).isLE → (c y z).isLE → (c x z).isLE)
    (hopq : o.isLE → p.isLE → q.isLE) (hxy : ((c x y).then o).isLE) (hyz : ((c y z).then p).isLE) :
    ((c x z).then q).isLE := by
  rcases le_cases hxy with hlt | ⟨heq, ho⟩
  · have hle : (c y z).isLE := by
      rcases le_cases hyz with h | ⟨h, -⟩
      · rw [h]
        rfl
      · rw [h]
        rfl
    cases hxz : c x z with
    | lt => rfl
    | eq =>
        obtain rfl := LawfulEqCmp.eq_of_compare hxz
        exact absurd hle (OrientedCmp.not_isLE_of_lt hlt)
    | gt =>
        have := htrans (by rw [hlt]; rfl) hle
        rw [hxz] at this
        cases this
  · obtain rfl := LawfulEqCmp.eq_of_compare heq
    rcases le_cases hyz with h | ⟨h, hp⟩
    · rw [h]
      rfl
    · rw [h, Ordering.eq_then]
      exact hopq ho hp

instance [TransOrd α] [LawfulEqOrd α] : TransCmp (cmp : Key α → Key α → Ordering) where
  isLE_trans := by
    intro k l m
    induction k generalizing l m with
    | nil => cases l <;> cases m <;> simp [cmp]
    | node a x u hx hu =>
        cases l with
        | nil =>
            intro h
            cases h
        | node b y v =>
            cases m with
            | nil =>
                intro _ h
                cases h
            | node c z w =>
                rw [cmp, cmp, cmp]
                exact then_isLE_trans TransOrd.isLE_trans (then_isLE_trans hx hu)

lemma cmp_leaf (a b : α) : cmp (leaf a) (leaf b) = compare a b := by
  rw [leaf, leaf, cmp, cmp, Ordering.eq_then, Ordering.then_eq]

lemma cmp_node_self [ReflOrd α] (a : α) (x y u v : Key α) :
    cmp (node a x u) (node a y v) = (cmp x y).then (cmp u v) := by
  rw [cmp, ReflOrd.compare_self, Ordering.eq_then]

end Key

/-- Two labels for one: the first that differs decides. -/
instance instLawfulEqOrdLex {α β : Type*} [Ord α] [Ord β] [LawfulEqOrd α] [LawfulEqOrd β] :
    LawfulEqOrd (α ×ₗ β) where
  compare_self := by
    intro a
    rw [Prod.Lex.compare_def, compareLex, compareOn, compareOn, ReflOrd.compare_self, Ordering.eq_then]
    exact ReflOrd.compare_self
  eq_of_compare := by
    intro a b h
    rw [Prod.Lex.compare_def, compareLex, Ordering.then_eq_eq] at h
    exact Prod.ext (LawfulEqOrd.eq_of_compare h.1) (LawfulEqOrd.eq_of_compare h.2)

/-! ## Lists -/

section lists

variable {α β γ : Type*}

/-- Items are compared one by one; where none differs, the shorter list comes first. -/
def cmpLex (c : β → γ → Ordering) (xs : List β) (ys : List γ) : Ordering :=
  go (xs.zip ys)
where
  go : List (β × γ) → Ordering
    | [] => compare xs.length ys.length
    | (x, y) :: rest => if c x y ≠ .eq then c x y else go rest

lemma cmpLex_cons (c : β → γ → Ordering) (x : β) (xs : List β) (y : γ) (ys : List γ) :
    cmpLex c (x :: xs) (y :: ys) = (c x y).then (cmpLex c xs ys) := by
  have hgo : ∀ rest, cmpLex.go c (x :: xs) (y :: ys) rest = cmpLex.go c xs ys rest := by
    intro rest
    induction rest with
    | nil =>
        simp only [cmpLex.go, List.length_cons, Nat.compare_eq_ite_lt, Nat.add_lt_add_iff_right]
    | cons p rest ih => rw [cmpLex.go, cmpLex.go, ih]
  rw [cmpLex, List.zip_cons_cons, cmpLex.go, hgo, cmpLex]
  split_ifs with h
  · cases hc : c x y with
    | lt => rfl
    | gt => rfl
    | eq => exact absurd hc h
  · rw [not_not.1 h, Ordering.eq_then]

/-- **Lists are compared as the rows of their keys are.** -/
lemma cmp_row [Ord α] [ReflOrd α] {c : β → γ → Ordering} {k : β → Key α} {l : γ → Key α} {label : α}
    {xs : List β} {ys : List γ} (h : ∀ x ∈ xs, ∀ y ∈ ys, c x y = (k x).cmp (l y)) :
    cmpLex c xs ys = (Key.row label (xs.map k)).cmp (Key.row label (ys.map l)) := by
  induction xs generalizing ys with
  | nil => cases ys <;> rfl
  | cons x xs ih =>
      cases ys with
      | nil => rfl
      | cons y ys =>
          rw [cmpLex_cons, List.map_cons, List.map_cons, Key.row, Key.row, Key.cmp_node_self,
            h x List.mem_cons_self y List.mem_cons_self,
            ih fun x hx y hy => h x (List.mem_cons_of_mem _ hx) y (List.mem_cons_of_mem _ hy)]

end lists

end Nested
