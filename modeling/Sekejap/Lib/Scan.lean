import Mathlib.Tactic

/-!
# Bounded scans of an ordered keyspace

A cursor walks the keys of a finite ordered set upwards from a position.  Code that must not hold a
keyspace in memory walks it in bounded steps: it takes the first `n` keys past the position where
the last step stopped, and the next step starts past the last of them.

* **`mem_take_iff`** — a step takes exactly the keys past its position up to the last one it took.
* **`mem_take_of_short`** — a step that took fewer than it was allowed has taken all of them.
-/

namespace Scan

variable {α : Type*} [LinearOrder α] {S : Finset α} {after : Option α} {a b : α} {n : ℕ}

/-- A key is past a position; `none` is the position before every key. -/
def Past (after : Option α) (a : α) : Prop := ∀ b ∈ after, b < a

instance (after : Option α) (a : α) : Decidable (Past after a) :=
  inferInstanceAs (Decidable (∀ b ∈ after, b < a))

@[simp] lemma past_none (a : α) : Past none a := by simp [Past]

@[simp] lemma past_some : Past (some b) a ↔ b < a := by simp [Past]

lemma Past.trans_le (h : Past after a) (hab : a ≤ b) : Past after b := fun c hc =>
  (h c hc).trans_le hab

/-- The first key past a position. -/
def next (S : Finset α) (after : Option α) : Option α := (S.filter (Past after)).min

lemma next_eq_none_iff : next S after = none ↔ ∀ a ∈ S, ¬ Past after a := by
  refine (Finset.min_eq_top (s := S.filter (Past after))).trans ?_
  simp [Finset.filter_eq_empty_iff]

lemma next_eq_some (h : next S after = some a) :
    a ∈ S ∧ Past after a ∧ ∀ b ∈ S, Past after b → a ≤ b := by
  have hmem := Finset.mem_filter.1 (Finset.mem_of_min h)
  refine ⟨hmem.1, hmem.2, fun b hb hp => ?_⟩
  exact Finset.min_le_of_eq (Finset.mem_filter.2 ⟨hb, hp⟩) h

/-- The first `n` keys past a position, in order. -/
def take (S : Finset α) : ℕ → Option α → List α
  | 0, _ => []
  | n + 1, after =>
      match next S after with
      | none => []
      | some a => a :: take S n (some a)

lemma length_take_le (S : Finset α) : ∀ (n : ℕ) (after : Option α), (take S n after).length ≤ n
  | 0, _ => by simp [take]
  | n + 1, after => by
      rw [take]
      cases next S after with
      | none => simp
      | some a => simpa using length_take_le S n (some a)

lemma mem_of_mem_take (h : a ∈ take S n after) : a ∈ S ∧ Past after a := by
  induction n generalizing after with
  | zero => simp [take] at h
  | succ n ih =>
      rw [take] at h
      cases hn : next S after with
      | none => simp [hn] at h
      | some b =>
          obtain ⟨hb, hpast, -⟩ := next_eq_some hn
          simp only [hn, List.mem_cons] at h
          rcases h with rfl | h
          · exact ⟨hb, hpast⟩
          · obtain ⟨ha, hlt⟩ := ih h
            exact ⟨ha, hpast.trans_le (past_some.1 hlt).le⟩

lemma take_pairwise (S : Finset α) (n : ℕ) (after : Option α) :
    (take S n after).Pairwise (· < ·) := by
  induction n generalizing after with
  | zero => simp [take]
  | succ n ih =>
      rw [take]
      cases next S after with
      | none => simp
      | some b =>
          simp only [List.pairwise_cons]
          exact ⟨fun a ha => past_some.1 (mem_of_mem_take ha).2, ih (some b)⟩

lemma take_nodup (S : Finset α) (n : ℕ) (after : Option α) : (take S n after).Nodup :=
  (take_pairwise S n after).imp fun h => h.ne

/-- **No key is stepped over.** -/
lemma mem_take_of_le (ha : a ∈ S) (hp : Past after a) (hb : b ∈ take S n after) (hab : a ≤ b) :
    a ∈ take S n after := by
  induction n generalizing after with
  | zero => simp [take] at hb
  | succ n ih =>
      rw [take] at hb ⊢
      cases hn : next S after with
      | none => simp [hn] at hb
      | some c =>
          obtain ⟨-, -, hleast⟩ := next_eq_some hn
          simp only [hn, List.mem_cons] at hb ⊢
          rcases (hleast a ha hp).eq_or_lt with rfl | hlt
          · exact Or.inl rfl
          · refine Or.inr (ih (past_some.2 hlt) ?_)
            rcases hb with rfl | hb
            · exact absurd hlt (not_lt.2 hab)
            · exact hb

/-- **A step that took fewer keys than it was allowed has come to the end.** -/
lemma mem_take_of_short (hlen : (take S n after).length < n) (ha : a ∈ S) (hp : Past after a) :
    a ∈ take S n after := by
  induction n generalizing after with
  | zero => simp at hlen
  | succ n ih =>
      rw [take] at hlen ⊢
      cases hn : next S after with
      | none => exact absurd hp (next_eq_none_iff.1 hn a ha)
      | some c =>
          obtain ⟨-, -, hleast⟩ := next_eq_some hn
          simp only [hn, List.length_cons, Nat.add_lt_add_iff_right, List.mem_cons] at hlen ⊢
          rcases (hleast a ha hp).eq_or_lt with rfl | hlt
          · exact Or.inl rfl
          · exact Or.inr (ih hlen (past_some.2 hlt))

/-- Where the next step starts: past the last key this one took, or where it started. -/
def stop (S : Finset α) (n : ℕ) (after : Option α) : Option α := (take S n after).getLast?.or after

lemma stop_eq (h : stop S n after = some a) :
    a ∈ take S n after ∨ (take S n after = [] ∧ after = some a) := by
  rw [stop] at h
  cases hl : (take S n after).getLast? with
  | some c =>
      rw [hl] at h
      cases h
      exact Or.inl (List.mem_of_getLast? hl)
  | none =>
      rw [hl] at h
      exact Or.inr ⟨List.getLast?_eq_none_iff.1 hl, by simpa using h⟩

lemma le_of_mem_take (hb : b ∈ take S n after) (h : stop S n after = some a) : b ≤ a := by
  rw [stop] at h
  cases hl : (take S n after).getLast? with
  | none => simp [List.getLast?_eq_none_iff.1 hl] at hb
  | some c =>
      rw [hl] at h
      cases h
      obtain ⟨l, hl⟩ := List.getLast?_eq_some_iff.1 hl
      have hpw := take_pairwise S n after
      rw [hl] at hb hpw
      rcases List.mem_append.1 hb with hb | hb
      · exact ((List.pairwise_append.1 hpw).2.2 b hb a (by simp)).le
      · rw [List.mem_singleton.1 hb]

/-- **What a step took**: the keys past its position and not past the position it leaves. -/
lemma mem_take_iff : a ∈ take S n after ↔ a ∈ S ∧ Past after a ∧ ¬ Past (stop S n after) a := by
  constructor
  · intro h
    obtain ⟨hS, hp⟩ := mem_of_mem_take h
    refine ⟨hS, hp, fun hpast => ?_⟩
    cases hs : stop S n after with
    | none =>
        rw [stop, Option.or_eq_none_iff, List.getLast?_eq_none_iff] at hs
        rw [hs.1] at h
        simp at h
    | some b =>
        rw [hs] at hpast
        exact absurd (past_some.1 hpast) (not_lt.2 (le_of_mem_take h hs))
  · rintro ⟨hS, hp, hnot⟩
    cases hs : stop S n after with
    | none => rw [hs] at hnot; exact absurd (past_none a) hnot
    | some b =>
        rw [hs, past_some, not_lt] at hnot
        rcases stop_eq hs with hb | ⟨-, hb⟩
        · exact mem_take_of_le hS hp hb hnot
        · rw [hb, past_some] at hp
          exact absurd hp (not_lt.2 hnot)

/-- A position never moves back. -/
lemma past_of_past_stop (h : Past (stop S n after) a) : Past after a := by
  cases hs : stop S n after with
  | none =>
      rw [stop, Option.or_eq_none_iff] at hs
      rw [hs.2]
      exact past_none a
  | some b =>
      rw [hs, past_some] at h
      rcases stop_eq hs with hb | ⟨-, hb⟩
      · exact (mem_of_mem_take hb).2.trans_le h.le
      · rw [hb, past_some]; exact h

lemma not_past_stop_iff (ha : a ∈ S) :
    ¬ Past (stop S n after) a ↔ ¬ Past after a ∨ a ∈ take S n after := by
  constructor
  · intro h
    by_cases hp : Past after a
    · exact Or.inr (mem_take_iff.2 ⟨ha, hp, h⟩)
    · exact Or.inl hp
  · rintro (h | h)
    · exact fun hp => h (past_of_past_stop hp)
    · exact (mem_take_iff.1 h).2.2

/-- **A walk has passed what it had passed before and what it took.** -/
lemma card_stop (S : Finset α) (n : ℕ) (after : Option α) :
    (S.filter fun a => ¬ Past (stop S n after) a).card
      = (S.filter fun a => ¬ Past after a).card + (take S n after).length := by
  have hunion : (S.filter fun a => ¬ Past (stop S n after) a)
      = (S.filter fun a => ¬ Past after a) ∪ (take S n after).toFinset := by
    ext a
    simp only [Finset.mem_filter, Finset.mem_union, List.mem_toFinset]
    constructor
    · rintro ⟨ha, hp⟩
      exact ((not_past_stop_iff ha).1 hp).imp_left fun h => ⟨ha, h⟩
    · rintro (⟨ha, hp⟩ | ht)
      · exact ⟨ha, (not_past_stop_iff ha).2 (Or.inl hp)⟩
      · have ha := (mem_of_mem_take ht).1
        exact ⟨ha, (not_past_stop_iff ha).2 (Or.inr ht)⟩
  have hdisj : Disjoint (S.filter fun a => ¬ Past after a) (take S n after).toFinset := by
    rw [Finset.disjoint_left]
    intro a ha ht
    exact (Finset.mem_filter.1 ha).2 (mem_of_mem_take (List.mem_toFinset.1 ht)).2
  rw [hunion, Finset.card_union_of_disjoint hdisj, List.toFinset_card_of_nodup (take_nodup S n after)]

/-- A walk that came to the end has passed every key. -/
lemma filter_stop_of_short (hlen : (take S n after).length < n) :
    (S.filter fun a => ¬ Past (stop S n after) a) = S := by
  refine Finset.filter_true_of_mem fun a ha => (not_past_stop_iff ha).2 ?_
  by_cases hp : Past after a
  · exact Or.inr (mem_take_of_short hlen ha hp)
  · exact Or.inl hp

end Scan
