import Sekejap.Gql.Product

/-!
# Frontiers

What both frontiers of a selector search have in common.  Their entries are records and walks from
records; what is popped costs least of all entries, and among those of its cost a record comes before a
walk.  A queue by levels has room for the costs of the level and the one after it.

* **`pop_none`**, **`pop_some`** — what is popped.
* **`push_spec`**, **`pushWalk_spec`** — what is pushed.
-/

namespace Engine.Gql

namespace Frontier

variable {f f' : Frontier} {rank rank' : ℕ → ℚ ×ₗ ℕ} {level : ℚ ×ₗ ℕ} {i : ℕ} {e : ℕ × Bool}

/-- The records, and the walks from records, in some order. -/
def entries : Frontier → List (ℕ × Bool)
  | levels f => f.now.map (·, false) ++ (f.walks.map (·, true) ++ f.next.map (·, false))
  | costs h => h.entries.map fun e => (e.record, e.walk)

def isHeap : Frontier → Bool
  | levels _ => false
  | costs _ => true

/-- The cost of one more edge, where edges cost nothing else. -/
def above (level : ℚ ×ₗ ℕ) : ℚ ×ₗ ℕ := toLex ((ofLex level).1, (ofLex level).2 + 1)

/-- A queue by levels has room for the costs of two levels. -/
def Room : Frontier → ℚ ×ₗ ℕ → ℚ ×ₗ ℕ → Prop
  | levels _, level, cost => cost = level ∨ cost = above level
  | costs _, _, _ => True

/-- The entries are where their costs say. -/
def Keeps : Frontier → (ℕ → ℚ ×ₗ ℕ) → ℚ ×ₗ ℕ → Prop
  | levels f, rank, level => f.level = (ofLex level).2 ∧ (∀ i ∈ f.now, rank i = level)
      ∧ (∀ i ∈ f.walks, rank i = level) ∧ ∀ i ∈ f.next, rank i = above level
  | costs h, rank, _ => ∀ e ∈ h.entries, rank e.record = toLex (e.cost, e.hops)

/-- What the heap is ordered by. -/
def before (rank : ℕ → ℚ ×ₗ ℕ) (e : ℕ × Bool) : (ℚ ×ₗ ℕ) ×ₗ Bool := toLex (rank e.1, e.2)

lemma isHeap_push (f : Frontier) (cost : ℚ) (hops : ℕ) : (f.push i cost hops).isHeap = f.isHeap := by
  cases f with
  | levels f =>
      rw [push]
      split_ifs <;> rfl
  | costs h => rfl

lemma isHeap_pushWalk (f : Frontier) (cost : ℚ) (hops : ℕ) :
    (f.pushWalk i cost hops).isHeap = f.isHeap := by
  cases f <;> rfl

lemma isHeap_pop (h : f.pop = some (e, f')) : f'.isHeap = f.isHeap := by
  cases f with
  | levels f =>
      obtain ⟨level, now, walks, next⟩ := f
      cases now with
      | cons => obtain ⟨-, rfl⟩ := Prod.mk.inj (Option.some.inj h); rfl
      | nil =>
          cases walks with
          | cons => obtain ⟨-, rfl⟩ := Prod.mk.inj (Option.some.inj h); rfl
          | nil =>
              cases next with
              | cons => obtain ⟨-, rfl⟩ := Prod.mk.inj (Option.some.inj h); rfl
              | nil => cases h
  | costs h' =>
      obtain ⟨l, hl⟩ := h'
      cases l with
      | cons => obtain ⟨-, rfl⟩ := Prod.mk.inj (Option.some.inj h); rfl
      | nil => cases h

lemma room_of_isHeap (h : f.isHeap = true) (level r : ℚ ×ₗ ℕ) : f.Room level r := by
  cases f with
  | levels f => cases h
  | costs h => trivial

lemma room_self (f : Frontier) (level : ℚ ×ₗ ℕ) : f.Room level level := by
  cases f with
  | levels f => exact Or.inl rfl
  | costs h => trivial

lemma room_above (f : Frontier) (level : ℚ ×ₗ ℕ) : f.Room level (above level) := by
  cases f with
  | levels f => exact Or.inr rfl
  | costs h => trivial

lemma lt_above (level : ℚ ×ₗ ℕ) : level < above level := by
  rw [above, ← toLex_ofLex level, Prod.Lex.toLex_lt_toLex]
  exact Or.inr ⟨rfl, Nat.lt_succ_self _⟩

lemma before_mono {e e' : Entry} (h : e ≤ e') (he : rank e.record = toLex (e.cost, e.hops))
    (he' : rank e'.record = toLex (e'.cost, e'.hops)) :
    before rank (e.record, e.walk) ≤ before rank (e'.record, e'.walk) := by
  change e.key ≤ e'.key at h
  rw [Entry.key, Entry.key, Prod.Lex.toLex_le_toLex, Prod.Lex.toLex_le_toLex,
    Prod.Lex.toLex_le_toLex] at h
  rw [before, before, Prod.Lex.toLex_le_toLex, he, he', Prod.Lex.toLex_lt_toLex]
  rcases h with h | ⟨hcost, h | ⟨hhops, h⟩⟩
  · exact Or.inl (Or.inl h)
  · exact Or.inl (Or.inr ⟨hcost, h⟩)
  · refine Or.inr ⟨congrArg toLex (Prod.ext hcost hhops), ?_⟩
    rcases h with h | ⟨h, -⟩
    · exact h.le
    · exact h.le

lemma pop_none (h : f.pop = none) : f.entries = [] := by
  cases f with
  | levels f =>
      obtain ⟨level, now, walks, next⟩ := f
      cases now <;> cases walks <;> cases next <;> simp [pop, entries] at h ⊢
  | costs h' =>
      obtain ⟨l, hl⟩ := h'
      cases l <;> simp [pop, entries] at h ⊢

/-- **What is popped costs least.** -/
lemma pop_some (hk : f.Keeps rank level) (h : f.pop = some (e, f')) :
    f.entries.Perm (e :: f'.entries)
      ∧ (∀ e' ∈ f'.entries, before rank e ≤ before rank e') ∧ f'.Keeps rank (rank e.1) := by
  cases f with
  | levels f =>
      obtain ⟨lv, now, walks, next⟩ := f
      obtain ⟨hlv, hnow, hwalks, hnext⟩ := hk
      cases now with
      | cons i now =>
          obtain ⟨rfl, rfl⟩ := Prod.mk.inj (Option.some.inj h)
          have hi : rank i = level := hnow i List.mem_cons_self
          have hrest : ∀ j ∈ now, rank j = level := fun j hj => hnow j (List.mem_cons_of_mem i hj)
          refine ⟨List.Perm.refl _, ?_, ?_⟩
          · intro e' he'
            simp only [entries, List.mem_append, List.mem_map] at he'
            rw [before, before, Prod.Lex.toLex_le_toLex, hi]
            rcases he' with ⟨j, hj, rfl⟩ | ⟨j, hj, rfl⟩ | ⟨j, hj, rfl⟩
            · exact Or.inr ⟨(hrest j hj).symm, le_rfl⟩
            · exact Or.inr ⟨(hwalks j hj).symm, Bool.false_le true⟩
            · exact Or.inl ((lt_above level).trans_eq (hnext j hj).symm)
          · rw [hi]
            exact ⟨hlv, hrest, hwalks, hnext⟩
      | nil =>
          cases walks with
          | cons i walks =>
              obtain ⟨rfl, rfl⟩ := Prod.mk.inj (Option.some.inj h)
              have hi : rank i = level := hwalks i List.mem_cons_self
              have hrest : ∀ j ∈ walks, rank j = level := fun j hj =>
                hwalks j (List.mem_cons_of_mem i hj)
              refine ⟨List.Perm.refl _, ?_, ?_⟩
              · intro e' he'
                simp only [entries, List.mem_append, List.mem_map, List.not_mem_nil, false_and,
                  exists_false, false_or] at he'
                rw [before, before, Prod.Lex.toLex_le_toLex, hi]
                rcases he' with ⟨j, hj, rfl⟩ | ⟨j, hj, rfl⟩
                · exact Or.inr ⟨(hrest j hj).symm, le_rfl⟩
                · exact Or.inl ((lt_above level).trans_eq (hnext j hj).symm)
              · rw [hi]
                exact ⟨hlv, hnow, hrest, hnext⟩
          | nil =>
              cases next with
              | nil => cases h
              | cons i next =>
                  obtain ⟨rfl, rfl⟩ := Prod.mk.inj (Option.some.inj h)
                  have hi : rank i = above level := hnext i List.mem_cons_self
                  have hrest : ∀ j ∈ next, rank j = above level := fun j hj =>
                    hnext j (List.mem_cons_of_mem i hj)
                  refine ⟨by simp [entries], ?_, ?_⟩
                  · intro e' he'
                    simp only [entries, List.mem_append, List.mem_map, List.not_mem_nil, false_and,
                      exists_false, or_false] at he'
                    obtain ⟨j, hj, rfl⟩ := he'
                    rw [before, before, Prod.Lex.toLex_le_toLex, hi]
                    exact Or.inr ⟨(hrest j hj).symm, le_rfl⟩
                  · rw [hi]
                    exact ⟨by rw [hlv]; rfl, hrest, by simp, by simp⟩
  | costs h' =>
      obtain ⟨l, hl⟩ := h'
      cases l with
      | nil => cases h
      | cons x l =>
          obtain ⟨rfl, rfl⟩ := Prod.mk.inj (Option.some.inj h)
          refine ⟨List.Perm.refl _, ?_, fun y hy => hk y (List.mem_cons_of_mem x hy)⟩
          intro e' he'
          obtain ⟨y, hy, rfl⟩ := List.mem_map.1 he'
          exact before_mono (List.rel_of_pairwise_cons hl hy) (hk x List.mem_cons_self)
            (hk y (List.mem_cons_of_mem x hy))

lemma keeps_push_costs {h : CostHeap} {x : Entry} (hk : (costs h).Keeps rank level)
    (hx : rank x.record = toLex (x.cost, x.hops)) :
    (costs (h.push x)).Keeps rank level
      ∧ (costs (h.push x)).entries.Perm ((x.record, x.walk) :: (costs h).entries) := by
  constructor
  · intro y hy
    rcases List.mem_cons.1 ((List.perm_orderedInsert (· ≤ ·) x h.entries).mem_iff.1 hy) with rfl | hy
    · exact hx
    · exact hk y hy
  · exact (List.perm_orderedInsert (· ≤ ·) x h.entries).map _

/-- **A record is pushed.** -/
lemma push_spec {cost : ℚ} {hops : ℕ} (hk : f.Keeps rank level) (hi : rank i = toLex (cost, hops))
    (hroom : f.Room level (rank i)) : (f.push i cost hops).Keeps rank level
      ∧ (f.push i cost hops).entries.Perm ((i, false) :: f.entries)
      ∧ ∀ r, (f.push i cost hops).Room level r ↔ f.Room level r := by
  cases f with
  | levels f =>
      obtain ⟨hlv, hnow, hwalks, hnext⟩ := hk
      have hhops : hops = f.level ↔ rank i = level := by
        rw [hlv]
        have hne : hops ≠ (ofLex level).2 ∨ rank i = level := by
          rcases hroom with h | h
          · exact Or.inr h
          · left
            rw [hi, above] at h
            have := (Prod.mk.inj (toLex.injective h)).2
            omega
        constructor
        · exact fun h => hne.resolve_left (not_not.2 h)
        · intro h
          rw [hi] at h
          rw [← h]
          rfl
      by_cases hlevel : hops = f.level
      · simp only [push, if_pos hlevel]
        refine ⟨⟨hlv, ?_, hwalks, hnext⟩, ?_, fun _ => Iff.rfl⟩
        · intro j hj
          rcases List.mem_append.1 hj with hj | hj
          · exact hnow j hj
          · exact (List.mem_singleton.1 hj) ▸ hhops.1 hlevel
        · simp only [entries, List.map_append, List.map_cons, List.map_nil, List.append_assoc,
            List.singleton_append]
          exact List.perm_middle
      · simp only [push, if_neg hlevel]
        refine ⟨⟨hlv, hnow, hwalks, ?_⟩, ?_, fun _ => Iff.rfl⟩
        · intro j hj
          rcases List.mem_append.1 hj with hj | hj
          · exact hnext j hj
          · rw [List.mem_singleton.1 hj]
            exact hroom.resolve_left fun h => hlevel (hhops.2 h)
        · simp only [entries, List.map_append, List.map_cons, List.map_nil]
          rw [← List.append_assoc, ← List.append_assoc, ← List.append_assoc]
          exact List.perm_append_comm.trans (by simp)
  | costs h =>
      obtain ⟨h1, h2⟩ := keeps_push_costs (x := ⟨cost, hops, false, i⟩) hk hi
      exact ⟨h1, h2, fun _ => Iff.rfl⟩

/-- **A walk is pushed.** -/
lemma pushWalk_spec {cost : ℚ} {hops : ℕ} (hk : f.Keeps rank level) (hi : rank i = toLex (cost, hops))
    (hlevel : rank i = level) : (f.pushWalk i cost hops).Keeps rank level
      ∧ (f.pushWalk i cost hops).entries.Perm ((i, true) :: f.entries)
      ∧ ∀ level r, (f.pushWalk i cost hops).Room level r ↔ f.Room level r := by
  cases f with
  | levels f =>
      obtain ⟨hlv, hnow, hwalks, hnext⟩ := hk
      refine ⟨⟨hlv, hnow, ?_, hnext⟩, ?_, fun _ _ => Iff.rfl⟩
      · intro j hj
        rcases List.mem_append.1 hj with hj | hj
        · exact hwalks j hj
        · exact (List.mem_singleton.1 hj) ▸ hlevel
      · simp only [pushWalk, entries, List.map_append, List.map_cons, List.map_nil, List.append_assoc,
          List.singleton_append]
        rw [← List.append_assoc]
        exact List.perm_middle.trans (by simp)
  | costs h =>
      obtain ⟨h1, h2⟩ := keeps_push_costs (x := ⟨cost, hops, true, i⟩) hk hi
      exact ⟨h1, h2, fun _ _ => Iff.rfl⟩

lemma Keeps.congr (hk : f.Keeps rank level) (h : ∀ e ∈ f.entries, rank' e.1 = rank e.1) :
    f.Keeps rank' level := by
  cases f with
  | levels f =>
      obtain ⟨hlv, hnow, hwalks, hnext⟩ := hk
      refine ⟨hlv, fun i hi => ?_, fun i hi => ?_, fun i hi => ?_⟩
      · exact (h (i, false) (by simp [entries, hi])).trans (hnow i hi)
      · exact (h (i, true) (by simp [entries, hi])).trans (hwalks i hi)
      · exact (h (i, false) (by simp [entries, hi])).trans (hnext i hi)
  | costs h' =>
      intro e he
      exact (h (e.record, e.walk) (List.mem_map_of_mem he)).trans (hk e he)

/-- A heap may be at any cost. -/
lemma Keeps.of_isHeap {level' : ℚ ×ₗ ℕ} (hk : f.Keeps rank level) (h : f.isHeap = true) :
    f.Keeps rank level' := by
  cases f with
  | levels f => cases h
  | costs h' => exact hk

/-- No entry of a queue by levels is below its level. -/
lemma Keeps.level_le (hk : f.Keeps rank level) (h : f.isHeap = false) (he : e ∈ f.entries) :
    level ≤ rank e.1 := by
  cases f with
  | levels f =>
      obtain ⟨-, hnow, hwalks, hnext⟩ := hk
      simp only [entries, List.mem_append, List.mem_map] at he
      rcases he with ⟨j, hj, rfl⟩ | ⟨j, hj, rfl⟩ | ⟨j, hj, rfl⟩
      · exact (hnow j hj).ge
      · exact (hwalks j hj).ge
      · exact (lt_above level).le.trans_eq (hnext j hj).symm
  | costs h' => cases h

end Frontier

end Engine.Gql
