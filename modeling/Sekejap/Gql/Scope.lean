import Sekejap.Gql.Enumerate

/-!
# What a selector search tells apart

A selector search (`core/engine/src/query/gql/paths/bfs.rs`) keeps no row for a state.  A predicate sees
the input row, the variables bound so far, and of the group variables the elements of the iteration it is
in; `scope` says so of the visits.  A state keeps the values of `keySlots`, and what comes after it is
tested over the start's row with these written in.

* **`carried_eq`** — the key slots hold all that is in scope for the next visit.
* **`passes_iff`** — so that two states with the same node, position, counter and key values have the same
  visits before them.
-/

open Collections (EntityId)

open Engine.Graph (EdgeId Keyspaces Dir)

namespace Engine.Gql

variable {α : Type}

namespace PathAutomaton

variable (a : PathAutomaton)

/-! ## Scope -/

/-- A position that goes on with an iteration. -/
def continues (q : ℕ) : Bool := a.repeats.any fun r => decide (r.first < q ∧ q ≤ r.last)

/-- The elements that are not in group slots. -/
def single (bound : List (Binding × Element)) : List (Binding × Element) :=
  bound.filter fun x => !x.1.group

/-- What is in scope after visits: the elements of all variables that are no groups, and those of groups
from the iteration the last visit is in. -/
def scope (visits : List Visit) : List (Binding × Element) :=
  visits.foldl (fun known v => (if a.continues v.q then known else single known) ++ a.bound v) []

/-- The row a predicate sees. -/
def view (base : Row α) (visits : List Visit) : Row α := written base (a.scope visits)

/-! ## Key slots -/

/-- The slots a position binds that are no groups: the edge's, then the node's. -/
def singlesAt (p : ℕ) : List ℕ :=
  (((a.viaBinding (p - 1)).toList ++ (a.nodeBinding p).toList).filter fun b => !b.group).map Binding.slot

/-- Each such slot past the start with the first position that binds it; a slot the start binds is left
out. -/
def firstSingles : List (ℕ × ℕ) :=
  ((List.range' 1 (a.states.length - 1)).flatMap fun p => (a.singlesAt p).map fun slot => (slot, p)).foldl
    (fun found x =>
      if some x.1 ≠ (a.nodeBinding 0).map Binding.slot ∧ ∀ y ∈ found, y.1 ≠ x.1 then found ++ [x]
      else found) []

/-- The repeat a position is strictly inside of, before its last position. -/
def insideOf (q : ℕ) : Option Repeat :=
  a.repeats.find? fun r => decide (r.first ≤ q ∧ q < r.last)

/-- `key_slots`: the slots whose values are part of a product state. -/
def keySlots (q : ℕ) : List ℕ :=
  ((a.firstSingles.filter fun x => decide (x.2 ≤ q)).map Prod.fst).insertionSort (· ≤ ·)
    ++ match a.insideOf q with
      | none => []
      | some r =>
          (List.range' r.first (q + 1 - r.first)).filterMap (fun p => (a.nodeBinding p).map Binding.slot)
            ++ (List.range' r.first (q - r.first)).filterMap fun l => (a.viaBinding l).map Binding.slot

/-- Values written into the slots of a list. -/
def fill (row : Row α) (slots : List ℕ) (values : List (BindingValue α)) : Row α :=
  (slots.zip values).foldl (fun row x => row.set x.1 x.2) row

/-- The values of the key slots of a position in a row. -/
def keyValues (row : Row α) (q : ℕ) : List (BindingValue α) := (a.keySlots q).map row.value

/-! ## Inside a body -/

section Inside

variable {a : PathAutomaton} {width : ℕ} {selector : Bool} {q k p k' : ℕ} {r : Repeat}

lemma continues_iff : a.continues q = true ↔ ∃ r ∈ a.repeats, r.first < q ∧ q ≤ r.last := by
  simp [continues]

lemma insideOf_isSome : (a.insideOf q).isSome = true ↔ ∃ r ∈ a.repeats, r.first ≤ q ∧ q < r.last := by
  simp [insideOf, List.find?_isSome]

lemma insideOf_eq (hs : a.Sound width selector) (hr : r ∈ a.repeats) (h1 : r.first ≤ q)
    (h2 : q < r.last) : a.insideOf q = some r := by
  cases h : a.insideOf q with
  | none =>
      have := (insideOf_isSome (a := a) (q := q)).2 ⟨r, hr, h1, h2⟩
      rw [h] at this
      cases this
  | some s =>
      have hin := List.find?_some h
      have hmem := List.mem_of_find?_eq_some h
      simp only [decide_eq_true_eq] at hin
      rcases repeats_apart hs hr hmem with rfl | h3
      · rfl
      · omega

/-- **An iteration goes on from a position strictly inside its body, and only from there.** -/
lemma continues_hop (hs : a.Sound width selector) (h : Hop a q k p k') :
    a.continues p = true ↔ (a.insideOf q).isSome = true := by
  have hnot : ∀ r ∈ a.repeats, ∀ s ∈ a.repeats, ¬ (s.first < r.first ∧ r.first ≤ s.last)
      ∧ ¬ (s.first < r.last + 1 ∧ r.last + 1 ≤ s.last) := by
    intro r hr s hs'
    have h1 := (hs.repeats r hr).first_lt
    rcases repeats_apart hs hr hs' with rfl | h3
    · omega
    · omega
  rw [continues_iff, insideOf_isSome]
  cases h with
  | @again r hr hlast hmax =>
      refine iff_of_false ?_ ?_
      · rintro ⟨s, hs', h1⟩
        exact (hnot r hr s hs').1 h1
      · rintro ⟨s, hs', h1⟩
        rcases repeats_apart hs hr hs' with rfl | h3
        · omega
        · have := (hs.repeats r hr).first_lt
          omega
  | @leave r hr hlast hmin =>
      refine iff_of_false ?_ ?_
      · rintro ⟨s, hs', h1⟩
        exact (hnot r hr s hs').2 (by omega)
      · rintro ⟨s, hs', h1⟩
        rcases repeats_apart hs hr hs' with rfl | h3
        · omega
        · have := (hs.repeats r hr).first_lt
          omega
  | @enter r hr hfirst hmax =>
      refine iff_of_false ?_ ?_
      · rintro ⟨s, hs', h1⟩
        exact (hnot r hr s hs').1 h1
      · rintro ⟨s, hs', h1⟩
        rcases repeats_apart hs hr hs' with rfl | h3
        · omega
        · have := (hs.repeats r hr).first_lt
          omega
  | @skip r hr hfirst hmin =>
      refine iff_of_false ?_ ?_
      · rintro ⟨s, hs', h1⟩
        exact (hnot r hr s hs').2 h1
      · rintro ⟨s, hs', h1⟩
        rcases repeats_apart hs hr hs' with rfl | h3
        · omega
        · have := (hs.repeats r hr).first_lt
          omega
  | along hne hlast hfirst =>
      constructor
      · rintro ⟨s, hs', h1, h2⟩
        exact ⟨s, hs', by omega, by omega⟩
      · rintro ⟨s, hs', h1, h2⟩
        exact ⟨s, hs', by omega, by omega⟩

end Inside

/-! ## Where what is in scope was bound -/

section Places

variable {a : PathAutomaton} {width : ℕ} {selector : Bool} {q k p k' : ℕ} {b : Binding}

/-- A binding that is no group in scope at a position was bound at the start, or at a position up to it;
a group binding, in the body it is in, up to it. -/
def Placed (a : PathAutomaton) (q : ℕ) (b : Binding) : Prop :=
  if b.group then ∃ r ∈ a.repeats, r.first ≤ q ∧ q ≤ r.last
      ∧ ((∃ p, r.first ≤ p ∧ p ≤ q ∧ a.nodeBinding p = some b)
        ∨ ∃ l, r.first ≤ l ∧ l < q ∧ a.viaBinding l = some b)
  else a.nodeBinding 0 = some b
    ∨ ∃ p, 1 ≤ p ∧ p ≤ q ∧ (a.nodeBinding p = some b ∨ a.viaBinding (p - 1) = some b)

lemma nodeBinding_group (h : a.nodeBinding q = some b) : b.group = a.stateInRepeat q := by
  rw [nodeBinding, Option.map_eq_some_iff] at h
  obtain ⟨slot, -, rfl⟩ := h
  rfl

lemma viaBinding_group {l : ℕ} (h : a.viaBinding l = some b) :
    b.group = a.linkInRepeat l ∧ ∃ step, a.edgeStep l = some step := by
  rw [viaBinding, Option.bind_eq_some_iff] at h
  obtain ⟨step, hstep, h⟩ := h
  rw [edgeBinding, Option.map_eq_some_iff] at h
  obtain ⟨slot, -, rfl⟩ := h
  exact ⟨rfl, step, hstep⟩

lemma stateInRepeat_iff : a.stateInRepeat q = true ↔ ∃ r ∈ a.repeats, r.first ≤ q ∧ q ≤ r.last := by
  simp [stateInRepeat]

lemma linkInRepeat_iff {l : ℕ} :
    a.linkInRepeat l = true ↔ ∃ r ∈ a.repeats, r.first ≤ l ∧ l < r.last := by
  simp [linkInRepeat]

lemma mem_bound {v : Visit} {x : Binding × Element} (h : x ∈ a.bound v) :
    a.nodeBinding v.q = some x.1 ∨ v.via.isSome = true ∧ a.viaBinding (v.q - 1) = some x.1 := by
  rw [bound, List.mem_append] at h
  rcases h with h | h
  · right
    cases hv : v.via with
    | none => simp [Visit.crossed, hv] at h
    | some y =>
        simp only [Visit.crossed, hv, Option.map_some, List.mem_map, Option.mem_toList] at h
        obtain ⟨b, hb, rfl⟩ := h
        exact ⟨rfl, hb⟩
  · left
    simp only [List.mem_map, Option.mem_toList] at h
    obtain ⟨b, hb, rfl⟩ := h
    exact hb

/-- What a visit binds is bound at its position. -/
lemma placed_bound {v : Visit} {x : Binding × Element} (hv : v.via.isSome = true → 1 ≤ v.q)
    (h : x ∈ a.bound v) : a.Placed v.q x.1 := by
  rw [Placed]
  rcases mem_bound h with hb | ⟨hvia, hb⟩
  · split_ifs with hg
    · rw [nodeBinding_group hb, stateInRepeat_iff] at hg
      obtain ⟨r, hr, h1, h2⟩ := hg
      exact ⟨r, hr, h1, h2, Or.inl ⟨v.q, h1, le_rfl, hb⟩⟩
    · rcases Nat.eq_zero_or_pos v.q with h0 | hpos
      · exact Or.inl (h0 ▸ hb)
      · exact Or.inr ⟨v.q, hpos, le_rfl, Or.inl hb⟩
  · have hpos := hv hvia
    split_ifs with hg
    · rw [(viaBinding_group hb).1, linkInRepeat_iff] at hg
      obtain ⟨r, hr, h1, h2⟩ := hg
      exact ⟨r, hr, by omega, by omega, Or.inr ⟨v.q - 1, h1, by omega, hb⟩⟩
    · exact Or.inr ⟨v.q, hpos, le_rfl, Or.inr hb⟩

/-- What is in scope stays placed over a move, groups only where the iteration goes on. -/
lemma Placed.hop (hs : a.Sound width selector) (h : a.Placed q b) (hhop : Hop a q k p k')
    (hgroup : b.group = true → a.continues p = true) : a.Placed p b := by
  rw [Placed] at h ⊢
  split_ifs with hg
  · rw [if_pos hg] at h
    obtain ⟨r, hr, h1, h2, hbound⟩ := h
    have hcont := hgroup hg
    obtain ⟨s, hs', h3, h4⟩ := insideOf_isSome.1 ((continues_hop hs hhop).1 hcont)
    obtain rfl : r = s := by
      rcases repeats_apart hs hr hs' with rfl | h5
      · rfl
      · omega
    -- strictly inside a body the only move is to the next position
    have hp : p = q + 1 := by
      cases hhop with
      | @again t ht hlast hmax =>
          rcases repeats_apart hs hr ht with rfl | h5
          · omega
          · have := (hs.repeats t ht).first_lt
            omega
      | @leave t ht hlast hmin => rfl
      | @enter t ht hfirst hmax => exact hfirst
      | @skip t ht hfirst hmin =>
          rcases repeats_apart hs hr ht with rfl | h5
          · omega
          · have := (hs.repeats t ht).first_lt
            omega
      | along hne hlast hfirst => rfl
    subst hp
    refine ⟨r, hr, by omega, by omega, ?_⟩
    rcases hbound with ⟨p, h5, h6, h7⟩ | ⟨l, h5, h6, h7⟩
    · exact Or.inl ⟨p, h5, by omega, h7⟩
    · exact Or.inr ⟨l, h5, by omega, h7⟩
  · rw [if_neg hg] at h
    rcases h with h | ⟨p', h1, h2, hbound⟩
    · exact Or.inl h
    · refine Or.inr ⟨p', h1, ?_, hbound⟩
      cases hhop with
      | @again t ht hlast hmax =>
          -- a position of the body binds groups only
          by_contra hlt
          refine hg ?_
          rcases hbound with hb | hb
          · rw [nodeBinding_group hb, stateInRepeat_iff]
            exact ⟨t, ht, by omega, by omega⟩
          · rw [(viaBinding_group hb).1, linkInRepeat_iff]
            exact ⟨t, ht, by omega, by omega⟩
      | @leave t ht hlast hmin => omega
      | @enter t ht hfirst hmax => omega
      | @skip t ht hfirst hmin =>
          have := (hs.repeats t ht).first_lt
          omega
      | along hne hlast hfirst => omega

end Places
/-! ## The key slots of a position -/

section Keys

variable {a : PathAutomaton} {width : ℕ} {selector : Bool} {q p slot : ℕ} {b : Binding}

/-- Of the positions that bind a slot the first is kept. -/
lemma foldl_first {start : Option ℕ} {l : List (ℕ × ℕ)} (found : List (ℕ × ℕ))
    (hsorted : l.Pairwise fun x y => x.2 ≤ y.2) (hfound : ∀ y ∈ found, ∀ x ∈ l, y.2 ≤ x.2) :
    (∀ x ∈ l, some x.1 ≠ start → ∃ y ∈ l.foldl (fun found x =>
        if some x.1 ≠ start ∧ ∀ y ∈ found, y.1 ≠ x.1 then found ++ [x] else found) found,
          y.1 = x.1 ∧ y.2 ≤ x.2)
      ∧ (∀ y ∈ found, y ∈ l.foldl (fun found x =>
        if some x.1 ≠ start ∧ ∀ y ∈ found, y.1 ≠ x.1 then found ++ [x] else found) found)
      ∧ ∀ y ∈ l.foldl (fun found x =>
        if some x.1 ≠ start ∧ ∀ y ∈ found, y.1 ≠ x.1 then found ++ [x] else found) found,
          y ∈ found ∨ y ∈ l ∧ some y.1 ≠ start := by
  induction l generalizing found with
  | nil => simp
  | cons x l ih =>
      rw [List.pairwise_cons] at hsorted
      simp only [List.foldl_cons]
      by_cases hnew : some x.1 ≠ start ∧ ∀ y ∈ found, y.1 ≠ x.1
      · rw [if_pos hnew]
        obtain ⟨h1, h2, h3⟩ := ih (found ++ [x]) hsorted.2 (by
          intro y hy z hz
          rw [List.mem_append, List.mem_singleton] at hy
          rcases hy with hy | rfl
          · exact hfound y hy z (List.mem_cons_of_mem x hz)
          · exact hsorted.1 z hz)
        refine ⟨?_, fun y hy => h2 y (List.mem_append_left _ hy), ?_⟩
        · rintro z (_ | ⟨_, hz⟩) hne
          · exact ⟨x, h2 x (by simp), rfl, le_rfl⟩
          · exact h1 z hz hne
        · intro y hy
          rcases h3 y hy with hy | ⟨hy, hne⟩
          · rw [List.mem_append, List.mem_singleton] at hy
            rcases hy with hy | rfl
            · exact Or.inl hy
            · exact Or.inr ⟨List.mem_cons_self, hnew.1⟩
          · exact Or.inr ⟨List.mem_cons_of_mem x hy, hne⟩
      · rw [if_neg hnew]
        obtain ⟨h1, h2, h3⟩ := ih found hsorted.2 fun y hy z hz =>
          hfound y hy z (List.mem_cons_of_mem x hz)
        refine ⟨?_, h2, ?_⟩
        · rintro z (_ | ⟨_, hz⟩) hne
          · -- the slot has been found at a position before
            have hold : ∃ y ∈ found, y.1 = x.1 := by
              by_contra hno
              push Not at hno
              exact hnew ⟨hne, hno⟩
            obtain ⟨y, hy, heq⟩ := hold
            exact ⟨y, h2 y hy, heq, hfound y hy x List.mem_cons_self⟩
          · exact h1 z hz hne
        · intro y hy
          rcases h3 y hy with hy | ⟨hy, hne⟩
          · exact Or.inl hy
          · exact Or.inr ⟨List.mem_cons_of_mem x hy, hne⟩

lemma singles_sorted (a : PathAutomaton) : ((List.range' 1 (a.states.length - 1)).flatMap fun p =>
    (a.singlesAt p).map fun slot => (slot, p)).Pairwise fun x y => x.2 ≤ y.2 := by
  rw [List.pairwise_flatMap]
  constructor
  · intro p _
    rw [List.pairwise_map]
    exact List.pairwise_of_forall fun _ _ => le_rfl
  · refine (List.pairwise_lt_range').imp ?_
    intro p p' hlt x hx y hy
    rw [List.mem_map] at hx hy
    obtain ⟨s, -, rfl⟩ := hx
    obtain ⟨s', -, rfl⟩ := hy
    exact hlt.le

lemma lt_of_nodeBinding (h : a.nodeBinding p = some b) : p < a.states.length := by
  by_contra hlt
  rw [nodeBinding, state, List.getD_eq_getElem?_getD, List.getElem?_eq_none (not_lt.1 hlt)] at h
  simp at h

lemma lt_of_viaBinding {l : ℕ} (h : a.viaBinding l = some b) : l < a.links.length := by
  obtain ⟨step, hstep⟩ := (viaBinding_group h).2
  by_contra hlt
  have hlink : a.link l = .same := by
    rw [link, List.getD_eq_getElem?_getD, List.getElem?_eq_none (not_lt.1 hlt)]
    rfl
  rw [edgeStep_eq_none.2 hlink] at hstep
  cases hstep

/-- A variable that is no group, bound past the start up to a position, is a key there. -/
lemma mem_keySlots_single (hs : a.Sound width selector) (hg : b.group = false) (h1 : 1 ≤ p)
    (hq : p ≤ q) (hb : a.nodeBinding p = some b ∨ a.viaBinding (p - 1) = some b)
    (hne : (a.nodeBinding 0).map Binding.slot ≠ some b.slot) : b.slot ∈ a.keySlots q := by
  have hlt : p < a.states.length := by
    rcases hb with hb | hb
    · exact lt_of_nodeBinding hb
    · have := lt_of_viaBinding hb
      have := hs.links
      omega
  have hmem : (b.slot, p) ∈ (List.range' 1 (a.states.length - 1)).flatMap fun p =>
      (a.singlesAt p).map fun slot => (slot, p) := by
    rw [List.mem_flatMap]
    refine ⟨p, by rw [List.mem_range'_1]; omega, List.mem_map_of_mem ?_⟩
    rw [singlesAt]
    refine List.mem_map_of_mem (List.mem_filter.2 ⟨?_, by simp [hg]⟩)
    rw [List.mem_append, Option.mem_toList, Option.mem_toList]
    exact hb.symm
  obtain ⟨y, hy, heq, hle⟩ := (foldl_first [] (singles_sorted a) (by simp)).1 _ hmem
    (Ne.symm hne)
  rw [keySlots, List.mem_append, List.mem_insertionSort, List.mem_map]
  refine Or.inl ⟨y, List.mem_filter.2 ⟨hy, ?_⟩, heq⟩
  simp only [decide_eq_true_eq]
  exact hle.trans hq

/-- A group bound in the iteration a position is strictly inside of is a key there. -/
lemma mem_keySlots_group {r : Repeat} (hs : a.Sound width selector) (hr : r ∈ a.repeats)
    (h1 : r.first ≤ q) (h2 : q < r.last)
    (hb : (∃ p, r.first ≤ p ∧ p ≤ q ∧ a.nodeBinding p = some b)
      ∨ ∃ l, r.first ≤ l ∧ l < q ∧ a.viaBinding l = some b) : b.slot ∈ a.keySlots q := by
  rw [keySlots, insideOf_eq hs hr h1 h2]
  simp only [List.mem_append, List.mem_filterMap, List.mem_range'_1]
  rcases hb with ⟨p, h3, h4, hb⟩ | ⟨l, h3, h4, hb⟩
  · exact Or.inr (Or.inl ⟨p, by omega, by simp [hb]⟩)
  · exact Or.inr (Or.inr ⟨l, by omega, by simp [hb]⟩)

lemma mem_firstSingles (h : slot ∈ (a.firstSingles.filter fun x => decide (x.2 ≤ q)).map Prod.fst) :
    slot ∈ a.singles := by
  obtain ⟨y, hy, rfl⟩ := List.mem_map.1 h
  rw [List.mem_filter] at hy
  rcases (foldl_first [] (singles_sorted a) (by simp)).2.2 y hy.1 with hmem | ⟨hmem, -⟩
  · simp at hmem
  · rw [List.mem_flatMap] at hmem
    obtain ⟨p, -, hmem⟩ := hmem
    rw [List.mem_map] at hmem
    obtain ⟨s, hs, rfl⟩ := hmem
    rw [singlesAt, List.mem_map] at hs
    obtain ⟨b, hb, rfl⟩ := hs
    rw [List.mem_filter, List.mem_append, Option.mem_toList, Option.mem_toList] at hb
    refine List.mem_map_of_mem (List.mem_filter.2 ⟨?_, hb.2⟩)
    rcases hb.1 with hb | hb
    · exact mem_bindings_of_via hb
    · exact mem_bindings_of_node hb

/-- Where no iteration goes on every key is a variable that is no group. -/
lemma single_of_mem_keySlots (h : slot ∈ a.keySlots q) (hq : a.insideOf q = none) :
    slot ∈ a.singles := by
  rw [keySlots, hq, List.append_nil, List.mem_insertionSort] at h
  exact mem_firstSingles h

end Keys
end PathAutomaton

/-! ## Rows, by slots -/

section Rows

variable {base row row' : Row α} {slot : ℕ} {l m : List (Binding × Element)}

lemma row_ext (hlen : row.length = row'.length) (h : ∀ slot, row.value slot = row'.value slot) :
    row = row' := by
  refine List.ext_getElem hlen fun i h1 h2 => ?_
  have := h i
  rwa [Row.value, Row.value, List.getD_eq_getElem?_getD, List.getD_eq_getElem?_getD,
    List.getElem?_eq_getElem h1, List.getElem?_eq_getElem h2] at this

lemma length_written (base : Row α) (l : List (Binding × Element)) :
    (written base l).length = base.length := by
  induction l generalizing base with
  | nil => rfl
  | cons x l ih =>
      rw [written, List.foldl_cons]
      exact (ih _).trans List.length_set

lemma length_fill (row : Row α) (slots : List ℕ) (values : List (BindingValue α)) :
    (PathAutomaton.fill row slots values).length = row.length := by
  rw [PathAutomaton.fill]
  generalize slots.zip values = l
  induction l generalizing row with
  | nil => rfl
  | cons x l ih =>
      rw [List.foldl_cons]
      exact (ih _).trans List.length_set

/-- The slots filled hold what was filled in. -/
lemma value_fill {slots : List ℕ} {f : ℕ → BindingValue α} (h : ∀ s ∈ slots, s < row.length) :
    Row.value (PathAutomaton.fill row slots (slots.map f)) slot
      = if slot ∈ slots then f slot else row.value slot := by
  induction slots generalizing row with
  | nil => simp [PathAutomaton.fill]
  | cons s slots ih =>
      have hs := h s List.mem_cons_self
      have hstep : PathAutomaton.fill row (s :: slots) ((s :: slots).map f)
          = PathAutomaton.fill (row.set s (f s)) slots (slots.map f) := rfl
      rw [hstep, ih fun t ht => by
        rw [List.length_set]
        exact h t (List.mem_cons_of_mem s ht)]
      by_cases hmem : slot ∈ slots
      · simp [hmem]
      · rw [if_neg hmem, value_set hs]
        by_cases heq : s = slot
        · simp [heq]
        · simp [heq, hmem, Ne.symm heq]

/-- Writes to other slots do not matter. -/
lemma value_written_filter {p : Binding × Element → Bool} (hslots : ∀ x ∈ l, x.1.slot < base.length)
    (h : ∀ x ∈ l, p x = false → x.1.slot ≠ slot) :
    Row.value (written base l) slot = Row.value (written base (l.filter p)) slot := by
  induction l using List.reverseRecOn with
  | nil => rfl
  | append_singleton l x ih =>
      have hlast : ∀ (row : Row α), written row [x] = row.set x.1.slot (.element x.2) := fun _ => rfl
      have ih := ih (fun y hy => hslots y (List.mem_append_left _ hy))
        fun y hy => h y (List.mem_append_left _ hy)
      have hx := hslots x (by simp)
      rw [written_append, hlast, value_set (by rwa [length_written]), List.filter_append]
      cases hp : p x with
      | false =>
          have hne := h x (by simp) hp
          rw [if_neg hne, ih]
          simp [hp]
      | true =>
          have hone : [x].filter p = [x] := by simp [hp]
          rw [hone, written_append, hlast, value_set (by rwa [length_written]), ih]

lemma value_written_of_ne (hslots : ∀ x ∈ l, x.1.slot < base.length)
    (h : ∀ x ∈ l, x.1.slot ≠ slot) : Row.value (written base l) slot = base.value slot := by
  have := value_written_filter (p := fun _ => false) hslots fun x hx _ => h x hx
  rwa [List.filter_false] at this

end Rows

namespace PathAutomaton

/-! ## What a state carries -/

section Carry

variable {a : PathAutomaton} {width : ℕ} {selector : Bool} {g : Keyspaces}
  {holds : ℕ → Row α → Bool} {base : Row α} {start : EntityId} {visits : List Visit} {v : Visit}
  {x : Binding × Element} {q k : ℕ} {c d : Config}

lemma scope_concat (a : PathAutomaton) (visits : List Visit) (v : Visit) : a.scope (visits ++ [v])
    = (if a.continues v.q then a.scope visits else single (a.scope visits)) ++ a.bound v := by
  simp [scope]

lemma scope_subset (h : x ∈ a.scope visits) : x ∈ visits.flatMap a.bound := by
  induction visits using List.reverseRecOn with
  | nil => simp [scope] at h
  | append_singleton visits v ih =>
      rw [scope_concat, List.mem_append] at h
      rw [List.flatMap_append, List.flatMap_singleton, List.mem_append]
      refine h.imp_left fun h => ?_
      split_ifs at h
      · exact ih h
      · exact ih (List.mem_of_mem_filter h)

/-- What is no group stays in scope. -/
lemma mem_scope_single (hg : x.1.group = false) : x ∈ a.scope visits ↔ x ∈ visits.flatMap a.bound := by
  refine ⟨scope_subset, fun h => ?_⟩
  induction visits using List.reverseRecOn with
  | nil => simp at h
  | append_singleton visits v ih =>
      rw [List.flatMap_append, List.flatMap_singleton, List.mem_append] at h
      rw [scope_concat, List.mem_append]
      refine h.imp_left fun h => ?_
      split_ifs
      · exact ih h
      · exact List.mem_filter.2 ⟨ih h, by simp [hg]⟩

/-- What is in scope for a visit that follows one at a position. -/
def carry (a : PathAutomaton) (q : ℕ) (visits : List Visit) : List (Binding × Element) :=
  if (a.insideOf q).isSome then a.scope visits else single (a.scope visits)

/-- The visits of a configuration that is reached, their scope placed. -/
lemma placed_of_reached (hs : a.Sound width selector) (hmirror : g.reverse.keys = g.primary.keys)
    {view : List Visit → Row α} (h : a.Reached g holds view base start c) :
    ∀ x ∈ a.scope c.visits, a.Placed c.visit.q x.1 := by
  obtain ⟨r, hr, hreach⟩ := h
  induction hreach with
  | refl =>
      obtain rfl := (partly_root (g := g) hr).2
      intro x hx
      have hx' : x ∈ a.bound ⟨0, start, none⟩ := by
        have := scope_subset hx
        simpa [Config.visits] using this
      exact placed_bound (by simp) hx'
  | @tail c d _ hstep ih =>
      intro x hx
      rw [children_visits hstep, scope_concat, List.mem_append] at hx
      rw [children, mem_passing, mem_candidates hs hmirror] at hstep
      have hhop := hop_of_succs hstep.2.1.1
      rcases hx with hx | hx
      · split_ifs at hx with hcont
        · exact (ih x hx).hop hs hhop fun _ => hcont
        · refine (ih x (List.mem_of_mem_filter hx)).hop hs hhop fun hg => ?_
          have hsingle := (List.mem_filter.1 hx).2
          simp [hg] at hsingle
      · refine placed_bound (fun hvia => ?_) hx
        have hjoined := via_isSome hstep.2.1.2.1
        rw [hvia, joint] at hjoined
        split_ifs at hjoined with hq
        · omega
        · cases hjoined

/-- What is carried is in the key slots, or in the slot of the start. -/
lemma carry_keys (hs : a.Sound width selector)
    (hplaced : ∀ x ∈ a.scope visits, a.Placed q x.1) (hx : x ∈ a.carry q visits) :
    x.1.slot ∈ a.keySlots q ∨ x.1.group = false
      ∧ (a.nodeBinding 0).map Binding.slot = some x.1.slot := by
  have hscope : x ∈ a.scope visits := by
    rw [carry] at hx
    split_ifs at hx
    · exact hx
    · exact List.mem_of_mem_filter hx
  have hp := hplaced x hscope
  rw [Placed] at hp
  split_ifs at hp with hg
  · left
    obtain ⟨r, hr, h1, h2, hbound⟩ := hp
    have hin : (a.insideOf q).isSome = true := by
      by_contra hnone
      rw [carry, if_neg hnone] at hx
      simpa [hg] using (List.mem_filter.1 hx).2
    obtain ⟨s, hs', h3, h4⟩ := insideOf_isSome.1 hin
    obtain rfl : r = s := by
      rcases repeats_apart hs hr hs' with rfl | h5
      · rfl
      · omega
    exact mem_keySlots_group hs hr h3 h4 hbound
  · rw [Bool.not_eq_true] at hg
    by_cases hstart : (a.nodeBinding 0).map Binding.slot = some x.1.slot
    · exact Or.inr ⟨hg, hstart⟩
    · rcases hp with hp | ⟨p, h1, h2, hbound⟩
      · exact absurd (by rw [hp]; rfl) hstart
      · exact Or.inl (mem_keySlots_single hs hg h1 h2 hbound hstart)

lemma keySlots_lt (hs : a.Sound width selector) {slot : ℕ} (h : slot ∈ a.keySlots q) :
    slot < width := by
  cases hin : a.insideOf q with
  | none =>
      obtain ⟨b, hb, rfl⟩ := List.mem_map.1 (single_of_mem_keySlots h hin)
      exact hs.slots b (List.mem_of_mem_filter hb)
  | some r =>
      rw [keySlots, hin, List.mem_append] at h
      rcases h with h | h
      · have hsingle : slot ∈ a.singles := by
          rw [List.mem_insertionSort] at h
          exact mem_firstSingles h
        obtain ⟨b, hb, rfl⟩ := List.mem_map.1 hsingle
        exact hs.slots b (List.mem_of_mem_filter hb)
      · simp only [List.mem_append, List.mem_filterMap, Option.map_eq_some_iff] at h
        rcases h with ⟨p, -, b, hb, rfl⟩ | ⟨l, -, b, hb, rfl⟩
        · exact hs.slots b (mem_bindings_of_node hb)
        · exact hs.slots b (mem_bindings_of_via hb)

/-- **The key slots hold all that is in scope for the next visit**: filled into the row of the start, they
give the input row with it written in. -/
theorem carried_eq (hs : a.Sound width selector) (hlen : base.length = width)
    (hplaced : ∀ x ∈ a.scope visits, a.Placed q x.1) (hagree : Agree base (visits.flatMap a.bound))
    (hfirst : ∃ rest, visits = ⟨0, start, none⟩ :: rest) :
    fill (a.view base [⟨0, start, none⟩]) (a.keySlots q) (a.keyValues (a.view base visits) q)
      = written base (a.carry q visits) := by
  have hslots : ∀ x ∈ a.scope visits, x.1.slot < base.length := fun x hx =>
    (kept_bound hs hlen visits).slots x (scope_subset hx)
  have hcarry : ∀ x ∈ a.carry q visits, x ∈ a.scope visits := by
    intro x hx
    rw [carry] at hx
    split_ifs at hx
    · exact hx
    · exact List.mem_of_mem_filter hx
  have hview : (a.view base [⟨0, start, none⟩]).length = base.length := length_written _ _
  refine row_ext ?_ fun slot => ?_
  · rw [length_fill, hview, length_written]
  · rw [keyValues, value_fill fun s hs' => by rw [hview, hlen]; exact keySlots_lt hs hs']
    by_cases hmem : slot ∈ a.keySlots q
    · rw [if_pos hmem, view, carry]
      split_ifs with hin
      · rfl
      · -- the groups that go out of scope are in no key slot
        refine value_written_filter hslots fun x hx hg => ?_
        rw [Bool.not_eq_false'] at hg
        rintro rfl
        have hsingle := single_of_mem_keySlots hmem (by simpa using hin)
        refine hs.disjoint _ ?_ hsingle
        obtain ⟨v, -, hv⟩ := List.mem_flatMap.1 (scope_subset hx)
        exact List.mem_map_of_mem (List.mem_filter.2 ⟨mem_bindings_of_bound hv, hg⟩)
    · rw [if_neg hmem]
      have hscope : a.scope [⟨0, start, none⟩] = a.bound ⟨0, start, none⟩ := by simp [scope, single]
      have hbound : a.bound ⟨0, start, none⟩
          = (a.nodeBinding 0).toList.map fun b => (b, .node start) := rfl
      have hslots' : ∀ x ∈ a.carry q visits, x.1.slot < base.length := fun x hx =>
        hslots x (hcarry x hx)
      rw [view, hscope, hbound]
      cases hb : a.nodeBinding 0 with
      | none =>
          rw [value_written_of_ne (by simp) (by simp), value_written_of_ne hslots' ?_]
          intro x hx heq
          rcases carry_keys hs hplaced hx with hkey | ⟨-, hstart⟩
          · exact hmem (heq ▸ hkey)
          · simp [hb] at hstart
      | some b =>
          have hg : b.group = false := by
            rw [nodeBinding_group hb, ← Bool.not_eq_true, stateInRepeat_iff]
            rintro ⟨r, hr, h1, -⟩
            have := (hs.repeats r hr).first_pos
            omega
          have hlt : b.slot < base.length := by
            rw [hlen]
            exact hs.slots b (mem_bindings_of_node hb)
          -- the start's element is carried
          have hall : (b, Element.node start) ∈ visits.flatMap a.bound := by
            obtain ⟨rest, rfl⟩ := hfirst
            rw [List.flatMap_cons, List.mem_append, hbound, hb]
            simp
          have hin : (b, Element.node start) ∈ a.carry q visits := by
            have hsc := (mem_scope_single hg).2 hall
            rw [carry]
            split_ifs
            · exact hsc
            · exact List.mem_filter.2 ⟨hsc, by simp [hg]⟩
          by_cases heq : b.slot = slot
          · subst heq
            have hleft : Row.value (written base ((some b).toList.map fun b => (b, Element.node start)))
                b.slot = .element (.node start) := by
              change Row.value (base.set b.slot _) b.slot = _
              rw [value_set hlt, if_pos rfl]
            rw [hleft]
            rcases value_written b.slot hslots' with ⟨x, hx, hslot, hval⟩ | ⟨hnone, -⟩
            · rw [hval]
              have hgx : x.1.group = false := by
                rcases carry_keys hs hplaced hx with hkey | ⟨hgx, -⟩
                · exact absurd (hslot ▸ hkey) hmem
                · exact hgx
              rw [(hagree _ hall hg).2 x (scope_subset (hcarry x hx)) hgx hslot]
            · exact absurd rfl (hnone _ hin)
          · rw [value_written_of_ne (by simpa using hlt) (by simpa using heq),
              value_written_of_ne hslots' ?_]
            intro x hx hslot
            rcases carry_keys hs hplaced hx with hkey | ⟨-, hstart⟩
            · exact hmem (hslot ▸ hkey)
            · rw [hb, Option.map_some, Option.some.injEq] at hstart
              exact heq (hstart.trans hslot)

/-! ## The next visit -/

lemma view_next (base : Row α) (visits : List Visit) (hs : a.Sound width selector) {k' : ℕ}
    (h : (v.q, k') ∈ a.succs q k) :
    a.view base (visits ++ [v]) = written (written base (a.carry q visits)) (a.bound v) := by
  have hcont := continues_hop hs (hop_of_succs h)
  rw [view, scope_concat, written_append, carry]
  by_cases hin : (a.insideOf q).isSome = true
  · rw [if_pos hin, if_pos (hcont.2 hin)]
  · rw [if_neg hin, if_neg fun hc => hin (hcont.1 hc)]

lemma agree_congr {l m : List (Binding × Element)}
    (h : ∀ x : Binding × Element, x.1.group = false → (x ∈ l ↔ x ∈ m)) :
    Agree base l ↔ Agree base m := by
  have hone : ∀ {l m : List (Binding × Element)},
      (∀ x : Binding × Element, x.1.group = false → (x ∈ l ↔ x ∈ m)) → Agree base l → Agree base m := by
    intro l m h hl x hx hg
    obtain ⟨h1, h2⟩ := hl x ((h x hg).2 hx) hg
    exact ⟨h1, fun y hy hgy => h2 y ((h y hgy).2 hy) hgy⟩
  exact ⟨hone h, hone fun x hg => (h x hg).symm⟩

lemma mem_carry_single (hg : x.1.group = false) :
    x ∈ a.carry q visits ↔ x ∈ visits.flatMap a.bound := by
  rw [← mem_scope_single hg, carry]
  split_ifs
  · exact Iff.rfl
  · simp [single, hg]

lemma agree_next (hs : a.Sound width selector) (hlen : base.length = width)
    (hagree : Agree base (visits.flatMap a.bound)) :
    Agree base ((visits ++ [v]).flatMap a.bound)
      ↔ Fits (written base (a.carry q visits)) (a.bound v) := by
  have hkept := kept_bound hs hlen (visits ++ [v])
  rw [List.flatMap_append, List.flatMap_singleton] at hkept ⊢
  have hsub : ∀ x ∈ a.carry q visits ++ a.bound v, x ∈ visits.flatMap a.bound ++ a.bound v := by
    intro x hx
    rw [List.mem_append] at hx ⊢
    refine hx.imp_left fun hx => ?_
    rw [carry] at hx
    split_ifs at hx
    · exact scope_subset hx
    · exact scope_subset (List.mem_of_mem_filter hx)
  have hkept' : Kept base (a.carry q visits ++ a.bound v) :=
    ⟨fun x hx => hkept.slots x (hsub x hx), fun x hx y hy => hkept.kinds x (hsub x hx) y (hsub y hy)⟩
  have hcongr : Agree base (visits.flatMap a.bound ++ a.bound v)
      ↔ Agree base (a.carry q visits ++ a.bound v) :=
    agree_congr fun x hg => by rw [List.mem_append, List.mem_append, mem_carry_single hg]
  have hold : Agree base (a.carry q visits) := (agree_congr fun x hg => mem_carry_single hg).2 hagree
  rw [hcongr, agree_append hkept']
  exact ⟨fun h => h.2, fun h => ⟨hold, h⟩⟩

/-- What the next visit is tested over: the row of the start with the key values filled in. -/
def restored (a : PathAutomaton) (base : Row α) (start : EntityId) (c : Config) : Row α :=
  fill (a.view base [⟨0, start, none⟩]) (a.keySlots c.visit.q)
    (a.keyValues (a.view base c.visits) c.visit.q)

lemma restored_eq (hs : a.Sound width selector) (hmirror : g.reverse.keys = g.primary.keys)
    (hlen : base.length = width) (h : a.Reached g holds (a.view base) base start c) :
    a.restored base start c = written base (a.carry c.visit.q c.visits) := by
  have hp := partly_of_reached hs hmirror h
  exact carried_eq hs hlen (placed_of_reached hs hmirror h) hp.agree hp.first

/-- **What a visit is tested on**: the row a state restores, its mode apart. -/
theorem passes_iff (hs : a.Sound width selector) (hmirror : g.reverse.keys = g.primary.keys)
    (hlen : base.length = width) (h : a.Reached g holds (a.view base) base start c) {k' : ℕ}
    (hsucc : (v.q, k') ∈ a.succs c.visit.q c.k) :
    a.view base (c.visits ++ [v]) = written (a.restored base start c) (a.bound v)
      ∧ (a.Passes holds (a.view base) base start c.visits v ↔ a.labelsAdmit v.q v.node = true
        ∧ a.mode.Allows start (c.visits ++ [v]) ∧ Fits (a.restored base start c) (a.bound v)
        ∧ ∀ p ∈ a.predicates v.q v.crossed,
          holds p (written (a.restored base start c) (a.bound v)) = true) := by
  have hp := partly_of_reached hs hmirror h
  have hview := view_next base c.visits hs hsucc
  have hfits := agree_next (v := v) (q := c.visit.q) hs hlen hp.agree
  rw [← restored_eq hs hmirror hlen h] at hview hfits
  refine ⟨hview, ?_⟩
  rw [← hview, ← hfits]
  constructor
  · intro hpass
    exact ⟨hpass.labels, hpass.mode, hpass.agree, hpass.tests⟩
  · rintro ⟨h1, h2, h3, h4⟩
    exact ⟨h1, h2, h3, h4⟩

end Carry
end PathAutomaton

end Engine.Gql
