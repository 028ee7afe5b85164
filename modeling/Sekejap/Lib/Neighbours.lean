import Mathlib.Data.List.Nodup
import Mathlib.Data.Set.Insert
import Mathlib.Logic.Function.Basic

/-!
# Neighbour lists

A graph is kept as a list of neighbours for each node, and an edge stands in the lists of both its
ends.  `Linked` says so, but for the pairs that a change under way has written on one side only.

* **`Linked.answer`** — an edge that stands on one side is put on the other.
* **`Linked.connect`** — an edge is put on both sides.
* **`Linked.prune`** — one list is cut down, and its node goes from the lists it no longer names.
* **`Linked.remove`** — a node goes.
-/

namespace Neighbours

variable {V : Type}

/-- **The lists of `nodes` name nodes, each once and none itself, and name one another** but for the
pairs still `due`. -/
structure Linked (nodes : Set V) (due : V → V → Prop) (lists : V → List V) : Prop where
  nodup : ∀ v, (lists v).Nodup
  loopless : ∀ v, v ∉ lists v
  closed : ∀ v w, w ∈ lists v → v ∈ nodes ∧ w ∈ nodes
  symm : ∀ v w, w ∈ lists v → v ∈ lists w ∨ due v w

/-- No pair is due. -/
def settled (_ _ : V) : Prop := False

section

variable [DecidableEq V]

/-- One list is replaced by `kept`, and `v` goes from the lists of those it no longer names. -/
def pruned (lists : V → List V) (v : V) (kept : List V) (u : V) : List V :=
  if u = v then kept
  else if u ∈ lists v ∧ u ∉ kept then (lists u).filter (· ≠ v)
  else lists u

/-- A node goes from every list. -/
def removed (lists : V → List V) (v u : V) : List V :=
  if u = v then [] else (lists u).filter (· ≠ v)

/-- An edge is put on both sides. -/
def connected (lists : V → List V) (v w : V) : V → List V :=
  Function.update (Function.update lists v (lists v ++ [w])) w (lists w ++ [v])

end

section

variable {nodes : Set V} {due due' : V → V → Prop} {lists : V → List V} {v w u : V} {kept : List V}

lemma Linked.mono (h : Linked nodes due lists) (hd : ∀ v w, due v w → due' v w) :
    Linked nodes due' lists :=
  ⟨h.nodup, h.loopless, h.closed, fun v w hw => (h.symm v w hw).imp_right (hd v w)⟩

lemma Linked.empty (nodes : Set V) (due : V → V → Prop) : Linked nodes due fun _ => [] :=
  ⟨fun _ => List.nodup_nil, fun _ => List.not_mem_nil, by simp, by simp⟩

lemma nodup_append_singleton {l : List V} (h : l.Nodup) (hw : w ∉ l) : (l ++ [w]).Nodup := by
  rw [List.nodup_append]
  refine ⟨h, List.nodup_singleton w, ?_⟩
  rintro a ha b hb rfl
  exact hw (List.mem_singleton.1 hb ▸ ha)

variable [DecidableEq V]

/-- **The other side of an edge is written.** -/
lemma Linked.answer (h : Linked nodes due lists) (hwv : w ∈ lists v) (hvw : v ∉ lists w)
    (hdue : ∀ a b, due a b → due' a b ∨ (a = v ∧ b = w)) :
    Linked nodes due' (Function.update lists w (lists w ++ [v])) := by
  have hne : v ≠ w := by
    rintro rfl
    exact hvw hwv
  obtain ⟨hv, hw⟩ := h.closed v w hwv
  refine ⟨fun a => ?_, fun a ha => ?_, fun a b hb => ?_, fun a b hb => ?_⟩
  · by_cases haw : a = w
    · subst haw
      rw [Function.update_self]
      exact nodup_append_singleton (h.nodup a) hvw
    · rw [Function.update_of_ne haw]
      exact h.nodup a
  · by_cases haw : a = w
    · subst haw
      rw [Function.update_self, List.mem_append, List.mem_singleton] at ha
      exact ha.elim (h.loopless a) fun he => hne he.symm
    · rw [Function.update_of_ne haw] at ha
      exact h.loopless a ha
  · by_cases haw : a = w
    · subst haw
      rw [Function.update_self, List.mem_append, List.mem_singleton] at hb
      rcases hb with hb | rfl
      · exact h.closed a b hb
      · exact ⟨hw, hv⟩
    · rw [Function.update_of_ne haw] at hb
      exact h.closed a b hb
  · by_cases haw : a = w
    · subst haw
      rw [Function.update_self, List.mem_append, List.mem_singleton] at hb
      rcases hb with hb | rfl
      · rcases h.symm a b hb with hab | hd
        · left
          by_cases hbw : b = a
          · subst hbw
            simp [hab]
          · rw [Function.update_of_ne hbw]
            exact hab
        · exact Or.inr ((hdue a b hd).resolve_right fun he => hne he.1.symm)
      · left
        rw [Function.update_of_ne hne]
        exact hwv
    · rw [Function.update_of_ne haw] at hb
      rcases h.symm a b hb with hab | hd
      · left
        by_cases hbw : b = w
        · subst hbw
          simp [hab]
        · rw [Function.update_of_ne hbw]
          exact hab
      · rcases hdue a b hd with hd' | ⟨rfl, rfl⟩
        · exact Or.inr hd'
        · left
          simp

/-- **An edge is put on both sides.** -/
lemma Linked.connect (h : Linked nodes settled lists) (hv : v ∈ nodes) (hw : w ∈ nodes)
    (hne : v ≠ w) (hwv : w ∉ lists v) : Linked nodes settled (connected lists v w) := by
  have hvw : v ∉ lists w := fun hmem => (h.symm w v hmem).elim hwv id
  have hmem : ∀ a b, b ∈ connected lists v w a ↔ b ∈ lists a ∨ (a = v ∧ b = w) ∨ (a = w ∧ b = v) := by
    intro a b
    by_cases haw : a = w
    · subst haw
      simp [connected, hne.symm]
    · by_cases hav : a = v
      · subst hav
        simp [connected, haw]
      · simp [connected, haw, hav]
  refine ⟨fun a => ?_, fun a ha => ?_, fun a b hb => ?_, fun a b hb => ?_⟩
  · by_cases haw : a = w
    · subst haw
      rw [connected, Function.update_self]
      exact nodup_append_singleton (h.nodup a) hvw
    · rw [connected, Function.update_of_ne haw]
      by_cases hav : a = v
      · subst hav
        rw [Function.update_self]
        exact nodup_append_singleton (h.nodup a) hwv
      · rw [Function.update_of_ne hav]
        exact h.nodup a
  · rcases (hmem a a).1 ha with ha | ⟨rfl, rfl⟩ | ⟨rfl, rfl⟩
    · exact h.loopless a ha
    · exact hne rfl
    · exact hne rfl
  · rcases (hmem a b).1 hb with hb | ⟨rfl, rfl⟩ | ⟨rfl, rfl⟩
    · exact h.closed a b hb
    · exact ⟨hv, hw⟩
    · exact ⟨hw, hv⟩
  · left
    rw [hmem]
    rcases (hmem a b).1 hb with hb | ⟨rfl, rfl⟩ | ⟨rfl, rfl⟩
    · exact Or.inl ((h.symm a b hb).resolve_right id)
    · exact Or.inr (Or.inr ⟨rfl, rfl⟩)
    · exact Or.inr (Or.inl ⟨rfl, rfl⟩)

lemma mem_pruned :
    w ∈ pruned lists v kept u ↔
      (u = v ∧ w ∈ kept) ∨ (u ≠ v ∧ w ∈ lists u ∧ ¬ (w = v ∧ u ∈ lists v ∧ u ∉ kept)) := by
  rw [pruned]
  by_cases huv : u = v
  · simp [huv]
  · by_cases hd : u ∈ lists v ∧ u ∉ kept
    · simp [huv, hd]
    · simp [huv, hd]

/-- **A list is cut down on both sides.** -/
lemma Linked.prune (h : Linked nodes due lists) (hk : kept ⊆ lists v) (hnodup : kept.Nodup)
    (hout : ∀ u, ¬ due v u) (hin : ∀ u, ¬ due u v) : Linked nodes due (pruned lists v kept) := by
  refine ⟨fun a => ?_, fun a ha => ?_, fun a b hb => ?_, fun a b hb => ?_⟩
  · rw [pruned]
    split_ifs
    · exact hnodup
    · exact (h.nodup a).filter _
    · exact h.nodup a
  · rcases mem_pruned.1 ha with ⟨rfl, hmem⟩ | ⟨-, hmem, -⟩
    · exact h.loopless a (hk hmem)
    · exact h.loopless a hmem
  · rcases mem_pruned.1 hb with ⟨rfl, hmem⟩ | ⟨-, hmem, -⟩
    · exact h.closed a b (hk hmem)
    · exact h.closed a b hmem
  · rcases mem_pruned.1 hb with ⟨rfl, hmem⟩ | ⟨hav, hmem, hkeep⟩
    · left
      have hne : b ≠ a := by
        rintro rfl
        exact h.loopless b (hk hmem)
      have hab := (h.symm a b (hk hmem)).resolve_right (hout b)
      exact mem_pruned.2 (Or.inr ⟨hne, hab, fun hd => hd.2.2 hmem⟩)
    · rcases h.symm a b hmem with hab | hd
      · left
        by_cases hbv : b = v
        · subst hbv
          refine mem_pruned.2 (Or.inl ⟨rfl, ?_⟩)
          by_contra hnot
          exact hkeep ⟨rfl, hab, hnot⟩
        · exact mem_pruned.2 (Or.inr ⟨hbv, hab, fun hd => hav hd.1⟩)
      · exact Or.inr hd

/-- **A node goes.** -/
lemma Linked.remove (h : Linked nodes settled lists) (v : V) :
    Linked {u | u ∈ nodes ∧ u ≠ v} settled (removed lists v) := by
  have hmem : ∀ a b, b ∈ removed lists v a ↔ a ≠ v ∧ b ≠ v ∧ b ∈ lists a := by
    intro a b
    rw [removed]
    by_cases hav : a = v
    · simp [hav]
    · simp [hav, and_comm]
  refine ⟨fun a => ?_, fun a ha => h.loopless a ((hmem a a).1 ha).2.2, fun a b hb => ?_,
    fun a b hb => ?_⟩
  · rw [removed]
    split_ifs
    · exact List.nodup_nil
    · exact (h.nodup a).filter _
  · obtain ⟨ha, hb, hab⟩ := (hmem a b).1 hb
    obtain ⟨hna, hnb⟩ := h.closed a b hab
    exact ⟨⟨hna, ha⟩, hnb, hb⟩
  · obtain ⟨ha, hb, hab⟩ := (hmem a b).1 hb
    exact Or.inl ((hmem b a).2 ⟨hb, ha, (h.symm a b hab).resolve_right id⟩)

end

end Neighbours
