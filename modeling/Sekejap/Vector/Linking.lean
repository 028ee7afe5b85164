import Sekejap.Vector.WellFormed

/-!
# Linking and unlinking keep the graph well formed

A write holds the records it changes and writes them back at its end, so its lists are what is held
over what is stored (`Pending.names`).  Each of its steps is one of the operations on neighbour lists:
a back edge answers an edge of the new node, a prune cuts a list on both sides, a consolidation
connects two neighbours of a node that goes.

* **`linkNode_wellFormed`** — a new node is linked.
* **`unlinkNode_wellFormed`** — a node goes, when it is the entry or when the entry was chosen on a
  smaller graph than there is.
-/

open Fallible

open Neighbours (Linked settled pruned removed connected)

namespace Engine.Vamana

variable {H D : Type}

/-! ## Held records -/

/-- The sequences a list names, as the write sees it. -/
def Pending.names (p : Pending H D) (g : Graph H D) (seq : ℕ) : List ℕ :=
  ((p.held.lookup seq).map fun r => r.adjacency.sequences).getD (g.names seq)

/-- **The records held over a graph**: they are of `nodes`, what did not change is what is stored,
and what is not held is stored. -/
structure Over (g : Graph H D) (nodes : Set ℕ) (p : Pending H D) : Prop where
  held : ∀ seq r, p.held.lookup seq = some r → seq ∈ nodes
  clean : ∀ seq r, p.held.lookup seq = some r → seq ∉ p.dirty →
    g.lists.lookup seq = some r.adjacency
  dirty : ∀ seq ∈ p.dirty, (p.held.lookup seq).isSome
  stored : ∀ seq ∈ nodes, p.held.lookup seq = none → seq ∈ g.heads

/-- What is held stays held, and no list changes. -/
structure Extends (g : Graph H D) (p p' : Pending H D) : Prop where
  held : ∀ seq r, p.held.lookup seq = some r → p'.held.lookup seq = some r
  names : p'.names g = p.names g

section

variable {g : Graph H D} {nodes : Set ℕ} {p p' p₁ : Pending H D} {seq other : ℕ} {r : Record H D}
  {f : Adjacency D → Adjacency D}

lemma Extends.refl (g : Graph H D) (p : Pending H D) : Extends g p p := ⟨fun _ _ h => h, rfl⟩

lemma Extends.trans (h : Extends g p p₁) (h' : Extends g p₁ p') : Extends g p p' :=
  ⟨fun seq r hr => h'.held seq r (h.held seq r hr), h'.names.trans h.names⟩

lemma names_of_held (hr : p.held.lookup seq = some r) : p.names g seq = r.adjacency.sequences := by
  simp [Pending.names, hr]

lemma names_of_not_held (hr : p.held.lookup seq = none) : p.names g seq = g.names seq := by
  simp [Pending.names, hr]

/-- **A node's record is held**, read if it was not. -/
lemma fetch_node (hg : Meshed g) (ho : Over g nodes p) (hs : seq ∈ nodes) :
    ∃ r p', fetch g p seq = .ok (true, p') ∧ p'.held.lookup seq = some r ∧ Over g nodes p'
      ∧ Extends g p p' ∧ p'.dirty = p.dirty := by
  rw [fetch]
  cases hheld : p.held.lookup seq with
  | some r => exact ⟨r, p, rfl, hheld, ho, .refl g p, rfl⟩
  | none =>
      obtain ⟨head, a, -, ha, hread⟩ := hg.readRecord_node (ho.stored seq hs hheld)
      have hnames : g.names seq = a.sequences := by simp [Graph.names, ha]
      have hlookup : ∀ t, t ≠ seq →
          (p.held.insert seq ⟨head, a⟩).lookup t = p.held.lookup t := fun t ht =>
        Finmap.lookup_insert_of_ne _ ht
      refine ⟨⟨head, a⟩, { p with held := p.held.insert seq ⟨head, a⟩ }, ?_,
        Finmap.lookup_insert _, ?_, ?_, rfl⟩
      · simp only [hread, bind_eq_ok]
        exact ⟨_, rfl, rfl⟩
      · refine ⟨fun t r ht => ?_, fun t r ht hd => ?_, fun t ht => ?_, fun t ht hn => ?_⟩
        all_goals by_cases hts : t = seq
        · exact hts ▸ hs
        · exact ho.held t r (hlookup t hts ▸ ht)
        · subst hts
          rw [Finmap.lookup_insert] at ht
          cases ht
          exact ha
        · exact ho.clean t r (hlookup t hts ▸ ht) hd
        · subst hts
          rw [Finmap.lookup_insert]; rfl
        · rw [hlookup t hts]
          exact ho.dirty t ht
        · subst hts
          rw [Finmap.lookup_insert] at hn
          cases hn
        · exact ho.stored t ht (hlookup t hts ▸ hn)
      · refine ⟨fun t r ht => ?_, ?_⟩
        · have hts : t ≠ seq := by
            rintro rfl
            rw [hheld] at ht
            cases ht
          exact (hlookup t hts).trans ht
        · funext t
          by_cases hts : t = seq
          · subst hts
            rw [names_of_held (Finmap.lookup_insert _), names_of_not_held hheld, hnames]
          · rw [Pending.names, Pending.names, hlookup t hts]

lemma hold_node (hg : Meshed g) (ho : Over g nodes p) (hs : seq ∈ nodes) :
    ∃ r p', hold g p seq = .ok (r, p') ∧ p'.held.lookup seq = some r ∧ Over g nodes p'
      ∧ Extends g p p' ∧ p'.dirty = p.dirty := by
  obtain ⟨r, p', hfetch, hheld, hrest⟩ := fetch_node hg ho hs
  refine ⟨r, p', ?_, hheld, hrest⟩
  simp only [hold, bind_eq_ok, orElse_eq_ok, pure_eq_ok, Prod.exists]
  exact ⟨true, p', hfetch, r, hheld, rfl⟩

lemma held_touch (hr : p.held.lookup seq = some r) (t : ℕ) :
    (p.touch seq f).held.lookup t
      = if t = seq then some { r with adjacency := f r.adjacency } else p.held.lookup t := by
  simp only [Pending.touch, hr]
  split_ifs with ht
  · subst ht
    exact Finmap.lookup_insert _
  · exact Finmap.lookup_insert_of_ne _ ht

/-- **A held list is changed.** -/
lemma names_touch (hr : p.held.lookup seq = some r) :
    (p.touch seq f).names g = Function.update (p.names g) seq (f r.adjacency).sequences := by
  funext t
  by_cases ht : t = seq
  · subst ht
    rw [Function.update_self, Pending.names, held_touch hr, if_pos rfl]
    rfl
  · rw [Function.update_of_ne ht, Pending.names, Pending.names, held_touch hr, if_neg ht]

lemma Over.touch (ho : Over g nodes p) (hr : p.held.lookup seq = some r) :
    Over g nodes (p.touch seq f) := by
  have hdirty : (p.touch seq f).dirty = insert seq p.dirty := rfl
  refine ⟨fun t r' ht => ?_, fun t r' ht hd => ?_, fun t ht => ?_, fun t ht hn => ?_⟩
  · rw [held_touch hr] at ht
    split_ifs at ht with hts
    · exact hts ▸ ho.held seq r hr
    · exact ho.held t r' ht
  · rw [hdirty, Finset.mem_insert, not_or] at hd
    rw [held_touch hr, if_neg hd.1] at ht
    exact ho.clean t r' ht hd.2
  · rw [held_touch hr]
    split_ifs with hts
    · rfl
    · exact ho.dirty t (Finset.mem_of_mem_insert_of_ne ht hts)
  · rw [held_touch hr] at hn
    split_ifs at hn
    exact ho.stored t ht hn

lemma lookup_flush_list (l : List ℕ) (lists : Finmap fun _ : ℕ => Adjacency D) (seq : ℕ) :
    (l.foldl p.writeList lists).lookup seq
      = if seq ∈ l then ((p.held.lookup seq).map Record.adjacency).or (lists.lookup seq)
        else lists.lookup seq := by
  induction l generalizing lists with
  | nil => simp
  | cons t l ih =>
      rw [List.foldl_cons, ih]
      cases ht : p.held.lookup t with
      | none =>
          by_cases hst : seq = t
          · subst hst
            simp [ht, Pending.writeList]
          · simp [hst, ht, Pending.writeList]
      | some r =>
          by_cases hst : seq = t
          · subst hst
            simp [ht, Pending.writeList, Finmap.lookup_insert]
          · simp [hst, ht, Pending.writeList, Finmap.lookup_insert_of_ne]

/-- **What is written back.** -/
lemma lookup_flush (p : Pending H D) (g : Graph H D) (seq : ℕ) :
    (p.flush g).lists.lookup seq
      = if seq ∈ p.dirty then ((p.held.lookup seq).map Record.adjacency).or (g.lists.lookup seq)
        else g.lists.lookup seq := by
  rw [Pending.flush, lookup_flush_list]
  simp only [Graph.mem_ascending]

lemma names_flush (ho : Over g nodes p) : (p.flush g).names = p.names g := by
  funext seq
  rw [Graph.names, lookup_flush, Pending.names]
  cases hr : p.held.lookup seq with
  | none => simp [Graph.names]
  | some r =>
      by_cases hd : seq ∈ p.dirty
      · simp [hd]
      · simp [hd, ho.clean seq r hr hd]

lemma keys_flush (ho : Over g nodes p) :
    (p.flush g).lists.keys = g.lists.keys ∪ p.dirty := by
  ext seq
  simp only [Finset.mem_union, Finmap.mem_keys, ← Finmap.lookup_isSome, lookup_flush]
  by_cases hd : seq ∈ p.dirty
  · obtain ⟨r, hr⟩ := Option.isSome_iff_exists.1 (ho.dirty seq hd)
    simp [hd, hr]
  · simp [hd]

/-- **A graph whose held lists are linked is meshed once they are written back.** -/
lemma meshed_flush (ho : Over g nodes p) (hnodes : nodes = g.nodes) (hzero : 0 ∉ g.heads)
    (hkeys : g.lists.keys ∪ p.dirty = g.heads.keys) (hl : Linked nodes settled (p.names g))
    (hd : ∀ seq, (p.names g seq).length ≤ maxDegree) : Meshed (p.flush g) := by
  refine ⟨hzero, (keys_flush ho).trans hkeys, ?_, ?_⟩
  · rw [names_flush ho]
    exact hnodes ▸ hl
  · rw [names_flush ho]
    exact hd

end

/-! ## Pruning a list on both sides -/

section

variable [LinearOrder D] {m : Metric H D} {g : Graph H D} {nodes : Set ℕ} {p : Pending H D} {seq : ℕ}
  {r : Record H D} {due : ℕ → ℕ → Prop}

omit [LinearOrder D] in
lemma candidates_ok (hg : Meshed g) {edges : List (Edge D)} (ho : Over g nodes p)
    (he : ∀ e ∈ edges, e.seq ∈ nodes) :
    ∃ found p', candidates g p edges = .ok (found, p') ∧ Over g nodes p' ∧ Extends g p p'
      ∧ found.map Node.seq = edges.map Edge.seq
      ∧ ∀ e ∈ edges, (p'.held.lookup e.seq).isSome := by
  induction edges generalizing p with
  | nil => exact ⟨[], p, rfl, ho, .refl g p, rfl, by simp⟩
  | cons e rest ih =>
      obtain ⟨r, p₁, hhold, hheld, ho₁, hext₁, -⟩ := hold_node hg ho (he e (by simp))
      obtain ⟨found, p₂, hrest, ho₂, hext₂, hmap, hall⟩ :=
        ih ho₁ fun e' he' => he e' (by simp [he'])
      refine ⟨⟨e.seq, e.distance, r.head⟩ :: found, p₂, ?_, ho₂, hext₁.trans hext₂, by simp [hmap], ?_⟩
      · simp only [candidates, bind_eq_ok, pure_eq_ok, Prod.exists, Prod.mk.injEq]
        exact ⟨r, p₁, hhold, found, p₂, hrest, rfl, rfl⟩
      · intro e' he'
        rcases List.mem_cons.1 he' with rfl | he'
        · rw [hext₂.held _ r hheld]; rfl
        · exact hall e' he'

omit [LinearOrder D] in
/-- The far ends of dropped edges forget the node. -/
lemma forget_dropped (dropped : List (Edge D)) (seq : ℕ) (ho : Over g nodes p)
    (hheld : ∀ e ∈ dropped, (p.held.lookup e.seq).isSome)
    (hself : (p.held.lookup seq).isSome) (hne : ∀ e ∈ dropped, e.seq ≠ seq) :
    ∃ p', dropped.foldl (fun p e => p.touch e.seq fun a => a.remove seq) p = p' ∧ Over g nodes p'
      ∧ p'.held.lookup seq = p.held.lookup seq
      ∧ ∀ t, p'.names g t = if t ∈ dropped.map Edge.seq then (p.names g t).filter (· ≠ seq)
        else p.names g t := by
  induction dropped generalizing p with
  | nil => exact ⟨p, rfl, ho, rfl, by simp⟩
  | cons e rest ih =>
      obtain ⟨r, hr⟩ := Option.isSome_iff_exists.1 (hheld e (by simp))
      have hlookup := held_touch (f := fun a => a.remove seq) hr
      have hself' : ((p.touch e.seq fun a => a.remove seq).held.lookup seq) = p.held.lookup seq := by
        rw [hlookup, if_neg (hne e (by simp)).symm]
      obtain ⟨p', hp', ho', hs', hnames⟩ := ih (p := p.touch e.seq fun a => a.remove seq) (ho.touch hr)
        (fun e' he' => by
          rw [hlookup]
          split_ifs
          · rfl
          · exact hheld e' (by simp [he']))
        (by rw [hself']; exact hself) (fun e' he' => hne e' (by simp [he']))
      refine ⟨p', hp', ho', hs'.trans hself', fun t => ?_⟩
      rw [hnames t, names_touch hr]
      by_cases ht : t = e.seq
      · subst ht
        rw [Function.update_self, names_of_held hr]
        simp
      · simp [ht]

/-- **A list that is too long is pruned on both sides.** -/
lemma pruneNeighbour_ok (hg : Meshed g) (ho : Over g nodes p) (hr : p.held.lookup seq = some r)
    (hl : Linked nodes due (p.names g)) (hout : ∀ u, ¬ due seq u) (hin : ∀ u, ¬ due u seq) :
    ∃ p', pruneNeighbour m g p seq = .ok p' ∧ Over g nodes p' ∧ Linked nodes due (p'.names g)
      ∧ (p'.names g seq).length ≤ maxDegree
      ∧ ∀ t, t ≠ seq → (p'.names g t).Sublist (p.names g t)
        ∧ ∀ u ∈ p.names g t, u ≠ seq → u ∈ p'.names g t := by
  have hnames : p.names g seq = r.adjacency.sequences := names_of_held hr
  simp only [pruneNeighbour, hr]
  split_ifs with hlen
  · refine ⟨p, rfl, ho, hl, ?_, fun t _ => ⟨List.Sublist.refl _, fun u hu _ => hu⟩⟩
    rw [hnames, Adjacency.length_sequences]
    exact hlen
  · have hmem : ∀ e ∈ r.adjacency.edges, e.seq ∈ p.names g seq := fun e he => by
      rw [hnames]
      exact List.mem_map_of_mem he
    obtain ⟨found, p₁, hcand, ho₁, hext, hmap, hheld⟩ :=
      candidates_ok hg ho fun e he => (hl.closed seq e.seq (hmem e he)).2
    have hperm := (sortNodes_perm found).map Node.seq
    have hkept := robustPrune_sublist m degree (sortNodes found)
    have hlength := robustPrune_length m degree (sortNodes found)
    obtain ⟨kept, hkept_eq⟩ : ∃ kept, robustPrune m degree (sortNodes found) = kept := ⟨_, rfl⟩
    rw [hkept_eq] at hkept hlength
    have hsub : kept.map Edge.seq ⊆ p.names g seq := by
      intro u hu
      have hu' := hperm.mem_iff.1 (hkept.subset hu)
      rw [hmap] at hu'
      rw [hnames]
      exact hu'
    have hnodup : (kept.map Edge.seq).Nodup := by
      refine hkept.nodup (hperm.nodup_iff.2 ?_)
      rw [hmap]
      have := hl.nodup seq
      rw [hnames] at this
      exact this
    set dropped := r.adjacency.edges.filter fun e => e.seq ∉ kept.map Edge.seq with hdropped
    have hin' : ∀ e ∈ dropped, e ∈ r.adjacency.edges := fun e he => List.mem_of_mem_filter he
    have hheldseq : p₁.held.lookup seq = some r := hext.held seq r hr
    obtain ⟨p₂, hp₂, ho₂, hs₂, hnames₂⟩ := forget_dropped dropped seq ho₁
      (fun e he => hheld e (hin' e he)) (by rw [hheldseq]; rfl)
      (fun e he heq => hl.loopless seq (heq ▸ hmem e (hin' e he)))
    have hseq₂ : p₂.held.lookup seq = some r := hs₂.trans hheldseq
    have hview : (p₂.touch seq fun _ => ⟨kept, []⟩).names g
        = pruned (p.names g) seq (kept.map Edge.seq) := by
      rw [names_touch hseq₂]
      funext t
      by_cases ht : t = seq
      · subst ht
        simp [pruned, Adjacency.sequences, Adjacency.edges]
      · have hiff : t ∈ dropped.map Edge.seq ↔ t ∈ p.names g seq ∧ t ∉ kept.map Edge.seq := by
          rw [hnames]
          simp only [hdropped, List.mem_map, List.mem_filter, decide_eq_true_eq, Adjacency.sequences]
          constructor
          · rintro ⟨e, ⟨he, hk⟩, rfl⟩
            exact ⟨⟨e, he, rfl⟩, hk⟩
          · rintro ⟨⟨e, he, rfl⟩, hk⟩
            exact ⟨e, ⟨he, hk⟩, rfl⟩
        rw [Function.update_of_ne ht, hnames₂ t, hext.names, pruned, if_neg ht]
        simp only [hiff]
    refine ⟨p₂.touch seq fun _ => ⟨kept, []⟩, ?_, ho₂.touch hseq₂, ?_, ?_, fun t ht => ⟨?_, ?_⟩⟩
    · simp only [bind_eq_ok, pure_eq_ok, Prod.exists]
      exact ⟨found, p₁, hcand, by rw [hkept_eq, hp₂]⟩
    · rw [hview]
      exact hl.prune hsub hnodup hout hin
    · rw [hview, pruned, if_pos rfl, List.length_map]
      exact hlength.trans (by decide)
    · rw [hview, pruned, if_neg ht]
      split_ifs
      · exact List.filter_sublist
      · exact List.Sublist.refl _
    · intro u hu hus
      rw [hview, Neighbours.mem_pruned]
      exact Or.inr ⟨ht, hu, fun hd => hus hd.1⟩

/-! ## Linking -/

omit [LinearOrder D] in
lemma Counted.of_heads {g g' : Graph H D} {h : GraphHeader} (hc : Counted g h)
    (hh : g'.heads = g.heads) : Counted g' h :=
  ⟨hh ▸ hc.nodes, hh ▸ hc.entry, hc.empty, hc.entryAt⟩

/-- **A new node is joining**: it names all of `rest`, and none of them names it yet. -/
structure Joining (g : Graph H D) (nodes : Set ℕ) (seq : ℕ) (p : Pending H D) (rest : List (Edge D)) :
    Prop where
  records : Over g nodes p
  linked : Linked nodes (fun v w => v = seq ∧ w ∈ rest.map Edge.seq) (p.names g)
  degree : ∀ t, (p.names g t).length ≤ maxDegree
  listed : ∀ e ∈ rest, e.seq ∈ p.names g seq
  unanswered : ∀ e ∈ rest, seq ∉ p.names g e.seq
  distinct : (rest.map Edge.seq).Nodup

/-- The next neighbour answers, and its list is pruned when that makes it too long. -/
lemma Joining.step (hg : Meshed g) {e : Edge D} {rest : List (Edge D)}
    (h : Joining g nodes seq p (e :: rest)) (hr : p.held.lookup e.seq = some r) :
    ∃ p', pruneNeighbour m g (p.touch e.seq fun a => a.append ⟨seq, e.distance⟩) e.seq = .ok p'
      ∧ Joining g nodes seq p' rest := by
  have hlisted := h.listed e (by simp)
  have hfresh := h.unanswered e (by simp)
  have hne : e.seq ≠ seq := by
    intro heq
    rw [heq] at hlisted
    exact h.linked.loopless seq hlisted
  have hnotin : e.seq ∉ rest.map Edge.seq := (List.nodup_cons.1 h.distinct).1
  have hnames : (p.touch e.seq fun a => a.append ⟨seq, e.distance⟩).names g
      = Function.update (p.names g) e.seq (p.names g e.seq ++ [seq]) := by
    rw [names_touch hr, names_of_held hr, Adjacency.sequences_append]
  have hl : Linked nodes (fun v w => v = seq ∧ w ∈ rest.map Edge.seq)
      (Function.update (p.names g) e.seq (p.names g e.seq ++ [seq])) :=
    h.linked.answer hlisted hfresh (by
      rintro a b ⟨rfl, hb⟩
      rcases List.mem_cons.1 hb with rfl | hb
      · exact Or.inr ⟨rfl, rfl⟩
      · exact Or.inl ⟨rfl, hb⟩)
  rw [← hnames] at hl
  have hheld : (p.touch e.seq fun a => a.append ⟨seq, e.distance⟩).held.lookup e.seq
      = some { r with adjacency := r.adjacency.append ⟨seq, e.distance⟩ } := by
    rw [held_touch hr, if_pos rfl]
  obtain ⟨p', hok, ho', hl', hlen, hothers⟩ := pruneNeighbour_ok (m := m) hg (h.records.touch hr) hheld hl
    (fun u hu => hne hu.1) (fun u hu => hnotin hu.2)
  have hbefore : ∀ t, t ≠ e.seq →
      (p.touch e.seq fun a => a.append ⟨seq, e.distance⟩).names g t = p.names g t := fun t ht => by
    rw [hnames, Function.update_of_ne ht]
  refine ⟨p', hok, ho', hl', fun t => ?_, fun e' he' => ?_, fun e' he' => ?_,
    (List.nodup_cons.1 h.distinct).2⟩
  · by_cases ht : t = e.seq
    · exact ht ▸ hlen
    · have hsub := (hothers t ht).1
      rw [hbefore t ht] at hsub
      exact hsub.length_le.trans (h.degree t)
  · have hne' : e'.seq ≠ e.seq := fun heq => hnotin (heq ▸ List.mem_map_of_mem he')
    refine (hothers seq hne.symm).2 e'.seq ?_ hne'
    rw [hbefore seq hne.symm]
    exact h.listed e' (by simp [he'])
  · have hne' : e'.seq ≠ e.seq := fun heq => hnotin (heq ▸ List.mem_map_of_mem he')
    intro hmem
    have hmem' := (hothers e'.seq hne').1.subset hmem
    rw [hbefore e'.seq hne'] at hmem'
    exact h.unanswered e' (by simp [he']) hmem'

/-- **Every neighbour of a new node answers.** -/
lemma joinAll_ok (hg : Meshed g) {rest : List (Edge D)} (h : Joining g nodes seq p rest) :
    ∃ p', joinAll m g seq p rest = .ok p' ∧ Joining g nodes seq p' [] := by
  induction rest generalizing p with
  | nil => exact ⟨p, rfl, h⟩
  | cons e rest ih =>
      have he : e.seq ∈ nodes := (h.linked.closed seq e.seq (h.listed e (by simp))).2
      obtain ⟨r, p₁, hhold, hheld, ho₁, hext, -⟩ := hold_node hg h.records he
      have h₁ : Joining g nodes seq p₁ (e :: rest) :=
        ⟨ho₁, hext.names ▸ h.linked, hext.names ▸ h.degree, hext.names ▸ h.listed,
          hext.names ▸ h.unanswered, h.distinct⟩
      obtain ⟨p₂, hprune, h₂⟩ := h₁.step (m := m) hg hheld
      obtain ⟨p₃, hrest, h₃⟩ := ih h₂
      refine ⟨p₃, ?_, h₃⟩
      simp only [joinAll, bind_eq_ok, Prod.exists]
      exact ⟨r, p₁, hhold, p₂, hprune, hrest⟩

omit [LinearOrder D] in
lemma keys_insert_head (g : Graph H D) (seq : ℕ) (head : H) :
    (g.heads.insert seq head).keys = insert seq g.heads.keys := by
  ext t
  rw [Finmap.mem_keys, Finmap.mem_insert, Finset.mem_insert, Finmap.mem_keys]

omit [LinearOrder D] in
/-- The sample is taken of the nodes. -/
lemma sampleNodes_mem {last t : ℕ} (ht : t ∈ sampleNodes g last) : t ∈ g.heads := by
  rw [sampleNodes, List.mem_dedup, List.mem_filterMap] at ht
  obtain ⟨step, -, hnext⟩ := ht
  rw [← Finmap.mem_keys]
  exact (Scan.next_eq_some hnext).1

lemma sampleMedoid_mem {entry : ℕ} (h : sampleMedoid m g = some entry) : entry ∈ g.heads := by
  set sampled := (sampleNodes g (g.heads.keys.sup id)).filterMap fun seq =>
    (g.heads.lookup seq).map fun head => (seq, head) with hsampled
  have hmem : ∀ x ∈ sampled, x.1 ∈ g.heads := by
    intro x hx
    obtain ⟨t, ht, hx⟩ := List.mem_filterMap.1 hx
    obtain ⟨head, -, rfl⟩ := Option.map_eq_some_iff.1 hx
    exact sampleNodes_mem ht
  have hbest : ∀ (l : List (ℕ × H)) (best : Option (ℕ × D)), (∀ x ∈ l, x.1 ∈ g.heads) →
      (∀ b, best = some b → b.1 ∈ g.heads) →
      ∀ b, l.foldl (fun (best : Option (ℕ × D)) x =>
        let sum := total m sampled x.1 x.2
        if best.all fun b => sum < b.2 then some (x.1, sum) else best) best = some b →
      b.1 ∈ g.heads := by
    intro l
    induction l with
    | nil => exact fun best _ hb => hb
    | cons x l ih =>
        intro best hl hb
        rw [List.foldl_cons]
        refine ih _ (fun y hy => hl y (by simp [hy])) fun b hnew => ?_
        dsimp only at hnew
        split_ifs at hnew
        · cases hnew
          exact hl x (by simp)
        · exact hb b hnew
  obtain ⟨b, hb, rfl⟩ := Option.map_eq_some_iff.1 h
  exact hbest sampled none hmem (by simp) b hb

/-- **The header of a graph that has a node more.** -/
lemma Counted.linked {h : GraphHeader} {head : H} {lists : Finmap fun _ : ℕ => Adjacency D}
    (hc : Counted g h) (hn : h.nodes ≠ 0) (hs : seq ∉ g.heads) :
    Counted (⟨some (linkedHeader m g h), g.heads.insert seq head, lists⟩ : Graph H D)
      (linkedHeader m g h) := by
  have hcard : h.nodes + 1 = (g.heads.insert seq head).keys.card := by
    rw [keys_insert_head, Finset.card_insert_of_notMem (by rwa [Finmap.mem_keys]), hc.nodes]
  have hmem : ∀ t, t ∈ g.heads → t ∈ g.heads.insert seq head := fun t ht =>
    Finmap.mem_insert.2 (Or.inr ht)
  have hkeep : Counted (⟨some (linkedHeader m g h), g.heads.insert seq head, lists⟩ : Graph H D)
      { h with nodes := h.nodes + 1 } :=
    ⟨hcard, fun _ => hmem _ (hc.entry hn), fun h0 => absurd h0 (Nat.succ_ne_zero _),
      hc.entryAt.trans (Nat.le_succ _)⟩
  rw [linkedHeader]
  dsimp only
  split_ifs with hdue
  · cases hmed : sampleMedoid m g with
    | none => exact hkeep.of_heads rfl
    | some entry =>
        exact ⟨hcard, fun _ => hmem _ (sampleMedoid_mem hmed),
          fun h0 => absurd h0 (Nat.succ_ne_zero _), le_refl _⟩
  · exact hkeep.of_heads rfl

omit [LinearOrder D] in
/-- A new node with the list its prune chose. -/
lemma joining_start (head : H) {neighbours : List (Edge D)} (hg : Meshed g) (hs : seq ∉ g.heads)
    (hnode : ∀ t ∈ neighbours.map Edge.seq, t ∈ g.heads ∧ t ≠ seq)
    (hnodup : (neighbours.map Edge.seq).Nodup) (hlength : neighbours.length ≤ degree) :
    Joining g {t | t ∈ g.heads.insert seq head} seq
      ⟨Finmap.singleton seq ⟨head, neighbours, []⟩, {seq}⟩ neighbours := by
  set p : Pending H D := ⟨Finmap.singleton seq ⟨head, neighbours, []⟩, {seq}⟩ with hp
  have hheld : ∀ t r, p.held.lookup t = some r → t = seq ∧ r = ⟨head, neighbours, []⟩ := by
    intro t r ht
    by_cases hts : t = seq
    · subst hts
      rw [Finmap.lookup_singleton_eq] at ht
      exact ⟨rfl, (Option.some.inj ht).symm⟩
    · rw [Finmap.lookup_eq_none.2 (by rwa [Finmap.mem_singleton])] at ht
      cases ht
  have hself : p.held.lookup seq = some ⟨head, neighbours, []⟩ := Finmap.lookup_singleton_eq
  have hnotheld : ∀ t, t ≠ seq → p.held.lookup t = none := fun t ht =>
    Finmap.lookup_eq_none.2 (by rwa [Finmap.mem_singleton])
  have hnames : ∀ t, p.names g t = if t = seq then neighbours.map Edge.seq else g.names t := by
    intro t
    split_ifs with ht
    · subst ht
      rw [names_of_held hself]
      simp [Adjacency.sequences, Adjacency.edges]
    · rw [names_of_not_held (hnotheld t ht)]
  have hunnamed : ∀ t, seq ∉ g.names t := fun t ht => hs (hg.linked.closed t seq ht).2
  refine ⟨⟨fun t r ht => ?_, fun t r ht hd => ?_, fun t ht => ?_, fun t ht hn => ?_⟩,
    ⟨fun t => ?_, fun t ht => ?_, fun t u hu => ?_, fun t u hu => ?_⟩, fun t => ?_, fun e he => ?_,
    fun e he => ?_, hnodup⟩
  · exact Finmap.mem_insert.2 (Or.inl (hheld t r ht).1)
  · exact absurd (Finset.mem_singleton.2 (hheld t r ht).1) hd
  · rw [Finset.mem_singleton.1 ht, hself]; rfl
  · refine (Finmap.mem_insert.1 ht).resolve_left fun heq => ?_
    rw [heq, hself] at hn
    cases hn
  · rw [hnames]
    split_ifs
    · exact hnodup
    · exact hg.linked.nodup t
  · rw [hnames] at ht
    split_ifs at ht with hts
    · exact (hnode t ht).2 hts
    · exact hg.linked.loopless t ht
  · rw [hnames] at hu
    split_ifs at hu with hts
    · exact ⟨Finmap.mem_insert.2 (Or.inl hts), Finmap.mem_insert.2 (Or.inr (hnode u hu).1)⟩
    · have hcl := hg.linked.closed t u hu
      exact ⟨Finmap.mem_insert.2 (Or.inr hcl.1), Finmap.mem_insert.2 (Or.inr hcl.2)⟩
  · rw [hnames] at hu
    split_ifs at hu with hts
    · exact Or.inr ⟨hts, hu⟩
    · left
      have hus : u ≠ seq := by
        rintro rfl
        exact hunnamed t hu
      rw [hnames, if_neg hus]
      exact (hg.linked.symm t u hu).resolve_right id
  · rw [hnames]
    split_ifs
    · rw [List.length_map]
      exact hlength.trans (by decide)
    · exact hg.degree t
  · rw [hnames, if_pos rfl]
    exact List.mem_map_of_mem he
  · rw [hnames, if_neg (hnode e.seq (List.mem_map_of_mem he)).2]
    exact hunnamed e.seq

omit [LinearOrder D] in
/-- **Once every neighbour has answered, what is written back is meshed.** -/
lemma Joining.meshed {head : H} (h : Joining g {t | t ∈ g.heads.insert seq head} seq p [])
    (hg : Meshed g) (hs : seq ∉ g.heads) (hz : seq ≠ 0) :
    Meshed (p.flush { g with heads := g.heads.insert seq head }) := by
  have hself : seq ∈ g.heads.insert seq head := Finmap.mem_insert.2 (Or.inl rfl)
  have hover : Over { g with heads := g.heads.insert seq head } {t | t ∈ g.heads.insert seq head} p :=
    ⟨h.records.held, h.records.clean, h.records.dirty, fun t ht _ => ht⟩
  have hwritten : seq ∈ p.dirty := by
    by_contra hd
    cases hr : p.held.lookup seq with
    | none => exact hs (h.records.stored seq hself hr)
    | some r =>
        have hlist := Finmap.mem_of_lookup_eq_some (h.records.clean seq r hr hd)
        rw [← Finmap.mem_keys, hg.keys, Finmap.mem_keys] at hlist
        exact hs hlist
  refine meshed_flush hover rfl ?_ ?_ (h.linked.mono (by simp)) h.degree
  · rw [Finmap.mem_insert, not_or]
    exact ⟨hz.symm, hg.zero⟩
  · ext t
    rw [Finset.mem_union, hg.keys, keys_insert_head, Finset.mem_insert]
    constructor
    · rintro (ht | ht)
      · exact Or.inr ht
      · obtain ⟨r, hr⟩ := Option.isSome_iff_exists.1 (h.records.dirty t ht)
        exact (Finmap.mem_insert.1 (h.records.held t r hr)).imp_right Finmap.mem_keys.2
    · rintro (rfl | ht)
      · exact Or.inr hwritten
      · exact Or.inl ht

/-- **A new node is linked.** -/
lemma linkNode_wellFormed {head : H} (hg : WellFormed g) (hs : seq ∉ g.heads) (hz : seq ≠ 0) :
    Yields (linkNode m g seq head) fun g' => WellFormed g' ∧ g'.heads = g.heads.insert seq head := by
  obtain ⟨h, hread, hc⟩ := hg.header
  rw [linkNode, hread]
  change Yields (if h.nodes = 0 then _ else _) _
  split_ifs with hn
  · refine Yields.pure ⟨?_, rfl⟩
    have hempty : g.heads.keys = ∅ := Finset.card_eq_zero.1 (hc.nodes.symm.trans hn)
    have hnames : ∀ t, g.lists.lookup t = none := fun t => by
      rw [Finmap.lookup_eq_none, ← Finmap.mem_keys, hg.keys, hempty]
      exact Finset.notMem_empty t
    have hall : ∀ t, (⟨some ⟨seq, 1, 1⟩, g.heads.insert seq head,
        g.lists.insert seq ⟨[], []⟩⟩ : Graph H D).names t = [] := by
      intro t
      rw [Graph.names]
      by_cases ht : t = seq
      · subst ht
        simp [Adjacency.sequences, Adjacency.edges]
      · simp [ht, hnames]
    refine wellFormed_of_header (h := ⟨seq, 1, 1⟩) ⟨?_, ?_, ?_, fun t => ?_⟩ rfl ?_
    · rw [Finmap.mem_insert, not_or]
      exact ⟨hz.symm, hg.zero⟩
    · ext t
      rw [Finmap.mem_keys, Finmap.mem_insert, ← Finmap.mem_keys, hg.keys, hempty, keys_insert_head,
        hempty, Finset.mem_insert]
    · rw [show Graph.names _ = fun _ => [] from funext hall]
      exact Linked.empty _ _
    · rw [hall t]
      exact Nat.zero_le _
    · refine ⟨?_, fun _ => ?_, fun h0 => absurd h0 Nat.one_ne_zero, le_refl _⟩
      · rw [keys_insert_head, hempty]
        rfl
      · exact Finmap.mem_insert.2 (Or.inl rfl)
  · refine (greedySearch_yields hg.toMeshed (hc.entry hn)).bind fun found hfound => ?_
    obtain ⟨nearest, passed, examined⟩ := found
    obtain ⟨-, hnodup, hpassed⟩ := hfound
    have hsub := robustPrune_sublist m degree passed
    have hlength := robustPrune_length m degree passed
    dsimp only
    obtain ⟨neighbours, heq⟩ : ∃ l, robustPrune m degree passed = l := ⟨_, rfl⟩
    rw [heq] at hsub hlength ⊢
    have hnode : ∀ t ∈ neighbours.map Edge.seq, t ∈ g.heads ∧ t ≠ seq := fun t ht =>
      hpassed t (hsub.subset ht)
    have hjoin := joining_start head hg.toMeshed hs hnode (hsub.nodup hnodup) hlength
    obtain ⟨p', hall, hdone⟩ := joinAll_ok (m := m) hg.toMeshed hjoin
    rw [hall]
    refine Yields.pure ⟨?_, rfl⟩
    have hflushed := hdone.meshed hg.toMeshed hs hz
    exact wellFormed_of_header ⟨hflushed.zero, hflushed.keys, hflushed.linked, hflushed.degree⟩ rfl
      (hc.linked hn hs)

/-! ## Unlinking -/

omit [LinearOrder D] in
/-- The neighbours of a node that goes are read, and forget it. -/
lemma forgetAll_ok (seq : ℕ) (hg : Meshed g) {rest : List ℕ} (hrest : ∀ t ∈ rest, t ∈ g.heads)
    (hnodup : rest.Nodup) (hnew : ∀ t ∈ rest, p.held.lookup t = none) :
    ∃ p', forgetAll g seq p rest = .ok p'
      ∧ (∀ t, t ∉ rest → p'.held.lookup t = p.held.lookup t)
      ∧ (∀ t ∈ rest, ∃ head a, g.lists.lookup t = some a
        ∧ p'.held.lookup t = some ⟨head, a.remove seq⟩)
      ∧ p'.dirty = p.dirty ∪ rest.toFinset := by
  induction rest generalizing p with
  | nil => exact ⟨p, rfl, fun _ _ => rfl, by simp, by simp⟩
  | cons t rest ih =>
      obtain ⟨hnotin, hnodup'⟩ := List.nodup_cons.1 hnodup
      obtain ⟨head, a, -, ha, hread⟩ := hg.readRecord_node (hrest t (by simp))
      set p₁ : Pending H D := { p with held := p.held.insert t ⟨head, a⟩ } with hp₁
      have hheld : p₁.held.lookup t = some ⟨head, a⟩ := Finmap.lookup_insert _
      have hfetch : fetch g p t = .ok (true, p₁) := by
        simp only [fetch, hnew t (by simp), hread, bind_eq_ok]
        exact ⟨_, rfl, rfl⟩
      have hlookup : ∀ u, u ≠ t →
          (p₁.touch t fun a => a.remove seq).held.lookup u = p.held.lookup u := fun u hu => by
        rw [held_touch hheld, if_neg hu]
        exact Finmap.lookup_insert_of_ne _ hu
      obtain ⟨p', hok, hkeep, hall, hdirty⟩ := ih (p := p₁.touch t fun a => a.remove seq)
        (fun u hu => hrest u (by simp [hu])) hnodup' (fun u hu => by
          rw [hlookup u fun heq => hnotin (heq ▸ hu)]
          exact hnew u (by simp [hu]))
      refine ⟨p', ?_, fun u hu => ?_, fun u hu => ?_, ?_⟩
      · simp only [forgetAll, bind_eq_ok, Prod.exists]
        exact ⟨true, p₁, hfetch, hok⟩
      · rw [List.mem_cons, not_or] at hu
        rw [hkeep u hu.2, hlookup u hu.1]
      · rcases List.mem_cons.1 hu with rfl | hu
        · refine ⟨head, a, ha, ?_⟩
          rw [hkeep u hnotin, held_touch hheld, if_pos rfl]
        · exact hall u hu
      · rw [hdirty]
        ext u
        simp [Pending.touch, hp₁]

/-- **Whom a member is joined with**: another node, that it does not name yet, where both have room. -/
def Mates (p : Pending H D) (left right : ℕ) : Prop :=
  left ≠ right ∧ ∃ l r, p.held.lookup left = some l ∧ p.held.lookup right = some r
    ∧ right ∉ l.adjacency.sequences ∧ l.adjacency.len < maxDegree ∧ r.adjacency.len < maxDegree

lemma mate_spec {left right : ℕ} {best : Option (ℕ × D)} {b : ℕ × D}
    (hb : ∀ b, best = some b → Mates p left b.1) (h : mate m p left best right = some b) :
    Mates p left b.1 := by
  rw [mate] at h
  split at h
  · rename_i l r hl hr
    split_ifs at h with hskip
    · exact hb b h
    · simp only [not_or, not_le, Adjacency.holds, decide_eq_true_eq] at hskip
      split at h
      · split_ifs at h
        · cases h
          exact ⟨hskip.1, l, r, hl, hr, hskip.2⟩
        · exact hb b h
      · exact hb b h
  · exact hb b h

lemma bestMate_spec {held : List ℕ} {left : ℕ} {b : ℕ × D} (h : bestMate m p held left = some b) :
    Mates p left b.1 := by
  have hfold : ∀ (members : List ℕ) (best : Option (ℕ × D)),
      (∀ b, best = some b → Mates p left b.1) →
      ∀ b, members.foldl (mate m p left) best = some b → Mates p left b.1 := by
    intro members
    induction members with
    | nil => exact fun best hb => hb
    | cons t members ih => exact fun best hb => ih _ fun b hnew => mate_spec hb hnew
  exact hfold held none (by simp) b h

omit [LinearOrder D] in
/-- Two held lists are connected. -/
lemma names_connect {left right : ℕ} {l r' : Record H D} (d d' : D) (hne : left ≠ right)
    (hl : p.held.lookup left = some l) (hr : p.held.lookup right = some r') :
    ((p.touch left fun a => a.append ⟨right, d⟩).touch right fun a => a.append ⟨left, d'⟩).names g
      = connected (p.names g) left right := by
  have hright : (p.touch left fun a => a.append ⟨right, d⟩).held.lookup right = some r' := by
    rw [held_touch hl, if_neg hne.symm, hr]
  rw [names_touch hright, names_touch hl, connected, names_of_held hl, names_of_held hr,
    Adjacency.sequences_append, Adjacency.sequences_append]

/-- **A neighbourhood is consolidated.** -/
lemma consolidate_ok (held rest : List ℕ) (ho : Over g nodes p)
    (hl : Linked nodes settled (p.names g)) (hd : ∀ t, (p.names g t).length ≤ maxDegree) :
    Over g nodes (consolidate m held p rest)
      ∧ Linked nodes settled ((consolidate m held p rest).names g)
      ∧ ∀ t, ((consolidate m held p rest).names g t).length ≤ maxDegree := by
  induction rest generalizing p with
  | nil => exact ⟨ho, hl, hd⟩
  | cons left rest ih =>
      rw [consolidate]
      cases hbest : bestMate m p held left with
      | none => exact ih ho hl hd
      | some b =>
          obtain ⟨right, distance⟩ := b
          obtain ⟨hne, l, r', hleft, hright, hnew, hroom, hroom'⟩ := bestMate_spec hbest
          have hnames := names_connect (g := g) (m.narrow distance) (m.narrow distance) hne
            hleft hright
          have hright' : (p.touch left fun a => a.append ⟨right, m.narrow distance⟩).held.lookup right
              = some r' := by
            rw [held_touch hleft, if_neg hne.symm, hright]
          refine ih ((ho.touch hleft).touch hright') ?_ fun t => ?_
          · rw [hnames]
            refine hl.connect (ho.held left l hleft) (ho.held right r' hright) hne ?_
            rw [names_of_held hleft]
            exact hnew
          · rw [hnames, connected]
            by_cases htr : t = right
            · subst htr
              rw [Function.update_self, names_of_held hright, List.length_append,
                Adjacency.length_sequences]
              exact hroom'
            · rw [Function.update_of_ne htr]
              by_cases htl : t = left
              · subst htl
                rw [Function.update_self, names_of_held hleft, List.length_append,
                  Adjacency.length_sequences]
                exact hroom
              · rw [Function.update_of_ne htl]
                exact hd t

omit [LinearOrder D] in
lemma keys_erase_head (g : Graph H D) (seq : ℕ) : (g.heads.erase seq).keys = g.heads.keys.erase seq := by
  ext t
  rw [Finmap.mem_keys, Finmap.mem_erase, Finset.mem_erase, Finmap.mem_keys]

/-- The graph once a node's two records are gone. -/
def Graph.without (g : Graph H D) (seq : ℕ) : Graph H D :=
  { g with heads := g.heads.erase seq, lists := g.lists.erase seq }

omit [LinearOrder D] in
lemma nodes_without (g : Graph H D) (seq : ℕ) :
    (g.without seq).nodes = {t | t ∈ g.nodes ∧ t ≠ seq} := by
  ext t
  simp only [Graph.nodes, Graph.without, Set.mem_ofPred_eq, Finmap.mem_erase]
  tauto

omit [LinearOrder D] in
/-- **The neighbours of a node have forgotten it.** -/
lemma forgotten (hg : Meshed g) (hs : seq ∈ g.heads) :
    ∃ p, forgetAll g seq ⟨∅, ∅⟩ (g.names seq) = .ok p
      ∧ Over (g.without seq) (g.without seq).nodes p
      ∧ p.names (g.without seq) = removed g.names seq := by
  have hclosed := hg.linked.closed seq
  obtain ⟨p, hok, hkeep, hall, hdirty⟩ := forgetAll_ok (p := ⟨∅, ∅⟩) seq hg
    (fun t ht => (hclosed t ht).2) (hg.linked.nodup seq) (fun t _ => Finmap.lookup_empty t)
  have hself : seq ∉ g.names seq := hg.linked.loopless seq
  have hheld : ∀ t r, p.held.lookup t = some r → t ∈ g.names seq := by
    intro t r ht
    by_contra hnot
    rw [hkeep t hnot, Finmap.lookup_empty] at ht
    cases ht
  have hlist : ∀ t, t ≠ seq → (g.without seq).names t = g.names t := fun t ht => by
    rw [Graph.names, Graph.without, Finmap.lookup_erase_ne ht]
    rfl
  refine ⟨p, hok, ⟨fun t r ht => ?_, fun t r ht hd => ?_, fun t ht => ?_, fun t ht _ => ht⟩, ?_⟩
  · rw [nodes_without]
    exact ⟨(hclosed t (hheld t r ht)).2, fun heq => hself (heq ▸ hheld t r ht)⟩
  · rw [hdirty] at hd
    exact absurd (by simpa using hheld t r ht) hd
  · rw [hdirty, Finset.empty_union, List.mem_toFinset] at ht
    obtain ⟨head, a, -, hr⟩ := hall t ht
    rw [hr]; rfl
  · funext t
    by_cases hts : t = seq
    · subst hts
      have hnone : p.held.lookup t = none := (hkeep t hself).trans (Finmap.lookup_empty t)
      rw [names_of_not_held hnone, removed, if_pos rfl, Graph.names, Graph.without]
      simp
    · rw [removed, if_neg hts]
      by_cases htn : t ∈ g.names seq
      · obtain ⟨head, a, ha, hr⟩ := hall t htn
        rw [names_of_held hr, Adjacency.sequences_remove]
        simp [Graph.names, ha]
      · rw [names_of_not_held ((hkeep t htn).trans (Finmap.lookup_empty t)), hlist t hts,
          List.filter_eq_self.2]
        intro u hu
        rw [decide_eq_true_eq]
        rintro rfl
        exact htn ((hg.linked.symm t u hu).resolve_right id)

/-- **A node goes**, and its lists are repaired. -/
lemma unlinkNode_meshed {h : GraphHeader} (hg : Meshed g) (hs : seq ∈ g.heads)
    (hread : g.readHeader = .ok h) :
    ∃ g' a, unlinkNode m g seq = .ok g' ∧ g.lists.lookup seq = some a ∧ Meshed g'
      ∧ g'.heads = g.heads.erase seq ∧ g'.header = some (unlinkedHeader g h seq a) := by
  obtain ⟨head, a, -, ha, hrecord⟩ := hg.readRecord_node hs
  have hnames : g.names seq = a.sequences := by simp [Graph.names, ha]
  obtain ⟨p, hforget, ho, hview⟩ := forgotten hg hs
  rw [hnames] at hforget
  set held := a.sequences.filter fun other => (p.held.lookup other).isSome with hheld
  have hl : Linked (g.without seq).nodes settled (p.names (g.without seq)) := by
    rw [hview, nodes_without]
    exact hg.linked.remove seq
  have hd : ∀ t, (p.names (g.without seq) t).length ≤ maxDegree := by
    intro t
    rw [hview, removed]
    split_ifs
    · exact Nat.zero_le _
    · exact (List.length_filter_le _ _).trans (hg.degree t)
  obtain ⟨ho', hl', hd'⟩ := consolidate_ok (m := m) held held ho hl hd
  have hmesh := meshed_flush ho' rfl (by
    rw [Graph.without, Finmap.mem_erase]
    exact fun hz => hg.zero hz.2) (by
    ext t
    rw [Finset.mem_union, Graph.without, keys_erase_head]
    have hkeys : (g.lists.erase seq).keys = g.heads.keys.erase seq := by
      rw [← hg.keys]
      ext u
      rw [Finmap.mem_keys, Finmap.mem_erase, Finset.mem_erase, Finmap.mem_keys]
    rw [hkeys]
    refine ⟨fun ht => ht.elim id fun hdirty => ?_, Or.inl⟩
    obtain ⟨r, hr⟩ := Option.isSome_iff_exists.1 (ho'.dirty t hdirty)
    rw [← keys_erase_head, Finmap.mem_keys]
    exact ho'.held t r hr) hl' hd'
  refine ⟨{ (consolidate m held p held).flush (g.without seq) with
    header := some (unlinkedHeader g h seq a) }, a, ?_, ha,
    ⟨hmesh.zero, hmesh.keys, hmesh.linked, hmesh.degree⟩, rfl, rfl⟩
  simp only [unlinkNode, bind_eq_ok]
  exact ⟨some ⟨head, a⟩, hrecord, by
    simp only [bind_eq_ok, pure_eq_ok]
    exact ⟨h, hread, p, hforget, rfl⟩⟩

omit [LinearOrder D] in
/-- The first node but one is a node. -/
lemma firstNode_mem (seq : ℕ) (hcard : 1 < g.heads.keys.card) (hz : 0 ∉ g.heads) :
    g.firstNode seq ∈ g.heads ∧ g.firstNode seq ≠ seq := by
  rw [Graph.firstNode]
  cases hnext : Scan.next (g.heads.keys.filter fun t => t ≠ 0 ∧ t ≠ seq) none with
  | none =>
      exfalso
      rw [Scan.next_eq_none_iff] at hnext
      obtain ⟨t, ht, hts⟩ := Finset.exists_mem_ne hcard seq
      refine hnext t ?_ (Scan.past_none t)
      rw [Finset.mem_filter]
      refine ⟨ht, ?_, hts⟩
      rintro rfl
      exact hz (Finmap.mem_keys.1 ht)
  | some t =>
      have hmem := (Scan.next_eq_some hnext).1
      rw [Finset.mem_filter, Finmap.mem_keys] at hmem
      exact ⟨hmem.1, hmem.2.2⟩

omit [LinearOrder D] in
/-- **The header of a graph that has a node less** is right exactly when the entry went, or was chosen
on a smaller graph than there was. -/
lemma counted_unlinked {h : GraphHeader} {a : Adjacency D} {g' : Graph H D} (hg : Meshed g)
    (hc : Counted g h) (hs : seq ∈ g.heads) (ha : g.lists.lookup seq = some a)
    (hheads : g'.heads = g.heads.erase seq) :
    Counted g' (unlinkedHeader g h seq a) ↔ h.entry = seq ∨ h.entryAt < h.nodes := by
  have hnames : g.names seq = a.sequences := by simp [Graph.names, ha]
  have hcard : g'.heads.keys.card = h.nodes - 1 := by
    rw [hheads, keys_erase_head, Finset.card_erase_of_mem (Finmap.mem_keys.2 hs), hc.nodes]
  have hpos : 0 < h.nodes := by
    rw [hc.nodes]
    exact Finset.card_pos.2 ⟨seq, Finmap.mem_keys.2 hs⟩
  have hmem : ∀ t, t ∈ g.heads → t ≠ seq → t ∈ g'.heads := fun t ht hts => by
    rw [hheads, Finmap.mem_erase]
    exact ⟨hts, ht⟩
  by_cases hzero : h.nodes - 1 = 0
  · -- the last node goes, and it was the entry
    have hone : g.heads.keys.card = 1 := by rw [← hc.nodes]; omega
    obtain ⟨t, ht⟩ := Finset.card_eq_one.1 hone
    have honly : ∀ u, u ∈ g.heads → u = t := fun u hu => by
      rw [← Finmap.mem_keys, ht, Finset.mem_singleton] at hu
      exact hu
    have hlast : h.entry = seq := (honly _ (hc.entry (by omega))).trans (honly seq hs).symm
    rw [unlinkedHeader, if_pos hzero]
    exact ⟨fun _ => Or.inl hlast, fun _ => ⟨by rw [hcard, hzero], fun hn => absurd rfl hn, fun _ => rfl,
      le_refl _⟩⟩
  by_cases hentry : h.entry = seq
  · rw [unlinkedHeader, if_neg hzero, if_pos hentry]
    refine ⟨fun _ => Or.inl hentry, fun _ => ⟨hcard.symm, fun _ => ?_, fun hn => absurd hn hzero,
      le_refl _⟩⟩
    dsimp only
    cases hedges : a.edges with
    | nil =>
        have hfirst := firstNode_mem seq (by rw [← hc.nodes]; omega) hg.zero
        rw [if_pos ⟨rfl, Nat.pos_of_ne_zero hzero⟩]
        exact hmem _ hfirst.1 hfirst.2
    | cons e rest =>
        have he : e.seq ∈ g.names seq := by
          rw [hnames, Adjacency.sequences, hedges]
          simp
        have hnode := (hg.linked.closed seq e.seq he).2
        have hfirst : ((e :: rest).head?.map Edge.seq).getD 0 = e.seq := rfl
        rw [if_neg fun hz => hg.ne_zero hnode (hfirst ▸ hz.1), hfirst]
        refine hmem _ hnode fun heq => ?_
        rw [heq] at he
        exact hg.linked.loopless seq he
  · rw [unlinkedHeader, if_neg hzero, if_neg hentry]
    constructor
    · intro hcount
      have := hcount.entryAt
      dsimp only at this
      right
      omega
    · intro hor
      have hlt := hor.resolve_left hentry
      exact ⟨hcard.symm, fun _ => hmem _ (hc.entry (by omega)) hentry,
        fun hn => absurd hn hzero, by dsimp only; omega⟩

/-- **A node may go**: it is the entry, or the entry was chosen on a smaller graph than there is. -/
def Graph.Releases (g : Graph H D) (seq : ℕ) : Prop :=
  ∀ h, g.readHeader = .ok h → h.entry = seq ∨ h.entryAt < h.nodes

/-- **A node that may go leaves the graph well formed.** -/
lemma unlinkNode_wellFormed (hg : WellFormed g) (hs : seq ∈ g.heads) (hrel : g.Releases seq) :
    ∃ g', unlinkNode m g seq = .ok g' ∧ WellFormed g' ∧ g'.heads = g.heads.erase seq := by
  obtain ⟨h, hread, hc⟩ := hg.header
  obtain ⟨g', a, hok, ha, hmesh, hheads, hheader⟩ := unlinkNode_meshed (m := m) hg.toMeshed hs hread
  exact ⟨g', hok, wellFormed_of_header hmesh hheader
    ((counted_unlinked hg.toMeshed hc hs ha hheads).2 (hrel h hread)), hheads⟩

/-! ## Maintenance -/

/-- **A row's vector that goes or is replaced may go from the graph.** -/
def Graph.Admits (g : Graph H D) (seq : ℕ) (desired : Option H) : Prop :=
  seq ∈ g.heads → g.heads.lookup seq ≠ desired → g.Releases seq

/-- The heads once a row's vector is `desired`. -/
def follow (heads : Finmap fun _ : ℕ => H) (seq : ℕ) : Option H → Finmap fun _ : ℕ => H
  | some head => heads.insert seq head
  | none => heads.erase seq

omit [LinearOrder D] in
lemma lookup_follow (heads : Finmap fun _ : ℕ => H) (seq : ℕ) (desired : Option H) (t : ℕ) :
    (follow heads seq desired).lookup t = if t = seq then desired else heads.lookup t := by
  cases desired with
  | none =>
      split_ifs with ht
      · subst ht
        exact Finmap.lookup_erase _ _
      · exact Finmap.lookup_erase_ne ht
  | some head =>
      split_ifs with ht
      · subst ht
        exact Finmap.lookup_insert _
      · exact Finmap.lookup_insert_of_ne _ ht

/-- A node that is moved. -/
lemma relink_wellFormed {head : H} (hg : WellFormed g) (hs : seq ∈ g.heads) (hrel : g.Releases seq) :
    Yields (do
      let g ← unlinkNode m g seq
      linkNode m g seq head) fun g' => WellFormed g'
        ∧ ∀ t, g'.heads.lookup t = if t = seq then some head else g.heads.lookup t := by
  obtain ⟨g₁, hok, hg₁, hheads⟩ := unlinkNode_wellFormed (m := m) hg hs hrel
  rw [hok]
  have hnew : seq ∉ g₁.heads := by
    rw [hheads, Finmap.mem_erase]
    exact fun h => h.1 rfl
  refine (linkNode_wellFormed (m := m) hg₁ hnew (hg.ne_zero hs)).mono fun g' h => ⟨h.1, fun t => ?_⟩
  rw [h.2, hheads]
  split_ifs with ht
  · subst ht
    exact Finmap.lookup_insert _
  · rw [Finmap.lookup_insert_of_ne _ ht, Finmap.lookup_erase_ne ht]

lemma link_lookup {head : H} (hg : WellFormed g) (hs : seq ∉ g.heads) (hz : seq ≠ 0) :
    Yields (linkNode m g seq head) fun g' => WellFormed g'
      ∧ ∀ t, g'.heads.lookup t = if t = seq then some head else g.heads.lookup t := by
  refine (linkNode_wellFormed hg hs hz).mono fun g' h => ⟨h.1, fun t => ?_⟩
  rw [h.2]
  exact lookup_follow g.heads seq (some head) t

variable [DecidableEq H]

/-- **A row write keeps the graph well formed**, and the row's head is the one it should have. -/
lemma maintainNode_wellFormed {desired : Option H} {fresh : Bool} (hg : WellFormed g) (hz : seq ≠ 0)
    (hfresh : fresh = true → seq ∉ g.heads) (hadm : g.Admits seq desired) :
    Yields (maintainNode m g seq desired fresh) fun g' => WellFormed g'
      ∧ ∀ t, g'.heads.lookup t = if t = seq then desired else g.heads.lookup t := by
  have hstay : g.heads.lookup seq = desired →
      ∀ t, g.heads.lookup t = if t = seq then desired else g.heads.lookup t := by
    intro heq t
    split_ifs with ht
    · rw [ht, heq]
    · rfl
  unfold maintainNode
  split_ifs with hf
  · have hs := hfresh hf
    cases desired with
    | none => exact ⟨hg, hstay (Finmap.lookup_eq_none.2 hs)⟩
    | some head => exact link_lookup hg hs hz
  · by_cases hs : seq ∈ g.heads
    · obtain ⟨head, a, hhead, -, hread⟩ := hg.readRecord_node hs
      rw [hread]
      cases desired with
      | none =>
          obtain ⟨g', hok, hg', hheads⟩ := unlinkNode_wellFormed (m := m) hg hs
            (hadm hs (by rw [hhead]; simp))
          change Yields (unlinkNode m g seq) _
          rw [hok]
          refine ⟨hg', fun t => ?_⟩
          rw [hheads]
          exact lookup_follow g.heads seq none t
      | some new =>
          change Yields (if head = new then _ else _) _
          split_ifs with heq
          · exact ⟨hg, hstay (by rw [hhead, heq])⟩
          · refine relink_wellFormed hg hs (hadm hs ?_)
            rw [hhead]
            simpa using heq
    · rw [readRecord_none hs]
      cases desired with
      | none => exact ⟨hg, hstay (Finmap.lookup_eq_none.2 hs)⟩
      | some head => exact link_lookup hg hs hz

/-- **A build step keeps the graph well formed.** -/
lemma buildLink_wellFormed {head : H} (hg : WellFormed g) (hz : seq ≠ 0)
    (hadm : g.Admits seq (some head)) :
    Yields (buildLink m g seq head) fun g' => WellFormed g'
      ∧ ∀ t, g'.heads.lookup t = if t = seq then some head else g.heads.lookup t := by
  have h : Yields (maintainNode m g seq (some head) false) fun g' => WellFormed g'
      ∧ ∀ t, g'.heads.lookup t = if t = seq then some head else g.heads.lookup t :=
    maintainNode_wellFormed hg hz (by simp) hadm
  by_cases hs : seq ∈ g.heads
  · obtain ⟨old, a, -, -, hread⟩ := hg.readRecord_node hs
    unfold maintainNode at h
    rw [hread] at h
    rw [buildLink, hread]
    exact h
  · unfold maintainNode at h
    rw [readRecord_none hs] at h
    rw [buildLink, readRecord_none hs]
    exact h

/-- **A search of a well-formed graph whose heads are those of the sidecars is never corrupt.** -/
lemma scanVamana_yields {sidecar : ℕ → Option H} {score : H → Option D} {exact : ℕ → Option D}
    {admits : ℕ → D → Bool} {k ef maxExamined : ℕ} (hg : WellFormed g)
    (hside : ∀ seq head, g.heads.lookup seq = some head → sidecar seq = some head) :
    Yields (scanVamana m g sidecar score exact admits k ef maxExamined) fun _ => True := by
  obtain ⟨h, hread, hc⟩ := hg.header
  rw [scanVamana, hread]
  change Yields (if h.nodes = 0 ∨ h.entry = 0 then _ else _) _
  split_ifs with hempty
  · trivial
  · rw [not_or] at hempty
    refine (greedySearch_yields hg.toMeshed (hc.entry hempty.1)).bind fun found hfound => ?_
    obtain ⟨shortlist, visited, examined⟩ := found
    have hrerank : ∀ l : List (Node H D), (∀ node ∈ l, g.heads.lookup node.seq = some node.head) →
        Yields (rerank sidecar exact l) fun _ => True := by
      intro l
      induction l with
      | nil => exact fun _ => trivial
      | cons node rest ih =>
          intro hl
          have hraw := hside _ _ (hl node (by simp))
          have hrest := ih fun n hn => hl n (by simp [hn])
          refine (Yields.orElse hraw).bind ?_
          rintro _ rfl
          refine (Yields.refuse (by simp)).bind fun _ _ => ?_
          exact hrest.bind fun hits _ => Yields.pure trivial
    exact (hrerank shortlist hfound.1).bind fun hits _ => Yields.pure trivial

end

end Engine.Vamana
