import Sekejap.Lib.Neighbours
import Sekejap.Vector.Vamana

/-!
# Well-formed Vamana graphs

What a reader of the graph checks, and what no single record shows: the header counts the nodes and
its entry is one of them, every node has a head and a list, and the lists are symmetric.

* **`Meshed.readRecord_node`** — in a graph whose lists are sound, every record of a node is read.
* **`greedySearch_yields`** — a search over such a graph finds nodes of the graph, each once, and ends
  with nothing left to expand; it never finds the graph corrupt.
* **`robustPrune_sublist`** — a prune keeps some of its candidates, in their order.
-/

open Fallible

open Neighbours (Linked settled)

namespace Engine.Vamana

variable {H D : Type}

/-- The sequences a node's list names. -/
def Graph.names (g : Graph H D) (seq : ℕ) : List ℕ :=
  ((g.lists.lookup seq).map Adjacency.sequences).getD []

/-- The nodes of a graph. -/
def Graph.nodes (g : Graph H D) : Set ℕ := {seq | seq ∈ g.heads}

/-- **Every node has a list, and the lists are symmetric**, closed over the nodes, without loops or
duplicates, and not too long. -/
structure Meshed (g : Graph H D) : Prop where
  zero : 0 ∉ g.heads
  keys : g.lists.keys = g.heads.keys
  linked : Linked g.nodes settled g.names
  degree : ∀ seq, (g.names seq).length ≤ maxDegree

/-- **A header is right about a graph.** -/
structure Counted (g : Graph H D) (h : GraphHeader) : Prop where
  nodes : h.nodes = g.heads.keys.card
  entry : h.nodes ≠ 0 → h.entry ∈ g.heads
  empty : h.nodes = 0 → h.entry = 0
  entryAt : h.entryAt ≤ h.nodes

/-- **The graph is well formed**, and its header decodes. -/
structure WellFormed (g : Graph H D) : Prop extends Meshed g where
  header : ∃ h, g.readHeader = .ok h ∧ Counted g h

/-- A result that meets `P`, or a limit the caller set: never a corrupt graph. -/
def Yields {α : Type} (x : Except Failure α) (P : α → Prop) : Prop :=
  match x with
  | .ok a => P a
  | .error (.resourceLimit _) => True
  | .error (.corrupt _) => False

section

variable {α β : Type} {x : Except Failure α} {f : α → Except Failure β} {P : α → Prop} {Q : β → Prop}

lemma Yields.bind (h : Yields x P) (hf : ∀ a, P a → Yields (f a) Q) : Yields (x >>= f) Q := by
  cases x with
  | ok a => exact hf a h
  | error e =>
      cases e with
      | corrupt why => exact h.elim
      | resourceLimit why => trivial

lemma Yields.pure {a : α} (h : P a) : Yields (pure a) P := h

lemma Yields.refuse {c : Prop} [Decidable c] {e : Failure} (h : ¬ c) :
    Yields (refuse c e) fun _ => True := by
  rw [Fallible.refuse, if_neg h]
  trivial

lemma Yields.orElse {o : Option α} {a : α} {e : Failure} (h : o = some a) :
    Yields (orElse o e) (· = a) := by
  rw [h]
  rfl

lemma Yields.mono {P' : α → Prop} (h : Yields x P) (hP : ∀ a, P a → P' a) : Yields x P' := by
  cases x with
  | ok a => exact hP a h
  | error e => cases e <;> exact h

lemma Yields.of_ok {a : α} (h : Yields x P) (hok : x = .ok a) : P a := by
  subst hok
  exact h

lemma Yields.ne_corrupt {why : String} (h : Yields x P) : x ≠ .error (.corrupt why) := by
  rintro rfl
  exact h

end

/-! ## Records -/

lemma Adjacency.length_sequences (a : Adjacency D) : a.sequences.length = a.len := by
  simp [sequences, edges, len]

@[simp] lemma Adjacency.sequences_remove (a : Adjacency D) (seq : ℕ) :
    (a.remove seq).sequences = a.sequences.filter (· ≠ seq) := by
  simp only [sequences, edges, remove, List.map_append, List.filter_append, List.filter_map]
  rfl

@[simp] lemma Adjacency.sequences_append (a : Adjacency D) (e : Edge D) :
    (a.append e).sequences = a.sequences ++ [e.seq] := by
  simp [sequences, edges, append]

section

variable {g : Graph H D} {seq : ℕ} {h : GraphHeader}

lemma Meshed.ne_zero (hg : Meshed g) (hs : seq ∈ g.heads) : seq ≠ 0 := by
  rintro rfl
  exact hg.zero hs

lemma Meshed.list (hg : Meshed g) (hs : seq ∈ g.heads) :
    ∃ a, g.lists.lookup seq = some a ∧ g.names seq = a.sequences := by
  have hmem : seq ∈ g.lists := by
    rw [← Finmap.mem_keys, hg.keys, Finmap.mem_keys]
    exact hs
  obtain ⟨a, ha⟩ := Option.isSome_iff_exists.1 (Finmap.lookup_isSome.2 hmem)
  exact ⟨a, ha, by simp [Graph.names, ha]⟩

lemma Meshed.decodeAdjacency_ok (hg : Meshed g) {a : Adjacency D}
    (ha : g.lists.lookup seq = some a) : decodeAdjacency seq a = .ok a := by
  have hnames : g.names seq = a.sequences := by simp [Graph.names, ha]
  have hdegree := hg.degree seq
  have hloop := hg.linked.loopless seq
  have hnodup := hg.linked.nodup seq
  have hclosed := hg.linked.closed seq
  rw [hnames] at hdegree hloop hnodup hclosed
  simp only [decodeAdjacency, bind_eq_ok, refuse_eq_ok, pure_eq_ok, exists_const, and_true, not_lt,
    not_exists, not_and, not_or, not_not]
  refine ⟨a.length_sequences ▸ hdegree, fun other hother => ⟨?_, ?_⟩, hnodup⟩
  · exact hg.ne_zero (hclosed other hother).2
  · rintro rfl
    exact hloop hother

/-- **A node's record is read.** -/
lemma Meshed.readRecord_node (hg : Meshed g) (hs : seq ∈ g.heads) :
    ∃ head a, g.heads.lookup seq = some head ∧ g.lists.lookup seq = some a
      ∧ g.readRecord seq = .ok (some ⟨head, a⟩) := by
  obtain ⟨head, hhead⟩ := Option.isSome_iff_exists.1 (Finmap.lookup_isSome.2 hs)
  obtain ⟨a, ha, -⟩ := hg.list hs
  refine ⟨head, a, hhead, ha, ?_⟩
  simp only [Graph.readRecord, hhead, Graph.readAdjacency, ha, bind_eq_ok, pure_eq_ok, orElse_eq_ok]
  exact ⟨some a, ⟨a, hg.decodeAdjacency_ok ha, rfl⟩, a, rfl, rfl⟩

lemma readRecord_none (hs : seq ∉ g.heads) : g.readRecord seq = .ok none := by
  simp [Graph.readRecord, Finmap.lookup_eq_none.2 hs]

/-- A header that counts the nodes passes its own check. -/
lemma Counted.decodes (hg : Meshed g) (hc : Counted g h) : decodeHeader h = .ok h := by
  simp only [decodeHeader, bind_eq_ok, refuse_eq_ok, pure_eq_ok, exists_const, and_true, not_or,
    not_lt, ne_eq, not_not]
  refine ⟨propext ⟨fun he => ?_, hc.empty⟩, hc.entryAt⟩
  by_contra hn
  exact hg.ne_zero (hc.entry hn) he

lemma wellFormed_of_header (hg : Meshed g) (hh : g.header = some h) (hc : Counted g h) :
    WellFormed g :=
  ⟨hg, h, by rw [Graph.readHeader, hh]; exact hc.decodes hg, hc⟩

lemma wellFormed_empty : WellFormed (Graph.empty : Graph H D) := by
  have hnames : (Graph.empty : Graph H D).names = fun _ => [] := by
    funext seq
    simp [Graph.names, Graph.empty]
  refine ⟨⟨Finmap.notMem_empty, rfl, ?_, fun seq => ?_⟩, ⟨0, 0, 0⟩, rfl, ?_⟩
  · rw [hnames]
    exact Linked.empty _ _
  · rw [hnames]
    exact Nat.zero_le _
  · exact ⟨rfl, fun hn => absurd rfl hn, fun _ => rfl, le_refl _⟩

end

/-! ## Robust pruning -/

/-- **A prune keeps candidates**, in their order. -/
lemma robustPrune_sublist (m : Metric H D) (room : ℕ) (nodes : List (Node H D)) :
    ((robustPrune m room nodes).map Edge.seq).Sublist (nodes.map Node.seq) := by
  fun_induction robustPrune m room nodes with
  | case1 => simp
  | case2 => simp
  | case3 room best remaining ih =>
      rw [List.map_cons, List.map_cons]
      exact (ih.trans (List.filter_sublist.map _)).cons_cons _

lemma robustPrune_length (m : Metric H D) (room : ℕ) (nodes : List (Node H D)) :
    (robustPrune m room nodes).length ≤ room := by
  fun_induction robustPrune m room nodes with
  | case1 => simp
  | case2 => simp
  | case3 room best remaining ih =>
      rw [List.length_cons]
      omega

/-! ## Greedy search -/

lemma expandFirst_spec {pool pool' : List (Reached H D)} {a : Adjacency D}
    (h : expandFirst pool = some (a, pool')) :
    (∃ r ∈ pool, r.adjacency = a)
      ∧ (∀ r ∈ pool', ∃ r' ∈ pool, r'.node = r.node ∧ r'.adjacency = r.adjacency)
      ∧ (pool.filter fun r => !r.expanded).length = (pool'.filter fun r => !r.expanded).length + 1 := by
  induction pool generalizing pool' with
  | nil => cases h
  | cons r rest ih =>
      rw [expandFirst] at h
      split_ifs at h with hr
      · obtain ⟨⟨a', rest'⟩, hrest, hx⟩ := Option.map_eq_some_iff.1 h
        cases hx
        obtain ⟨⟨r₁, hr₁, ha⟩, hmem, hlen⟩ := ih hrest
        refine ⟨⟨r₁, by simp [hr₁], ha⟩, ?_, ?_⟩
        · intro x hx
          rcases List.mem_cons.1 hx with rfl | hx
          · exact ⟨x, by simp, rfl, rfl⟩
          · obtain ⟨y, hy, hyx⟩ := hmem x hx
            exact ⟨y, by simp [hy], hyx⟩
        · simpa [List.filter_cons, hr] using hlen
      · cases h
        refine ⟨⟨r, by simp, rfl⟩, ?_, ?_⟩
        · intro x hx
          rcases List.mem_cons.1 hx with rfl | hx
          · exact ⟨r, by simp, rfl, rfl⟩
          · exact ⟨x, by simp [hx], rfl, rfl⟩
        · simp [hr]

section

variable [LinearOrder D] {m : Metric H D} {g : Graph H D} {q : Search H D} {w : Walk H D}

/-- **What a walk holds**: nodes of the graph, each once, and never the excluded one. -/
structure Walking (g : Graph H D) (q : Search H D) (w : Walk H D) : Prop where
  seen : ∀ seq ∈ w.seen, seq ∈ g.heads ∧ seq ≠ q.exclude
  visited : (w.visited.map Node.seq).Nodup
  passed : ∀ seq ∈ w.visited.map Node.seq, seq ∈ w.seen
  pool : ∀ r ∈ w.pool, r.node.seq ∈ g.heads ∧ g.heads.lookup r.node.seq = some r.node.head
  /-- what a pool member names are nodes -/
  ahead : ∀ r ∈ w.pool, ∀ seq ∈ r.adjacency.sequences, seq ∈ g.heads

/-- The nodes a walk has still to read or to expand. -/
def Walk.remaining (g : Graph H D) (w : Walk H D) : ℕ :=
  (g.heads.keys \ w.seen).card + (w.pool.filter fun r => !r.expanded).length

lemma insertReached_perm (pool : List (Reached H D)) (r : Reached H D) :
    ((pool.takeWhile fun x => x.node.before r.node)
      ++ r :: (pool.dropWhile fun x => x.node.before r.node)).Perm (r :: pool) := by
  refine List.perm_middle.trans ?_
  rw [List.takeWhile_append_dropWhile]

lemma mem_insertReached {pool : List (Reached H D)} {r x : Reached H D}
    (hx : x ∈ insertReached q pool r) : x = r ∨ x ∈ pool := by
  have hmem := (insertReached_perm pool r).mem_iff.1 (List.mem_of_mem_take hx)
  simpa using hmem

lemma unexpanded_insertReached (pool : List (Reached H D)) (r : Reached H D) :
    ((insertReached q pool r).filter fun x => !x.expanded).length
      ≤ (pool.filter fun x => !x.expanded).length + 1 := by
  have hsub := (List.take_sublist q.list ((pool.takeWhile fun x => x.node.before r.node)
      ++ r :: (pool.dropWhile fun x => x.node.before r.node))).filter fun x => !x.expanded
  have hperm := ((insertReached_perm pool r).filter fun x => !x.expanded).length_eq
  refine hsub.length_le.trans (hperm.le.trans ?_)
  rw [List.filter_cons]
  split_ifs <;> simp

/-- **A node is read**, and stays to be expanded at most. -/
lemma reach_yields (hg : Meshed g) (hw : Walking g q w) {seq : ℕ} (hs : seq ∈ g.heads) :
    Yields (reach m g q w seq) fun w' => Walking g q w' ∧ w'.remaining g ≤ w.remaining g := by
  rw [reach]
  split_ifs with hskip
  · exact ⟨hw, le_refl _⟩
  · rw [not_or] at hskip
    obtain ⟨hex, hseen⟩ := hskip
    obtain ⟨head, a, hhead, ha, hread⟩ := hg.readRecord_node hs
    have hnames : g.names seq = a.sequences := by simp [Graph.names, ha]
    by_cases hlimit : q.maxExamined ≤ w.examined
    · simp only [refuse, if_pos hlimit]
      trivial
    · simp only [refuse, if_neg hlimit, Graph.record, hread]
      refine ⟨⟨?_, ?_, ?_, ?_, ?_⟩, ?_⟩
      · intro other hother
        rcases Finset.mem_insert.1 hother with rfl | hother
        · exact ⟨hs, hex⟩
        · exact hw.seen other hother
      · split_ifs
        · rw [List.map_append, List.map_singleton]
          exact Neighbours.nodup_append_singleton hw.visited fun hmem => hseen (hw.passed _ hmem)
        · exact hw.visited
      · intro other hother
        rw [Finset.mem_insert]
        split_ifs at hother
        · rw [List.map_append, List.map_singleton, List.mem_append, List.mem_singleton] at hother
          exact hother.symm.imp_right (hw.passed other)
        · exact Or.inr (hw.passed other hother)
      · intro r hr
        rcases mem_insertReached hr with rfl | hr
        · exact ⟨hs, hhead⟩
        · exact hw.pool r hr
      · intro r hr other hother
        rcases mem_insertReached hr with rfl | hr
        · exact (hg.linked.closed seq other (hnames ▸ hother)).2
        · exact hw.ahead r hr other hother
      · -- it leaves the unseen nodes, and may join the unexpanded ones
        have hmem : seq ∈ g.heads.keys \ w.seen := by
          rw [Finset.mem_sdiff, Finmap.mem_keys]
          exact ⟨hs, hseen⟩
        have hcard := Finset.card_erase_add_one hmem
        rw [Walk.remaining, Walk.remaining, Finset.sdiff_insert]
        have hpool := unexpanded_insertReached (q := q) w.pool
          ⟨⟨seq, (q.score head).getD m.infinity, head⟩, a, false, (q.score head).isSome⟩
        dsimp only
        omega

lemma reachAll_yields (hg : Meshed g) {seqs : List ℕ} (hw : Walking g q w)
    (hs : ∀ seq ∈ seqs, seq ∈ g.heads) :
    Yields (reachAll m g q w seqs) fun w' => Walking g q w' ∧ w'.remaining g ≤ w.remaining g := by
  induction seqs generalizing w with
  | nil => exact ⟨hw, le_refl _⟩
  | cons seq rest ih =>
      refine (reach_yields hg hw (hs seq (by simp))).bind fun w₁ h₁ => ?_
      refine (ih h₁.1 fun other hother => hs other (by simp [hother])).mono fun w₂ h₂ => ?_
      exact ⟨h₂.1, h₂.2.trans h₁.2⟩

/-- **The loop ends because every turn expands a node**: what is left to read or to expand bounds
the turns. -/
lemma searchLoop_yields (hg : Meshed g) {fuel : ℕ} (hw : Walking g q w)
    (hfuel : w.remaining g ≤ fuel) :
    Yields (searchLoop m g q fuel w) fun w' => Walking g q w' ∧ expandFirst w'.pool = none := by
  induction fuel generalizing w with
  | zero =>
      refine ⟨hw, ?_⟩
      cases he : expandFirst w.pool with
      | none => rfl
      | some x =>
          obtain ⟨a, pool⟩ := x
          have hlen := (expandFirst_spec he).2.2
          rw [Walk.remaining] at hfuel
          omega
  | succ fuel ih =>
      rw [searchLoop]
      cases he : expandFirst w.pool with
      | none => exact ⟨hw, he⟩
      | some x =>
          obtain ⟨a, pool⟩ := x
          obtain ⟨⟨r, hr, rfl⟩, hmem, hlen⟩ := expandFirst_spec he
          have hw' : Walking g q { w with pool } := by
            refine ⟨hw.seen, hw.visited, hw.passed, fun x hx => ?_, fun x hx => ?_⟩
            · obtain ⟨y, hy, hn, -⟩ := hmem x hx
              exact hn ▸ hw.pool y hy
            · obtain ⟨y, hy, -, ha⟩ := hmem x hx
              exact ha ▸ hw.ahead y hy
          refine (reachAll_yields hg hw' (hw.ahead r hr)).bind fun w₁ h₁ => ih h₁.1 ?_
          have hless : Walk.remaining g { w with pool } + 1 = w.remaining g := by
            rw [Walk.remaining, Walk.remaining, hlen, Nat.add_assoc]
          omega

lemma sortNodes_perm (nodes : List (Node H D)) : (sortNodes nodes).Perm nodes :=
  List.perm_insertionSort _ _

/-- **A search finds nodes of the graph**, each once, and never the excluded one. -/
lemma greedySearch_yields (hg : Meshed g) (hs : q.entry ∈ g.heads) :
    Yields (greedySearch m g q) fun r =>
      (∀ node ∈ r.1, g.heads.lookup node.seq = some node.head)
      ∧ (r.2.1.map Node.seq).Nodup
      ∧ ∀ seq ∈ r.2.1.map Node.seq, seq ∈ g.heads ∧ seq ≠ q.exclude := by
  have hstart : Walking g q ⟨[], [], ∅, 0⟩ :=
    ⟨by simp, List.nodup_nil, by simp, by simp, by simp⟩
  have hzero : Walk.remaining g (⟨[], [], ∅, 0⟩ : Walk H D) = g.heads.keys.card := by
    simp [Walk.remaining]
  refine (reach_yields hg hstart hs).bind fun w h₁ => ?_
  have hfuel : w.remaining g ≤ g.heads.keys.card + 1 := by omega
  refine (searchLoop_yields hg h₁.1 hfuel).bind fun w h₂ => ?_
  have hperm := (sortNodes_perm w.visited).map Node.seq
  refine Yields.pure ⟨fun node hnode => ?_, hperm.nodup_iff.2 h₂.1.visited, fun seq hseq => ?_⟩
  · obtain ⟨r, hr, rfl⟩ := List.mem_map.1 hnode
    exact (h₂.1.pool r (List.mem_of_mem_filter hr)).2
  · exact h₂.1.seen seq (h₂.1.passed seq (hperm.mem_iff.1 hseq))

end

end Engine.Vamana
