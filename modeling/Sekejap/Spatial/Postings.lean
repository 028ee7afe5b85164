import Sekejap.Spatial.Geometry

/-!
# Spatial postings

A point index files a row under the cell of its point, with the point; a geometry index files it under
every cell its box covers, with the box (`core/engine/src/index/spatial/point.rs`,
`geometry_index.rs`).  The write path compares the postings of the old row with those of the new one;
a build puts those of the stored row.

The bytes of a posting key order as its level, its cell and the row's number do; the prefix of the
index is left out.  A key of a point index has no level, and its cells are those of the 16-bit grid.

* **`geometryEntries_ok`** — a geometry is filed under some cells, each once, with its box.
* **`maintainGeometry_follows`**, **`maintainPoint_follows`** — what the write path leaves of the
  postings of a row.
-/

open Fallible

open Ieee (f32 f64)

namespace Engine.Spatial

/-- A posting key: level, cell, row. -/
abbrev PostingKey := ℕ ×ₗ ℕ ×ₗ ℕ

/-- The row a posting is of. -/
def rowOf (key : PostingKey) : ℕ := (ofLex (ofLex key).2).2

/-- What is filed under a key: a point by the bits of its coordinates, or a box. -/
inductive Posting where
  | point (lon lat : ℕ)
  | box (b : BoxF)
  deriving DecidableEq

abbrev Postings := Finmap fun _ : PostingKey => Posting

/-- An entry of an index. -/
abbrev Entry := PostingKey × Posting

/-! ## The entries of a row -/

/-- `posting_key_at` -/
def postingKeyAt (level cell sequence : ℕ) : PostingKey := toLex (level, toLex (cell, sequence))

def pointEntry (sequence : ℕ) (p : ℕ × ℕ) : Entry :=
  (postingKeyAt hilbertBits (pointHilbert p) sequence, .point p.1 p.2)

def geometryEntries (sequence : ℕ) (g : Geom) : Except Error (List Entry) := do
  let b ← orElse (indexedBbox g) (.invalid "indexed geometry must not be empty")
  let value := BoxF.ofBox b
  let (level, cells) := coverCellsFor b
  let entries := cells.map fun c =>
    (postingKeyAt level (cellHilbert c.1 c.2 level) sequence, Posting.box value)
  pure (entries.insertionSort fun a b => a.1 ≤ b.1)

/-- The entries of a geometry, or none of a row without one. -/
def geometryEntriesOf (sequence : ℕ) : Option Geom → Except Error (List Entry)
  | some g => geometryEntries sequence g
  | none => .ok []

/-! ## The write path and the build -/

/-- What a document has, when there is one. -/
def selected {α : Type} (select : Document → Except Error (Option α)) :
    Option Document → Except Error (Option α)
  | none => .ok none
  | some doc => select doc

def maintainPoint (i : IndexInfo) (data : Postings) (sequence : ℕ) (old new : Option Document) :
    Except Error Postings := do
  let old ← selected (selectedPoint · i.field) old
  let new ← selected (selectedPoint · i.field) new
  let old := old.map (pointEntry sequence)
  let new := new.map (pointEntry sequence)
  if old = new then pure data
  else
    match old, new with
    | some o, some n =>
        if o.1 = n.1 then pure (data.insert n.1 n.2) else pure ((data.erase o.1).insert n.1 n.2)
    | some o, none => pure (data.erase o.1)
    | none, some n => pure (data.insert n.1 n.2)
    | none, none => pure data

/-- The loop of `maintain_geometry`, a turn for every key it passes. -/
def mergeEntries : ℕ → Postings → List Entry → List Entry → Postings
  | fuel + 1, data, o :: os, n :: ns =>
      if o.1 = n.1 then mergeEntries fuel data os ns
      else if o.1 < n.1 then mergeEntries fuel (data.erase o.1) os (n :: ns)
      else mergeEntries fuel (data.insert n.1 n.2) (o :: os) ns
  | fuel + 1, data, o :: os, [] => mergeEntries fuel (data.erase o.1) os []
  | fuel + 1, data, [], n :: ns => mergeEntries fuel (data.insert n.1 n.2) [] ns
  | _, data, _, _ => data

/-- The postings of the old geometry and the new are merged by their keys; a key of both is left as it is. -/
def maintainGeometry (i : IndexInfo) (data : Postings) (sequence : ℕ) (old new : Option Document) :
    Except Error Postings := do
  let oldGeometry ← selected (selectedGeometry · i.field) old
  let newGeometry ← selected (selectedGeometry · i.field) new
  let oldEntries ← geometryEntriesOf sequence oldGeometry
  let newEntries ← geometryEntriesOf sequence newGeometry
  if oldEntries = newEntries then pure data
  else pure (mergeEntries (oldEntries.length + newEntries.length) data oldEntries newEntries)

/-- The entries of a document, by the kind of the index: what a build puts. -/
def buildEntries (i : IndexInfo) (sequence : ℕ) (doc : Document) : Except Error (List Entry) :=
  if i.kind = .point then do
    let p ← selectedPoint doc i.field
    pure (p.toList.map (pointEntry sequence))
  else do
    let g ← selectedGeometry doc i.field
    geometryEntriesOf sequence g

/-- **The family of spatial indexes**, over points or over geometries. -/
def family : Families.Family Postings where
  empty := ∅
  accepts := fun kind => match kind with
    | .point | .geo => true
    | _ => false
  maintain := fun i data sequence old new =>
    if i.kind = .point then maintainPoint i data sequence old (new.map Prod.fst)
    else maintainGeometry i data sequence old (new.map Prod.fst)
  build := fun i data sequence doc => do
    let entries ← buildEntries i sequence doc
    pure (entries.foldl (fun data e => data.insert e.1 e.2) data)

/-- The rows whose box overlaps the query, as every posting tells. -/
def geometryBboxOverlap (data : Postings) (query : BoxF) : Finset ℕ :=
  (data.keys.filter fun key => (data.lookup key).any fun p => match p with
    | .box b => b.intersects query
    | .point .. => false).image rowOf

/-! ## Entries -/

@[simp] lemma rowOf_postingKeyAt (level cell sequence : ℕ) :
    rowOf (postingKeyAt level cell sequence) = sequence := rfl

/-- Keys of one level and one row tell the cell. -/
lemma postingKeyAt_inj {level cell cell' sequence : ℕ}
    (h : postingKeyAt level cell sequence = postingKeyAt level cell' sequence) : cell = cell' := by
  have hkey := congrArg (fun k : PostingKey => (ofLex (ofLex k).2).1) h
  exact hkey

/-- The entries of one row: in the order of their keys, each key once. -/
structure RowEntries (sequence : ℕ) (l : List Entry) : Prop where
  sorted : l.Pairwise fun a b => a.1 < b.1
  row : ∀ e ∈ l, rowOf e.1 = sequence

section

variable {sequence : ℕ} {l : List Entry} {g : Geom}

lemma RowEntries.nil : RowEntries sequence [] := ⟨.nil, by simp⟩

lemma RowEntries.unique (h : RowEntries sequence l) {key : PostingKey} {p p' : Posting}
    (hp : (key, p) ∈ l) (hp' : (key, p') ∈ l) : p = p' := by
  have hnodup : (l.map Prod.fst).Nodup :=
    List.pairwise_map.2 (h.sorted.imp fun hlt => hlt.ne)
  have := List.inj_on_of_nodup_map hnodup hp hp' rfl
  exact congrArg Prod.snd this

lemma pairwise_insertionSort_key (l : List Entry) :
    (l.insertionSort fun a b => a.1 ≤ b.1).Pairwise fun a b => a.1 ≤ b.1 := by
  have : Std.Total (fun a b : Entry => a.1 ≤ b.1) := ⟨fun a b => le_total a.1 b.1⟩
  have : IsTrans Entry (fun a b => a.1 ≤ b.1) := ⟨fun a b c => le_trans⟩
  exact List.pairwise_insertionSort _ l

/-- **What a geometry is filed under.** -/
lemma geometryEntries_ok (h : geometryEntries sequence g = .ok l) :
    RowEntries sequence l ∧ ∃ b, indexedBbox g = some b ∧ l ≠ []
      ∧ ∀ e ∈ l, e.2 = .box (BoxF.ofBox b) := by
  simp only [geometryEntries, bind_eq_ok, orElse_eq_ok, pure_eq_ok] at h
  obtain ⟨b, hb, rfl⟩ := h
  obtain ⟨hnodup, hgrid, hne⟩ := coverCellsFor_cells b
  set level := (coverCellsFor b).1
  set cells := (coverCellsFor b).2
  set entry : ℕ × ℕ → Entry := fun c =>
    (postingKeyAt level (cellHilbert c.1 c.2 level) sequence, Posting.box (BoxF.ofBox b))
  have hmem : ∀ e, e ∈ (cells.map entry).insertionSort (fun a b => a.1 ≤ b.1)
      ↔ ∃ c ∈ cells, entry c = e := by
    intro e
    rw [List.mem_insertionSort, List.mem_map]
  refine ⟨⟨?_, ?_⟩, b, hb, ?_, ?_⟩
  · have hkeys : ((cells.map entry).map Prod.fst).Nodup := by
      rw [List.map_map]
      refine List.Nodup.map_on (fun c hc c' hc' heq => ?_) hnodup
      obtain ⟨hx, hy⟩ := cellHilbert_inj (hgrid c hc).1 (hgrid c hc).2 (hgrid c' hc').1
        (hgrid c' hc').2 (postingKeyAt_inj heq)
      exact Prod.ext hx hy
    have hle : ((cells.map entry).insertionSort fun a b => a.1 ≤ b.1).Pairwise fun a b => a.1 ≤ b.1 :=
      pairwise_insertionSort_key _
    have hne : ((cells.map entry).insertionSort fun a b => a.1 ≤ b.1).Pairwise fun a b => a.1 ≠ b.1 := by
      rw [← List.pairwise_map (f := Prod.fst) (R := fun a b => a ≠ b)]
      exact ((List.perm_insertionSort _ _).map _).nodup_iff.2 hkeys
    exact (hle.and hne).imp fun h => lt_of_le_of_ne h.1 h.2
  · intro e he
    obtain ⟨c, -, rfl⟩ := (hmem e).1 he
    rfl
  · have := hne (indexedBbox_proper hb)
    obtain ⟨c, hc⟩ := List.exists_mem_of_ne_nil _ this
    exact List.ne_nil_of_mem ((hmem _).2 ⟨c, hc, rfl⟩)
  · intro e he
    obtain ⟨c, -, rfl⟩ := (hmem e).1 he
    rfl

end

/-! ## What the write path leaves -/

/-- The keys of some entries. -/
def keysOf (l : List Entry) : List PostingKey := l.map Prod.fst

/-- What some entries file under a key. -/
def valueOf : List Entry → PostingKey → Option Posting
  | [], _ => none
  | e :: l, key => if e.1 = key then some e.2 else valueOf l key

/-- **The postings of one row have followed it**, from its old entries to its new ones; a key that both
have with two values is left to the family. -/
structure Follows (lo ln : List Entry) (data data' : Postings) : Prop where
  other : ∀ key, key ∉ keysOf lo → key ∉ keysOf ln → data'.lookup key = data.lookup key
  gone : ∀ key, key ∈ keysOf lo → key ∉ keysOf ln → data'.lookup key = none
  arrived : ∀ key p, (key, p) ∈ ln → key ∉ keysOf lo → data'.lookup key = some p
  kept : ∀ key p, (key, p) ∈ ln → (key, p) ∈ lo →
    data'.lookup key = data.lookup key ∨ data'.lookup key = some p

section

variable {sequence fuel : ℕ} {lo ln l : List Entry} {data data' : Postings} {i : IndexInfo}

lemma mem_keysOf {key : PostingKey} : key ∈ keysOf l ↔ ∃ p, (key, p) ∈ l := by
  simp [keysOf]

@[simp] lemma keysOf_cons (e : Entry) (l : List Entry) : keysOf (e :: l) = e.1 :: keysOf l := rfl

lemma valueOf_of_notMem {key : PostingKey} (h : key ∉ keysOf l) : valueOf l key = none := by
  induction l with
  | nil => rfl
  | cons e l ih =>
      rw [keysOf_cons, List.mem_cons, not_or] at h
      rw [valueOf, if_neg (Ne.symm h.1), ih h.2]

lemma valueOf_of_mem {key : PostingKey} {p : Posting} (hl : l.Pairwise fun a b => a.1 < b.1)
    (h : (key, p) ∈ l) : valueOf l key = some p := by
  induction l with
  | nil => cases h
  | cons e l ih =>
      obtain ⟨he, hl'⟩ := List.pairwise_cons.1 hl
      rw [valueOf]
      rcases List.mem_cons.1 h with rfl | hmem
      · rw [if_pos rfl]
      · rw [if_neg (he _ hmem).ne, ih hl' hmem]

/-- Keys below the first of a list are not in it. -/
lemma notMem_keysOf {key : PostingKey} (h : ∀ e ∈ l, key < e.1) : key ∉ keysOf l := by
  intro hmem
  obtain ⟨p, hp⟩ := mem_keysOf.1 hmem
  exact lt_irrefl _ (h _ hp)

lemma follows_refl : Follows l l data data :=
  ⟨fun _ _ _ => rfl, fun _ h h' => absurd h h', fun _ p h h' => absurd (mem_keysOf.2 ⟨p, h⟩) h',
    fun _ _ _ _ => Or.inl rfl⟩

/-- **What the merge leaves under a key.** -/
lemma lookup_mergeEntries (data : Postings) (hlo : lo.Pairwise fun a b => a.1 < b.1)
    (hln : ln.Pairwise fun a b => a.1 < b.1) (hfuel : lo.length + ln.length ≤ fuel)
    (key : PostingKey) :
    (mergeEntries fuel data lo ln).lookup key
      = if key ∈ keysOf lo then if key ∈ keysOf ln then data.lookup key else none
        else (valueOf ln key).or (data.lookup key) := by
  induction fuel generalizing data lo ln with
  | zero =>
      have h0 : lo = [] := List.length_eq_zero_iff.1 (by omega)
      have h1 : ln = [] := List.length_eq_zero_iff.1 (by omega)
      subst h0 h1
      simp [mergeEntries, keysOf, valueOf]
  | succ fuel ih =>
      -- one key is passed: the first of the old entries, of the new ones, or of both
      have hput : ∀ n ns, ln = n :: ns → n.1 ∉ keysOf lo →
          (mergeEntries fuel (data.insert n.1 n.2) lo ns).lookup key
            = if key ∈ keysOf lo then if key ∈ keysOf ln then data.lookup key else none
              else (valueOf ln key).or (data.lookup key) := by
        rintro n ns rfl hnot
        obtain ⟨hn, hns⟩ := List.pairwise_cons.1 hln
        rw [ih _ hlo hns (by simp only [List.length_cons] at hfuel; omega)]
        by_cases hkey : key = n.1
        · subst hkey
          simp [hnot, valueOf, valueOf_of_notMem (notMem_keysOf hn)]
        · simp [hkey, Ne.symm hkey, valueOf, Finmap.lookup_insert_of_ne]
      have hdelete : ∀ o os, lo = o :: os → o.1 ∉ keysOf ln →
          (mergeEntries fuel (data.erase o.1) os ln).lookup key
            = if key ∈ keysOf lo then if key ∈ keysOf ln then data.lookup key else none
              else (valueOf ln key).or (data.lookup key) := by
        rintro o os rfl hnot
        obtain ⟨ho, hos⟩ := List.pairwise_cons.1 hlo
        rw [ih _ hos hln (by simp only [List.length_cons] at hfuel; omega)]
        by_cases hkey : key = o.1
        · subst hkey
          simp [hnot, valueOf_of_notMem hnot, notMem_keysOf ho]
        · simp [hkey, Finmap.lookup_erase_ne]
      cases lo with
      | nil =>
          cases ln with
          | nil => simp [mergeEntries, keysOf, valueOf]
          | cons n ns =>
              rw [mergeEntries]
              exact hput n ns rfl (by simp [keysOf])
      | cons o os =>
          obtain ⟨ho, hos⟩ := List.pairwise_cons.1 hlo
          cases ln with
          | nil =>
              rw [mergeEntries]
              exact hdelete o os rfl (by simp [keysOf])
          | cons n ns =>
              obtain ⟨hn, hns⟩ := List.pairwise_cons.1 hln
              rw [mergeEntries]
              by_cases heq : o.1 = n.1
              · rw [if_pos heq, ih _ hos hns (by simp only [List.length_cons] at hfuel; omega)]
                by_cases hkey : key = o.1
                · have hno : key ∉ keysOf os := hkey ▸ notMem_keysOf ho
                  have hnn : key ∉ keysOf ns := hkey ▸ heq ▸ notMem_keysOf hn
                  have hkey' : key = n.1 := hkey.trans heq
                  simp [hno, valueOf_of_notMem hnn, ← hkey, ← hkey']
                · have hkey' : key ≠ n.1 := heq ▸ hkey
                  simp [hkey, hkey', Ne.symm hkey', valueOf]
              · rw [if_neg heq]
                by_cases hlt : o.1 < n.1
                · rw [if_pos hlt]
                  refine hdelete o os rfl ?_
                  rw [keysOf_cons, List.mem_cons, not_or]
                  exact ⟨heq, notMem_keysOf fun e he => hlt.trans (hn e he)⟩
                · rw [if_neg hlt]
                  refine hput n ns rfl ?_
                  have hgt : n.1 < o.1 := lt_of_le_of_ne (not_lt.1 hlt) (Ne.symm heq)
                  rw [keysOf_cons, List.mem_cons, not_or]
                  exact ⟨Ne.symm heq, notMem_keysOf fun e he => hgt.trans (ho e he)⟩

lemma mergeEntries_follows (hlo : RowEntries sequence lo) (hln : RowEntries sequence ln) :
    Follows lo ln data (mergeEntries (lo.length + ln.length) data lo ln) := by
  have hlook := lookup_mergeEntries data hlo.sorted hln.sorted le_rfl
  refine ⟨fun key h h' => ?_, fun key h h' => ?_, fun key p h h' => ?_, fun key p h h' => Or.inl ?_⟩
  · rw [hlook, if_neg h, valueOf_of_notMem h', Option.none_or]
  · rw [hlook, if_pos h, if_neg h']
  · rw [hlook, if_neg h', valueOf_of_mem hln.sorted h, Option.some_or]
  · rw [hlook, if_pos (mem_keysOf.2 ⟨p, h'⟩), if_pos (mem_keysOf.2 ⟨p, h⟩)]

/-- **A geometry index follows a row.** -/
lemma maintainGeometry_follows {old new : Option Document}
    (h : maintainGeometry i data sequence old new = .ok data') :
    ∃ go gn lo ln, selected (selectedGeometry · i.field) old = .ok go
      ∧ selected (selectedGeometry · i.field) new = .ok gn
      ∧ geometryEntriesOf sequence go = .ok lo ∧ geometryEntriesOf sequence gn = .ok ln
      ∧ Follows lo ln data data' := by
  have hrow : ∀ {g l}, geometryEntriesOf sequence g = .ok l → RowEntries sequence l := by
    intro g l hl
    cases g with
    | none =>
        cases hl
        exact .nil
    | some g => exact (geometryEntries_ok hl).1
  simp only [maintainGeometry, bind_eq_ok] at h
  obtain ⟨go, hgo, gn, hgn, lo, hlo, ln, hln, h⟩ := h
  refine ⟨go, gn, lo, ln, hgo, hgn, hlo, hln, ?_⟩
  split_ifs at h with heq
  · cases h
    subst heq
    exact follows_refl
  · cases h
    exact mergeEntries_follows (hrow hlo) (hrow hln)

lemma lookup_insert_entry {e : Entry} {key : PostingKey} {p : Posting} (h : (key, p) ∈ [e]) :
    (data.insert e.1 e.2).lookup key = some p := by
  obtain rfl := List.mem_singleton.1 h
  exact Finmap.lookup_insert _

/-- **A point index follows a row**, also when the point moves within its cell. -/
lemma maintainPoint_follows {old new : Option Document}
    (h : maintainPoint i data sequence old new = .ok data') :
    ∃ po pn, selected (selectedPoint · i.field) old = .ok po
      ∧ selected (selectedPoint · i.field) new = .ok pn
      ∧ Follows (po.toList.map (pointEntry sequence)) (pn.toList.map (pointEntry sequence)) data data'
      ∧ ∀ key p, (key, p) ∈ pn.toList.map (pointEntry sequence) →
        key ∈ keysOf (po.toList.map (pointEntry sequence)) →
        (key, p) ∉ po.toList.map (pointEntry sequence) → data'.lookup key = some p := by
  simp only [maintainPoint, bind_eq_ok] at h
  obtain ⟨po, hpo, pn, hpn, h⟩ := h
  refine ⟨po, pn, hpo, hpn, ?_⟩
  cases po with
  | none =>
      cases pn with
      | none =>
          cases h
          exact ⟨follows_refl, by simp⟩
      | some n =>
          cases h
          refine ⟨⟨fun key _ h' => ?_, by simp [keysOf], fun key p hp _ => lookup_insert_entry hp,
            by simp⟩, by simp [keysOf]⟩
          exact Finmap.lookup_insert_of_ne _ (by simpa [keysOf] using h')
  | some o =>
      cases pn with
      | none =>
          cases h
          refine ⟨⟨fun key h' _ => ?_, ?_, by simp, by simp⟩, by simp⟩
          · exact Finmap.lookup_erase_ne (by simpa [keysOf] using h')
          · simp [keysOf, Finmap.lookup_erase]
      | some n =>
          simp only [Option.map_some, Option.some.injEq] at h
          simp only [Option.toList_some, List.map_cons, List.map_nil]
          split_ifs at h with heq hkey
          · cases h
            rw [heq]
            exact ⟨follows_refl, fun key p hp _ hp' => absurd hp hp'⟩
          · cases h
            refine ⟨⟨fun key _ h' => ?_, fun key h' h'' => ?_, fun key p hp _ => lookup_insert_entry hp,
              fun key p hp _ => Or.inr (lookup_insert_entry hp)⟩,
              fun key p hp _ _ => lookup_insert_entry hp⟩
            · exact Finmap.lookup_insert_of_ne _ (by simpa [keysOf] using h')
            · exact absurd (by simpa [keysOf, hkey] using h') h''
          · cases h
            refine ⟨⟨fun key h' h'' => ?_, fun key h' h'' => ?_, fun key p hp _ => lookup_insert_entry hp,
              fun key p hp _ => Or.inr (lookup_insert_entry hp)⟩,
              fun key p hp _ _ => lookup_insert_entry hp⟩
            · rw [Finmap.lookup_insert_of_ne _ (by simpa [keysOf] using h''),
                Finmap.lookup_erase_ne (by simpa [keysOf] using h')]
            · rw [Finmap.lookup_insert_of_ne _ (by simpa [keysOf] using h'')]
              simp only [keysOf, List.map_cons, List.map_nil, List.mem_singleton] at h'
              rw [h', Finmap.lookup_erase]

end

end Engine.Spatial
