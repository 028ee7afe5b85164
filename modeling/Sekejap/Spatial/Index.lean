import Sekejap.Collections.FamilyRuns
import Sekejap.Spatial.Postings

/-!
# Spatial indexes

Point and geometry indexes over the rows of their tables, in every run.

* **`spatial_reachable`** — in every run in which no update reshapes a geometry within a cell that a
  READY index already holds it under, the postings of a READY index are those of the live rows, and a
  box-overlap walk finds every row whose box overlaps the query.
* **`spatial_fails`** — an update that reshapes a geometry within its cell leaves the old box.
-/

open Fallible

open Engine.Families

namespace Engine.Spatial

/-! ## What an index promises -/

/-- The entries of a row, by its document. -/
def entriesOf (i : IndexInfo) (sequence : ℕ) (doc : Option Document) : List Entry :=
  match doc with
  | none => []
  | some doc =>
      match buildEntries i sequence doc with
      | .ok entries => entries
      | .error _ => []

/-- **An index is right about the rows it has been built for**, and has no posting of another row's,
or under another cell. -/
structure Filed (i : IndexInfo) (rows : ℕ → Option Document) (built : ℕ → Prop) (data : Postings) :
    Prop where
  filed : ∀ key, key ∈ data → key ∈ keysOf (entriesOf i (rowOf key) (rows (rowOf key)))
  current : ∀ key p, built (rowOf key) →
    (data.lookup key = some p ↔ (key, p) ∈ entriesOf i (rowOf key) (rows (rowOf key)))
  readable : ∀ n doc, built n → rows n = some doc → ∃ l, buildEntries i n doc = .ok l

/-- A geometry that the index has come past is reshaped, and stays within one of its cells. -/
def Reshapes (i : IndexInfo) (sequence : ℕ) (old new : Option Document) : Prop :=
  i.kind = .geo ∧ i.state.covers sequence ∧ ∃ e ∈ entriesOf i sequence new,
    e.1 ∈ keysOf (entriesOf i sequence old) ∧ e ∉ entriesOf i sequence old

section

variable {host : Host} {i : IndexInfo} {rows : ℕ → Option Document} {built : ℕ → Prop}
  {data data' : Postings} {sequence : ℕ} {l : List Entry}

lemma buildEntries_row {doc : Document} (h : buildEntries i sequence doc = .ok l) :
    RowEntries sequence l := by
  rw [buildEntries] at h
  split_ifs at h
  · simp only [bind_eq_ok, pure_eq_ok] at h
    obtain ⟨p, -, rfl⟩ := h
    cases p with
    | none => exact .nil
    | some p => exact ⟨by simp, by simp [pointEntry]⟩
  · simp only [bind_eq_ok] at h
    obtain ⟨g, -, h⟩ := h
    cases g with
    | none =>
        cases h
        exact .nil
    | some g => exact (geometryEntries_ok h).1

lemma entriesOf_some {doc : Document} (h : buildEntries i sequence doc = .ok l) :
    entriesOf i sequence (some doc) = l := by
  rw [entriesOf, h]

lemma entriesOf_row (doc : Option Document) : RowEntries sequence (entriesOf i sequence doc) := by
  cases doc with
  | none => exact .nil
  | some doc =>
      cases h : buildEntries i sequence doc with
      | ok l => exact entriesOf_some h ▸ buildEntries_row h
      | error e => exact (show entriesOf i sequence (some doc) = [] by rw [entriesOf, h]) ▸ .nil

lemma entriesOf_geometry {doc : Option Document} {g : Option Geom} (hkind : i.kind = .geo)
    (hg : selected (selectedGeometry · i.field) doc = .ok g)
    (hl : geometryEntriesOf sequence g = .ok l) :
    entriesOf i sequence doc = l ∧ ∀ d, doc = some d → buildEntries i sequence d = .ok l := by
  have hbuild : ∀ d, doc = some d → buildEntries i sequence d = .ok l := by
    rintro d rfl
    rw [buildEntries, if_neg (by rw [hkind]; simp)]
    simp only [bind_eq_ok]
    exact ⟨g, hg, hl⟩
  refine ⟨?_, hbuild⟩
  cases doc with
  | none =>
      cases hg
      cases hl
      rfl
  | some doc => exact entriesOf_some (hbuild doc rfl)

lemma entriesOf_point {doc : Option Document} {p : Option (ℕ × ℕ)} (sequence : ℕ) (hkind : i.kind = .point)
    (hp : selected (selectedPoint · i.field) doc = .ok p) :
    entriesOf i sequence doc = p.toList.map (pointEntry sequence)
      ∧ ∀ d, doc = some d →
        buildEntries i sequence d = .ok (p.toList.map (pointEntry sequence)) := by
  have hbuild : ∀ d, doc = some d →
      buildEntries i sequence d = .ok (p.toList.map (pointEntry sequence)) := by
    rintro d rfl
    rw [buildEntries, if_pos hkind]
    simp only [bind_eq_ok, pure_eq_ok]
    exact ⟨p, hp, rfl⟩
  refine ⟨?_, hbuild⟩
  cases doc with
  | none =>
      cases hp
      rfl
  | some doc => exact entriesOf_some (hbuild doc rfl)

/-- **A row changes and its postings follow**: the index stays right, unless a posting is left that the
new row has under the same key with another value. -/
lemma Filed.followed {new : Option Document} (h : Filed i rows built data)
    (hread : ∀ doc, new = some doc → ∃ l, buildEntries i sequence doc = .ok l)
    (hf : Follows (entriesOf i sequence (rows sequence)) (entriesOf i sequence new) data data')
    (hmoved : built sequence → ∀ key p, (key, p) ∈ entriesOf i sequence new →
      key ∈ keysOf (entriesOf i sequence (rows sequence)) →
      (key, p) ∉ entriesOf i sequence (rows sequence) → data'.lookup key = some p) :
    Filed i (Function.update rows sequence new) built data' := by
  set lo := entriesOf i sequence (rows sequence) with hlo
  set ln := entriesOf i sequence new with hln
  have hrow : ∀ doc key, key ∈ keysOf (entriesOf i sequence doc) → rowOf key = sequence := by
    intro doc key hkey
    obtain ⟨p, hp⟩ := mem_keysOf.1 hkey
    exact (entriesOf_row doc).row _ hp
  have hother : ∀ key, rowOf key ≠ sequence → data'.lookup key = data.lookup key := fun key hne =>
    hf.other key (fun hmem => hne (hrow _ key hmem)) (fun hmem => hne (hrow _ key hmem))
  refine ⟨fun key hkey => ?_, fun key p hb => ?_, fun n doc hb hdoc => ?_⟩
  · by_cases hseq : rowOf key = sequence
    · rw [hseq, Function.update_self, ← hln]
      by_contra hnot
      rw [← Finmap.lookup_isSome] at hkey
      by_cases hold : key ∈ keysOf lo
      · rw [hf.gone key hold hnot] at hkey
        cases hkey
      · rw [hf.other key hold hnot, Finmap.lookup_isSome] at hkey
        have := h.filed key hkey
        rw [hseq] at this
        exact hold this
    · rw [← Finmap.lookup_isSome, hother key hseq, Finmap.lookup_isSome] at hkey
      rw [Function.update_of_ne hseq]
      exact h.filed key hkey
  · by_cases hseq : rowOf key = sequence
    · rw [hseq, Function.update_self, ← hln]
      have hcurrent : ∀ p, data.lookup key = some p ↔ (key, p) ∈ lo := by
        intro p
        have := h.current key p hb
        rwa [hseq] at this
      have hput : ∀ p', (key, p') ∈ ln → data'.lookup key = some p' := by
        intro p' hp'
        by_cases hold : key ∈ keysOf lo
        · by_cases hsame : (key, p') ∈ lo
          · rcases hf.kept key p' hp' hsame with hlook | hlook
            · rw [hlook, hcurrent]
              exact hsame
            · exact hlook
          · exact hmoved (hseq ▸ hb) key p' hp' hold hsame
        · exact hf.arrived key p' hp' hold
      refine ⟨fun hlook => ?_, hput p⟩
      by_cases hnew : key ∈ keysOf ln
      · obtain ⟨p', hp'⟩ := mem_keysOf.1 hnew
        rw [hput p' hp', Option.some.injEq] at hlook
        exact hlook ▸ hp'
      · exfalso
        by_cases hold : key ∈ keysOf lo
        · rw [hf.gone key hold hnew] at hlook
          cases hlook
        · rw [hf.other key hold hnew, hcurrent] at hlook
          exact hold (mem_keysOf.2 ⟨p, hlook⟩)
    · rw [hother key hseq, Function.update_of_ne hseq]
      exact h.current key p hb
  · by_cases hseq : n = sequence
    · subst hseq
      rw [Function.update_self] at hdoc
      exact hread doc hdoc
    · rw [Function.update_of_ne hseq] at hdoc
      exact h.readable n doc hb hdoc

lemma lookup_puts (data : Postings) (hl : l.Pairwise fun a b => a.1 < b.1) (key : PostingKey) :
    (l.foldl (fun data e => data.insert e.1 e.2) data).lookup key
      = (valueOf l key).or (data.lookup key) := by
  induction l generalizing data with
  | nil => simp [valueOf]
  | cons e l ih =>
      obtain ⟨he, hl'⟩ := List.pairwise_cons.1 hl
      rw [List.foldl_cons, ih _ hl', valueOf]
      by_cases hkey : e.1 = key
      · subst hkey
        simp [valueOf_of_notMem (notMem_keysOf he)]
      · simp [hkey, Finmap.lookup_insert_of_ne _ (Ne.symm hkey)]

/-- **A build step puts the entries of a stored row**, and what was filed of it before is under one of
its keys. -/
lemma Filed.puts {doc : Document} (h : Filed i rows built data) (hrow : rows sequence = some doc)
    (hl : buildEntries i sequence doc = .ok l) :
    Filed i rows (fun n => n = sequence ∨ built n)
      (l.foldl (fun data e => data.insert e.1 e.2) data) := by
  have hentries := buildEntries_row hl
  have hlook := lookup_puts data hentries.sorted
  have hself : entriesOf i sequence (rows sequence) = l := by rw [hrow, entriesOf_some hl]
  have hother : ∀ key, rowOf key ≠ sequence → key ∉ keysOf l := by
    intro key hne hmem
    obtain ⟨p, hp⟩ := mem_keysOf.1 hmem
    exact hne (hentries.row _ hp)
  refine ⟨fun key hkey => ?_, fun key p hb => ?_, fun n doc' hb hdoc => ?_⟩
  · rw [← Finmap.lookup_isSome, hlook] at hkey
    by_cases hmem : key ∈ keysOf l
    · obtain ⟨p, hp⟩ := mem_keysOf.1 hmem
      rw [hentries.row _ hp, hself]
      exact hmem
    · rw [valueOf_of_notMem hmem, Option.none_or, Finmap.lookup_isSome] at hkey
      exact h.filed key hkey
  · rw [hlook]
    by_cases hseq : rowOf key = sequence
    · rw [hseq, hself]
      by_cases hmem : key ∈ keysOf l
      · obtain ⟨p', hp'⟩ := mem_keysOf.1 hmem
        rw [valueOf_of_mem hentries.sorted hp', Option.some_or, Option.some.injEq]
        exact ⟨fun heq => heq ▸ hp', fun hp => hentries.unique hp' hp⟩
      · rw [valueOf_of_notMem hmem, Option.none_or]
        refine ⟨fun hlook => ?_, fun hp => absurd (mem_keysOf.2 ⟨p, hp⟩) hmem⟩
        have := h.filed key (Finmap.lookup_isSome.1 (by rw [hlook]; rfl))
        rw [hseq, hself] at this
        exact absurd this hmem
    · rw [valueOf_of_notMem (hother key hseq), Option.none_or]
      exact h.current key p (hb.resolve_left hseq)
  · by_cases hseq : n = sequence
    · subst hseq
      cases hrow.symm.trans hdoc
      exact ⟨l, hl⟩
    · exact h.readable n doc' (hb.resolve_left hseq) hdoc

/-- **The write path keeps an index right**, unless the row is reshaped within a cell. -/
lemma maintain_filed {old : Option Document} {new : Option (Document × Document)}
    (haccepts : family.accepts i.kind = true) (h : Filed i rows i.state.covers data)
    (hold : rows sequence = old)
    (hstores : ∀ given stored, new = some (given, stored) → Stores (spatialHost host) i given stored)
    (hfine : ¬ Reshapes i sequence old (new.map Prod.snd))
    (hok : family.maintain i data sequence old new = .ok data') :
    Filed i (Function.update rows sequence (new.map Prod.snd)) i.state.covers data' := by
  subst hold
  by_cases hkind : i.kind = .point
  · have hsame : selected (selectedPoint · i.field) (new.map Prod.snd)
        = selected (selectedPoint · i.field) (new.map Prod.fst) := by
      cases new with
      | none => rfl
      | some p => exact selectedPoint_stored hkind (hstores p.1 p.2 rfl)
    simp only [family, if_pos hkind] at hok
    obtain ⟨po, pn, hpo, hpn, hf, hmoved⟩ := maintainPoint_follows hok
    obtain ⟨hlo, -⟩ := entriesOf_point sequence hkind hpo
    obtain ⟨hln, hbuild⟩ := entriesOf_point sequence hkind (hsame.trans hpn)
    refine h.followed (fun doc hdoc => ⟨_, hbuild doc hdoc⟩) ?_ fun _ => ?_
    · rw [hlo, hln]
      exact hf
    · rw [hlo, hln]
      exact hmoved
  · have hgeo : i.kind = .geo := by
      cases hk : i.kind with
      | geo => rfl
      | point => exact absurd hk hkind
      | _ =>
          rw [hk] at haccepts
          cases haccepts
    have hsame : selected (selectedGeometry · i.field) (new.map Prod.snd)
        = selected (selectedGeometry · i.field) (new.map Prod.fst) := by
      cases new with
      | none => rfl
      | some p => exact selectedGeometry_stored hgeo (hstores p.1 p.2 rfl)
    simp only [family, if_neg hkind] at hok
    obtain ⟨go, gn, lo, ln, hgo, hgn, hlo, hln, hf⟩ := maintainGeometry_follows hok
    obtain ⟨hlo, -⟩ := entriesOf_geometry hgeo hgo hlo
    obtain ⟨hln, hbuild⟩ := entriesOf_geometry hgeo (hsame.trans hgn) hln
    refine h.followed (fun doc hdoc => ⟨_, hbuild doc hdoc⟩) ?_ fun hcovers key p hp hkey hnot => ?_
    · rw [hlo, hln]
      exact hf
    · exact absurd ⟨hgeo, hcovers, (key, p), hp, hkey, hnot⟩ hfine

/-- **What a spatial index promises.** -/
def spec (host : Host) : Spec family (spatialHost host) where
  Right := fun i rows _ built data => Filed i rows built data
  Fine := fun i _ sequence old new => ¬ Reshapes i sequence old new
  restate := by
    intro i rows reached built data state hstate h
    refine ⟨h.filed, fun key p hc => ?_, fun n doc hc hdoc => ?_⟩
    · cases hrow : rows (rowOf key) with
      | some doc =>
          have := h.current key p (hstate _ (by rw [hrow]; rfl) hc)
          rwa [hrow] at this
      | none =>
          -- no posting is of a row that is not there
          refine ⟨fun hlook => ?_, fun hp => by cases hp⟩
          have := h.filed key (Finmap.lookup_isSome.1 (by rw [hlook]; rfl))
          rw [hrow] at this
          cases this
    · exact h.readable n doc (hstate n (by rw [hdoc]; rfl) hc) hdoc
  start := by
    intro i rows hnone
    refine ⟨fun key hkey => absurd hkey (Finmap.notMem_empty), fun key p hc => ?_,
      fun n doc hc hdoc => ?_⟩
    · rw [hnone _ hc]
      simp [family, entriesOf]
    · rw [hnone n hc] at hdoc
      cases hdoc
  maintain := by
    intro i rows reached data data' sequence old new haccepts h hold _ _ hstores hfine hok
    exact maintain_filed haccepts h hold hstores hfine hok
  build := by
    intro i rows reached built data data' sequence doc _ h hrow _ hok
    simp only [family, bind_eq_ok, pure_eq_ok] at hok
    obtain ⟨l, hl, rfl⟩ := hok
    exact h.puts hrow hl

/-! ## What a reader relies on -/

/-- **The postings of an index are those of the live rows**, and a walk over them admits the rows whose
box overlaps the query. -/
structure Describes (x : Store) (i : Index Postings) : Prop where
  /-- the union, over the live rows, of what each is filed under -/
  postings : ∀ key p, i.data.lookup key = some p ↔ ∃ n doc l,
    x.document i.info.collection n = some doc ∧ buildEntries i.info n doc = .ok l ∧ (key, p) ∈ l
  /-- which every row has, once its field is not null -/
  readable : ∀ n doc, x.document i.info.collection n = some doc →
    ∃ l, buildEntries i.info n doc = .ok l
      ∧ (∀ v, doc i.info.field = some v → v.isNull = false → l ≠ [])
  walk : i.info.kind = .geo → ∀ query n, n ∈ geometryBboxOverlap i.data query ↔
    ∃ doc g b, x.document i.info.collection n = some doc
      ∧ selectedGeometry doc i.info.field = .ok (some g) ∧ indexedBbox g = some b
      ∧ (BoxF.ofBox b).intersects query = true

lemma selectedPoint_isSome {doc : Document} {v : Value} {p : Option (ℕ × ℕ)} {field : String}
    (h : selectedPoint doc field = .ok p) (hv : doc field = some v) (hnull : v.isNull = false) :
    p.isSome := by
  rw [selectedPoint, hv] at h
  cases v with
  | null => cases hnull
  | _ =>
      simp only [bind_eq_ok] at h
      obtain ⟨object, -, _, -, h⟩ := h
      split at h
      · simp only [bind_eq_ok, pure_eq_ok] at h
        obtain ⟨lon, -, lat, -, _, -, _, -, rfl⟩ := h
        rfl
      · cases h

lemma selectedGeometry_isSome {doc : Document} {v : Value} {g : Option Geom} {field : String}
    (h : selectedGeometry doc field = .ok g) (hv : doc field = some v) (hnull : v.isNull = false) :
    g.isSome := by
  rw [selectedGeometry, hv] at h
  cases v with
  | null => cases hnull
  | _ =>
      simp only [bind_eq_ok, pure_eq_ok] at h
      obtain ⟨g', -, _, -, rfl⟩ := h
      rfl

lemma buildEntries_ne_nil {doc : Document} {v : Value} (h : buildEntries i sequence doc = .ok l)
    (hv : doc i.field = some v) (hnull : v.isNull = false) : l ≠ [] := by
  rw [buildEntries] at h
  split_ifs at h
  · simp only [bind_eq_ok, pure_eq_ok] at h
    obtain ⟨p, hp, rfl⟩ := h
    obtain ⟨q, rfl⟩ := Option.isSome_iff_exists.1 (selectedPoint_isSome hp hv hnull)
    simp
  · simp only [bind_eq_ok] at h
    obtain ⟨g, hg, h⟩ := h
    obtain ⟨g, rfl⟩ := Option.isSome_iff_exists.1 (selectedGeometry_isSome hg hv hnull)
    obtain ⟨-, b, -, hne, -⟩ := geometryEntries_ok h
    exact hne

lemma mem_geometryBboxOverlap {query : BoxF} {n : ℕ} :
    n ∈ geometryBboxOverlap data query
      ↔ ∃ key b, data.lookup key = some (.box b) ∧ b.intersects query = true ∧ rowOf key = n := by
  simp only [geometryBboxOverlap, Finset.mem_image, Finset.mem_filter, Finmap.mem_keys,
    Option.any_eq_true]
  constructor
  · rintro ⟨key, ⟨-, p, hp, hb⟩, rfl⟩
    cases p with
    | point lon lat => cases hb
    | box b => exact ⟨key, b, hp, hb, rfl⟩
  · rintro ⟨key, b, hp, hb, rfl⟩
    exact ⟨key, ⟨Finmap.lookup_isSome.1 (by rw [hp]; rfl), _, hp, hb⟩, rfl⟩

lemma describes_of_filed {x : Store} {i : Index Postings} (hready : i.info.state = .ready)
    (h : Filed i.info (x.document i.info.collection) i.info.state.covers i.data) :
    Describes x i := by
  have hall : ∀ n, i.info.state.covers n := by
    intro n
    rw [hready]
    trivial
  have hpostings : ∀ key p, i.data.lookup key = some p ↔ ∃ n doc l,
      x.document i.info.collection n = some doc ∧ buildEntries i.info n doc = .ok l ∧ (key, p) ∈ l := by
    intro key p
    rw [h.current key p (hall _)]
    constructor
    · intro hp
      cases hdoc : x.document i.info.collection (rowOf key) with
      | none =>
          rw [hdoc] at hp
          cases hp
      | some doc =>
          obtain ⟨l, hl⟩ := h.readable _ doc (hall _) hdoc
          rw [hdoc, entriesOf_some hl] at hp
          exact ⟨_, doc, l, hdoc, hl, hp⟩
    · rintro ⟨n, doc, l, hdoc, hl, hp⟩
      obtain rfl : rowOf key = n := (buildEntries_row hl).row _ hp
      rw [hdoc, entriesOf_some hl]
      exact hp
  refine ⟨hpostings, fun n doc hdoc => ?_, fun hgeo query n => ?_⟩
  · obtain ⟨l, hl⟩ := h.readable n doc (hall n) hdoc
    exact ⟨l, hl, fun v hv hnull => buildEntries_ne_nil hl hv hnull⟩
  · have hkind : ¬ i.info.kind = .point := by
      rw [hgeo]
      simp
    have hbuild : ∀ m doc, buildEntries i.info m doc = (do
        let g ← selectedGeometry doc i.info.field
        geometryEntriesOf m g) := fun m doc => if_neg hkind
    rw [mem_geometryBboxOverlap]
    constructor
    · rintro ⟨key, b, hp, hb, rfl⟩
      obtain ⟨n, doc, l, hdoc, hl, hmem⟩ := (hpostings _ _).1 hp
      obtain rfl : rowOf key = n := (buildEntries_row hl).row _ hmem
      rw [hbuild] at hl
      simp only [bind_eq_ok] at hl
      obtain ⟨g, hg, hl⟩ := hl
      cases g with
      | none =>
          cases hl
          cases hmem
      | some g =>
          obtain ⟨-, b', hb', -, hvalue⟩ := geometryEntries_ok hl
          cases hvalue _ hmem
          exact ⟨doc, g, b', hdoc, hg, hb', hb⟩
    · rintro ⟨doc, g, b, hdoc, hg, hb, hover⟩
      obtain ⟨l, hl⟩ := h.readable n doc (hall n) hdoc
      have hentries := hl
      rw [hbuild] at hl
      simp only [bind_eq_ok] at hl
      obtain ⟨g', hg', hl⟩ := hl
      cases hg.symm.trans hg'
      obtain ⟨hrow, b', hb', hne, hvalue⟩ := geometryEntries_ok hl
      cases hb.symm.trans hb'
      obtain ⟨e, he⟩ := List.exists_mem_of_ne_nil l hne
      have hmem : (e.1, Posting.box (BoxF.ofBox b)) ∈ l := by
        rw [← hvalue e he]
        exact he
      exact ⟨e.1, _, (hpostings _ _).2 ⟨n, doc, l, hdoc, hentries, hmem⟩, hover, hrow.row e he⟩

end

/-- **Spatial indexes describe the live rows**, in what is durable and in the working tree of a handle
that has not failed, in every run that reshapes no filed geometry under a key it keeps.  The postings are one
family of indexes, so the run is that of `indexed_reachable`, and what one row's change does is all that is
proved of them. -/
theorem spatial_reachable {host : Host} {db : Families.Database Postings}
    (h : Families.Reachable family (spatialHost host) (spec host).Steady db) :
    (∀ n i, db.durable.lookup n = some i → i.info.state = .ready →
      Standing db.tables.durable i.info.collection → Describes db.tables.durable i)
    ∧ (db.tables.failed = false → ∀ n i, db.indexes.lookup n = some i → i.info.state = .ready →
      Standing db.tables.store i.info.collection → Describes db.tables.store i) := by
  have hinv := indexed_reachable h
  refine ⟨fun n i hi hready hs => ?_, fun hf n i hi hready hs => ?_⟩
  · exact describes_of_filed hready
      (hinv.durable.right n i hi (by rw [hready]; simp) hs)
  · exact describes_of_filed hready
      ((hinv.live hf).right n i hi (by rw [hready]; simp) hs)

/-! ## Two runs -/

/-- `places (at POINT, shape GEOMETRY)` -/
def places : Declaration := ⟨none, "places", [("at", .point), ("shape", .geo)], [], false⟩

/-- A power of two below one. -/
def part (n : ℕ) : Value := .number (.float ((1023 - n) * 2 ^ 52))

def pointAt (x y : Value) : Value := .object [("coordinates", .array [x, y]), ("type", .string "Point")]

/-- A line from the origin. -/
def lineTo (x y : Value) : Value :=
  .object [("coordinates", .array [.array [.number (.int 0), .number (.int 0)], .array [x, y]]),
    ("type", .string "LineString")]

/-- A point moves within its cell, and a line grows into other cells; a build comes past both. -/
def steadyRun : List (Families.Op Postings) :=
  [.call (.tables ⟨.createCollection places, rfl⟩),
    .call (.write (.insert plainCall 1 "a" [("at", pointAt (part 20) (part 20)),
      ("shape", lineTo (part 6) (part 6))])),
    .call (.createIndex 1 "by_at" "at" true), .call (.createIndex 1 "by_shape" "shape" false),
    .call (.write (.insert plainCall 1 "b" [("at", pointAt (part 1) (part 1))])),
    .call (.buildIndexStep 1 1), .call (.buildIndexStep 1 256), .call (.buildIndexStep 2 256),
    .call (.write (.update plainCall 1 "a" [("at", pointAt (part 19) (part 20)),
      ("shape", lineTo (part 1) (part 1))])), .call .commit]

/-- A line grows within its cell. -/
def reshapingRun : List (Families.Op Postings) :=
  [.call (.tables ⟨.createCollection places, rfl⟩), .call (.createIndex 1 "by_shape" "shape" false),
    .call (.write (.insert plainCall 1 "a" [("shape", lineTo (part 6) (part 6))])),
    .call (.buildIndexStep 1 256),
    .call (.write (.update plainCall 1 "a" [("shape", lineTo (part 5) (part 5))])), .call .commit]

instance (state : IndexState) (n : ℕ) : Decidable (state.covers n) :=
  match state with
  | .building after => inferInstanceAs (Decidable (n ≤ after))
  | .ready => isTrue trivial
  | .dropping => isFalse id

instance (host : Host) (i : IndexInfo) (data : Postings) (sequence : ℕ) (old new : Option Document) :
    Decidable ((spec host).Fine i data sequence old new) :=
  inferInstanceAs (Decidable (¬ (_ ∧ _ ∧ _)))

theorem spatial_steadyRun : ∃ db i j,
    (spec plainHost).steadily (.create (spatialHost plainHost) true) steadyRun = .ok db
    ∧ db.indexes.lookup 1 = some i ∧ i.info.state = .ready ∧ i.data.keys.card = 2
    ∧ Describes db.tables.store i
    ∧ db.indexes.lookup 2 = some j ∧ j.info.state = .ready ∧ j.data.keys.card = 1
    ∧ Describes db.tables.store j := by
  have hrun : okAnd ((spec plainHost).steadily (.create (spatialHost plainHost) true) steadyRun)
      (fun db => !db.tables.failed && (db.tables.store.catalogs 1).any (fun k => k.drop.isNone)
        && ((db.indexes.lookup 1).any fun i => i.info.collection = 1 ∧ i.info.state = .ready
          ∧ i.data.keys.card = 2)
        && (db.indexes.lookup 2).any fun i => i.info.collection = 1 ∧ i.info.state = .ready
          ∧ i.data.keys.card = 1) = true := by
    decide +kernel
  obtain ⟨db, hok, hdb⟩ := exists_of_okAnd hrun
  simp only [Bool.and_eq_true, Bool.not_eq_true', decide_eq_true_eq, Option.any_eq_true,
    Option.isNone_iff_eq_none] at hdb
  obtain ⟨⟨⟨hf, k, hk, hd⟩, i, hi, hc, hs, hcard⟩, j, hj, hc', hs', hcard'⟩ := hdb
  have hr : Families.Reachable family (spatialHost plainHost) (spec plainHost).Steady db :=
    Reachable.steadily (.create true) hok
  exact ⟨db, i, j, hok, hi, hs, hcard,
    (spatial_reachable hr).2 hf 1 i hi hs ⟨k, by rw [hc]; exact hk, hd⟩, hj, hs', hcard',
    (spatial_reachable hr).2 hf 2 j hj hs' ⟨k, by rw [hc']; exact hk, hd⟩⟩

/-- **A geometry that is reshaped within its cell stays filed under its old box.** -/
theorem spatial_fails : ¬ ∀ db, Families.Reachable family (spatialHost plainHost)
    (fun _ op => ∃ r, op = .call r) db → db.tables.failed = false → ∀ n i,
    db.indexes.lookup n = some i → i.info.state = .ready →
    Standing db.tables.store i.info.collection → Describes db.tables.store i := by
  intro hall
  have hrun : okAnd ((Families.Database.create (spatialHost plainHost) true).performs family
      reshapingRun)
      (fun db => !db.tables.failed && (db.tables.store.catalogs 1).any (fun k => k.drop.isNone)
        && (db.indexes.lookup 1).any fun i => i.info.collection = 1 ∧ i.info.state = .ready
          ∧ (entriesOf i.info 1 (db.tables.store.document 1 1)).any
            fun e => i.data.lookup e.1 ≠ some e.2) = true := by
    decide +kernel
  obtain ⟨db, hok, hdb⟩ := exists_of_okAnd hrun
  simp only [Bool.and_eq_true, Bool.not_eq_true', decide_eq_true_eq, Option.any_eq_true,
    Option.isNone_iff_eq_none, List.any_eq_true] at hdb
  obtain ⟨⟨hf, k, hk, hd⟩, i, hi, hc, hs, e, he, hne⟩ := hdb
  have hr : Families.Reachable family (spatialHost plainHost) (fun _ op => ∃ r, op = .call r) db := by
    refine Families.Reachable.performs (.create true) (fun pre op post heq _ _ => ?_) hok
    have hmem : op ∈ reshapingRun := by
      rw [heq]
      simp
    fin_cases hmem <;> exact ⟨_, rfl⟩
  have hdesc := hall db hr hf 1 i hi hs ⟨k, by rw [hc]; exact hk, hd⟩
  cases hdoc : db.tables.store.document 1 1 with
  | none =>
      rw [hdoc] at he
      cases he
  | some doc =>
      have hrow : db.tables.store.document i.info.collection 1 = some doc := by
        rw [hc]
        exact hdoc
      obtain ⟨l, hl, -⟩ := hdesc.readable 1 doc hrow
      rw [hdoc, entriesOf_some hl] at he
      exact hne ((hdesc.postings e.1 e.2).2 ⟨1, doc, l, hrow, hl, he⟩)

end Engine.Spatial
