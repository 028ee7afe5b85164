import Sekejap.Collections.IndexSpec

/-!
# Rows, keys and scalar indexes agree

`Sound` says what a store's rows, external-key mapping and scalar indexes have to do with one
another: the mapping of a table that is not being dropped is a bijection between keys and rows, an
index files right entries only and has those of every row its state covers, and a unique index has
no key twice.  This module shows that a row write keeps it.

* **`Sound.written`** — a row is put, replaced or removed, and every index of its table follows.
-/

open Collections (EntityId)

open Fallible

namespace Engine

/-- The rows an index has covered. -/
def IndexState.covers : IndexState → ℕ → Prop
  | building after, n => n ≤ after
  | ready, _ => True
  | dropping, _ => False

/-- The document of a row. -/
def Store.document (x : Store) (c n : ℕ) : Option Document :=
  (x.rows.lookup ⟨c, n⟩).map Row.document

/-- **An index is right about the rows of its table.** -/
structure Exact (host : Host) (x : Store) (v : View) : Prop where
  files : v.info.state ≠ .dropping →
    Secondary.Files (v.info.key host) (x.document v.info.collection) v.info.state.covers
      (filed v.info.id v.entries)
  distinct : v.info.unique = true →
    Secondary.Distinct .null v.info.state.covers (filed v.info.id v.entries)

/-- The tables of a store, their names and their layouts. -/
structure Catalogued (x : Store) : Prop where
  id : ∀ c k, x.catalogs c = some k → k.id = c ∧ c < x.nextCollection
  fields : ∀ c k, x.catalogs c = some k → (k.fields.map Prod.fst).Nodup
  /-- a foreign key is a TEXT column -/
  references : ∀ c k, x.catalogs c = some k → ∀ field rule, (field, rule) ∈ k.rules →
    rule.references.isSome → (field, .text) ∈ k.fields
  name : ∀ c k, x.catalogs c = some k → x.names k.schema k.name = some c
  named : ∀ s n c, x.names s n = some c → ∃ k, x.catalogs c = some k ∧ k.schema = s ∧ k.name = n
  /-- one table is dropped at a time -/
  one : ∀ c c' k k', x.catalogs c = some k → x.catalogs c' = some k' → k.drop.isSome →
    k'.drop.isSome → c = c'

/-- Keys and rows of a table correspond. -/
def Mapped (x : Store) (c : ℕ) : Prop :=
  ∀ key n, x.mapping.lookup (c, key) = some n ↔ ∃ r, x.rows.lookup ⟨c, n⟩ = some r ∧ r.key = key

/-- A table that exists and is not being dropped. -/
def Standing (x : Store) (c : ℕ) : Prop := ∃ k, x.catalogs c = some k ∧ k.drop = none

/-- **Rows, keys and indexes agree.** -/
structure Sound (host : Host) (x : Store) : Prop where
  owned : Owned x
  catalogued : Catalogued x
  row : ∀ id r, x.rows.lookup id = some r → (x.catalogs id.collection).isSome
  key : ∀ c key n, x.mapping.lookup (c, key) = some n → (x.catalogs c).isSome
  /-- an index is over a field its table declares -/
  field : ∀ n v, x.view n = some v → v.info.kind.isScalar = true
    ∧ ∃ k, x.catalogs v.info.collection = some k
      ∧ (v.info.field, sourceKind v.info.kind v.info.expression) ∈ k.fields
  mapped : ∀ c, Standing x c → Mapped x c
  exact : ∀ n v, x.view n = some v → Standing x v.info.collection → Exact host x v

section

variable {host : Host} {x x' : Store} {v : View} {E : Finset Entry} {c n seq : ℕ} {id : EntityId}
  {doc stored : Document} {old new : Option Document} {row : Option Row}

/-- The entries follow the row, whether the stored document is the one given or what it is read
back as. -/
lemma Follows.exact (hf : Follows host seq old new v E) (h : Exact host x v)
    (hold : x.document v.info.collection seq = old)
    (hnew : (row.map Row.document).bind (v.info.key host) = new.bind (v.info.key host))
    (hrow : row.isSome = new.isSome)
    (hx : x'.document v.info.collection
      = Function.update (x.document v.info.collection) seq (row.map Row.document)) :
    Exact host x' ⟨v.info, E⟩ := by
  have hkeys : (∀ d, new = some d → (v.info.key host d).isSome) →
      ∀ d, row.map Row.document = some d → (v.info.key host d).isSome := by
    intro hn d hd
    cases new with
    | none =>
        rw [Option.isSome_none, Option.isSome_eq_false_iff, Option.isNone_iff_eq_none] at hrow
        rw [hrow] at hd
        cases hd
    | some d' =>
        rw [hd, Option.bind_some, Option.bind_some] at hnew
        rw [hnew]
        exact hn d' rfl
  cases hf with
  | dropping hs =>
      refine ⟨fun hne => absurd hs hne, fun _ => ?_⟩
      intro _ _ _ _ hc
      rw [hs] at hc
      exact hc.elim
  | same hs hn hk =>
      refine ⟨fun _ => ?_, h.distinct⟩
      rw [hx]
      refine (h.files hs).keep ?_ (hkeys hn)
      rw [hold, hk, hnew]
  | moved hs hn hcheck hE =>
      refine ⟨fun _ => ?_, fun hu => ?_⟩
      · rw [hx, show filed (View.info ⟨v.info, E⟩).id (View.entries ⟨v.info, E⟩)
          = Secondary.swap _ _ _ _ from hE]
        refine (h.files hs).swap ?_ hnew.symm (hkeys hn)
        rw [hold]
      · rw [show filed (View.info ⟨v.info, E⟩).id (View.entries ⟨v.info, E⟩)
          = Secondary.swap _ _ _ _ from hE]
        exact (h.distinct hu).swap fun w hw hnull m hm => hcheck hu w hw hnull m hm

lemma Catalogued.congr (h : Catalogued x) (hc : x'.catalogs = x.catalogs) (hn : x'.names = x.names)
    (hnext : x'.nextCollection = x.nextCollection) : Catalogued x' := by
  refine ⟨?_, ?_, ?_, ?_, ?_, ?_⟩
  · rw [hc, hnext]; exact h.id
  · rw [hc]; exact h.fields
  · rw [hc]; exact h.references
  · rw [hc, hn]; exact h.name
  · rw [hc, hn]; exact h.named
  · rw [hc]; exact h.one

/-- **A row was written**: one row and its key changed, and the indexes of its table followed.
`new` is the document the indexes were given, `row` what is stored. -/
structure Written (host : Host) (id : EntityId) (new : Option Document) (row : Option Row)
    (x x' : Store) : Prop where
  catalogs : x'.catalogs = x.catalogs
  names : x'.names = x.names
  nextCollection : x'.nextCollection = x.nextCollection
  rows : ∀ j, x'.rows.lookup j = if j = id then row else x.rows.lookup j
  mapping : ∀ c key, c ≠ id.collection → x'.mapping.lookup (c, key) = x.mapping.lookup (c, key)
  mapped : Mapped x' id.collection
  maintained :
    Maintained host id.collection id.sequence (x.document id.collection id.sequence) new x x'
  owned : Owned x'
  some : row.isSome = new.isSome
  /-- what is stored has the keys of what was given -/
  read : ∀ n v, x.view n = .some v → v.info.collection = id.collection →
    (row.map Row.document).bind (v.info.key host) = new.bind (v.info.key host)

lemma Written.document (h : Written host id new row x x') (c n : ℕ) :
    x'.document c n = if (⟨c, n⟩ : EntityId) = id then row.map Row.document else x.document c n := by
  rw [Store.document, h.rows]
  split_ifs <;> rfl

/-- **A row write keeps rows, keys and indexes in agreement.** -/
lemma Sound.written (h : Sound host x) (hs : Standing x id.collection)
    (hw : Written host id new row x x') : Sound host x' := by
  have hstand : ∀ c, Standing x' c → Standing x c := by
    rintro c ⟨k, hk, hd⟩
    exact ⟨k, hw.catalogs ▸ hk, hd⟩
  -- a view of the new store is one of the old, with entries that followed the row or stayed
  have hview : ∀ n v', x'.view n = some v' →
      (v'.info.collection ≠ id.collection ∧ x.view n = some v')
      ∨ ∃ v E, x.view n = some v ∧ v.info.collection = id.collection ∧ v' = ⟨v.info, E⟩
        ∧ Follows host id.sequence (x.document id.collection id.sequence) new v E := by
    intro n v' hv'
    by_cases hex : ∃ v, x.view n = some v ∧ v.info.collection = id.collection
    · obtain ⟨v, hv, hc⟩ := hex
      obtain ⟨E, hE, hf⟩ := hw.maintained.follows n v hv hc
      exact Or.inr ⟨v, E, hv, hc, Option.some.inj (hv'.symm.trans hE), hf⟩
    · have hne : ∀ v, x.view n = some v → v.info.collection ≠ id.collection := fun v hv hc =>
        hex ⟨v, hv, hc⟩
      have hold := hw.maintained.others n hne
      rw [hv'] at hold
      exact Or.inl ⟨hne v' hold.symm, hold.symm⟩
  refine ⟨hw.owned, h.catalogued.congr hw.catalogs hw.names hw.nextCollection, ?_, ?_, ?_, ?_, ?_⟩
  · intro j r hj
    rw [hw.catalogs]
    rw [hw.rows] at hj
    split_ifs at hj with hid
    · obtain ⟨k, hk, -⟩ := hs
      rw [hid, hk]; rfl
    · exact h.row j r hj
  · intro c key n hk
    rw [hw.catalogs]
    by_cases hc : c = id.collection
    · obtain ⟨k, hk, -⟩ := hs
      rw [hc, hk]; rfl
    · rw [hw.mapping c key hc] at hk
      exact h.key c key n hk
  · intro n v' hv'
    rw [hw.catalogs]
    rcases hview n v' hv' with ⟨-, hv⟩ | ⟨v, E, hv, -, rfl, -⟩
    · exact h.field n v' hv
    · exact h.field n v hv
  · intro c hc
    by_cases hcid : c = id.collection
    · rw [hcid]; exact hw.mapped
    · intro key n
      have hne : (⟨c, n⟩ : EntityId) ≠ id := by
        rintro rfl
        exact hcid rfl
      rw [hw.mapping c key hcid, hw.rows, if_neg hne]
      exact h.mapped c (hstand c hc) key n
  · intro n v' hv' hst
    rcases hview n v' hv' with ⟨hne, hv⟩ | ⟨v, E, hv, hcol, rfl, hf⟩
    · -- another table's rows did not change
      have hdoc : x'.document v'.info.collection = x.document v'.info.collection := by
        funext m
        rw [hw.document, if_neg]
        rintro rfl
        exact hne rfl
      have hex := h.exact n v' hv (hstand _ hst)
      exact ⟨fun hs => hdoc ▸ hex.files hs, hex.distinct⟩
    · refine hf.exact (h.exact n v hv (hstand _ hst)) (by rw [hcol]) (hw.read n v hv hcol) hw.some ?_
      funext m
      rw [hw.document, Function.update_apply, hcol]
      have hiff : ((⟨id.collection, m⟩ : EntityId) = id) ↔ m = id.sequence := by
        obtain ⟨c, s⟩ := id
        simp
      simp only [hiff]

end

end Engine
