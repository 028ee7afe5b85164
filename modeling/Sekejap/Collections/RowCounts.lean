import Sekejap.Collections.Runs

/-!
# The live row count is exact

A table's count is a record, and in a transaction what the record said and a delta.  A table without
a record gets one from a backfill that counts its rows in bounded steps while rows come and go: a row
that goes behind the cursor is taken back, and a row that comes is always ahead of it, because row
numbers only go up.

* **`rowCount_reachable`** — the count of a table that is not being dropped is the number of its
  rows, in the working tree and in every committed state, and never leaves the `u64` domain.
* **`rowCount_dropping`** — a table that is being dropped keeps its record until the last step.
-/

open PageWal (u64Max)

namespace Collections

/-! ## Row numbers only go up -/

section

variable {db db' : Database} {c a : ℕ} {s : Sequence} {id : EntityId}

/-- The numbers of a table that are still to be handed out are above `a`. -/
def Above (db : Database) (c a : ℕ) : Prop := ∃ n, db.collectionSpan c = .ok n ∧ a < n

lemma collectionSpan_open (hs : db.sequence = some s) (hc : s.collection = c) :
    db.collectionSpan c = .ok s.next := by
  rw [Database.collectionSpan, hs]
  exact if_pos hc

lemma collectionSpan_shut (h : Shut db.sequence c) :
    db.collectionSpan c = Database.collectionSpan.closed db c := by
  rw [Database.collectionSpan]
  split
  · rename_i s hs
    exact if_neg (h s hs)
  · rfl

lemma readSequence_eq {n : ℕ} (h : db.store.next c = some n) (hn : 0 < n) :
    db.readSequence c = .ok n := by
  simp only [Database.readSequence, h]
  exact if_neg hn.ne'

lemma readSequence_congr (hr : db'.register = db.register) (hn : db'.store.next c = db.store.next c) :
    db'.readSequence c = db.readSequence c := by
  rw [Database.readSequence, Database.readSequence, hr, hn]

lemma closed_congr (hr : db'.register = db.register) (hb : db'.block c = db.block c)
    (hn : db'.store.next c = db.store.next c) :
    Database.collectionSpan.closed db' c = Database.collectionSpan.closed db c := by
  rw [Database.collectionSpan.closed, Database.collectionSpan.closed, hb, readSequence_congr hr hn]

/-- What holds the numbers of `c` is as it was. -/
lemma Above.congr (h : Above db c a) (hr : db'.register = db.register)
    (hs : db'.sequence = db.sequence) (hb : db'.block c = db.block c)
    (hn : db'.store.next c = db.store.next c) : Above db' c a := by
  obtain ⟨n, hspan, hlt⟩ := h
  refine ⟨n, ?_, hlt⟩
  rw [← hspan, Database.collectionSpan, Database.collectionSpan, hs]
  simp only [closed_congr hr hb hn]

/-- A row that is there is below the numbers to come. -/
lemma Live.above (h : Live db) {k : String} (hrow : db.store.rows ⟨c, a⟩ = some k) : Above db c a := by
  have hclosed : Shut db.sequence c → Above db c a := by
    intro hshut
    rw [Above, collectionSpan_shut hshut, Database.collectionSpan.closed]
    cases hb : db.block c with
    | some b => exact ⟨b.1, rfl, (h.block c b hshut hb).below a k hrow⟩
    | none =>
        obtain ⟨n, hn, hlt⟩ := h.rest c hshut hb a k hrow
        exact ⟨n, readSequence_eq hn (Nat.zero_lt_of_lt hlt), hlt⟩
  cases hs : db.sequence with
  | none => exact hclosed (by rw [hs]; exact shut_none c)
  | some s =>
      by_cases hc : s.collection = c
      · exact ⟨s.next, collectionSpan_open hs hc, (h.opened s hs).below a k (by rw [hc]; exact hrow)⟩
      · exact hclosed (Live.shut hs (Ne.symm hc))

/-- The sequence is put away, and the numbers go on where they were. -/
lemma Above.flushSequence (h : Above db c a)
    (hl : db.register = false → ∀ c, db.block c = none) : Above db.flushSequence c a := by
  cases hs : db.sequence with
  | none => rw [flushSequence_none hs]; exact h
  | some s =>
      obtain ⟨n, hspan, hlt⟩ := h
      have hshut : Shut db.flushSequence.sequence c := by
        rw [sequence_flushSequence]; exact shut_none c
      refine ⟨n, ?_, hlt⟩
      rw [collectionSpan_shut hshut]
      by_cases hc : s.collection = c
      · rw [collectionSpan_open hs hc] at hspan
        cases hspan
        cases hr : db.register with
        | false =>
            rw [Database.collectionSpan.closed, flushSequence_legacy hs hr]
            have hb : db.block c = none := hl hr c
            simp only [Database.block] at hb ⊢
            rw [hb]
            exact readSequence_eq (by simp [hc]) (Nat.zero_lt_of_lt hlt)
        | true =>
            rw [Database.collectionSpan.closed, block_flushSequence hs hr, if_pos hc.symm]
      · rw [collectionSpan_shut (Live.shut hs (Ne.symm hc))] at hspan
        rw [← hspan]
        cases hr : db.register with
        | false =>
            rw [flushSequence_legacy hs hr]
            refine closed_congr rfl rfl ?_
            exact Function.update_of_ne (Ne.symm hc) _ _
        | true =>
            refine closed_congr (frame_flushSequence db).register ?_ ?_
            · rw [block_flushSequence hs hr, if_neg (Ne.symm hc)]
            · rw [flushSequence_register hs hr]
              dsimp only
              split_ifs
              · exact Function.update_of_ne (Ne.symm hc) _ _
              · rfl

/-- The sequence of `d` is opened. -/
lemma openSequence_above {d : ℕ} (hl : db.register = false → ∀ c, db.block c = none)
    (ho : db.openSequence d = .ok (s, db')) :
    s.collection = d ∧ db'.register = db.register ∧ (∀ a, Above db d a → a < s.next)
      ∧ ∀ c, c ≠ d → Above db c a → Above { db' with sequence := some s } c a := by
  have hre : Database.openSequence.reopen db d = .ok (s, db') →
      s.collection = d ∧ db'.register = db.register ∧ (∀ a, Above db d a → a < s.next)
      ∧ ∀ c, c ≠ d → Above db c a → Above { db' with sequence := some s } c a := by
    intro hre
    have hnone := sequence_flushSequence db
    rw [Database.openSequence.reopen] at hre
    have hfound : db' = db.flushSequence ∧ s.collection = d
        ∧ Database.collectionSpan.closed db.flushSequence d = .ok s.next := by
      rw [Database.collectionSpan.closed]
      cases hb : db.flushSequence.block d with
      | some b =>
          simp only [hb] at hre
          cases hre
          exact ⟨rfl, rfl, rfl⟩
      | none =>
          simp only [hb] at hre
          cases hn : db.flushSequence.readSequence d with
          | error e => rw [hn] at hre; cases hre
          | ok n =>
              rw [hn] at hre
              cases hre
              exact ⟨rfl, rfl, rfl⟩
    obtain ⟨rfl, hd, hclosed⟩ := hfound
    refine ⟨hd, (frame_flushSequence db).register, fun a ha => ?_, fun c hc ha => ?_⟩
    · obtain ⟨n, hspan, hlt⟩ := ha.flushSequence hl
      rw [collectionSpan_shut (by rw [hnone]; exact shut_none d), hclosed] at hspan
      cases hspan
      exact hlt
    · obtain ⟨n, hspan, hlt⟩ := ha.flushSequence hl
      refine ⟨n, ?_, hlt⟩
      rw [collectionSpan_shut (by rw [hnone]; exact shut_none c)] at hspan
      rw [collectionSpan_shut, ← hspan]
      · rfl
      · rintro t ⟨⟩
        rw [hd]
        exact Ne.symm hc
  rw [Database.openSequence] at ho
  split at ho
  · rename_i t ht
    split_ifs at ho with hc
    · cases ho
      refine ⟨hc, rfl, fun a ha => ?_, fun c _ ha => ?_⟩
      · obtain ⟨n, hspan, hlt⟩ := ha
        rw [collectionSpan_open ht hc] at hspan
        cases hspan
        exact hlt
      · exact ha.congr rfl ht.symm rfl rfl
    · exact hre ho
  · exact hre ho

lemma reserve_collection {register : Bool} {s' : Sequence}
    (hr : Database.reserve register s = .ok s') : s'.collection = s.collection := by
  rw [Database.reserve] at hr
  split_ifs at hr
  · cases hn : checkedAdd s.next rowIdBlock with
    | error e => rw [hn] at hr; cases hr
    | ok n => rw [hn] at hr; cases hr; rfl
  · cases hr
    rfl

/-- **A number that is handed out is above every number before it.** -/
lemma Above.allocate {d : ℕ} (h : Above db c a) (hl : db.register = false → ∀ c, db.block c = none)
    (ha : db.allocate d = .ok (id, db')) : Above db' c a ∧ (d = c → a < id.sequence) := by
  simp only [Database.allocate, bind, Except.bind, pure, Except.pure] at ha
  cases hop : db.openSequence d with
  | error e => simp [hop] at ha
  | ok r =>
      obtain ⟨s, db₁⟩ := r
      simp only [hop] at ha
      obtain ⟨hd, -, hsame, hother⟩ := openSequence_above (a := a) hl hop
      cases hres : Database.reserve db₁.register s with
      | error e => simp [hres] at ha
      | ok s' =>
          simp only [hres] at ha
          have hcol := (reserve_collection hres).trans hd
          have hnext := reserve_next hres
          cases hadd : checkedAdd s'.next 1 with
          | error e => simp [hadd] at ha
          | ok n =>
              simp only [hadd] at ha
              cases ha
              obtain rfl := checkedAdd_ok hadd
              by_cases hc : d = c
              · subst hc
                have hlt := hsame a h
                refine ⟨⟨s'.next + 1, collectionSpan_open (s := { s' with next := s'.next + 1 }) rfl
                  hcol, ?_⟩, fun _ => ?_⟩
                · rw [hnext]; omega
                · rw [hnext]; exact hlt
              · refine ⟨?_, fun h => absurd h hc⟩
                obtain ⟨n, hspan, hlt⟩ := hother c (Ne.symm hc) h
                refine ⟨n, ?_, hlt⟩
                have hshut : ∀ t : Sequence, t.collection = d → Shut (some t) c := by
                  rintro t ht u ⟨⟩
                  rw [ht]
                  exact hc
                rw [collectionSpan_shut (hshut _ hd)] at hspan
                rw [← hspan]
                exact collectionSpan_shut (hshut { s' with next := s'.next + 1 } hcol)

/-- Another table is forgotten. -/
lemma Above.forget {d : ℕ} (h : Above db c a) (hne : c ≠ d) : Above (db.forget d) c a := by
  obtain ⟨n, hspan, hlt⟩ := h
  refine ⟨n, ?_, hlt⟩
  rw [← hspan]
  have hclosed : Database.collectionSpan.closed (db.forget d) c
      = Database.collectionSpan.closed db c := by
    refine closed_congr rfl ?_ (Function.update_of_ne hne _ _)
    simp only [Database.block, Database.forget, Function.update_of_ne hne]
  cases hs : db.sequence with
  | none =>
      have hnone : (db.forget d).sequence = none := by simp [Database.forget, hs]
      rw [collectionSpan_shut (by rw [hnone]; exact shut_none c),
        collectionSpan_shut (by rw [hs]; exact shut_none c), hclosed]
  | some s =>
      by_cases hc : s.collection = c
      · have hopen : (db.forget d).sequence = some s := by
          simp [Database.forget, hs, hc, hne]
        rw [collectionSpan_open hopen hc, collectionSpan_open hs hc]
      · have hshut : Shut (db.forget d).sequence c := by
          intro t ht
          have := (Option.filter_eq_some_iff.1 ht).1
          rw [hs] at this
          cases this
          exact hc
        rw [collectionSpan_shut hshut, collectionSpan_shut (Live.shut hs (Ne.symm hc)), hclosed]

end

end Collections

open Collections (EntityId Above)

open Fallible

namespace Engine

/-! ## The invariant -/

/-- **The records of a store**, and what a handle has opened of them. -/
structure Recorded (x : Store) (pending : ℕ → Option Pending) : Prop where
  plain : x.rowCountFeature = false → ∀ c, x.counts c = none
  tabled : ∀ c r, x.counts c = some r → (x.catalogs c).isSome
  record : ∀ c r, Standing x c → pending c = none → x.counts c = some r → r.rows = (x.live c).card
  opened : ∀ c p, pending c = some p → Standing x c
    ∧ (∃ r, x.counts c = some r ∧ r.rows = p.base) ∧ (p.base : ℤ) + p.delta = (x.live c).card

/-- **Where a backfill has got to**: it has counted the rows up to its cursor, and no row number to
come is behind it. -/
structure Walked (d : Collections.Database) (x : Store) (b : Backfill) : Prop where
  table : (x.catalogs b.collection).isSome
  counted : Standing x b.collection → x.counts b.collection = none
    ∧ b.counted = ((x.live b.collection).filter fun n => ¬ Scan.Past b.after n).card
  above : ∀ a, b.after = some a → Above d b.collection a

/-- **The counts a handle keeps are right.** -/
structure Counted (db : Database) : Prop where
  recorded : Recorded db.store db.rowCounts
  idle : db.userWritesPending = false → ∀ c, db.rowCounts c = none
  backfill : ∀ b, db.rowCountBackfill = some b → Walked db.ids db.store b

section

variable {db db' db₁ : Database} {x x' : Store} {host : Host} {o : Call} {c n : ℕ} {id : EntityId}
  {k : Catalog} {row : Row} {pending : ℕ → Option Pending} {step : ℤ} {b : Backfill}

lemma mem_live_iff : n ∈ x.live c ↔ (x.rows.lookup ⟨c, n⟩).isSome := by
  rw [mem_live, Store.document, Option.isSome_map]

lemma live_congr (h : ∀ n, x'.rows.lookup ⟨c, n⟩ = x.rows.lookup ⟨c, n⟩) : x'.live c = x.live c := by
  ext n
  rw [mem_live_iff, mem_live_iff, h]

lemma live_insert (h : x'.rows = x.rows.insert id row) :
    x'.live id.collection = insert id.sequence (x.live id.collection) := by
  ext n
  rw [mem_live_iff, h, Finset.mem_insert, mem_live_iff]
  by_cases hn : n = id.sequence
  · subst hn
    simp [Finmap.lookup_insert]
  · have hne : (⟨id.collection, n⟩ : EntityId) ≠ id := fun he => hn (congrArg EntityId.sequence he)
    simp [Finmap.lookup_insert_of_ne _ hne, hn]

lemma live_erase (h : x'.rows = x.rows.erase id) :
    x'.live id.collection = (x.live id.collection).erase id.sequence := by
  ext n
  rw [mem_live_iff, h, Finset.mem_erase, mem_live_iff]
  by_cases hn : n = id.sequence
  · subst hn
    simp [Finmap.lookup_erase]
  · have hne : (⟨id.collection, n⟩ : EntityId) ≠ id := fun he => hn (congrArg EntityId.sequence he)
    simp [Finmap.lookup_erase_ne hne, hn]

/-- The records follow what changed neither them nor the rows of a table that stood. -/
lemma Recorded.congr (h : Recorded x pending) (hf : x'.rowCountFeature = x.rowCountFeature)
    (hcounts : x'.counts = x.counts) (hcat : ∀ c, (x.catalogs c).isSome → (x'.catalogs c).isSome)
    (hstand : ∀ c, Standing x' c → Standing x c ∧ x'.live c = x.live c ∨ x.counts c = none)
    (hopen : ∀ c p, pending c = some p → Standing x' c) : Recorded x' pending := by
  refine ⟨by rw [hf, hcounts]; exact h.plain, fun c r hr => hcat c (h.tabled c r (hcounts ▸ hr)),
    fun c r hs hp hr => ?_, fun c p hp => ?_⟩
  · rw [hcounts] at hr
    rcases hstand c hs with ⟨hs, hlive⟩ | hnone
    · rw [hlive]
      exact h.record c r hs hp hr
    · rw [hnone] at hr
      cases hr
  · obtain ⟨-, ⟨r, hr, hbase⟩, hsum⟩ := h.opened c p hp
    have hs := hopen c p hp
    rw [hcounts]
    rcases hstand c hs with ⟨-, hlive⟩ | hnone
    · rw [hlive]
      exact ⟨hs, ⟨r, hr, hbase⟩, hsum⟩
    · rw [hnone] at hr
      cases hr

/-! ## Row writes -/

/-- What a count did. -/
lemma noteRow_cases (h : db.noteRow c step = .ok db') :
    (∃ p, db.rowCounts c = some p ∧ db' = { db with
      rowCounts := Function.update db.rowCounts c (some { p with delta := p.delta + step }) })
    ∨ (∃ r, db.rowCounts c = none ∧ db.store.counts c = some r ∧ db' = { db with
      rowCounts := Function.update db.rowCounts c (some ⟨r.rows, r.generation, step⟩) })
    ∨ (db' = db ∧ db.rowCounts c = none
      ∧ (db.store.rowCountFeature = false ∨ db.dropping = some c ∨ db.store.counts c = none)) := by
  rw [Database.noteRow, Database.touchRowCount] at h
  cases hp : db.rowCounts c with
  | some p =>
      simp only [hp, bind_eq_ok, pure_eq_ok, Database.checkedDelta] at h
      obtain ⟨delta, ⟨_, -, rfl⟩, rfl⟩ := h
      exact Or.inl ⟨p, rfl, rfl⟩
  | none =>
      by_cases hg : !db.store.rowCountFeature ∨ db.dropping = some c
      · simp only [hp, hg, if_true, Except.ok.injEq] at h
        refine Or.inr (Or.inr ⟨h.symm, rfl, ?_⟩)
        rcases hg with hg | hg
        · exact Or.inl (by simpa using hg)
        · exact Or.inr (Or.inl hg)
      · simp only [hp, hg, if_false] at h
        cases hr : db.store.counts c with
        | none =>
            simp only [hr, Option.map_none, Except.ok.injEq] at h
            exact Or.inr (Or.inr ⟨h.symm, rfl, Or.inr (Or.inr rfl)⟩)
        | some r =>
            simp only [hr, Option.map_some, bind_eq_ok, pure_eq_ok, Database.checkedDelta,
              zero_add, Function.update_idem] at h
            obtain ⟨delta, ⟨_, -, rfl⟩, rfl⟩ := h
            exact Or.inr (Or.inl ⟨r, rfl, rfl, rfl⟩)

/-- **A row came or went, and its table's count follows.** -/
lemma noteRow_recorded (h : Recorded x db.rowCounts) (hs : Standing db.store c)
    (hd : db.dropping ≠ some c) (hcat : db.store.catalogs = x.catalogs)
    (hcounts : db.store.counts = x.counts) (hf : db.store.rowCountFeature = x.rowCountFeature)
    (hcard : ((db.store.live c).card : ℤ) = (x.live c).card + step)
    (hother : ∀ c', c' ≠ c → db.store.live c' = x.live c') (hok : db.noteRow c step = .ok db') :
    Recorded db'.store db'.rowCounts := by
  have hstand : ∀ {c}, Standing db.store c ↔ Standing x c := by
    intro c
    rw [Standing, Standing, hcat]
  have hplain : db.store.rowCountFeature = false → ∀ c, db.store.counts c = none := by
    rw [hf, hcounts]; exact h.plain
  have htabled : ∀ c r, db.store.counts c = some r → (db.store.catalogs c).isSome := by
    rw [hcat, hcounts]; exact h.tabled
  -- the count of one table is opened or moved, and stands at `p`
  have hset : ∀ p : Pending, (∃ r, x.counts c = some r ∧ r.rows = p.base) →
      (p.base : ℤ) + p.delta = (x.live c).card + step →
      Recorded db.store (Function.update db.rowCounts c (some p)) := by
    intro p hr hsum
    refine ⟨hplain, htabled, fun c' r hs' hp' hr' => ?_, fun c' p' hp' => ?_⟩
    · by_cases hc : c' = c
      · subst hc
        rw [Function.update_self] at hp'
        cases hp'
      · rw [Function.update_of_ne hc] at hp'
        rw [hother c' hc]
        exact h.record c' r (hstand.1 hs') hp' (hcounts ▸ hr')
    · by_cases hc : c' = c
      · subst hc
        rw [Function.update_self] at hp'
        cases hp'
        exact ⟨hs, by rw [hcounts]; exact hr, hsum.trans hcard.symm⟩
      · rw [Function.update_of_ne hc] at hp'
        obtain ⟨hs', hr', hsum'⟩ := h.opened c' p' hp'
        rw [hother c' hc, hcounts]
        exact ⟨hstand.2 hs', hr', hsum'⟩
  rcases noteRow_cases hok with ⟨p, hp, rfl⟩ | ⟨r, hp, hr, rfl⟩ | ⟨rfl, hp, hnone⟩
  · obtain ⟨-, hr, hsum⟩ := h.opened c p hp
    refine hset { p with delta := p.delta + step } hr ?_
    dsimp only
    omega
  · rw [hcounts] at hr
    refine hset ⟨r.rows, r.generation, step⟩ ⟨r, hr, rfl⟩ ?_
    rw [h.record c r (hstand.1 hs) hp hr]
  · have hnone' : db'.store.counts c = none := by
      rcases hnone with hf' | hd' | hn
      · exact hplain hf' c
      · exact absurd hd' hd
      · exact hn
    refine ⟨hplain, htabled, fun c' r hs' hp' hr' => ?_, fun c' p' hp' => ?_⟩
    · have hc : c' ≠ c := by
        rintro rfl
        rw [hnone'] at hr'
        cases hr'
      rw [hother c' hc]
      exact h.record c' r (hstand.1 hs') hp' (hcounts ▸ hr')
    · have hc : c' ≠ c := by
        rintro rfl
        rw [hp] at hp'
        cases hp'
      obtain ⟨hs', hr', hsum'⟩ := h.opened c' p' hp'
      rw [hother c' hc, hcounts]
      exact ⟨hstand.2 hs', hr', hsum'⟩

/-- What a backfill walks is as it was, and row numbers only went up. -/
lemma Walked.congr {d d' : Collections.Database} (h : Walked d x b)
    (htable : (x.catalogs b.collection).isSome → (x'.catalogs b.collection).isSome)
    (hcounted : Standing x' b.collection → Standing x b.collection
      ∧ (x.counts b.collection = none → x'.counts b.collection = none)
      ∧ (x'.live b.collection).filter (fun n => ¬ Scan.Past b.after n)
        = (x.live b.collection).filter fun n => ¬ Scan.Past b.after n)
    (habove : ∀ a, Above d b.collection a → Above d' b.collection a) : Walked d' x' b := by
  refine ⟨htable h.table, fun hs => ?_, fun a ha => habove a (h.above a ha)⟩
  obtain ⟨hs, hnone, hlive⟩ := hcounted hs
  obtain ⟨hn, hc⟩ := h.counted hs
  exact ⟨hnone hn, by rw [hlive]; exact hc⟩

/-- Tables and records are as they were. -/
lemma Walked.same {d d' : Collections.Database} (h : Walked d x b) (hcat : x'.catalogs = x.catalogs)
    (hcounts : x'.counts = x.counts)
    (hlive : (x'.live b.collection).filter (fun n => ¬ Scan.Past b.after n)
      = (x.live b.collection).filter fun n => ¬ Scan.Past b.after n)
    (habove : ∀ a, Above d b.collection a → Above d' b.collection a) : Walked d' x' b := by
  refine h.congr (by rw [hcat]; exact fun h => h) (fun hs => ⟨?_, ?_, hlive⟩) habove
  · rw [Standing, hcat] at hs
    exact hs
  · rw [hcounts]; exact fun h => h

lemma legacy_block {d : Collections.Database} (hi : Collections.Inv d) (hf : d.failed = false) :
    d.register = false → ∀ c, d.block c = none := by
  intro hr c
  rw [Collections.Database.block, (hi.live hf).legacy hr, hi.legacy hr]
  rfl

/-- Everything a handle keeps but its indexes and the numbers it hands out. -/
structure SameCounts (db db' : Database) : Prop where
  tables : SameTables db.store db'.store
  feature : db'.store.rowCountFeature = db.store.rowCountFeature
  counts : db'.store.counts = db.store.counts
  rowCounts : db'.rowCounts = db.rowCounts
  backfill : db'.rowCountBackfill = db.rowCountBackfill
  pending : db'.userWritesPending = db.userWritesPending
  dropping : db'.dropping = db.dropping

lemma SameButIndexes.sameCounts (h : SameButIndexes db db') : SameCounts db db' := by
  have ht := h.tables
  rw [SameButIndexes] at h
  exact ⟨ht, by rw [h], by rw [h], by rw [h], by rw [h], by rw [h], by rw [h]⟩

lemma OnlyIndexes.sameCounts (h : OnlyIndexes db db') : SameCounts db db' := by
  have ht := h.tables
  rw [OnlyIndexes] at h
  exact ⟨ht, by rw [h], by rw [h], by rw [h], by rw [h], by rw [h], by rw [h]⟩

lemma Counted.same (h : Counted db) (hs : SameCounts db db')
    (habove : ∀ c a, Above db.ids c a → Above db'.ids c a) : Counted db' := by
  have ht := hs.tables
  have hlive : ∀ c, db'.store.live c = db.store.live c := fun c =>
    live_congr fun n => by rw [ht.rows]
  have hstand : ∀ c, Standing db'.store c ↔ Standing db.store c := fun c => by
    rw [Standing, Standing, ht.catalogs]
  refine ⟨?_, ?_, fun b hb => ?_⟩
  · rw [hs.rowCounts]
    exact h.recorded.congr hs.feature hs.counts (fun c => by rw [ht.catalogs]; exact fun h => h)
      (fun c hc => Or.inl ⟨(hstand c).1 hc, hlive c⟩)
      fun c p hp => (hstand c).2 (h.recorded.opened c p hp).1
  · rw [hs.pending, hs.rowCounts]
    exact h.idle
  · rw [hs.backfill] at hb
    exact (h.backfill b hb).same ht.catalogs hs.counts (by rw [hlive]) (habove b.collection)

lemma Consistent.not_dropping (h : Consistent db) (hk : db.store.catalogs c = some k)
    (hd : k.drop = none) : db.dropping ≠ some c := by
  intro hc
  obtain ⟨k', hk', hd'⟩ := (h.dropping c).1 hc
  cases hk.symm.trans hk'
  rw [hd] at hd'
  cases hd'

lemma counted_insert {key : String} {given stored : Document} {db₂ : Database} (h : Good db)
    (hc : Counted db) (hu : db.userWritesPending = true) (hk : db.store.catalogs c = some k)
    (hd : k.drop = none) (halloc : db.allocate k.id = .ok (id, db₁))
    (hmaint : db₁.maintainIndexes o id none (some given) = .ok db₂)
    (hfin : db₂.finishInsert id ⟨key, stored⟩ = .ok db') : Counted db' := by
  have hcons := h.consistent
  obtain rfl : k.id = c := (hcons.sound.catalogued.id c k hk).1
  obtain ⟨d, hids, rfl⟩ := allocate_ok halloc
  have hid : id.collection = k.id := Collections.allocate_collection hids
  have hfresh : db.store.rows.lookup id = none := Option.map_eq_none_iff.1 (h.ids.fresh h.failed hids)
  have ho : Owned (db.withIds d).store := hcons.sound.owned.congr rfl rfl rfl
  have hcache : CacheOk (db.withIds d) := hcons.cache
  have hsame := (maintainIndexes_spec ho hcache hmaint).1
  have hmid : db₂.ids = d := (ids_sameButIndexes hsame).trans
    (ids_withIds ((h.ids.live h.failed).allocate h.ids.legacy hids).1)
  have hsc := hsame.sameCounts
  -- what the note was made on: the row is there, the counts are as they were
  set y : Store := { db₂.store with
    rows := db₂.store.rows.insert id ⟨key, stored⟩
    mapping := db₂.store.mapping.insert (id.collection, key) id.sequence } with hy
  have hrows : y.rows = db.store.rows.insert id ⟨key, stored⟩ := by
    rw [hy]
    dsimp only
    rw [hsc.tables.rows]
    rfl
  have hlive := live_insert hrows
  have hother : ∀ c', c' ≠ id.collection → y.live c' = db.store.live c' := by
    intro c' hne
    refine live_congr fun n => ?_
    rw [hrows, Finmap.lookup_insert_of_ne]
    rintro rfl
    exact hne rfl
  have hnew : id.sequence ∉ db.store.live id.collection := by
    rw [mem_live_iff, hfresh]
    simp
  have hdb := finishInsert_ok hfin
  have hnote : ({ db₂ with store := y } : Database).noteRow id.collection 1 = .ok db' := hfin
  refine ⟨?_, fun hp => ?_, fun b hb => ?_⟩
  · have hrec : Recorded db.store ({ db₂ with store := y } : Database).rowCounts := by
      show Recorded db.store db₂.rowCounts
      rw [hsc.rowCounts]
      exact hc.recorded
    refine noteRow_recorded hrec ?_ ?_ hsc.tables.catalogs hsc.counts hsc.feature ?_ hother hnote
    · exact ⟨k, hsc.tables.catalogs ▸ (hid ▸ hk), hd⟩
    · show db₂.dropping ≠ some id.collection
      rw [hsc.dropping, hid]
      exact hcons.not_dropping hk hd
    · show ((y.live id.collection).card : ℤ) = _
      rw [hlive, Finset.card_insert_of_notMem hnew]
      push_cast
      rfl
  · rw [hdb] at hp
    have : db₂.userWritesPending = true := hsc.pending.trans hu
    rw [show db₂.userWritesPending = false from hp] at this
    cases this
  · rw [hdb] at hb
    have hw := hc.backfill b (hsc.backfill ▸ hb)
    rw [hdb]
    have habove : ∀ a, Above db.ids b.collection a → Above d b.collection a
        ∧ (k.id = b.collection → a < id.sequence) := fun a ha =>
      ha.allocate (legacy_block h.ids h.failed) hids
    refine hw.same hsc.tables.catalogs hsc.counts ?_ fun a ha => ?_
    · show (y.live b.collection).filter _ = _
      by_cases hb' : b.collection = id.collection
      · rw [hb', hlive, Finset.filter_insert, if_neg]
        rw [not_not]
        intro a ha
        have ha' := hw.above a ha
        exact (habove a ha').2 (hid.symm.trans hb'.symm)
      · rw [hother _ hb']
    · have ha' := (habove a ha).1
      rw [← hmid] at ha'
      exact ha'.congr rfl rfl rfl rfl

/-- **A row that goes is taken back by a backfill that has counted it.** -/
lemma Walked.uncount {d d' : Collections.Database} (h : Walked d x b)
    (hcat : x'.catalogs = x.catalogs) (hcounts : x'.counts = x.counts)
    (hrow : (x.rows.lookup id).isSome) (hrows : x'.rows = x.rows.erase id)
    (habove : ∀ a, Above d b.collection a → Above d' b.collection a) :
    Walked d' x' (Database.uncount b id) := by
  by_cases hc : b.collection = id.collection
  · have hlive := live_erase hrows
    have hmem : id.sequence ∈ x.live id.collection := mem_live_iff.2 hrow
    rw [Database.uncount]
    split_ifs with hbehind
    · -- the row was at or behind the cursor
      have hcounted : id.sequence ∈ (x.live id.collection).filter fun n => ¬ Scan.Past b.after n := by
        refine Finset.mem_filter.2 ⟨hmem, fun hp => ?_⟩
        obtain ⟨a, ha, hle⟩ := (Option.any_eq_true ..).1 hbehind.2
        exact absurd (hp a ha) (not_lt.2 (by simpa using hle))
      refine ⟨by rw [hcat]; exact h.table, fun hs => ?_, fun a ha => habove a (h.above a ha)⟩
      rw [Standing, hcat] at hs
      obtain ⟨hnone, hcount⟩ := h.counted hs
      refine ⟨by rw [hcounts]; exact hnone, ?_⟩
      show b.counted - 1 = ((x'.live b.collection).filter fun n => ¬ Scan.Past b.after n).card
      rw [hcount, hc, hlive, Finset.filter_erase, Finset.card_erase_of_mem hcounted]
    · refine h.same hcat hcounts ?_ habove
      rw [hc, hlive, Finset.filter_erase, Finset.erase_eq_of_notMem]
      intro hmem'
      refine hbehind ⟨hc, ?_⟩
      have hpast := (Finset.mem_filter.1 hmem').2
      simp only [Scan.Past, not_forall, not_lt] at hpast
      obtain ⟨a, ha, hle⟩ := hpast
      exact (Option.any_eq_true ..).2 ⟨a, ha, by simpa using hle⟩
  · rw [Database.uncount, if_neg fun hand => hc hand.1]
    refine h.same hcat hcounts ?_ habove
    rw [live_congr fun n => ?_]
    rw [hrows, Finmap.lookup_erase_ne]
    rintro rfl
    exact hc rfl

lemma counted_remove (h : Good db) (hc : Counted db) (hu : db.userWritesPending = true)
    (hk : db.store.catalogs id.collection = some k) (hd : k.drop = none)
    (hrow : db.store.rows.lookup id = some row) (hrem : db.removeRow o id row = .ok db') :
    Counted db' := by
  have hcons := h.consistent
  simp only [Database.removeRow, bind_eq_ok] at hrem
  obtain ⟨db₁, hmaint, hnote⟩ := hrem
  have hsame := (maintainIndexes_spec hcons.sound.owned hcons.cache hmaint).1
  have hids := ids_sameButIndexes hsame
  have hsc := hsame.sameCounts
  set y : Store := { db₁.store with
    rows := db₁.store.rows.erase id
    mapping := db₁.store.mapping.erase (id.collection, row.key) } with hy
  have hrows : y.rows = db.store.rows.erase id := by
    rw [hy]
    dsimp only
    rw [hsc.tables.rows]
  have hlive := live_erase hrows
  have hother : ∀ c', c' ≠ id.collection → y.live c' = db.store.live c' := by
    intro c' hne
    refine live_congr fun n => ?_
    rw [hrows, Finmap.lookup_erase_ne]
    rintro rfl
    exact hne rfl
  have hmem : id.sequence ∈ db.store.live id.collection := by
    rw [mem_live_iff, hrow]
    rfl
  set z : Database := { db₁ with
    rowCountBackfill := db₁.rowCountBackfill.map fun b => Database.uncount b id
    store := y } with hz
  have hnote' : z.noteRow id.collection (-1) = .ok db' := hnote
  have hdb := noteRow_ok hnote'
  refine ⟨?_, fun hp => ?_, fun b hb => ?_⟩
  · have hrec : Recorded db.store z.rowCounts := by
      show Recorded db.store db₁.rowCounts
      rw [hsc.rowCounts]
      exact hc.recorded
    refine noteRow_recorded hrec ?_ ?_ hsc.tables.catalogs hsc.counts hsc.feature ?_ hother hnote'
    · exact ⟨k, hsc.tables.catalogs ▸ hk, hd⟩
    · show db₁.dropping ≠ some id.collection
      rw [hsc.dropping]
      exact hcons.not_dropping hk hd
    · show ((y.live id.collection).card : ℤ) = _
      rw [hlive, Finset.card_erase_of_mem hmem]
      have := Finset.card_pos.2 ⟨_, hmem⟩
      omega
  · rw [hdb] at hp
    have : db₁.userWritesPending = true := hsc.pending.trans hu
    rw [show db₁.userWritesPending = false from hp] at this
    cases this
  · rw [hdb] at hb
    obtain ⟨b', hb', rfl⟩ := Option.map_eq_some_iff.1 (show z.rowCountBackfill = some b from hb)
    have hw := hc.backfill b' (hsc.backfill ▸ hb')
    rw [hdb]
    show Walked _ y _
    refine hw.uncount hsc.tables.catalogs hsc.counts (by rw [hrow]; rfl) hrows fun a ha => ?_
    rw [← hids] at ha
    exact ha.congr rfl rfl rfl rfl

lemma RowStep.counted {removed : Option EntityId} (h : Good db) (hc : Counted db)
    (hu : db.userWritesPending = true) (hs : RowStep db db' removed) : Counted db' := by
  cases hs with
  | insert o c k key doc given stored id db₁ db₂ hk hd hkey hprep henc halloc hmaint hfin =>
      exact counted_insert h hc hu hk hd halloc hmaint hfin
  | replace o c k row doc given stored id db₁ hk hd hid hrow hprep henc hmaint hdb =>
      have hcons := h.consistent
      have hsame := (maintainIndexes_spec hcons.sound.owned hcons.cache hmaint).1
      have hsc := hsame.sameCounts
      have hmid : Counted db₁ := hc.same hsc fun c a ha => by
        rw [ids_sameButIndexes hsame]
        exact ha
      have hlive : ∀ c, (db₁.putRow id ⟨row.key, stored⟩).store.live c = db₁.store.live c := by
        intro c
        ext n
        rw [mem_live_iff, mem_live_iff]
        show ((db₁.store.rows.insert id _).lookup _).isSome = _ ↔ _
        by_cases hn : (⟨c, n⟩ : EntityId) = id
        · rw [hn, Finmap.lookup_insert, hsc.tables.rows, hrow]
          simp
        · rw [Finmap.lookup_insert_of_ne _ hn]
      rw [hdb]
      refine ⟨hmid.recorded.congr rfl rfl (fun _ h => h) (fun c hc => Or.inl ⟨hc, hlive c⟩)
        fun c p hp => (hmid.recorded.opened c p hp).1, hmid.idle, fun b hb => ?_⟩
      exact (hmid.backfill b hb).same rfl rfl (by rw [hlive]) fun a ha => ha.congr rfl rfl rfl rfl
  | remove o c k row id hk hd hid hrow hrem =>
      subst hid
      exact counted_remove h hc hu hk hd hrow hrem

lemma RowRun.counted {removes : Bool} (h : Good db) (hc : Counted db) (hs : RowRun removes db db') :
    Counted db' := by
  induction hs with
  | refl => exact hc
  | tail hrun hs ih =>
      rcases hs with rfl | ⟨hu, removed, hs, -⟩
      · exact ⟨ih.recorded, fun hp => (by cases hp), ih.backfill⟩
      · exact hs.counted (RowRun.served h hrun).1.good ih hu

/-! ## Backfills -/

/-- A table gets a record that is right about it. -/
lemma Recorded.seed {rows : ℕ} (h : Recorded x pending) (ht : (x.catalogs c).isSome)
    (hrows : Standing x c → rows = (x.live c).card) :
    Recorded { x with
      rowCountFeature := true
      counts := Function.update x.counts c (some ⟨rows, 1⟩) } (Function.update pending c none) := by
  refine ⟨fun hf => (by cases hf), fun c' r hr => ?_, fun c' r hs hp hr => ?_, fun c' p hp => ?_⟩
  · by_cases hc : c' = c
    · rw [hc]; exact ht
    · exact h.tabled c' r ((Function.update_of_ne hc _ _).symm.trans hr)
  · by_cases hc : c' = c
    · subst hc
      simp only [Function.update_self, Option.some.injEq] at hr
      rw [← hr]
      exact hrows hs
    · exact h.record c' r hs ((Function.update_of_ne hc _ _).symm.trans hp)
        ((Function.update_of_ne hc _ _).symm.trans hr)
  · by_cases hc : c' = c
    · subst hc
      rw [Function.update_self] at hp
      cases hp
    · obtain ⟨hs, ⟨r, hr, hbase⟩, hsum⟩ := h.opened c' p ((Function.update_of_ne hc _ _).symm.trans hp)
      exact ⟨hs, ⟨r, (Function.update_of_ne hc _ _).trans hr, hbase⟩, hsum⟩

/-- **A bounded walk counts the rows it passes.** -/
lemma backfillWalk_counted (h : Good db) (hc : Counted db) (hb : Walked db.ids db.store b)
    (budget : ℕ) : Counted (db.backfillWalk b budget).2.2 := by
  have hcard := Scan.card_stop (db.store.live b.collection) budget b.after
  have hidle : ∀ c, db.userWritesPending = false → ∀ c',
      Function.update db.rowCounts c none c' = none := by
    intro c hu c'
    rw [Function.update_apply, hc.idle hu c']
    split_ifs <;> rfl
  rw [Database.backfillWalk]
  split_ifs with hlen
  · refine ⟨hc.recorded.seed hb.table fun hs => ?_, hidle _, fun b hb => (by cases hb)⟩
    -- the walk came to the end of the table
    rw [Scan.filter_stop_of_short hlen, ← (hb.counted hs).2] at hcard
    exact hcard.symm
  · refine ⟨hc.recorded, hc.idle, fun b' hb' => ?_⟩
    cases hb'
    refine ⟨hb.table, fun hs => ⟨(hb.counted hs).1, ?_⟩, fun a ha => ?_⟩
    · rw [(hb.counted hs).2]
      exact hcard.symm
    · rcases Scan.stop_eq ha with hmem | ⟨-, ha⟩
      · obtain ⟨r, hr⟩ := Option.isSome_iff_exists.1 (mem_live_iff.1 (Scan.mem_of_mem_take hmem).1)
        refine (h.ids.live h.failed).above (k := r.key) ?_
        simp [Database.ids, hr]
      · exact hb.above a ha

/-- Where a backfill goes on, or starts. -/
lemma backfillState_walked (hc : Counted db) (hb : db.backfillState = some b) :
    Walked db.ids db.store b := by
  rw [Database.backfillState, Option.or_eq_some_iff] at hb
  rcases hb with hb | ⟨-, hb⟩
  · exact hc.backfill b hb
  · obtain ⟨c, hfind, rfl⟩ := Option.map_eq_some_iff.1 hb
    rw [Database.nextUncounted, List.find?_eq_some_iff_append] at hfind
    have hfound := hfind.1
    simp only [Bool.and_eq_true, Bool.or_eq_true, Bool.not_eq_true', Option.any_eq_true,
      Option.isNone_iff_eq_none] at hfound
    obtain ⟨⟨k, hk, -⟩, hnone⟩ := hfound
    have hcounts : db.store.counts c = none :=
      hnone.elim (fun hf => hc.recorded.plain hf c) fun h => h
    exact ⟨by rw [hk]; rfl, fun _ => ⟨hcounts, by simp⟩, fun a ha => by cases ha⟩

lemma backfillLoop_counted {budget passes walked written : ℕ} (h : Good db) (hc : Counted db) :
    Counted (Database.backfillLoop budget passes walked written db).2 := by
  induction passes generalizing db walked written with
  | zero => exact hc
  | succ passes ih =>
      rw [Database.backfillLoop]
      split
      · exact hc
      · rename_i b hb
        have hwalk := backfillWalk_counted h hc (backfillState_walked hc hb) (budget - walked)
        have hgood := (h.aside (aside_backfillWalk db b (budget - walked))).good
        generalize db.backfillWalk b (budget - walked) = r at hwalk hgood ⊢
        obtain ⟨counted, complete, db₁⟩ := r
        by_cases hb : budget ≤ walked + counted
        · simp only [hb, if_true]
          exact hwalk
        · simp only [hb, if_false]
          exact ih hgood hwalk

/-! ## Tables -/

lemma createTable_counted {t : Declaration} (h : Good db) (hc : Counted db)
    (hok : db.createTable t = .ok (c, db')) :
    Counted db' ∧ (db'.store.catalogs c).isSome ∧ db'.store.live c = ∅
      ∧ ∀ b, db'.rowCountBackfill = some b → b.collection ≠ c := by
  simp only [Database.createTable, bind_eq_ok, refuse_eq_ok, pure_eq_ok, Prod.mk.injEq] at hok
  obtain ⟨db₁, hu, _, -, _, -, _, -, _, -, _, -, _, -, fields, -, rfl, rfl⟩ := hok
  obtain ⟨-, rfl⟩ := userWrite_ok hu
  have hsound := h.consistent.sound
  have hfree : db.store.catalogs db.store.nextCollection = none := by
    cases hk : db.store.catalogs db.store.nextCollection with
    | none => rfl
    | some k => exact absurd (hsound.catalogued.id _ k hk).2 (lt_irrefl _)
  have hne : ∀ {c}, (db.store.catalogs c).isSome → c ≠ db.store.nextCollection := by
    rintro c hs rfl
    rw [hfree] at hs
    cases hs
  have hkeep : ∀ {c} (k : Catalog), (db.store.catalogs c).isSome →
      Function.update db.store.catalogs db.store.nextCollection (some k) c = db.store.catalogs c :=
    fun k hs => Function.update_of_ne (hne hs) _ _
  refine ⟨⟨hc.recorded.congr rfl rfl (fun c hs => ?_) (fun c hs => ?_) fun c p hp => ?_,
    fun hp => (by cases hp), fun b hb => ?_⟩, ?_, ?_, fun b hb => hne (hc.backfill b hb).table⟩
  · exact (congrArg Option.isSome (hkeep _ hs)).trans hs
  · by_cases hn : c = db.store.nextCollection
    · refine Or.inr ?_
      cases hr : db.store.counts c with
      | none => rfl
      | some r => exact absurd hn (hne (hc.recorded.tabled c r hr))
    · obtain ⟨k, hk, hd⟩ := hs
      exact Or.inl ⟨⟨k, (Function.update_of_ne hn _ _).symm.trans hk, hd⟩, rfl⟩
  · obtain ⟨⟨k, hk, hd⟩, -⟩ := hc.recorded.opened c p hp
    exact ⟨k, (hkeep _ (by rw [hk]; rfl)).trans hk, hd⟩
  · have hw := hc.backfill b hb
    refine hw.congr (fun hs => (congrArg Option.isSome (hkeep _ hs)).trans hs) (fun hs => ?_)
      fun a ha => ha.congr rfl rfl rfl (Function.update_of_ne (hne hw.table) _ _)
    obtain ⟨k, hk, hd⟩ := hs
    exact ⟨⟨k, (hkeep _ hw.table).symm.trans hk, hd⟩, fun h => h, rfl⟩
  · simp [Database.setStore]
  · refine Finset.eq_empty_of_forall_notMem fun n hn => ?_
    have hrow := (hsound.bare hfree).rows n
    rw [mem_live_iff] at hn
    rw [show (db.written.setStore _).store.rows = db.store.rows from rfl] at hn
    rw [show db.written.store.nextCollection = db.store.nextCollection from rfl, hrow] at hn
    cases hn

lemma createCollection_counted {t : Declaration} (h : Good db) (hc : Counted db)
    (hok : db.createCollection t = .ok (c, db')) : Counted db' := by
  simp only [Database.createCollection, bind_eq_ok, pure_eq_ok, Prod.exists, Prod.mk.injEq] at hok
  obtain ⟨c', db₁, hok, rfl, rfl⟩ := hok
  obtain ⟨hc₁, htable, hlive, hne⟩ := createTable_counted h hc hok
  refine ⟨hc₁.recorded.seed htable fun _ => by rw [hlive]; rfl, fun hu c => ?_, fun b hb => ?_⟩
  · have hnone := hc₁.idle hu c
    show Function.update db₁.rowCounts c' none c = none
    rw [Function.update_apply, hnone]
    split_ifs <;> rfl
  · refine (hc₁.backfill b hb).congr (fun h => h) (fun hs => ⟨hs, fun hn => ?_, rfl⟩)
      fun a ha => ha.congr rfl rfl rfl rfl
    exact (Function.update_of_ne (hne b hb) _ _).trans hn

/-- **A table is marked, and may lose rows.** -/
lemma Counted.mark {d : DropState} (h : Counted db) (hnone : db.rowCounts c = none)
    (hcat : db'.store.catalogs
      = Function.update db.store.catalogs c (some { k with drop := some d }))
    (hrows : ∀ id : EntityId, id.collection ≠ c →
      db'.store.rows.lookup id = db.store.rows.lookup id)
    (hf : db'.store.rowCountFeature = db.store.rowCountFeature)
    (hcounts : db'.store.counts = db.store.counts) (hpending : db'.rowCounts = db.rowCounts)
    (hu : db'.userWritesPending = db.userWritesPending)
    (hb : db'.rowCountBackfill = db.rowCountBackfill)
    (habove : ∀ c a, Above db.ids c a → Above db'.ids c a) : Counted db' := by
  have hsome : ∀ c', (db.store.catalogs c').isSome → (db'.store.catalogs c').isSome := by
    intro c' hs
    rw [hcat, Function.update_apply]
    split_ifs
    · rfl
    · exact hs
  have hstand : ∀ c', Standing db'.store c' →
      Standing db.store c' ∧ db'.store.live c' = db.store.live c' := by
    rintro c' ⟨k', hk', hd'⟩
    rw [hcat, Function.update_apply] at hk'
    split_ifs at hk' with hc
    · cases hk'
      cases hd'
    · exact ⟨⟨k', hk', hd'⟩, live_congr fun n => hrows _ hc⟩
  refine ⟨?_, ?_, fun b hb' => ?_⟩
  · rw [hpending]
    refine h.recorded.congr hf hcounts hsome (fun c' hs => Or.inl (hstand c' hs)) fun c' p hp => ?_
    have hne : c' ≠ c := by
      rintro rfl
      rw [hnone] at hp
      cases hp
    obtain ⟨⟨k', hk', hd'⟩, -⟩ := h.recorded.opened c' p hp
    exact ⟨k', by rw [hcat, Function.update_of_ne hne]; exact hk', hd'⟩
  · rw [hu, hpending]; exact h.idle
  · rw [hb] at hb'
    refine (h.backfill b hb').congr (hsome _) (fun hs => ?_) (habove b.collection)
    obtain ⟨hs, hlive⟩ := hstand _ hs
    exact ⟨hs, by rw [hcounts]; exact fun h => h, by rw [hlive]⟩

/-- The count of a table that is being dropped is not open. -/
lemma Counted.not_open (h : Counted db) {d : DropState} (hk : db.store.catalogs c = some k)
    (hd : k.drop = some d) : db.rowCounts c = none := by
  cases hp : db.rowCounts c with
  | none => rfl
  | some p =>
      obtain ⟨⟨k', hk', hd'⟩, -⟩ := h.recorded.opened c p hp
      cases hk.symm.trans hk'
      rw [hd] at hd'
      cases hd'

lemma beginDropCollection_counted (h : Good db) (hc : Counted db)
    (hok : db.beginDropCollection c = .ok db') : Counted db' := by
  simp only [Database.beginDropCollection, bind_eq_ok, refuse_eq_ok, pure_eq_ok,
    Bool.not_eq_true] at hok
  obtain ⟨_, -, _, hu, k, hk, _, -, rfl⟩ := hok
  obtain rfl : k.id = c := (h.consistent.sound.catalogued.id c k (catalog_ok hk).2.1).1
  exact hc.mark (hc.idle hu _) rfl (fun _ _ => rfl) rfl rfl rfl rfl rfl fun _ _ ha =>
    ha.congr rfl rfl rfl rfl

/-- Progress is saved after rows and keys of the table went. -/
lemma dropProgress_counted {d : DropState} {ended : Bool} {removed : ℕ} (h : Good db)
    (hc : Counted db) (hk : db.store.catalogs c = some k) (hd : k.drop = some d)
    {rows : Finmap fun _ : EntityId => Row} {mapping : Finmap fun _ : ℕ × String => ℕ}
    (hrows : ∀ id : EntityId, id.collection ≠ c → rows.lookup id = db.store.rows.lookup id) :
    Counted ((db.setStore fun x => { x with rows, mapping }).dropProgress k d ended removed) := by
  obtain rfl : k.id = c := (h.consistent.sound.catalogued.id c k hk).1
  exact hc.mark (hc.not_open hk hd) rfl hrows rfl rfl rfl rfl rfl fun _ _ ha =>
    ha.congr rfl rfl rfl rfl

lemma removeRows_counted {d : DropState} {budget : ℕ} (h : Good db) (hc : Counted db)
    (hk : db.store.catalogs c = some k) (hd : k.drop = some d) :
    Counted (db.dropStepPrefix o k d budget (db.store.live c) (Database.removeRows c)) := by
  refine dropProgress_counted h hc hk hd fun id hne => ?_
  rcases lookup_foldl_erase (fun seq => (⟨c, seq⟩ : EntityId)) _ db.store.rows id with heq | hnone
  · exact heq
  · obtain ⟨⟨seq, rfl⟩, -⟩ := hnone
    exact absurd rfl hne

lemma dropStepDescriptor_counted {d : DropState} (h : Good db) (hc : Counted db)
    (hk : db.store.catalogs c = some k) (hd : k.drop = some d)
    (hok : db.dropStepDescriptor k = .ok db') : Counted db' := by
  obtain rfl : k.id = c := (h.consistent.sound.catalogued.id c k hk).1
  simp only [Database.dropStepDescriptor, bind_eq_ok, refuse_eq_ok, pure_eq_ok] at hok
  obtain ⟨_, -, _, -, _, -, rfl⟩ := hok
  have hnot := hc.not_open hk hd
  have hcounts : (if db.store.rowCountFeature = true then
      Function.update db.store.counts k.id none else db.store.counts)
        = Function.update db.store.counts k.id none := by
    split_ifs with hf
    · rfl
    · rw [Bool.not_eq_true] at hf
      rw [← hc.recorded.plain hf k.id, Function.update_eq_self]
  have hpending : Function.update db.rowCounts k.id none = db.rowCounts := by
    rw [← hnot, Function.update_eq_self]
  have hstand : ∀ c, c ≠ k.id → (Function.update db.store.catalogs k.id none c)
      = db.store.catalogs c := fun c hne => Function.update_of_ne hne _ _
  refine ⟨⟨fun hf c => ?_, fun c r hr => ?_, fun c r hs hp hr => ?_, fun c p hp => ?_⟩, fun hu c => ?_,
    fun b hb => ?_⟩
  · refine (congrFun hcounts c).trans ?_
    rw [Function.update_apply, hc.recorded.plain hf c]
    split_ifs <;> rfl
  · have hr' := (congrFun hcounts c).symm.trans hr
    rw [Function.update_apply] at hr'
    split_ifs at hr' with hne
    exact (congrArg Option.isSome (hstand c hne)).trans (hc.recorded.tabled c r hr')
  · have hr' := (congrFun hcounts c).symm.trans hr
    rw [Function.update_apply] at hr'
    split_ifs at hr' with hne
    obtain ⟨k', hk', hd'⟩ := hs
    exact hc.recorded.record c r ⟨k', (hstand c hne).symm.trans hk', hd'⟩
      ((congrFun hpending c).symm.trans hp) hr'
  · have hp' : db.rowCounts c = some p := (congrFun hpending c).symm.trans hp
    have hne : c ≠ k.id := by
      rintro rfl
      rw [hnot] at hp'
      cases hp'
    obtain ⟨⟨k', hk', hd'⟩, ⟨r, hr, hbase⟩, hsum⟩ := hc.recorded.opened c p hp'
    refine ⟨⟨k', (hstand c hne).trans hk', hd'⟩, ⟨r, (congrFun hcounts c).trans ?_, hbase⟩, hsum⟩
    rw [Function.update_of_ne hne]
    exact hr
  · exact (congrFun hpending c).trans (hc.idle hu c)
  · obtain ⟨hb', hne⟩ := Option.filter_eq_some_iff.1
      (show db.rowCountBackfill.filter (fun b => b.collection ≠ k.id) = some b from hb)
    have hne : b.collection ≠ k.id := by simpa using hne
    refine (hc.backfill b hb').congr (fun hs => ?_) (fun hs => ?_) fun a ha => ?_
    · exact (congrArg Option.isSome (hstand _ hne)).trans hs
    · obtain ⟨k', hk', hd'⟩ := hs
      refine ⟨⟨k', (hstand _ hne).symm.trans hk', hd'⟩, fun hn => (congrFun hcounts _).trans ?_, rfl⟩
      rw [Function.update_of_ne hne]
      exact hn
    · exact ha.forget hne

lemma dropCollectionStep_counted {budget : ℕ} {ended : Bool} (h : Good db) (hc : Counted db)
    (hok : db.dropCollectionStep o c budget = .ok (ended, db')) : Counted db' := by
  obtain ⟨k, d, hk, rfl, hd, hdone⟩ := dropCollectionStep_done h hok
  cases hdone with
  | progress hre =>
      have hc₁ := hc.same hre.only.sameCounts fun c a ha => by
        rw [hre.only.ids]
        exact ha
      exact dropProgress_counted (h.reindexed hre).good hc₁
        (by rw [hre.only.tables.catalogs]; exact hk) hd fun _ _ => rfl
  | rows => exact removeRows_counted h hc hk hd
  | mappings => exact dropProgress_counted h hc hk hd fun _ _ => rfl
  | descriptor hdo => exact dropStepDescriptor_counted h hc hk hd hdo

/-! ## Commits -/

lemma applied_eq {p : Pending} {rows : ℕ} (h : p.applied = .ok rows) : (rows : ℤ) = p.base + p.delta := by
  simp only [Pending.applied, bind_eq_ok, refuse_eq_ok, pure_eq_ok] at h
  obtain ⟨_, hdomain, rfl⟩ := h
  rw [not_or, not_lt] at hdomain
  exact Int.toNat_of_nonneg hdomain.1

/-- **The delta of one table is written.** -/
lemma flushRowCount_recorded (h : Recorded db.store db.rowCounts) (hok : db.flushRowCount c = .ok db') :
    Recorded db'.store db'.rowCounts ∧ db'.rowCounts = Function.update db.rowCounts c none
      ∧ ∀ c', db.store.counts c' = none → db'.store.counts c' = none := by
  rw [Database.flushRowCount] at hok
  cases hp : db.rowCounts c with
  | none =>
      simp only [hp, Except.ok.injEq] at hok
      subst hok
      refine ⟨h, ?_, fun _ hn => hn⟩
      rw [← hp, Function.update_eq_self]
  | some p =>
      obtain ⟨hs, ⟨r, hr, hbase⟩, hsum⟩ := h.opened c p hp
      have hopened : ∀ c' p', Function.update db.rowCounts c none c' = some p' →
          c' ≠ c ∧ db.rowCounts c' = some p' := by
        intro c' p' hp'
        rw [Function.update_apply] at hp'
        split_ifs at hp' with hne
        exact ⟨hne, hp'⟩
      simp only [hp] at hok
      split_ifs at hok with hzero
      · cases hok
        -- every write of the transaction was a replace
        refine ⟨⟨h.plain, h.tabled, fun c' r' hs' hp' hr' => ?_, fun c' p' hp' =>
          h.opened c' p' (hopened c' p' hp').2⟩, rfl, fun _ hn => hn⟩
        by_cases hne : c' = c
        · subst hne
          cases hr.symm.trans hr'
          rw [hzero, add_zero] at hsum
          rw [hbase]
          exact_mod_cast hsum
        · exact h.record c' r' hs' ((Function.update_of_ne hne _ _).symm.trans hp') hr'
      · simp only [bind_eq_ok, pure_eq_ok] at hok
        obtain ⟨rows, happ, rfl⟩ := hok
        have hrows : rows = (db.store.live c).card := by
          have := applied_eq happ
          rw [hsum] at this
          exact_mod_cast this
        have hcounts : ∀ c', c' ≠ c → ∀ g : RowCountRecord,
            Function.update db.store.counts c (some g) c' = db.store.counts c' :=
          fun c' hne g => Function.update_of_ne hne _ _
        refine ⟨⟨fun hf c' => ?_, fun c' r' hr' => ?_, fun c' r' hs' hp' hr' => ?_,
          fun c' p' hp' => ?_⟩, rfl, fun c' hn => ?_⟩
        · exact absurd (h.plain hf c) (by rw [hr]; simp)
        · by_cases hne : c' = c
          · rw [hne]; exact h.tabled c r hr
          · exact h.tabled c' r' ((hcounts c' hne _).symm.trans hr')
        · by_cases hne : c' = c
          · subst hne
            simp only [Database.setStore, Function.update_self, Option.some.injEq] at hr'
            rw [← hr']
            exact hrows
          · exact h.record c' r' hs' ((Function.update_of_ne hne _ _).symm.trans hp')
              ((hcounts c' hne _).symm.trans hr')
        · obtain ⟨hne, hp'⟩ := hopened c' p' hp'
          obtain ⟨hs', ⟨r', hr', hbase'⟩, hsum'⟩ := h.opened c' p' hp'
          exact ⟨hs', ⟨r', (hcounts c' hne _).trans hr', hbase'⟩, hsum'⟩
        · have hne : c' ≠ c := by
            rintro rfl
            rw [hr] at hn
            cases hn
          exact (hcounts c' hne _).trans hn

lemma flushCounts_recorded {l : List ℕ} (h : Recorded db.store db.rowCounts)
    (hok : db.flushCounts l = .ok db') :
    Recorded db'.store db'.rowCounts ∧ (∀ c, db.rowCounts c = none ∨ c ∈ l → db'.rowCounts c = none)
      ∧ ∀ c, db.store.counts c = none → db'.store.counts c = none := by
  induction l generalizing db with
  | nil =>
      cases hok
      exact ⟨h, fun c hc => hc.elim (fun h => h) (by simp), fun _ hn => hn⟩
  | cons c l ih =>
      simp only [Database.flushCounts, bind_eq_ok] at hok
      obtain ⟨db₁, hone, hrest⟩ := hok
      obtain ⟨hr, hp, hn⟩ := flushRowCount_recorded h hone
      obtain ⟨hr', hp', hn'⟩ := ih hr hrest
      refine ⟨hr', fun c' hc' => hp' c' ?_, fun c' hc' => hn' c' (hn c' hc')⟩
      rw [hp, Function.update_apply]
      rcases hc' with hc' | hc'
      · left
        split_ifs <;> first | rfl | exact hc'
      · rcases List.mem_cons.1 hc' with rfl | hmem
        · left
          rw [if_pos rfl]
        · exact Or.inr hmem

/-- What a commit writes before its barrier closes every count. -/
lemma flush_counted (h : Good db) (hc : Counted db) (hok : db.flush = .ok db') :
    Recorded db'.store (fun _ => none) ∧ (∀ c, db'.rowCounts c = none)
      ∧ ∀ b, db'.rowCountBackfill = some b → Walked db.ids.flushSequence db'.store b := by
  have hids := (flush_ok h hok).2.1
  simp only [Database.flush, bind_eq_ok, refuse_eq_ok] at hok
  obtain ⟨_, -, hok⟩ := hok
  set y : Database := ({ db with userWritesPending := false } : Database).flushSequence with hy
  have honly := onlyCounts_flushCounts hok
  have haside := honly.aside
  have hrec : Recorded y.store y.rowCounts :=
    hc.recorded.congr rfl rfl (fun _ h => h) (fun c hs => Or.inl ⟨hs, rfl⟩)
      fun c p hp => (hc.recorded.opened c p hp).1
  obtain ⟨hr, hp, hn⟩ := flushCounts_recorded hrec hok
  have hall : ∀ c, db'.rowCounts c = none := by
    intro c
    refine hp c ?_
    cases hpc : y.rowCounts c with
    | none => exact Or.inl rfl
    | some p =>
        obtain ⟨⟨k, hk, -⟩, -⟩ := hrec.opened c p hpc
        exact Or.inr (List.mem_range.2 (h.consistent.sound.catalogued.id c k hk).2)
  have hnone : db'.rowCounts = fun _ => none := funext hall
  rw [hnone] at hr
  refine ⟨hr, hall, fun b hb => ?_⟩
  have hcat : db'.store.catalogs = db.store.catalogs := haside.tables.catalogs
  have hlive : ∀ c, db'.store.live c = db.store.live c := fun c => live_congr fun n => by
    rw [haside.tables.rows]
    rfl
  have hb' : db.rowCountBackfill = some b := by
    rw [OnlyCounts] at honly
    rw [honly] at hb
    exact hb
  refine (hc.backfill b hb').congr (by rw [hcat]; exact fun h => h) (fun hs => ⟨?_, hn _, ?_⟩)
    fun a ha => ha.flushSequence (legacy_block h.ids h.failed)
  · rw [Standing, hcat] at hs
    exact hs
  · rw [hlive]

lemma commit_counted (h : Good db) (hc : Counted db) (hok : db.commit = .ok db') :
    Counted db' ∧ Recorded db'.durable fun _ => none := by
  simp only [Database.commit, bind_eq_ok, pure_eq_ok] at hok
  obtain ⟨db₁, hflush, rfl⟩ := hok
  obtain ⟨hr, hnone, hb⟩ := flush_counted h hc hflush
  have hids := (flush_ok h hflush).2.1
  refine ⟨⟨?_, fun _ => hnone, fun b hb' => ?_⟩, hr⟩
  · show Recorded db₁.store db₁.rowCounts
    rw [show db₁.rowCounts = fun _ => none from funext hnone]
    exact hr
  · refine (hb b hb').same rfl rfl rfl fun a ha => ?_
    rw [← hids] at ha
    refine ha.congr rfl rfl ?_ rfl
    simp [Database.ids, Collections.Database.block]

/-! ## Every run -/

/-- A handle that was opened on a store whose records are right. -/
lemma counted_opened (h : Recorded db.store fun _ => none) (hc : db.rowCounts = fun _ => none)
    (hb : db.rowCountBackfill = none) : Counted db := by
  refine ⟨by rw [hc]; exact h, fun _ c => by rw [hc], fun b hb' => ?_⟩
  rw [hb] at hb'
  cases hb'

lemma recorded_empty : Recorded .empty fun _ => none :=
  ⟨fun _ _ => rfl, fun c r h => (by cases h), fun c r _ _ h => (by cases h), fun c p h => by cases h⟩

/-- A request that is not a commit. -/
lemma call_counted {r : Request} (h : Good db) (hc : Counted db) (hr : r ≠ .commit)
    (hok : db.call r = .ok db') : Counted db' := by
  cases call_done h hok with
  | schema =>
      exact ⟨hc.recorded.congr rfl rfl (fun _ h => h) (fun _ hs => Or.inl ⟨hs, rfl⟩)
        fun c p hp => (hc.recorded.opened c p hp).1, fun hp => (by cases hp), fun b hb =>
        (hc.backfill b hb).same rfl rfl rfl fun a ha => ha.congr rfl rfl rfl rfl⟩
  | @collection t c db₁ hdo =>
      exact createCollection_counted h hc (t := t) (by rw [Database.createCollection, hdo]; rfl)
  | table hdo => exact (createTable_counted h hc hdo).1
  | rows _ hrun => exact hrun.counted h hc
  | delete hdo => exact (delete_run hdo).counted h hc
  | deletePage hdo => exact (deletePage_run h hdo).counted h hc
  | indexes hre =>
      refine hc.same hre.only.sameCounts fun c a ha => ?_
      rw [hre.only.ids]
      exact ha
  | backfill => exact backfillLoop_counted h hc
  | beginDrop hdo => exact beginDropCollection_counted h hc hdo
  | dropStep hdo => exact dropCollectionStep_counted h hc hdo
  | commit => exact absurd rfl hr

/-- What a run keeps of the counts. -/
lemma lasts_counted : Lasts Certain (fun x => Recorded x fun _ => none) Counted where
  call {_ _ r} h hc _ hok := by
    by_cases hr : r = .commit
    · subst hr
      exact (commit_counted h hc hok).1
    · exact call_counted h hc hr hok
  written hc := ⟨hc.recorded, fun hp => (by cases hp), hc.backfill⟩
  flush h hc hok := (flush_counted h hc hok).1
  opened := counted_opened

/-- Row numbers are `u64`, so a table has fewer rows than a count can hold. -/
lemma Good.card_live (h : Good db) (c : ℕ) : (db.store.live c).card ≤ u64Max := by
  have hsub : db.store.live c ⊆ Finset.range u64Max := by
    intro n hn
    obtain ⟨r, hr⟩ := Option.isSome_iff_exists.1 (mem_live_iff.1 hn)
    have hvalid := h.numbered.rows h.failed ⟨c, n⟩ r.key (by simp [Database.ids, hr])
    exact Finset.mem_range.2 hvalid.2
  exact (Finset.card_le_card hsub).trans (Finset.card_range u64Max).le

/-- A count that is open is within its domain. -/
lemma Counted.applied (h : Good db) (hc : Counted db) {p : Pending} (hp : db.rowCounts c = some p) :
    p.applied = .ok (db.store.live c).card := by
  have hsum := (hc.recorded.opened c p hp).2.2
  have hle := h.card_live c
  have hdomain : ¬ ((p.base : ℤ) + p.delta < 0 ∨ (u64Max : ℤ) < p.base + p.delta) := by
    rw [hsum]
    omega
  simp only [Pending.applied, bind_eq_ok, refuse_eq_ok, pure_eq_ok]
  exact ⟨(), hdomain, by rw [hsum]; exact Int.toNat_natCast _⟩

/-- **The live row count is exact** in every run without a rollback that keeps a block of row numbers
the durable state has gone past.  A table that is not being dropped has no count or the number of its
rows, its record in the durable state is the number of its rows there, and what is applied to a
record stays in the `u64` domain. -/
theorem rowCount_reachable (h : Reachable Certain db) :
    (db.failed = false → ∀ c, Standing db.store c →
      db.rowCount c = .ok none ∨ db.rowCount c = .ok (some (db.store.live c).card))
    ∧ (∀ c r, Standing db.durable c → db.durable.counts c = some r →
      r.rows = (db.durable.live c).card)
    ∧ (db.failed = false → ∀ c p, db.rowCounts c = some p →
      p.applied = .ok (db.store.live c).card) := by
  have hinv := h.carried lasts_counted (fun _ _ hp => hp) recorded_empty
  refine ⟨fun hf c hs => ?_, fun c r hs hr => hinv.durable.record c r hs rfl hr, fun hf c p hp =>
    (hinv.live hf).applied (hinv.inv.good hf) hp⟩
  have hc := hinv.live hf
  rw [Database.rowCount]
  cases hp : db.rowCounts c with
  | some p =>
      refine Or.inr ?_
      simp only [hc.applied (hinv.inv.good hf) hp]
      rfl
  | none =>
      cases hfeat : db.store.rowCountFeature with
      | false => exact Or.inl rfl
      | true =>
          cases hr : db.store.counts c with
          | none =>
              refine Or.inl ?_
              simp [hf, refuse]
          | some r =>
              refine Or.inr ?_
              rw [← hc.recorded.record c r hs hp hr]
              simp [hf, refuse]

end

/-- A table of an older binary is counted in two steps, between which a row goes and a row comes. -/
def backfilledRun : List Op :=
  [.call (.createTable people), .call (.insert plainCall 1 "ada" (age 36)),
    .call (.insert plainCall 1 "alan" (age 41)), .call .commit, .call (.backfillRowCounts 1),
    .call (.delete plainCall 1 "ada"), .call (.insert plainCall 1 "kurt" (age 71)),
    .call (.backfillRowCounts 5), .call (.insert plainCall 1 "emmy" (age 53)), .call .commit,
    .call (.delete plainCall 1 "kurt")]

theorem rowCount_backfilledRun : ∃ db,
    (Database.create plainHost true).performs backfilledRun = .ok db
      ∧ db.rowCount 1 = .ok (some 2) ∧ (db.store.live 1).card = 2 ∧ (db.durable.live 1).card = 3
      ∧ (db.durable.counts 1).map RowCountRecord.rows = some 3
      ∧ (db.rowCount 1 = .ok none ∨ db.rowCount 1 = .ok (some (db.store.live 1).card)) := by
  have hrun : okAnd ((Database.create plainHost true).performs backfilledRun) (fun db =>
      !db.failed && (db.store.catalogs 1).any (fun k => k.drop.isNone)
        && okAnd (db.rowCount 1) (fun n => n = some 2)
        && (db.store.live 1).card = 2 && (db.durable.live 1).card = 3
        && (db.durable.counts 1).map RowCountRecord.rows = some 3) = true := by
    decide +kernel
  obtain ⟨db, hok, hdb⟩ := exists_of_okAnd hrun
  simp only [Bool.and_eq_true, Bool.not_eq_true', decide_eq_true_eq, Option.any_eq_true,
    Option.isNone_iff_eq_none] at hdb
  obtain ⟨⟨⟨⟨⟨hf, k, hk, hd⟩, hcount⟩, hlive⟩, hdurable⟩, hrecord⟩ := hdb
  obtain ⟨n, hn, hn2⟩ := exists_of_okAnd hcount
  have hr : Reachable Certain db := Reachable.performs (.create plainHost true)
    (by intro op hop db; fin_cases hop <;> trivial) hok
  rw [decide_eq_true_eq] at hn2
  subst hn2
  exact ⟨db, hok, hn, hlive, hdurable, hrecord, (rowCount_reachable hr).1 hf 1 ⟨k, hk, hd⟩⟩

/-- A drop has removed the one row of a table, and was committed. -/
def droppingRun : List Op :=
  [.call (.createCollection people), .call (.insert plainCall 1 "ada" (age 36)), .call .commit,
    .call (.beginDropCollection 1), .call .commit, .call (.dropCollectionStep plainCall 1 256),
    .call (.dropCollectionStep plainCall 1 256), .call (.dropCollectionStep plainCall 1 256),
    .call .commit]

/-- **A table that is being dropped keeps its record** while its rows go. -/
theorem rowCount_dropping : ¬ ∀ db, Reachable Certain db → db.failed = false →
    (∀ c n, db.rowCount c = .ok (some n) → n = (db.store.live c).card)
      ∧ ∀ c r, db.durable.counts c = some r → r.rows = (db.durable.live c).card := by
  intro h
  have hrun : okAnd ((Database.create plainHost true).performs droppingRun) (fun db =>
      !db.failed && okAnd (db.rowCount 1) (fun n => n = some 1) && (db.store.live 1).card = 0)
        = true := by
    decide +kernel
  obtain ⟨db, hok, hdb⟩ := exists_of_okAnd hrun
  simp only [Bool.and_eq_true, Bool.not_eq_true', decide_eq_true_eq] at hdb
  obtain ⟨⟨hf, hcount⟩, hlive⟩ := hdb
  obtain ⟨n, hn, hn1⟩ := exists_of_okAnd hcount
  rw [decide_eq_true_eq] at hn1
  subst hn1
  have hr : Reachable Certain db := Reachable.performs (.create plainHost true)
    (by intro op hop db; fin_cases hop <;> trivial) hok
  have hone := (h db hr hf).1 1 1 hn
  rw [hlive] at hone
  cases hone

end Engine
