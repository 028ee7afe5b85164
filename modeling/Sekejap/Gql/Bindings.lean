import Sekejap.Gql.Ends

/-!
# What an arrival writes

A search keeps one row: an arrival writes its bindings into it and logs what the slots held, so that the
row can be put back.  The row then holds what the visits of the search have bound, and the tests an
arrival makes on it are those of the visits as a whole.

* **`restore_admitted`** — an arrival is taken back, whether it was admitted or not.
* **`admitted_iff`** — over a row with the visits so far written in, an arrival is admitted when it agrees
  with them, has the labels asked for, and passes its predicates; it leaves the row with the visit
  written in too.
-/

open Collections (EntityId)

open Engine.Graph (EdgeId Keyspaces)

namespace Engine.Gql

variable {α : Type} {x y z : Scratch α}

/-! ## Taking back -/

/-- Slots are put back, latest first. -/
def putBack (row : Row α) (undo : List (ℕ × BindingValue α)) : Row α :=
  undo.foldl (fun row u => row.set u.1 u.2) row

/-- What was written over a row since can be taken back. -/
structure Extends (x y : Scratch α) : Prop where
  undo : ∃ u, y.undo = u ++ x.undo ∧ putBack y.row u = x.row
  events : x.events <:+ y.events

lemma Extends.refl (x : Scratch α) : Extends x x := ⟨⟨[], rfl, rfl⟩, List.suffix_refl _⟩

lemma Extends.trans (h : Extends x y) (h' : Extends y z) : Extends x z := by
  obtain ⟨u, hu, hrow⟩ := h.undo
  obtain ⟨u', hu', hrow'⟩ := h'.undo
  refine ⟨⟨u' ++ u, by rw [hu', hu, List.append_assoc], ?_⟩, h.events.trans h'.events⟩
  rw [putBack, List.foldl_append]
  change putBack (putBack z.row u') u = x.row
  rw [hrow', hrow]

lemma Row.set_value (row : Row α) (slot : ℕ) (v : BindingValue α) :
    (row.set slot v).set slot (row.value slot) = row := by
  rw [List.set_set, Row.value, List.getD_eq_getElem?_getD]
  by_cases h : slot < row.length
  · rw [List.getElem?_eq_getElem h, Option.getD_some, List.set_getElem_self]
  · exact List.set_eq_of_length_le (not_lt.1 h)

lemma restore_extends (h : Extends x y) : restore y.row y.undo x.undo.length = (x.row, x.undo)
    ∧ y.events.drop (y.events.length - x.events.length) = x.events := by
  obtain ⟨u, hu, hrow⟩ := h.undo
  obtain ⟨ev, hev⟩ := h.events
  constructor
  · rw [restore, hu, List.length_append, Nat.add_sub_cancel]
    rw [List.take_left, List.drop_left]
    exact Prod.ext hrow rfl
  · rw [← hev, List.length_append, Nat.add_sub_cancel, List.drop_left]

/-! ## Binding -/

/-- Elements can be bound one after another. -/
def Fits : Row α → List (Binding × Element) → Prop
  | _, [] => True
  | row, x :: l => (x.1.group = false → row.value x.1.slot = .null ∨ row.value x.1.slot = .element x.2)
      ∧ Fits (row.set x.1.slot (.element x.2)) l

/-- What binding elements comes to, whether they fit or not. -/
structure Binds (x : Scratch α) (l : List (Binding × Element)) (r : Bool × Scratch α) : Prop where
  back : Extends x r.2
  fits : r.1 = true ↔ Fits x.row l
  row : r.1 = true → r.2.row = written x.row l
  events : r.1 = true → r.2.events = (grouping l).reverse ++ x.events

lemma Binds.nil (x : Scratch α) : Binds x [] (true, x) :=
  ⟨Extends.refl x, by simp [Fits], fun _ => rfl, fun _ => rfl⟩

lemma written_append (row : Row α) (l m : List (Binding × Element)) :
    written row (l ++ m) = written (written row l) m := by
  simp [written]

lemma grouping_append (l m : List (Binding × Element)) :
    grouping (l ++ m) = grouping l ++ grouping m := by
  simp [grouping]

lemma fits_append {row : Row α} {l m : List (Binding × Element)} :
    Fits row (l ++ m) ↔ Fits row l ∧ Fits (written row l) m := by
  induction l generalizing row with
  | nil => simp [Fits, written]
  | cons x l ih =>
      rw [List.cons_append, Fits, ih, Fits, and_assoc]
      rfl

lemma Binds.append {l m : List (Binding × Element)} {r r' : Bool × Scratch α} (h : Binds x l r)
    (h' : Binds r.2 m r') :
    Binds x (l ++ m) (if r.1 = false then (false, r.2) else r') := by
  by_cases hr : r.1 = false
  · rw [if_pos hr]
    have hnot : ¬ Fits x.row l := fun hf => by simp [h.fits.2 hf] at hr
    exact ⟨h.back, by simp [fits_append, hnot], by simp, by simp⟩
  · rw [if_neg hr]
    rw [Bool.not_eq_false] at hr
    have hrow := h.row hr
    refine ⟨h.back.trans h'.back, ?_, ?_, ?_⟩
    · rw [h'.fits, hrow, fits_append]
      exact ⟨fun hf => ⟨h.fits.1 hr, hf⟩, fun hf => hf.2⟩
    · intro ht
      rw [h'.row ht, hrow, written_append]
    · intro ht
      rw [h'.events ht, h.events hr, grouping_append, List.reverse_append, List.append_assoc]

lemma set_held {row : Row α} {slot : ℕ} {v : BindingValue α} (h : row.value slot = v) :
    row.set slot v = row := by
  rw [Row.value, List.getD_eq_getElem?_getD] at h
  by_cases hlt : slot < row.length
  · rw [List.getElem?_eq_getElem hlt, Option.getD_some] at h
    rw [← h, List.set_getElem_self]
  · exact List.set_eq_of_length_le (not_lt.1 hlt)

/-! ## One element for each variable -/

section Agreement

variable {a : PathAutomaton} {width slot : ℕ} {selector : Bool} {base : Row α}
  {l m : List (Binding × Element)} {x : Binding × Element}

lemma value_set {row : Row α} {s : ℕ} {v : BindingValue α} (h : s < row.length) :
    Row.value (row.set s v) slot = if s = slot then v else row.value slot := by
  rw [Row.value, Row.value, List.getD_eq_getElem?_getD, List.getD_eq_getElem?_getD,
    List.getElem?_set]
  by_cases heq : s = slot
  · subst heq
    simp [h]
  · simp [heq]

/-- What a slot holds after writes: what one of them wrote, or what it held. -/
lemma value_written (slot : ℕ) (h : ∀ x ∈ l, x.1.slot < base.length) :
    (∃ x ∈ l, x.1.slot = slot ∧ (written base l).value slot = .element x.2)
      ∨ (∀ x ∈ l, x.1.slot ≠ slot) ∧ (written base l).value slot = base.value slot := by
  induction l generalizing base with
  | nil => exact Or.inr ⟨by simp, rfl⟩
  | cons x l ih =>
      have hx := h x List.mem_cons_self
      have hl : ∀ y ∈ l, y.1.slot < (base.set x.1.slot (.element x.2)).length := by
        intro y hy
        rw [List.length_set]
        exact h y (List.mem_cons_of_mem x hy)
      have hw : written base (x :: l) = written (base.set x.1.slot (.element x.2)) l := rfl
      rw [hw]
      rcases ih hl with ⟨y, hy, hslot, hval⟩ | ⟨hnone, hval⟩
      · exact Or.inl ⟨y, List.mem_cons_of_mem x hy, hslot, hval⟩
      · rw [value_set hx] at hval
        split_ifs at hval with heq
        · exact Or.inl ⟨x, List.mem_cons_self, heq, hval⟩
        · exact Or.inr ⟨List.forall_mem_cons.2 ⟨heq, hnone⟩, hval⟩

/-- The bindings of a pattern with the elements they take: within the row, and in the slots of one
kind. -/
structure Kept (base : Row α) (l : List (Binding × Element)) : Prop where
  slots : ∀ x ∈ l, x.1.slot < base.length
  kinds : ∀ x ∈ l, ∀ y ∈ l, x.1.slot = y.1.slot → x.1.group = y.1.group

lemma agree_concat (hk : Kept base (l ++ [x])) :
    Agree base (l ++ [x]) ↔ Agree base l ∧ Fits (written base l) [x] := by
  have hslots : ∀ y ∈ l, y.1.slot < base.length := fun y hy => hk.slots y (by simp [hy])
  have hkind : ∀ y ∈ l, y.1.slot = x.1.slot → y.1.group = x.1.group := fun y hy =>
    hk.kinds y (by simp [hy]) x (by simp)
  constructor
  · intro h
    refine ⟨h.of_prefix (List.prefix_append _ _), ?_, trivial⟩
    intro hg
    obtain ⟨hbase, hsame⟩ := h x (by simp) hg
    rcases value_written x.1.slot hslots with ⟨y, hy, hslot, hval⟩ | ⟨-, hval⟩
    · right
      rw [hval, hsame y (by simp [hy]) (by rw [hkind y hy hslot, hg]) hslot]
    · rwa [hval]
  · rintro ⟨h, hfit, -⟩ y hy hg
    rw [List.mem_append, List.mem_singleton] at hy
    -- what the row held in the slot of `x`, and what was bound there before
    have hx : x.1.group = false →
        (base.value x.1.slot = .null ∨ base.value x.1.slot = .element x.2)
          ∧ ∀ z ∈ l, z.1.group = false → z.1.slot = x.1.slot → z.2 = x.2 := by
      intro hgx
      rcases value_written x.1.slot hslots with ⟨y, hy, hslot, hval⟩ | ⟨hnone, hval⟩
      · have hgy : y.1.group = false := by rw [hkind y hy hslot, hgx]
        obtain ⟨hbase, hsame⟩ := h y hy hgy
        have heq : y.2 = x.2 := by
          rcases hfit hgx with hnull | hel
          · rw [hval] at hnull
            cases hnull
          · rw [hval] at hel
            exact BindingValue.element.inj hel
        refine ⟨?_, fun z hz hgz hslotz => ?_⟩
        · rwa [hslot, heq] at hbase
        · rw [hsame z hz hgz (hslotz.trans hslot.symm), heq]
      · exact ⟨hval ▸ hfit hgx, fun z hz _ hslotz => absurd hslotz (hnone z hz)⟩
    rcases hy with hy | rfl
    · refine ⟨(h y hy hg).1, fun z hz hgz hslotz => ?_⟩
      rw [List.mem_append, List.mem_singleton] at hz
      rcases hz with hz | rfl
      · exact (h y hy hg).2 z hz hgz hslotz
      · exact ((hx hgz).2 y hy hg hslotz.symm).symm
    · refine ⟨(hx hg).1, fun z hz hgz hslotz => ?_⟩
      rw [List.mem_append, List.mem_singleton] at hz
      rcases hz with hz | rfl
      · exact (hx hg).2 z hz hgz hslotz
      · rfl

/-- **Elements agree as a whole when each fits into the row the others were written in.** -/
lemma agree_append (hk : Kept base (l ++ m)) :
    Agree base (l ++ m) ↔ Agree base l ∧ Fits (written base l) m := by
  induction m generalizing l with
  | nil => simp [Fits]
  | cons x m ih =>
      have heq : l ++ x :: m = l ++ [x] ++ m := by simp
      have hk' : Kept base (l ++ [x]) := by
        refine ⟨fun y hy => hk.slots y ?_, fun y hy z hz => hk.kinds y ?_ z ?_⟩
        · rw [heq]
          exact List.mem_append_left _ hy
        · rw [heq]
          exact List.mem_append_left _ hy
        · rw [heq]
          exact List.mem_append_left _ hz
      rw [heq] at hk ⊢
      rw [ih hk, agree_concat hk', written_append, and_assoc]
      simp only [Fits, and_true]
      rfl

lemma mem_bindings_of_node {b : Binding} {q : ℕ} (h : a.nodeBinding q = some b) : b ∈ a.bindings := by
  rw [PathAutomaton.bindings, List.mem_append, List.mem_filterMap]
  refine Or.inl ⟨q, ?_, h⟩
  rw [List.mem_range]
  by_contra hlt
  rw [PathAutomaton.nodeBinding, PathAutomaton.state, List.getD_eq_getElem?_getD,
    List.getElem?_eq_none (not_lt.1 hlt)] at h
  simp at h

lemma mem_bindings_of_via {b : Binding} {q : ℕ} (h : a.viaBinding q = some b) : b ∈ a.bindings := by
  rw [PathAutomaton.bindings, List.mem_append, List.mem_filterMap, List.mem_filterMap]
  rw [PathAutomaton.viaBinding, PathAutomaton.edgeStep] at h
  cases hlink : a.link q with
  | same => simp [hlink] at h
  | edge step =>
      refine Or.inr ⟨q, ?_, by simpa [hlink] using h⟩
      rw [List.mem_range]
      by_contra hlt
      rw [PathAutomaton.link, List.getD_eq_getElem?_getD,
        List.getElem?_eq_none (not_lt.1 hlt)] at hlink
      cases hlink

lemma mem_bindings_of_bound {v : Visit} (h : x ∈ a.bound v) : x.1 ∈ a.bindings := by
  rw [PathAutomaton.bound, List.mem_append] at h
  rcases h with h | h
  · cases hc : v.crossed with
    | none => simp [hc] at h
    | some c =>
        simp only [hc, List.mem_map, Option.mem_toList] at h
        obtain ⟨b, hb, rfl⟩ := h
        exact mem_bindings_of_via hb
  · simp only [List.mem_map, Option.mem_toList] at h
    obtain ⟨b, hb, rfl⟩ := h
    exact mem_bindings_of_node hb

lemma kept_bound (hs : a.Sound width selector) (hlen : base.length = width) (visits : List Visit) :
    Kept base (visits.flatMap a.bound) := by
  have hmem : ∀ x ∈ visits.flatMap a.bound, x.1 ∈ a.bindings := by
    intro x hx
    obtain ⟨v, -, hv⟩ := List.mem_flatMap.1 hx
    exact mem_bindings_of_bound hv
  have hgroup : ∀ b ∈ a.bindings, b.group = true → b.slot ∈ a.grouped := by
    intro b hb hg
    exact List.mem_map.2 ⟨b, List.mem_filter.2 ⟨hb, hg⟩, rfl⟩
  have hsingle : ∀ b ∈ a.bindings, b.group = false → b.slot ∈ a.singles := by
    intro b hb hg
    exact List.mem_map.2 ⟨b, List.mem_filter.2 ⟨hb, by simpa using hg⟩, rfl⟩
  refine ⟨fun x hx => hlen ▸ hs.slots x.1 (hmem x hx), fun x hx y hy heq => ?_⟩
  cases hgx : x.1.group <;> cases hgy : y.1.group
  · rfl
  · exact absurd (hsingle _ (hmem x hx) hgx) (heq ▸ hs.disjoint _ (hgroup _ (hmem y hy) hgy))
  · exact absurd (hsingle _ (hmem y hy) hgy) (heq ▸ hs.disjoint _ (hgroup _ (hmem x hx) hgx))
  · rfl

end Agreement

variable [DecidableEq α]

lemma bind_binds (x : Scratch α) (b : Binding) (e : Element) : Binds x [(b, e)] (bind x b e) := by
  have hback : Extends x ⟨x.row.set b.slot (.element e), (b.slot, x.row.value b.slot) :: x.undo,
      x.events⟩ :=
    ⟨⟨[(b.slot, x.row.value b.slot)], rfl, Row.set_value _ _ _⟩, List.suffix_refl _⟩
  rw [bind]
  by_cases hg : b.group = true
  · rw [if_pos hg]
    refine ⟨⟨hback.undo, List.suffix_cons _ _⟩, by simp [Fits, hg], fun _ => rfl, fun _ => ?_⟩
    simp [grouping, hg]
  · rw [if_neg hg]
    rw [Bool.not_eq_true] at hg
    by_cases hnull : x.row.value b.slot = .null
    · rw [if_neg (by simpa using hnull)]
      exact ⟨hback, by simp [Fits, hnull], fun _ => rfl, fun _ => by simp [grouping, hg]⟩
    · rw [if_pos hnull]
      refine ⟨Extends.refl x, by simp [Fits, hg, hnull], fun h => ?_, fun _ => by simp [grouping, hg]⟩
      exact (set_held (of_decide_eq_true h)).symm

lemma bindAt_binds (x : Scratch α) (e : Element) (b : Option Binding) :
    Binds x (b.toList.map fun b => (b, e)) (bindAt x e b) := by
  cases b with
  | none => exact Binds.nil x
  | some b => exact bind_binds x b e

/-! ## Arriving -/

variable {a : PathAutomaton} {holds : ℕ → Row α → Bool}

/-- What binding a visit comes to. -/
def bindVisit (a : PathAutomaton) (x : Scratch α) (v : Visit) : Bool × Scratch α :=
  let r := match v.crossed with
    | none => (true, x)
    | some (l, e) => bindAt x (.edge e) (a.viaBinding l)
  if r.1 = false then (false, r.2) else bindAt r.2 (.node v.node) (a.nodeBinding v.q)

lemma bindVisit_binds (a : PathAutomaton) (x : Scratch α) (v : Visit) :
    Binds x (a.bound v) (bindVisit a x v) := by
  rw [PathAutomaton.bound, bindVisit]
  cases v.crossed with
  | none => exact (Binds.nil x).append (bindAt_binds _ _ _)
  | some c => exact (bindAt_binds _ _ _).append (bindAt_binds _ _ _)

lemma admitted_eq (a : PathAutomaton) (holds : ℕ → Row α → Bool) (x : Scratch α) (v : Visit) :
    admitted a holds x v.q v.node v.crossed
      = if a.labelsAdmit v.q v.node = false then (false, x)
        else if (bindVisit a x v).1 = false then (false, (bindVisit a x v).2)
        else ((a.predicates v.q v.crossed).all fun p => holds p (bindVisit a x v).2.row,
          (bindVisit a x v).2) := by
  unfold admitted bindVisit
  by_cases hlabels : a.labelsAdmit v.q v.node = false
  · rw [if_pos hlabels, if_pos hlabels]
  · rw [if_neg hlabels, if_neg hlabels]
    cases v.crossed with
    | none => rfl
    | some c =>
        by_cases hok : (bindAt x (.edge c.2) (a.viaBinding c.1)).1 = false
        · simp [hok]
        · simp [hok]

/-- **An arrival is taken back, whether it was admitted or not.** -/
lemma restore_admitted (a : PathAutomaton) (holds : ℕ → Row α → Bool) (x : Scratch α) (v : Visit) :
    Extends x (admitted a holds x v.q v.node v.crossed).2 := by
  rw [admitted_eq]
  split_ifs
  · exact Extends.refl x
  · exact (bindVisit_binds a x v).back
  · exact (bindVisit_binds a x v).back

/-- What admits an arrival, and what it leaves. -/
lemma admitted_binds (a : PathAutomaton) (holds : ℕ → Row α → Bool) (x : Scratch α) (v : Visit) :
    ((admitted a holds x v.q v.node v.crossed).1 = true ↔ a.labelsAdmit v.q v.node = true
        ∧ Fits x.row (a.bound v)
        ∧ ∀ p ∈ a.predicates v.q v.crossed, holds p (written x.row (a.bound v)) = true)
      ∧ ((admitted a holds x v.q v.node v.crossed).1 = true →
        (admitted a holds x v.q v.node v.crossed).2.row = written x.row (a.bound v)
        ∧ (admitted a holds x v.q v.node v.crossed).2.events
          = (grouping (a.bound v)).reverse ++ x.events) := by
  have h := bindVisit_binds a x v
  rw [admitted_eq]
  by_cases hlabels : a.labelsAdmit v.q v.node = false
  · simp [hlabels]
  · rw [if_neg hlabels]
    rw [Bool.not_eq_false] at hlabels
    by_cases hok : (bindVisit a x v).1 = false
    · rw [if_pos hok]
      have hnot : ¬ Fits x.row (a.bound v) := fun hf => by simp [h.fits.2 hf] at hok
      simp [hnot]
    · rw [if_neg hok]
      rw [Bool.not_eq_false] at hok
      refine ⟨?_, fun _ => ⟨h.row hok, h.events hok⟩⟩
      rw [List.all_eq_true, h.row hok]
      exact ⟨fun hall => ⟨hlabels, h.fits.1 hok, hall⟩, fun hall => hall.2.2⟩

/-- **An arrival over a row with the visits so far written in.** -/
theorem admitted_iff {width : ℕ} {selector : Bool} {base : Row α} {before : List Visit}
    (holds : ℕ → Row α → Bool) (v : Visit) (hs : a.Sound width selector) (hlen : base.length = width)
    (hrow : x.row = a.seen base before) (hagree : Agree base (before.flatMap a.bound)) :
    ((admitted a holds x v.q v.node v.crossed).1 = true ↔ a.labelsAdmit v.q v.node = true
        ∧ Agree base ((before ++ [v]).flatMap a.bound)
        ∧ ∀ p ∈ a.predicates v.q v.crossed, holds p (a.seen base (before ++ [v])) = true)
      ∧ ((admitted a holds x v.q v.node v.crossed).1 = true →
        (admitted a holds x v.q v.node v.crossed).2.row = a.seen base (before ++ [v])
        ∧ (admitted a holds x v.q v.node v.crossed).2.events
          = (grouping (a.bound v)).reverse ++ x.events) := by
  have hwrite : written x.row (a.bound v) = a.seen base (before ++ [v]) := by
    rw [hrow, PathAutomaton.seen, PathAutomaton.seen, ← written_append]
    simp
  have hfits : Fits x.row (a.bound v) ↔ Agree base ((before ++ [v]).flatMap a.bound) := by
    have hkept := kept_bound hs hlen (before ++ [v])
    rw [List.flatMap_append, List.flatMap_singleton] at hkept ⊢
    rw [agree_append hkept, hrow]
    exact ⟨fun h => ⟨hagree, h⟩, fun h => h.2⟩
  have h := admitted_binds a holds x v
  rwa [hwrite, hfits] at h

end Engine.Gql
