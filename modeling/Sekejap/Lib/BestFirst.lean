import Mathlib.Data.List.Perm.Basic
import Mathlib.Data.Prod.Lex
import Mathlib.Logic.Hydra
import Mathlib.Tactic.Abel

/-!
# Best-first searches

A space has steps that cost nothing and steps that cost something.  A best-first search keeps what it has
found, each with what has become of it: it waits, or was replaced by something of its kind at less cost;
it was settled, its steps that cost nothing found, when it cost least of all that waited; it was walked
from, its other steps found too.  Of two states of one kind the second has the futures of the first.

Between two turns the search owes nothing.  While it goes through the steps of a state it owes those that
are left: `Inv` says what it keeps, owing some.

* **`settle`**, **`walk`**, **`keep`**, **`replace`**, **`drop`** — the turns and what they do to one step
  keep this so.
* **`covers`** — what can be reached at less cost than anything left to do is covered by something settled
  at no more cost; when nothing is left, so is all that can be reached.
* **`wellFounded_tree`**, **`wellFounded_kinds`** — the turns come to an end: of a search that keeps every
  step, where no branch is infinite, and of one that settles no kind twice, where there are finitely many.
-/

namespace BestFirst

/-- A space to search: where it starts, its steps, and when two states are of a kind. -/
structure Space (C P : Type*) where
  roots : List C
  /-- the steps that cost nothing -/
  near : C → List C
  /-- the steps that cost something -/
  far : C → List C
  cost : C → P
  /-- the second has the futures of the first -/
  same : C → C → Prop

/-- What has become of something found. -/
inductive Status where
  | waiting
  | replaced
  | settled
  | walked
  deriving DecidableEq, Repr

section

variable {C P : Type*} [LinearOrder P] (S : Space C P)

/-- What can be reached. -/
inductive Space.Reach : C → Prop
  | root {c : C} : c ∈ S.roots → Space.Reach c
  | near {c d : C} : Space.Reach c → d ∈ S.near c → Space.Reach d
  | far {c d : C} : Space.Reach c → d ∈ S.far c → Space.Reach d

/-- What a space has to be. -/
structure Space.Lawful : Prop where
  near_cost : ∀ {c d}, d ∈ S.near c → S.cost d = S.cost c
  far_cost : ∀ {c d}, d ∈ S.far c → S.cost c < S.cost d
  refl : ∀ {c}, S.Reach c → S.same c c
  trans : ∀ {c d e}, S.same c d → S.same d e → S.same c e
  near_same : ∀ {c d}, S.Reach c → S.Reach d → S.same c d → ∀ d' ∈ S.near d, ∃ c' ∈ S.near c, S.same c' d'
  far_same : ∀ {c d}, S.Reach c → S.Reach d → S.same c d → S.cost c ≤ S.cost d →
    ∀ d' ∈ S.far d, ∃ c' ∈ S.far c, S.same c' d' ∧ S.cost c' ≤ S.cost d'

/-- What a search has found, by its places. -/
abbrev Found (C : Type*) := List (C × Status)

/-- Something of the kind of a state is kept, at no more cost. -/
def Space.Covers (st : Found C) (d : C) : Prop :=
  ∃ c s, (c, s) ∈ st ∧ s ≠ .replaced ∧ S.same c d ∧ S.cost c ≤ S.cost d

/-- Something of the kind of a state has been settled, at no more cost. -/
def Space.Settled (st : Found C) (d : C) : Prop :=
  ∃ c s, (c, s) ∈ st ∧ (s = .settled ∨ s = .walked) ∧ S.same c d ∧ S.cost c ≤ S.cost d

/-- **What a best-first search keeps** at a cost, owing some steps. -/
structure Inv (st : Found C) (level : P) (owed : List C) : Prop where
  reach : ∀ c s, (c, s) ∈ st → S.Reach c
  owing : ∀ d ∈ owed, S.Reach d ∧ level ≤ S.cost d
  roots : ∀ r ∈ S.roots, S.Covers st r ∨ r ∈ owed
  waiting : ∀ c, (c, .waiting) ∈ st → level ≤ S.cost c
  settled : ∀ c, (c, .settled) ∈ st → S.cost c = level
  walked : ∀ c, (c, .walked) ∈ st → S.cost c ≤ level
  nears : ∀ c s, (c, s) ∈ st → s = .settled ∨ s = .walked → ∀ d ∈ S.near c, S.Covers st d ∨ d ∈ owed
  fars : ∀ c, (c, .walked) ∈ st → ∀ d ∈ S.far c, S.Covers st d ∨ d ∈ owed

variable {S} {st st' : Found C} {c d : C} {s : Status} {level : P} {owed : List C} {i : ℕ}

/-! ## What is kept stays covered -/

/-- All that is kept is covered later on. -/
def Space.Onward (S : Space C P) (st st' : Found C) : Prop :=
  ∀ c s, (c, s) ∈ st → s ≠ .replaced → S.Covers st' c

lemma Space.Covers.onward (hS : S.Lawful) (h : S.Onward st st') (hd : S.Covers st d) :
    S.Covers st' d := by
  obtain ⟨c, s, hmem, hs, hsame, hle⟩ := hd
  obtain ⟨e, s', hmem', hs', hsame', hle'⟩ := h c s hmem hs
  exact ⟨e, s', hmem', hs', hS.trans hsame' hsame, hle'.trans hle⟩

lemma covers_of_mem (hS : S.Lawful) (hreach : S.Reach c) (hmem : (c, s) ∈ st) (hs : s ≠ .replaced) :
    S.Covers st c :=
  ⟨c, s, hmem, hs, hS.refl hreach, le_rfl⟩

lemma mem_set_cases {x y : C × Status} (h : x ∈ st.set i y) : x = y ∨ x ∈ st := by
  rcases List.mem_or_eq_of_mem_set h with h | h
  · exact Or.inr h
  · exact Or.inl h

lemma mem_set_self {y : C × Status} {x : C × Status} (hi : st[i]? = some x) : y ∈ st.set i y := by
  have hlt := (List.getElem?_eq_some_iff.1 hi).1
  exact List.mem_iff_getElem?.2 ⟨i, by simp [hlt]⟩

lemma mem_set_of_ne {x y z : C × Status} (hi : st[i]? = some x) (hz : z ∈ st) (hne : z ≠ x) :
    z ∈ st.set i y := by
  obtain ⟨j, hj⟩ := List.mem_iff_getElem?.1 hz
  have hij : i ≠ j := by
    rintro rfl
    exact hne (Option.some.inj (hj.symm.trans hi))
  exact List.mem_iff_getElem?.2 ⟨j, by rw [List.getElem?_set_ne hij, hj]⟩

/-- What becomes of a state does not uncover anything, unless it is replaced. -/
lemma onward_set (hS : S.Lawful) (hreach : ∀ c s, (c, s) ∈ st → S.Reach c) {s' : Status}
    (hi : st[i]? = some (c, s)) (hs' : s' ≠ .replaced) : S.Onward st (st.set i (c, s')) := by
  intro e t he ht
  by_cases heq : (e, t) = (c, s)
  · obtain ⟨rfl, rfl⟩ := Prod.mk.inj heq
    exact covers_of_mem hS (hreach _ _ he) (mem_set_self hi) hs'
  · exact covers_of_mem hS (hreach _ _ he) (mem_set_of_ne hi he heq) ht

/-! ## The turns -/

/-- A search goes on to a cost that is no more than that of anything left to do. -/
lemma Inv.raise {level' : P} (h : Inv S st level []) (hlevel : level ≤ level')
    (hwaiting : ∀ d, (d, .waiting) ∈ st → level' ≤ S.cost d)
    (hsettled : ∀ d, (d, .settled) ∈ st → level' ≤ S.cost d) : Inv S st level' [] :=
  ⟨h.reach, by simp, h.roots, hwaiting,
    fun d hd => le_antisymm ((h.settled d hd).trans_le hlevel) (hsettled d hd),
    fun d hd => (h.walked d hd).trans hlevel, h.nears, h.fars⟩

/-- **Settling.**  What costs least of all that waits or is to be walked from. -/
theorem Inv.settle (hS : S.Lawful) (h : Inv S st level []) (hi : st[i]? = some (c, .waiting))
    (hwaiting : ∀ d, (d, .waiting) ∈ st → S.cost c ≤ S.cost d)
    (hsettled : ∀ d, (d, .settled) ∈ st → S.cost c ≤ S.cost d) :
    Inv S (st.set i (c, .settled)) (S.cost c) (S.near c) := by
  have hmem := List.mem_of_getElem? hi
  have hreach := h.reach _ _ hmem
  have hlevel := h.waiting c hmem
  have hon : S.Onward st (st.set i (c, .settled)) := onward_set hS h.reach hi (by decide)
  have hcovers : ∀ d, S.Covers st d ∨ d ∈ ([] : List C) →
      S.Covers (st.set i (c, .settled)) d ∨ d ∈ S.near c := by
    rintro d (hd | hd)
    · exact Or.inl (hd.onward hS hon)
    · cases hd
  refine ⟨?_, ?_, fun r hr => hcovers r (h.roots r hr), ?_, ?_, ?_, ?_, ?_⟩
  · intro e s he
    rcases mem_set_cases he with heq | he
    · rw [(Prod.mk.inj heq).1]
      exact hreach
    · exact h.reach e s he
  · intro d hd
    exact ⟨.near hreach hd, (hS.near_cost hd).ge⟩
  · intro d hd
    rcases mem_set_cases hd with heq | hd
    · exact absurd (Prod.mk.inj heq).2 (by decide)
    · exact hwaiting d hd
  · intro d hd
    rcases mem_set_cases hd with heq | hd
    · rw [(Prod.mk.inj heq).1]
    · exact le_antisymm ((h.settled d hd).trans_le hlevel) (hsettled d hd)
  · intro d hd
    rcases mem_set_cases hd with heq | hd
    · exact absurd (Prod.mk.inj heq).2 (by decide)
    · exact (h.walked d hd).trans hlevel
  · intro e s he hs d hd
    rcases mem_set_cases he with heq | he
    · rw [(Prod.mk.inj heq).1] at hd
      exact Or.inr hd
    · exact hcovers d (h.nears e s he hs d hd)
  · intro e he d hd
    rcases mem_set_cases he with heq | he
    · exact absurd (Prod.mk.inj heq).2 (by decide)
    · exact hcovers d (h.fars e he d hd)

/-- **Walking** from something settled. -/
theorem Inv.walk (hS : S.Lawful) (h : Inv S st level []) (hi : st[i]? = some (c, .settled)) :
    Inv S (st.set i (c, .walked)) level (S.far c) := by
  have hmem := List.mem_of_getElem? hi
  have hreach := h.reach _ _ hmem
  have hon : S.Onward st (st.set i (c, .walked)) := onward_set hS h.reach hi (by decide)
  have hcovers : ∀ d, S.Covers st d ∨ d ∈ ([] : List C) →
      S.Covers (st.set i (c, .walked)) d ∨ d ∈ S.far c := by
    rintro d (hd | hd)
    · exact Or.inl (hd.onward hS hon)
    · cases hd
  refine ⟨?_, ?_, fun r hr => hcovers r (h.roots r hr), ?_, ?_, ?_, ?_, ?_⟩
  · intro e s he
    rcases mem_set_cases he with heq | he
    · rw [(Prod.mk.inj heq).1]
      exact hreach
    · exact h.reach e s he
  · intro d hd
    exact ⟨.far hreach hd, (h.settled c hmem) ▸ (hS.far_cost hd).le⟩
  · intro d hd
    rcases mem_set_cases hd with heq | hd
    · exact absurd (Prod.mk.inj heq).2 (by decide)
    · exact h.waiting d hd
  · intro d hd
    rcases mem_set_cases hd with heq | hd
    · exact absurd (Prod.mk.inj heq).2 (by decide)
    · exact h.settled d hd
  · intro d hd
    rcases mem_set_cases hd with heq | hd
    · rw [(Prod.mk.inj heq).1]
      exact (h.settled c hmem).le
    · exact h.walked d hd
  · intro e s he hs d hd
    rcases mem_set_cases he with heq | he
    · rw [(Prod.mk.inj heq).1] at hd
      exact hcovers d (h.nears c _ hmem (Or.inl rfl) d hd)
    · exact hcovers d (h.nears e s he hs d hd)
  · intro e he d hd
    rcases mem_set_cases he with heq | he
    · rw [(Prod.mk.inj heq).1] at hd
      exact Or.inr hd
    · exact hcovers d (h.fars e he d hd)

/-! ## What is done with a step -/

/-- A step that is owed is paid when it is covered. -/
lemma Inv.pay (hS : S.Lawful) (h : Inv S st level (d :: owed)) (hon : S.Onward st st')
    (hd : S.Covers st' d) (hreach : ∀ c s, (c, s) ∈ st' → S.Reach c)
    (hwaiting : ∀ c, (c, .waiting) ∈ st' → level ≤ S.cost c)
    (hold : ∀ c s, (c, s) ∈ st' → s = .settled ∨ s = .walked → (c, s) ∈ st) :
    Inv S st' level owed := by
  have hcovers : ∀ e, S.Covers st e ∨ e ∈ d :: owed → S.Covers st' e ∨ e ∈ owed := by
    rintro e (he | he)
    · exact Or.inl (he.onward hS hon)
    · rcases List.mem_cons.1 he with rfl | he
      · exact Or.inl hd
      · exact Or.inr he
  refine ⟨hreach, fun e he => h.owing e (List.mem_cons_of_mem d he),
    fun r hr => hcovers r (h.roots r hr), hwaiting,
    fun c hc => h.settled c (hold c _ hc (Or.inl rfl)), fun c hc => h.walked c (hold c _ hc (Or.inr rfl)),
    fun c s hc hs e he => hcovers e (h.nears c s (hold c s hc hs) hs e he),
    fun c hc e he => hcovers e (h.fars c (hold c _ hc (Or.inr rfl)) e he)⟩

/-- **Kept**: it waits. -/
theorem Inv.keep (hS : S.Lawful) (h : Inv S st level (d :: owed)) :
    Inv S (st ++ [(d, .waiting)]) level owed := by
  obtain ⟨hd, hle⟩ := h.owing d List.mem_cons_self
  refine h.pay hS ?_ ?_ ?_ ?_ ?_
  · intro c s hc hs
    exact covers_of_mem hS (h.reach c s hc) (List.mem_append_left _ hc) hs
  · exact covers_of_mem hS hd (List.mem_append_right _ (List.mem_singleton.2 rfl)) (by decide)
  · intro c s hc
    rcases List.mem_append.1 hc with hc | hc
    · exact h.reach c s hc
    · obtain ⟨rfl, -⟩ := Prod.mk.inj (List.mem_singleton.1 hc)
      exact hd
  · intro c hc
    rcases List.mem_append.1 hc with hc | hc
    · exact h.waiting c hc
    · obtain ⟨rfl, -⟩ := Prod.mk.inj (List.mem_singleton.1 hc)
      exact hle
  · intro c s hc hs
    rcases List.mem_append.1 hc with hc | hc
    · exact hc
    · obtain ⟨-, rfl⟩ := Prod.mk.inj (List.mem_singleton.1 hc)
      rcases hs with hs | hs <;> cases hs

/-- **Dropped**: something of its kind is kept at no more cost. -/
theorem Inv.drop (hS : S.Lawful) (h : Inv S st level (d :: owed)) (hd : S.Covers st d) :
    Inv S st level owed :=
  h.pay hS (fun c s hc hs => covers_of_mem hS (h.reach c s hc) hc hs) hd h.reach h.waiting
    fun _ _ hc _ => hc

/-- **In the place of another**: it replaces something of its kind that waits at no less cost. -/
theorem Inv.replace (hS : S.Lawful) (h : Inv S st level (d :: owed)) (hi : st[i]? = some (c, .waiting))
    (hsame : S.same d c) (hle : S.cost d ≤ S.cost c) :
    Inv S (st.set i (c, .replaced) ++ [(d, .waiting)]) level owed := by
  obtain ⟨hd, hlevel⟩ := h.owing d List.mem_cons_self
  have hlast : (d, Status.waiting) ∈ st.set i (c, .replaced) ++ [(d, .waiting)] :=
    List.mem_append_right _ (List.mem_singleton.2 rfl)
  refine h.pay hS ?_ (covers_of_mem hS hd hlast (by decide)) ?_ ?_ ?_
  · intro e s he hs
    by_cases heq : (e, s) = (c, .waiting)
    · obtain ⟨rfl, rfl⟩ := Prod.mk.inj heq
      exact ⟨d, .waiting, hlast, by decide, hsame, hle⟩
    · exact covers_of_mem hS (h.reach e s he) (List.mem_append_left _ (mem_set_of_ne hi he heq)) hs
  · intro e s he
    rcases List.mem_append.1 he with he | he
    · rcases mem_set_cases he with heq | he
      · rw [(Prod.mk.inj heq).1]
        exact h.reach _ _ (List.mem_of_getElem? hi)
      · exact h.reach e s he
    · obtain ⟨rfl, -⟩ := Prod.mk.inj (List.mem_singleton.1 he)
      exact hd
  · intro e he
    rcases List.mem_append.1 he with he | he
    · rcases mem_set_cases he with heq | he
      · exact absurd (Prod.mk.inj heq).2 (by decide)
      · exact h.waiting e he
    · obtain ⟨rfl, -⟩ := Prod.mk.inj (List.mem_singleton.1 he)
      exact hlevel
  · intro e s he hs
    rcases List.mem_append.1 he with he | he
    · rcases mem_set_cases he with heq | he
      · obtain ⟨-, rfl⟩ := Prod.mk.inj heq
        rcases hs with hs | hs <;> cases hs
      · exact he
    · obtain ⟨-, rfl⟩ := Prod.mk.inj (List.mem_singleton.1 he)
      rcases hs with hs | hs <;> cases hs

/-! ## What is covered -/

/-- **What costs less than all that is left to do is settled.**  The costs `Q` are those below some point;
nothing waits at one, and nothing is still to be walked from below one. -/
theorem covers (hS : S.Lawful) (h : Inv S st level []) {Q : P → Prop} (hQ : ∀ m n, m ≤ n → Q n → Q m)
    (hwaiting : ∀ c, (c, .waiting) ∈ st → ¬ Q (S.cost c))
    (hsettled : ∀ c, (c, .settled) ∈ st → ∀ n, Q n → n ≤ S.cost c) (hd : S.Reach d) (hcost : Q (S.cost d)) :
    S.Settled st d := by
  have hup : ∀ d, Q (S.cost d) → S.Covers st d ∨ d ∈ ([] : List C) → S.Settled st d := by
    rintro d hq (⟨c, s, hc, hs, hsame, hle⟩ | hmem)
    · refine ⟨c, s, hc, ?_, hsame, hle⟩
      cases s with
      | waiting => exact absurd (hQ _ _ hle hq) (hwaiting c hc)
      | replaced => exact absurd rfl hs
      | settled => exact Or.inl rfl
      | walked => exact Or.inr rfl
    · cases hmem
  induction hd with
  | root hr => exact hup _ hcost (h.roots _ hr)
  | @near c d hc hd ih =>
      have heq := hS.near_cost hd
      obtain ⟨c', s, hc', hs, hsame, hle⟩ := ih (heq ▸ hcost)
      obtain ⟨d', hd', hsame'⟩ := hS.near_same (h.reach c' s hc') hc hsame d hd
      have hle' : S.cost d' ≤ S.cost d := (hS.near_cost hd').trans_le (hle.trans heq.ge)
      obtain ⟨e, t, he, ht, hsame'', hle''⟩ := hup d' (hQ _ _ hle' hcost) (h.nears c' s hc' hs d' hd')
      exact ⟨e, t, he, ht, hS.trans hsame'' hsame', hle''.trans hle'⟩
  | @far c d hc hd ih =>
      have hlt := hS.far_cost hd
      obtain ⟨c', s, hc', hs, hsame, hle⟩ := ih (hQ _ _ hlt.le hcost)
      -- it has been walked from, for what is left to be walked from costs as much as `d`
      have hs' : s = .walked := by
        rcases hs with rfl | rfl
        · exact absurd (hsettled c' hc' _ hcost) (not_le.2 (hle.trans_lt hlt))
        · rfl
      subst hs'
      obtain ⟨d', hd', hsame', hle'⟩ := hS.far_same (h.reach c' _ hc') hc hsame hle d hd
      obtain ⟨e, t, he, ht, hsame'', hle''⟩ := hup d' (hQ _ _ hle' hcost) (h.fars c' hc' d' hd')
      exact ⟨e, t, he, ht, hS.trans hsame'' hsame', hle''.trans hle'⟩

/-! ## Turns to the end -/

/-- What is done with one step: a search that looks at kinds may drop it, or replace another by it. -/
inductive Offer (S : Space C P) (kinds : Prop) (st : Found C) (d : C) : Found C → Prop
  | keep : Offer S kinds st d (st ++ [(d, .waiting)])
  | replace {c : C} {i : ℕ} : kinds → st[i]? = some (c, .waiting) → S.same d c → S.cost d ≤ S.cost c →
      Offer S kinds st d (st.set i (c, .replaced) ++ [(d, .waiting)])
  | drop : kinds → S.Covers st d → Offer S kinds st d st

/-- What has been done with the steps that were owed, one after another. -/
inductive Offered (S : Space C P) (kinds : Prop) : Found C → List C → Found C → Prop
  | nil (st : Found C) : Offered S kinds st [] st
  | cons {st st' st'' : Found C} {d : C} {owed : List C} : Offer S kinds st d st' →
      Offered S kinds st' owed st'' → Offered S kinds st (d :: owed) st''

/-- One turn: something is settled, or walked from. -/
inductive Turn (S : Space C P) (kinds : Prop) : Found C → Found C → Prop
  | settle {st st' : Found C} {c : C} {i : ℕ} : st[i]? = some (c, .waiting) →
      Offered S kinds (st.set i (c, .settled)) (S.near c) st' → Turn S kinds st st'
  | walk {st st' : Found C} {c : C} {i : ℕ} : st[i]? = some (c, .settled) →
      Offered S kinds (st.set i (c, .walked)) (S.far c) st' → Turn S kinds st st'

variable {kinds : Prop}

lemma Inv.offer (hS : S.Lawful) (h : Inv S st level (d :: owed)) (ho : Offer S kinds st d st') :
    Inv S st' level owed := by
  cases ho with
  | keep => exact h.keep hS
  | replace _ hi hsame hle => exact h.replace hS hi hsame hle
  | drop _ hcovers => exact h.drop hS hcovers

/-- **What a search keeps it keeps when it has paid.** -/
theorem Inv.offered (hS : S.Lawful) (h : Inv S st level owed) (ho : Offered S kinds st owed st') :
    Inv S st' level [] := by
  induction ho with
  | nil st => exact h
  | cons ho _ ih => exact ih (h.offer hS ho)

/-- What does not wait stays as it is. -/
lemma Offer.stays (ho : Offer S kinds st d st') (hi : st[i]? = some (c, s)) (hs : s ≠ .waiting) :
    st'[i]? = some (c, s) := by
  have hlt := (List.getElem?_eq_some_iff.1 hi).1
  cases ho with
  | keep => rw [List.getElem?_append_left hlt, hi]
  | @replace e j _ hj =>
      have hij : j ≠ i := by
        rintro rfl
        rw [hi] at hj
        exact hs (Prod.mk.inj (Option.some.inj hj)).2
      rw [List.getElem?_append_left (by simpa using hlt), List.getElem?_set_ne hij, hi]
  | drop => exact hi

lemma Offered.stays (ho : Offered S kinds st owed st') (hi : st[i]? = some (c, s)) (hs : s ≠ .waiting) :
    st'[i]? = some (c, s) := by
  induction ho with
  | nil st => exact hi
  | cons ho _ ih => exact ih (ho.stays hi hs)

/-- Nothing is settled by the way. -/
lemma Offered.mem_of_done (ho : Offered S kinds st owed st') (hmem : (c, s) ∈ st')
    (hs : s = .settled ∨ s = .walked) : (c, s) ∈ st := by
  have hnew : ∀ d, (c, s) ≠ (d, .waiting) := by
    rintro d heq
    obtain ⟨-, rfl⟩ := Prod.mk.inj heq
    rcases hs with hs | hs <;> cases hs
  induction ho with
  | nil st => exact hmem
  | cons ho _ ih =>
      have hmem := ih hmem
      cases ho with
      | keep => exact (List.mem_append.1 hmem).resolve_right fun h => hnew _ (List.mem_singleton.1 h)
      | replace _ hi =>
          have hset := (List.mem_append.1 hmem).resolve_right fun h => hnew _ (List.mem_singleton.1 h)
          refine (mem_set_cases hset).resolve_left fun heq => ?_
          obtain ⟨-, rfl⟩ := Prod.mk.inj heq
          rcases hs with hs | hs <;> cases hs
      | drop => exact hmem

lemma Offered.tree (hkinds : ¬ kinds) (ho : Offered S kinds st owed st') :
    st' = st ++ owed.map fun d => (d, .waiting) := by
  induction ho with
  | nil st => simp
  | cons ho _ ih =>
      cases ho with
      | keep => rw [ih, List.map_cons, List.append_assoc, List.singleton_append]
      | replace h => exact absurd h hkinds
      | drop h => exact absurd h hkinds

/-- What is left to do. -/
def left (st : Found C) : Multiset (C × Status) :=
  ↑(st.filter fun x => x.2 = .waiting ∨ x.2 = .settled)

/-- One is left to do because of another. -/
inductive Below (S : Space C P) : C × Status → C × Status → Prop
  | settled {c : C} : Below S (c, .settled) (c, .waiting)
  | near {c d : C} : d ∈ S.near c → Below S (d, .waiting) (c, .waiting)
  | far {c d : C} : d ∈ S.far c → Below S (d, .waiting) (c, .settled)

/-- One generation down. -/
def Child (S : Space C P) (d c : C) : Prop := d ∈ S.near c ∨ d ∈ S.far c

omit [LinearOrder P] in
lemma acc_below (h : Acc (Child S) c) :
    Acc (Below S) (c, .settled) ∧ Acc (Below S) (c, .waiting) := by
  induction h with
  | intro c _ ih =>
      have hsettled : Acc (Below S) (c, .settled) := by
        refine Acc.intro _ fun y hy => ?_
        cases hy with
        | far hd => exact (ih _ (Or.inr hd)).2
      refine ⟨hsettled, Acc.intro _ fun y hy => ?_⟩
      cases hy with
      | settled => exact hsettled
      | near hd => exact (ih _ (Or.inl hd)).2

lemma left_set {x y : C × Status} (hi : st[i]? = some x) (news : List (C × Status)) :
    left (st.set i y ++ news) + left [x] = left st + (left [y] + left news) := by
  obtain ⟨hlt, rfl⟩ := List.getElem?_eq_some_iff.1 hi
  have h1 : left st = left [st[i]] + left (st.eraseIdx i) := by
    rw [left, left, left, Multiset.coe_add, ← List.filter_append, List.singleton_append]
    exact Multiset.coe_eq_coe.2 ((List.getElem_cons_eraseIdx_perm hlt).symm.filter _)
  have h2 : left (st.set i y) = left [y] + left (st.eraseIdx i) := by
    rw [left, left, left, Multiset.coe_add, ← List.filter_append, List.singleton_append]
    exact Multiset.coe_eq_coe.2 ((List.set_perm_cons_eraseIdx hlt y).filter _)
  have h3 : left (st.set i y ++ news) = left (st.set i y) + left news := by
    rw [left, left, left, Multiset.coe_add, List.filter_append]
  rw [h3, h2, h1]
  abel

lemma mem_left_waiting {l : List C} {x : C × Status}
    (h : x ∈ left (l.map fun d => (d, Status.waiting))) : ∃ d ∈ l, x = (d, .waiting) := by
  have hmem := List.mem_of_mem_filter (Multiset.mem_coe.1 h)
  obtain ⟨d, hd, rfl⟩ := List.mem_map.1 hmem
  exact ⟨d, hd, rfl⟩

/-- **A search that keeps every step comes to an end where no branch is infinite.** -/
theorem wellFounded_tree (hkinds : ¬ kinds) : WellFounded fun st' st : Found C =>
    Turn S kinds st st' ∧ ∀ c s, (c, s) ∈ st → Acc (Child S) c := by
  have hwf : WellFounded fun x y : C × Status => Below S x y ∧ Acc (Below S) y := by
    refine ⟨fun y => Acc.intro y fun x hx => ?_⟩
    have hacc := hx.2.inv hx.1
    clear hx
    induction hacc with
    | intro x hinv ih => exact Acc.intro x fun z hz => ih z hz.1
  refine Subrelation.wf ?_ (InvImage.wf left hwf.cutExpand)
  rintro st' st ⟨hturn, hacc⟩
  change Relation.CutExpand _ (left st') (left st)
  cases hturn with
  | @settle c i hi ho =>
      obtain ⟨hsettled, hwaiting⟩ := acc_below (hacc c _ (List.mem_of_getElem? hi))
      refine ⟨left [(c, .settled)] + left ((S.near c).map fun d => (d, .waiting)), (c, .waiting), ?_, ?_⟩
      · intro x hx
        rcases Multiset.mem_add.1 hx with hx | hx
        · obtain rfl := List.mem_singleton.1 (List.mem_of_mem_filter (Multiset.mem_coe.1 hx))
          exact ⟨.settled, hwaiting⟩
        · obtain ⟨d, hd, rfl⟩ := mem_left_waiting hx
          exact ⟨.near hd, hwaiting⟩
      · rw [ho.tree hkinds, ← left_set hi]
        rfl
  | @walk c i hi ho =>
      obtain ⟨hsettled, -⟩ := acc_below (hacc c _ (List.mem_of_getElem? hi))
      refine ⟨left ((S.far c).map fun d => (d, .waiting)), (c, .settled), ?_, ?_⟩
      · intro x hx
        obtain ⟨d, hd, rfl⟩ := mem_left_waiting hx
        exact ⟨.far hd, hsettled⟩
      · have := left_set (y := (c, .walked)) hi ((S.far c).map fun d => (d, .waiting))
        rw [show left [(c, Status.walked)] = 0 from rfl, zero_add] at this
        rw [ho.tree hkinds, ← this]
        rfl

/-- Settled, or walked from. -/
def isDone (x : C × Status) : Bool := decide (x.2 = .settled ∨ x.2 = .walked)

/-- Settled, to be walked from. -/
def isSettled (x : C × Status) : Bool := decide (x.2 = .settled)

lemma Offered.counts (ho : Offered S kinds st owed st') :
    st'.countP isDone = st.countP isDone ∧ st'.countP isSettled = st.countP isSettled := by
  induction ho with
  | nil st => exact ⟨rfl, rfl⟩
  | cons ho _ ih =>
      rw [ih.1, ih.2]
      cases ho with
      | keep => simp [isDone, isSettled]
      | replace _ hi =>
          obtain ⟨hlt, heq⟩ := List.getElem?_eq_some_iff.1 hi
          rw [List.countP_append, List.countP_append, List.countP_set hlt, List.countP_set hlt, heq]
          simp [isDone, isSettled]
      | drop => exact ⟨rfl, rfl⟩

/-- The kinds of what is done: some of a few, none twice. -/
structure Kinds {K : Type*} (kind : C → K) (all : Finset K) (st : Found C) : Prop where
  mem : ∀ x ∈ st, kind x.1 ∈ all
  nodup : ((st.filter isDone).map fun x => kind x.1).Nodup

lemma Kinds.count_le {K : Type*} {kind : C → K} {all : Finset K} (h : Kinds kind all st) :
    st.countP isDone ≤ all.card := by
  classical
  rw [List.countP_eq_length_filter, ← List.length_map (fun x : C × Status => kind x.1),
    ← List.toFinset_card_of_nodup h.nodup]
  refine Finset.card_le_card fun k hk => ?_
  rw [List.mem_toFinset, List.mem_map] at hk
  obtain ⟨x, hx, rfl⟩ := hk
  exact h.mem x (List.mem_of_mem_filter hx)

/-- **A search that settles no kind twice comes to an end where there are finitely many.** -/
theorem wellFounded_kinds {K : Type*} (kind : C → K) (all : Finset K) :
    WellFounded fun st' st : Found C => Turn S kinds st st' ∧ Kinds kind all st' := by
  refine Subrelation.wf ?_ (InvImage.wf (fun st : Found C =>
    toLex (all.card - st.countP isDone, st.countP isSettled)) wellFounded_lt)
  rintro st' st ⟨hturn, hkinds⟩
  have hle := hkinds.count_le
  change toLex _ < toLex _
  rw [Prod.Lex.toLex_lt_toLex]
  cases hturn with
  | @settle c i hi ho =>
      obtain ⟨hlt, heq⟩ := List.getElem?_eq_some_iff.1 hi
      left
      have hcount : st'.countP isDone = st.countP isDone + 1 := by
        rw [ho.counts.1, List.countP_set hlt, heq]
        simp [isDone]
      omega
  | @walk c i hi ho =>
      obtain ⟨hlt, heq⟩ := List.getElem?_eq_some_iff.1 hi
      right
      have hpos : 0 < st.countP isSettled ∧ 0 < st.countP isDone := by
        constructor
        · exact List.countP_pos_iff.2 ⟨_, List.mem_of_getElem? hi, rfl⟩
        · exact List.countP_pos_iff.2 ⟨_, List.mem_of_getElem? hi, rfl⟩
      have hdone : st'.countP isDone = st.countP isDone - 1 + 1 := by
        rw [ho.counts.1, List.countP_set hlt, heq]
        simp [isDone]
      have hsettled : st'.countP isSettled = st.countP isSettled - 1 := by
        rw [ho.counts.2, List.countP_set hlt, heq]
        simp [isSettled]
      omega

end

end BestFirst
