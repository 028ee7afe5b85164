import Sekejap.Gql.Arrive

/-!
# The words of a path pattern

A pattern says which sequences of positions a path may go through: the line of its positions, with the
body of every repeat written out some number of times between its bounds.  The search says it with
moves and one counter.  The two agree.

* **`accepts_iff`** — the moves from the first position spell the words of the pattern.
* **`word_unique`** — in a pattern that is not ambiguous, the number of edges of a path tells the word.
-/

namespace Engine.Gql

/-- The positions of one iteration. -/
def Repeat.body (r : Repeat) : List ℕ := List.range' r.first (r.last + 1 - r.first)

/-- A number of iterations within the bounds. -/
def Repeat.Admits (r : Repeat) (n : ℕ) : Prop := r.min ≤ n ∧ ∀ max ∈ r.max, n ≤ max

namespace PathAutomaton

variable (a : PathAutomaton)

/-- The words from position `p` on, with the repeats that lie ahead. -/
def Unrolled : ℕ → List Repeat → List ℕ → Prop
  | p, [], w => w = List.range' p (a.states.length - p)
  | p, r :: rest, w => ∃ n tail, r.Admits n ∧ Unrolled (r.last + 1) rest tail
      ∧ w = List.range' p (r.first - p) ++ ((List.replicate n r.body).flatten ++ tail)

/-- A word of the pattern. -/
def Word (w : List ℕ) : Prop := a.Unrolled 0 a.repeats w

/-- Where a move leads. -/
def target (k : ℕ) : Move → ℕ × ℕ
  | .same q k => (q, k)
  | .edge l => (l + 1, k)

/-- The positions and counters one move away. -/
def succs (q k : ℕ) : List (ℕ × ℕ) := (moves a q k).map (target k)

/-- The moves lead from a position over the positions of a list to the last one. -/
def Accepts : ℕ → ℕ → List ℕ → Prop
  | q, _, [] => q + 1 = a.states.length
  | q, k, p :: w => ∃ k', (p, k') ∈ a.succs q k ∧ Accepts p k' w

variable {a} {width : ℕ} {selector : Bool} {r : Repeat} {earlier rest : List Repeat} {q k p : ℕ}
  {w : List ℕ}

/-! ## Where a position lies -/

/-- A position outside the repeats, some of them behind it and the rest ahead. -/
structure Between (a : PathAutomaton) (earlier rest : List Repeat) (q : ℕ) : Prop where
  repeats : a.repeats = earlier ++ rest
  behind : ∀ r ∈ earlier, r.last < q
  ahead : ∀ r ∈ rest, q < r.first
  lt : q < a.states.length

/-- A position in the body of a repeat. -/
structure Within (a : PathAutomaton) (earlier : List Repeat) (r : Repeat) (rest : List Repeat)
    (q : ℕ) : Prop where
  repeats : a.repeats = earlier ++ r :: rest
  first_le : r.first ≤ q
  le_last : q ≤ r.last

section Places

variable (hs : a.Sound width selector)

include hs

lemma apart_behind (h : a.repeats = earlier ++ r :: rest) : ∀ s ∈ earlier, s.last + 2 ≤ r.first := by
  intro s hs'
  have := hs.apart
  rw [h, List.pairwise_append] at this
  exact this.2.2 s hs' r List.mem_cons_self

lemma apart_ahead (h : a.repeats = earlier ++ r :: rest) : ∀ s ∈ rest, r.last + 2 ≤ s.first := by
  intro s hs'
  have := hs.apart
  rw [h, List.pairwise_append, List.pairwise_cons] at this
  exact this.2.1.1 s hs'

lemma sound_repeat (h : a.repeats = earlier ++ r :: rest) : a.SoundRepeat selector r :=
  hs.repeats r (by rw [h]; simp)

lemma sound_earlier (h : a.repeats = earlier ++ rest) : ∀ s ∈ earlier, s.first < s.last :=
  fun s hs' => (hs.repeats s (by rw [h]; simp [hs'])).first_lt

lemma sound_rest (h : a.repeats = earlier ++ rest) : ∀ s ∈ rest, s.first < s.last :=
  fun s hs' => (hs.repeats s (by rw [h]; simp [hs'])).first_lt

lemma Between.repeatEnding (h : Between a earlier rest q) : a.repeatEnding q = none := by
  rw [PathAutomaton.repeatEnding, List.find?_eq_none, h.repeats]
  intro s hs'
  rw [List.mem_append] at hs'
  simp only [decide_eq_true_eq]
  rcases hs' with hs' | hs'
  · exact (h.behind s hs').ne
  · have h1 := h.ahead s hs'
    have h2 := sound_rest hs h.repeats s hs'
    omega

/-- No repeat starts right after the position. -/
lemma Between.repeatAfter_none (h : Between a earlier rest q) (hne : ∀ r ∈ rest, r.first ≠ q + 1) :
    a.repeatAfter q = none := by
  rw [PathAutomaton.repeatAfter, List.find?_eq_none, h.repeats]
  intro s hs'
  rw [List.mem_append] at hs'
  simp only [decide_eq_true_eq]
  rcases hs' with hs' | hs'
  · have h1 := h.behind s hs'
    have h2 := sound_earlier hs h.repeats s hs'
    omega
  · exact hne s hs'

lemma Between.repeatAfter (h : Between a earlier (r :: rest) q) (hr : r.first = q + 1) :
    a.repeatAfter q = some r := by
  rw [PathAutomaton.repeatAfter, h.repeats, List.find?_append]
  have hnone : earlier.find? (fun r => decide (r.first = q + 1)) = none := by
    rw [List.find?_eq_none]
    intro s hs'
    have h1 := h.behind s hs'
    have h2 := sound_earlier hs h.repeats s hs'
    simp only [decide_eq_true_eq]
    omega
  simp [hnone, hr]

lemma Within.lt (h : Within a earlier r rest q) : q + 1 < a.states.length := by
  have h1 := (sound_repeat hs h.repeats).last_lt
  have h2 := h.le_last
  omega

lemma Within.repeatEnding (h : Within a earlier r rest q) (hlast : q = r.last) :
    a.repeatEnding q = some r := by
  rw [PathAutomaton.repeatEnding, h.repeats, List.find?_append]
  have hnone : earlier.find? (fun r => decide (r.last = q)) = none := by
    rw [List.find?_eq_none]
    intro s hs'
    have h1 := apart_behind hs h.repeats s hs'
    have h2 := h.first_le
    simp only [decide_eq_true_eq]
    omega
  rw [hnone]
  simp [hlast]

lemma Within.repeatEnding_none (h : Within a earlier r rest q) (hlast : q ≠ r.last) :
    a.repeatEnding q = none := by
  rw [PathAutomaton.repeatEnding, List.find?_eq_none, h.repeats]
  intro s hs'
  simp only [List.mem_append, List.mem_cons] at hs'
  simp only [decide_eq_true_eq]
  have hfirst := h.first_le
  have hle := h.le_last
  rcases hs' with hs' | rfl | hs'
  · have h1 := apart_behind hs h.repeats s hs'
    omega
  · exact fun heq => hlast heq.symm
  · have h1 := apart_ahead hs h.repeats s hs'
    have h2 := (hs.repeats s (by rw [h.repeats]; simp [hs'])).first_lt
    omega

lemma Within.repeatAfter_none (h : Within a earlier r rest q) : a.repeatAfter q = none := by
  rw [PathAutomaton.repeatAfter, List.find?_eq_none, h.repeats]
  intro s hs'
  simp only [List.mem_append, List.mem_cons] at hs'
  simp only [decide_eq_true_eq]
  have hfirst := h.first_le
  have hle := h.le_last
  rcases hs' with hs' | rfl | hs'
  · have h1 := apart_behind hs h.repeats s hs'
    have h2 := (hs.repeats s (by rw [h.repeats]; simp [hs'])).first_lt
    omega
  · omega
  · have h1 := apart_ahead hs h.repeats s hs'
    omega

/-! ## Moves, by place -/

lemma Between.succs (h : Between a earlier rest q) (hlt : q + 1 < a.states.length)
    (hne : ∀ r ∈ rest, r.first ≠ q + 1) : a.succs q k = [(q + 1, k)] := by
  rw [PathAutomaton.succs, moves, if_neg hlt.ne, h.repeatEnding hs, h.repeatAfter_none hs hne]
  cases a.link q with
  | same => rfl
  | edge step => rfl

lemma Between.succs_before (h : Between a earlier (r :: rest) q) (hr : r.first = q + 1) :
    a.succs q k = (if r.max ≠ some 0 then [(r.first, 0)] else [])
      ++ if r.min = 0 then [(r.last + 1, 0)] else [] := by
  have hsound := sound_repeat hs h.repeats
  have hlt : q + 1 < a.states.length := by
    have h1 := hsound.first_lt
    have h2 := hsound.last_lt
    omega
  rw [PathAutomaton.succs, moves, if_neg hlt.ne, h.repeatEnding hs, h.repeatAfter hs hr]
  simp only [List.map_append, apply_ite (List.map (target k)), List.map_cons, List.map_nil, target]

lemma Within.succs (h : Within a earlier r rest q) (hlast : q ≠ r.last) :
    a.succs q k = [(q + 1, k)] := by
  rw [PathAutomaton.succs, moves, if_neg (h.lt hs).ne, h.repeatEnding_none hs hlast,
    h.repeatAfter_none hs]
  cases a.link q with
  | same => rfl
  | edge step => rfl

lemma Within.succs_last (h : Within a earlier r rest q) (hlast : q = r.last) :
    a.succs q k = (if ∀ max ∈ r.max, k + 1 < max then
        [(r.first, if r.max = none then min (k + 1) r.min else k + 1)] else [])
      ++ if r.min ≤ k + 1 then [(q + 1, 0)] else [] := by
  rw [PathAutomaton.succs, moves, if_neg (h.lt hs).ne, h.repeatEnding hs hlast]
  cases hmax : r.max with
  | none => simp [apply_ite (List.map (target k)), target, hmax]
  | some max => simp [apply_ite (List.map (target k)), target, hmax]

end Places

/-- One move, by what it does. -/
inductive Hop (a : PathAutomaton) (q k : ℕ) : ℕ → ℕ → Prop
  | again {r : Repeat} : r ∈ a.repeats → r.last = q → (∀ max ∈ r.max, k + 1 < max) →
      Hop a q k r.first (if r.max = none then min (k + 1) r.min else k + 1)
  | leave {r : Repeat} : r ∈ a.repeats → r.last = q → r.min ≤ k + 1 → Hop a q k (q + 1) 0
  | enter {r : Repeat} : r ∈ a.repeats → r.first = q + 1 → r.max ≠ some 0 → Hop a q k r.first 0
  | skip {r : Repeat} : r ∈ a.repeats → r.first = q + 1 → r.min = 0 → Hop a q k (r.last + 1) 0
  | along : q + 1 ≠ a.states.length → (∀ r ∈ a.repeats, r.last ≠ q) →
      (∀ r ∈ a.repeats, r.first ≠ q + 1) → Hop a q k (q + 1) k

lemma hop_of_move {m : Move} (h : m ∈ moves a q k) : Hop a q k (target k m).1 (target k m).2 := by
  rw [moves] at h
  split at h
  case isTrue => cases h
  case isFalse hne =>
    split at h
    case h_1 r hr =>
      have hlast := List.find?_some hr
      have hmem := List.mem_of_find?_eq_some hr
      simp only [List.mem_append, List.mem_ite_nil_right, List.mem_singleton,
        decide_eq_true_eq] at h hlast
      rcases h with ⟨hmax, rfl⟩ | ⟨hmin, rfl⟩
      · have hlt : ∀ max ∈ r.max, k + 1 < max := by
          simpa [Option.all_eq_true] using hmax
        simpa [target] using Hop.again hmem hlast hlt
      · exact Hop.leave hmem hlast hmin
    case h_2 hending =>
      split at h
      case h_1 r hr =>
        have hafter := List.find?_some hr
        have hmem := List.mem_of_find?_eq_some hr
        simp only [List.mem_append, List.mem_ite_nil_right, List.mem_singleton,
          decide_eq_true_eq] at h hafter
        rcases h with ⟨hmax, rfl⟩ | ⟨hmin, rfl⟩
        · exact Hop.enter hmem hafter hmax
        · exact Hop.skip hmem hafter hmin
      case h_2 hafter =>
        have h1 : ∀ r ∈ a.repeats, r.last ≠ q := by
          simpa [repeatEnding] using hending
        have h2 : ∀ r ∈ a.repeats, r.first ≠ q + 1 := by
          simpa [repeatAfter] using hafter
        cases hl : a.link q with
        | same =>
            rw [hl, List.mem_singleton] at h
            rw [h]
            exact Hop.along hne h1 h2
        | edge step =>
            rw [hl, List.mem_singleton] at h
            rw [h]
            exact Hop.along hne h1 h2

lemma hop_of_succs {k' : ℕ} (h : (p, k') ∈ a.succs q k) : Hop a q k p k' := by
  rw [succs, List.mem_map] at h
  obtain ⟨m, hm, heq⟩ := h
  have := hop_of_move hm
  rwa [heq] at this

/-- Two repeats do not touch. -/
lemma repeats_apart {s : Repeat} (hs : a.Sound width selector) (hr : r ∈ a.repeats)
    (hs' : s ∈ a.repeats) : r = s ∨ r.last + 2 ≤ s.first ∨ s.last + 2 ≤ r.first := by
  by_cases heq : r = s
  · exact Or.inl heq
  · refine Or.inr ?_
    have hsym : a.repeats.Pairwise fun r s => r.last + 2 ≤ s.first ∨ s.last + 2 ≤ r.first :=
      hs.apart.imp Or.inl
    have : Std.Symm fun r s : Repeat => r.last + 2 ≤ s.first ∨ s.last + 2 ≤ r.first :=
      ⟨fun _ _ h => h.symm⟩
    exact hsym.forall hr hs' heq

/-! ## Words, by place -/

lemma unrolled_ne_nil (hlt : p < a.states.length) (hrest : ∀ r ∈ rest, r.last + 1 < a.states.length)
    (h : a.Unrolled p rest w) : w ≠ [] := by
  induction rest generalizing p w with
  | nil =>
      rintro rfl
      have : a.states.length - p = 0 := by simpa [Unrolled] using h.symm
      omega
  | cons r rest ih =>
      obtain ⟨n, tail, -, htail, rfl⟩ := h
      have := ih (hrest r List.mem_cons_self) (fun s hs => hrest s (List.mem_cons_of_mem r hs)) htail
      simp [this]

lemma range'_eq_cons {m : ℕ} (h : 0 < m) : List.range' p m = p :: List.range' (p + 1) (m - 1) := by
  obtain ⟨m, rfl⟩ := Nat.exists_eq_succ_of_ne_zero h.ne'
  simp [List.range'_succ]

/-- Before the next repeat the word goes along the line. -/
lemma unrolled_step (hlt : p < a.states.length) (hrest : ∀ r ∈ rest, p < r.first) :
    a.Unrolled p rest w ↔ ∃ w', w = p :: w' ∧ a.Unrolled (p + 1) rest w' := by
  cases rest with
  | nil =>
      simp only [Unrolled]
      rw [range'_eq_cons (by omega : 0 < a.states.length - p), Nat.sub_sub]
      simp
  | cons r rest =>
      have hfirst := hrest r List.mem_cons_self
      simp only [Unrolled]
      rw [range'_eq_cons (by omega : 0 < r.first - p), Nat.sub_sub]
      constructor
      · rintro ⟨n, tail, hn, htail, rfl⟩
        exact ⟨_, rfl, n, tail, hn, htail, rfl⟩
      · rintro ⟨w', rfl, n, tail, hn, htail, rfl⟩
        exact ⟨n, tail, hn, htail, rfl⟩

/-- The words from a position in a body on, with the iterations before it counted. -/
def InBody (a : PathAutomaton) (r : Repeat) (rest : List Repeat) (q k : ℕ) (w : List ℕ) : Prop :=
  ∃ n tail, r.Admits (k + 1 + n) ∧ a.Unrolled (r.last + 1) rest tail
    ∧ w = List.range' (q + 1) (r.last - q) ++ ((List.replicate n r.body).flatten ++ tail)

lemma inBody_step (hq : q < r.last) :
    a.InBody r rest q k w ↔ ∃ w', w = (q + 1) :: w' ∧ a.InBody r rest (q + 1) k w' := by
  simp only [InBody]
  rw [range'_eq_cons (by omega : 0 < r.last - q), Nat.sub_sub]
  constructor
  · rintro ⟨n, tail, hn, htail, rfl⟩
    exact ⟨_, rfl, n, tail, hn, htail, rfl⟩
  · rintro ⟨w', rfl, n, tail, hn, htail, rfl⟩
    exact ⟨n, tail, hn, htail, rfl⟩

lemma body_eq (h : r.first ≤ r.last) :
    r.body = r.first :: List.range' (r.first + 1) (r.last - r.first) := by
  rw [Repeat.body, range'_eq_cons (by omega)]
  congr 2
  omega

/-- At the end of an iteration the word starts another or leaves. -/
lemma inBody_last (h : r.first ≤ r.last) :
    a.InBody r rest r.last k w
      ↔ (∃ w', w = r.first :: w' ∧ a.InBody r rest r.first (k + 1) w')
        ∨ r.Admits (k + 1) ∧ a.Unrolled (r.last + 1) rest w := by
  simp only [InBody, Nat.sub_self, List.range'_zero, List.nil_append]
  constructor
  · rintro ⟨n, tail, hn, htail, rfl⟩
    cases n with
    | zero => exact Or.inr ⟨hn, by simpa using htail⟩
    | succ n =>
        refine Or.inl ⟨_, ?_, n, tail, by rwa [Nat.add_right_comm _ 1 n, Nat.add_assoc], htail, rfl⟩
        simp [List.replicate_succ, body_eq h]
  · rintro (⟨w', rfl, n, tail, hn, htail, rfl⟩ | ⟨hn, htail⟩)
    · refine ⟨n + 1, tail, by rwa [← Nat.add_assoc, Nat.add_right_comm], htail, ?_⟩
      simp [List.replicate_succ, body_eq h]
    · exact ⟨0, w, hn, htail, by simp⟩

/-- Before a repeat the word starts an iteration or passes by. -/
lemma unrolled_first (h : r.first ≤ r.last) :
    a.Unrolled r.first (r :: rest) w
      ↔ (∃ w', w = r.first :: w' ∧ a.InBody r rest r.first 0 w')
        ∨ r.Admits 0 ∧ a.Unrolled (r.last + 1) rest w := by
  simp only [Unrolled, InBody, Nat.sub_self, List.range'_zero, List.nil_append]
  constructor
  · rintro ⟨n, tail, hn, htail, rfl⟩
    cases n with
    | zero => exact Or.inr ⟨hn, by simpa using htail⟩
    | succ n =>
        refine Or.inl ⟨_, ?_, n, tail, by rwa [Nat.zero_add, Nat.add_comm], htail, rfl⟩
        simp [List.replicate_succ, body_eq h]
  · rintro (⟨w', rfl, n, tail, hn, htail, rfl⟩ | ⟨hn, htail⟩)
    · refine ⟨n + 1, tail, by rwa [Nat.zero_add, Nat.add_comm] at hn, htail, ?_⟩
      simp [List.replicate_succ, body_eq h]
    · exact ⟨0, w, hn, htail, by simp⟩

lemma Between.next (h : Between a earlier rest q)
    (hlt : q + 1 < a.states.length) (hne : ∀ r ∈ rest, r.first ≠ q + 1) :
    Between a earlier rest (q + 1) :=
  ⟨h.repeats, fun r hr => (h.behind r hr).trans (Nat.lt_succ_self q),
    fun r hr => lt_of_le_of_ne (h.ahead r hr) (hne r hr).symm, hlt⟩

/-- The position after a body. -/
lemma between_after (hs : a.Sound width selector) (h : a.repeats = earlier ++ r :: rest) :
    Between a (earlier ++ [r]) rest (r.last + 1) := by
  refine ⟨by rw [h]; simp, ?_, ?_, (sound_repeat hs h).last_lt⟩
  · intro s hs'
    rw [List.mem_append, List.mem_singleton] at hs'
    rcases hs' with hs' | rfl
    · have h1 := apart_behind hs h s hs'
      have h2 := (sound_repeat hs h).first_lt
      omega
    · exact Nat.lt_succ_self _
  · intro s hs'
    have := apart_ahead hs h s hs'
    omega

lemma exists_cons_eq {P : List ℕ → Prop} : (∃ w', p :: w = q :: w' ∧ P w') ↔ p = q ∧ P w := by
  simp only [List.cons.injEq, and_assoc, exists_and_left, exists_eq_left']

lemma accepts_along (h : a.succs q k = [(q + 1, k)]) :
    a.Accepts q k (p :: w) ↔ p = q + 1 ∧ a.Accepts (q + 1) k w := by
  simp only [Accepts, h, List.mem_singleton, Prod.mk.injEq]
  constructor
  · rintro ⟨k', ⟨rfl, rfl⟩, hacc⟩
    exact ⟨rfl, hacc⟩
  · rintro ⟨rfl, hacc⟩
    exact ⟨k, ⟨rfl, rfl⟩, hacc⟩

section Induction

variable (hs : a.Sound width selector)
  (ihb : ∀ earlier rest q k, Between a earlier rest q → (a.Accepts q k w ↔ a.Unrolled (q + 1) rest w))
  (ihw : ∀ earlier r rest q k, Within a earlier r rest q → (∀ max ∈ r.max, k < max) →
    (a.Accepts q k w ↔ a.InBody r rest q k w))

include hs ihb

/-- Past a body only the rest of the pattern counts. -/
lemma accepts_after (h : a.repeats = earlier ++ r :: rest) :
    (p = r.last + 1 ∧ a.Accepts (r.last + 1) 0 w) ↔ a.Unrolled (r.last + 1) rest (p :: w) := by
  have hplace := between_after hs h
  rw [unrolled_step hplace.lt hplace.ahead, exists_cons_eq, ihb _ _ _ _ hplace]

include ihw

/-- Before a repeat an iteration is started, or the repeat is passed by. -/
lemma accepts_before (h : Between a earlier (r :: rest) q) (hr : r.first = q + 1) :
    a.Accepts q k (p :: w) ↔ a.Unrolled (q + 1) (r :: rest) (p :: w) := by
  have hle : r.first ≤ r.last := (sound_repeat hs h.repeats).first_lt.le
  have hplace : Within a earlier r rest r.first := ⟨h.repeats, le_rfl, hle⟩
  rw [← hr, unrolled_first hle, exists_cons_eq, ← accepts_after hs ihb h.repeats]
  simp only [Accepts, h.succs_before hs hr, List.mem_append, List.mem_ite_nil_right,
    List.mem_singleton, Prod.mk.injEq]
  constructor
  · rintro ⟨k', ⟨hmax, rfl, rfl⟩ | ⟨hmin, rfl, rfl⟩, hacc⟩
    · refine Or.inl ⟨rfl, (ihw _ _ _ _ _ hplace ?_).1 hacc⟩
      rintro max hmem
      rw [Option.mem_def] at hmem
      rw [hmem] at hmax
      exact Nat.pos_of_ne_zero fun h0 => hmax (by rw [h0])
    · exact Or.inr ⟨by simp [Repeat.Admits, hmin], rfl, hacc⟩
  · rintro (⟨rfl, hbody⟩ | ⟨hmin, rfl, hacc⟩)
    · have hpos : ∀ max ∈ r.max, 0 < max := by
        obtain ⟨n, -, hn, -⟩ := hbody
        intro max hmem
        have := hn.2 max hmem
        omega
      refine ⟨0, Or.inl ⟨?_, rfl, rfl⟩, (ihw _ _ _ _ _ hplace hpos).2 hbody⟩
      intro hmax
      exact lt_irrefl 0 (hpos 0 hmax)
    · exact ⟨0, Or.inr ⟨Nat.le_zero.1 hmin.1, rfl, rfl⟩, hacc⟩

/-- At the end of an iteration another is started, or the repeat is left. -/
lemma accepts_last (h : Within a earlier r rest r.last) (hk : ∀ max ∈ r.max, k < max) :
    a.Accepts r.last k (p :: w) ↔ a.InBody r rest r.last k (p :: w) := by
  have hle : r.first ≤ r.last := (sound_repeat hs h.repeats).first_lt.le
  have hplace : Within a earlier r rest r.first := ⟨h.repeats, le_rfl, hle⟩
  rw [inBody_last hle, exists_cons_eq, ← accepts_after hs ihb h.repeats]
  simp only [Accepts, h.succs_last hs rfl, List.mem_append, List.mem_ite_nil_right,
    List.mem_singleton, Prod.mk.injEq]
  -- an unbounded repeat's counter stops at the minimum, which admits as many further iterations
  have hcount : ∀ n, (r.Admits ((if r.max = none then min (k + 1) r.min else k + 1) + 1 + n)
      ↔ r.Admits (k + 1 + 1 + n)) := by
    intro n
    cases hmax : r.max with
    | none =>
        simp only [Repeat.Admits, hmax, if_true]
        constructor
        · rintro ⟨h1, -⟩
          exact ⟨by omega, by simp⟩
        · rintro ⟨h1, -⟩
          exact ⟨by omega, by simp⟩
    | some max => simp
  constructor
  · rintro ⟨k', ⟨hmax, rfl, rfl⟩ | ⟨hmin, rfl, rfl⟩, hacc⟩
    · have hk' : ∀ max ∈ r.max, (if r.max = none then min (k + 1) r.min else k + 1) < max := by
        intro max hmem
        rw [if_neg (by rw [hmem]; simp)]
        exact hmax max hmem
      obtain ⟨n, tail, hn, htail⟩ := (ihw _ _ _ _ _ hplace hk').1 hacc
      exact Or.inl ⟨rfl, n, tail, (hcount n).1 hn, htail⟩
    · exact Or.inr ⟨⟨hmin, fun max hmem => hk max hmem⟩, rfl, hacc⟩
  · rintro (⟨rfl, n, tail, hn, htail⟩ | ⟨hmin, rfl, hacc⟩)
    · have hmax : ∀ max ∈ r.max, k + 1 < max := by
        intro max hmem
        have := hn.2 max hmem
        omega
      have hk' : ∀ max ∈ r.max, (if r.max = none then min (k + 1) r.min else k + 1) < max := by
        intro max hmem
        rw [if_neg (by rw [hmem]; simp)]
        exact hmax max hmem
      exact ⟨_, Or.inl ⟨hmax, rfl, rfl⟩,
        (ihw _ _ _ _ _ hplace hk').2 ⟨n, tail, (hcount n).2 hn, htail⟩⟩
    · exact ⟨0, Or.inr ⟨hmin.1, rfl, rfl⟩, hacc⟩

end Induction

/-- What is left to accept depends on the place only: outside the repeats on the position, in a body
on the position and the iterations counted. -/
lemma accepts_iff_of_place (hs : a.Sound width selector) (w : List ℕ) :
    (∀ earlier rest q k, Between a earlier rest q → (a.Accepts q k w ↔ a.Unrolled (q + 1) rest w))
      ∧ ∀ earlier r rest q k, Within a earlier r rest q → (∀ max ∈ r.max, k < max) →
        (a.Accepts q k w ↔ a.InBody r rest q k w) := by
  induction w with
  | nil =>
      constructor
      · intro earlier rest q k h
        have hlast : ∀ r ∈ rest, r.last + 1 < a.states.length := fun r hr =>
          (hs.repeats r (by rw [h.repeats]; simp [hr])).last_lt
        constructor
        · intro heq
          cases rest with
          | nil =>
              have h1 : q + 1 = a.states.length := heq
              simp [Unrolled, h1]
          | cons r rest =>
              have h1 := hlast r List.mem_cons_self
              have h2 := h.ahead r List.mem_cons_self
              have h3 := sound_rest hs h.repeats r List.mem_cons_self
              have h4 : q + 1 = a.states.length := heq
              omega
        · intro hnil
          by_contra hne
          have hlt : q + 1 < a.states.length := lt_of_le_of_ne h.lt hne
          exact unrolled_ne_nil hlt hlast hnil rfl
      · intro earlier r rest q k h hk
        have hlast : ∀ s ∈ r :: rest, s.last + 1 < a.states.length := fun s hs' =>
          (hs.repeats s (by rw [h.repeats]; simp [List.mem_cons.1 hs'])).last_lt
        constructor
        · intro heq
          exact absurd heq (h.lt hs).ne
        · rintro ⟨n, tail, -, htail, hnil⟩
          have := unrolled_ne_nil (hlast r List.mem_cons_self)
            (fun s hs' => hlast s (List.mem_cons_of_mem r hs')) htail
          simp [this] at hnil
  | cons p w ih =>
      obtain ⟨ihb, ihw⟩ := ih
      constructor
      · intro earlier rest q k h
        rcases (show q + 1 ≤ a.states.length from h.lt).eq_or_lt with hend | hlt
        · refine iff_of_false ?_ ?_
          · rintro ⟨k', hmem, -⟩
            simp [succs, moves, hend] at hmem
          · intro hun
            cases rest with
            | nil => simp [Unrolled, hend] at hun
            | cons r rest =>
                have h1 := h.ahead r List.mem_cons_self
                have h2 := sound_rest hs h.repeats r List.mem_cons_self
                have h3 := (sound_repeat hs h.repeats).last_lt
                omega
        · by_cases hne : ∀ r ∈ rest, r.first ≠ q + 1
          · rw [accepts_along (h.succs hs hlt hne), ihb _ _ _ _ (h.next hlt hne),
              unrolled_step hlt (h.next hlt hne).ahead, exists_cons_eq]
          · cases rest with
            | nil => exact absurd (by simp) hne
            | cons r rest =>
                have hr : r.first = q + 1 := by
                  by_contra hr
                  refine hne fun s hs' => ?_
                  rcases List.mem_cons.1 hs' with rfl | hs'
                  · exact hr
                  · have h1 := apart_ahead hs h.repeats s hs'
                    have h2 := sound_rest hs h.repeats r List.mem_cons_self
                    have h3 := h.ahead r List.mem_cons_self
                    omega
                exact accepts_before hs ihb ihw h hr
      · intro earlier r rest q k h hk
        rcases h.le_last.eq_or_lt with rfl | hlt
        · exact accepts_last hs ihb ihw h hk
        · have hplace : Within a earlier r rest (q + 1) :=
            ⟨h.repeats, h.first_le.trans (Nat.le_succ q), hlt⟩
          rw [accepts_along (h.succs hs hlt.ne), ihw _ _ _ _ _ hplace hk, inBody_step hlt,
            exists_cons_eq]

/-- **The moves from the first position spell the words of the pattern.** -/
theorem accepts_iff (hs : a.Sound width selector) : a.Accepts 0 0 w ↔ a.Word (0 :: w) := by
  have hlen : 0 < a.states.length := by
    have := hs.links
    omega
  have hahead : ∀ r ∈ a.repeats, 0 < r.first := fun r hr => (hs.repeats r hr).first_pos
  have hplace : Between a [] a.repeats 0 := ⟨rfl, by simp, hahead, hlen⟩
  rw [(accepts_iff_of_place hs w).1 [] a.repeats 0 0 hplace, Word, unrolled_step hlen hahead]
  simp

/-! ## Words and edges -/

/-- A position that is arrived at across an edge. -/
def crossedInto (a : PathAutomaton) (q : ℕ) : Bool := decide (0 < q) && (a.edgeStep (q - 1)).isSome

lemma countP_iterations (r : Repeat) (n : ℕ) (f : ℕ → Bool) :
    ((List.replicate n r.body).flatten).countP f = n * r.body.countP f := by
  rw [List.countP_flatten, List.map_replicate, List.sum_replicate, smul_eq_mul]

lemma admits_fixed {n m : ℕ} (h : r.max = some r.min) (hn : r.Admits n) (hm : r.Admits m) : n = m := by
  have h1 := hn.2 r.min h
  have h2 := hm.2 r.min h
  have h3 := hn.1
  have h4 := hm.1
  omega

/-- Repeats with fixed numbers of iterations leave one word. -/
lemma unrolled_fixed {w' : List ℕ} (hfix : ∀ r ∈ rest, r.max = some r.min)
    (h : a.Unrolled p rest w) (h' : a.Unrolled p rest w') : w = w' := by
  induction rest generalizing p w w' with
  | nil => rw [(h : w = _), (h' : w' = _)]
  | cons r rest ih =>
      obtain ⟨n, tail, hn, htail, rfl⟩ := h
      obtain ⟨n', tail', hn', htail', rfl⟩ := h'
      rw [admits_fixed (hfix r List.mem_cons_self) hn hn',
        ih (fun s hs => hfix s (List.mem_cons_of_mem r hs)) htail htail']

lemma unrolled_unique {w' : List ℕ} {f : ℕ → Bool}
    (hone : (rest.filter fun r => decide (r.max ≠ some r.min)).length ≤ 1)
    (hbody : ∀ r ∈ rest, 0 < r.body.countP f) (h : a.Unrolled p rest w) (h' : a.Unrolled p rest w')
    (hcount : w.countP f = w'.countP f) : w = w' := by
  induction rest generalizing p w w' with
  | nil => rw [(h : w = _), (h' : w' = _)]
  | cons r rest ih =>
      obtain ⟨n, tail, hn, htail, rfl⟩ := h
      obtain ⟨n', tail', hn', htail', rfl⟩ := h'
      simp only [List.countP_append, countP_iterations] at hcount
      by_cases hr : r.max = some r.min
      · obtain rfl := admits_fixed hr hn hn'
        rw [List.filter_cons_of_neg (by simp [hr])] at hone
        rw [ih hone (fun s hs => hbody s (List.mem_cons_of_mem r hs)) htail htail' (by omega)]
      · -- the one open repeat: the others leave one tail
        rw [List.filter_cons_of_pos (by simp [hr]), List.length_cons] at hone
        have hnil : rest.filter (fun r => decide (r.max ≠ some r.min)) = [] :=
          List.length_eq_zero_iff.1 (by omega)
        have hfix : ∀ s ∈ rest, s.max = some s.min := by
          intro s hs
          have := List.filter_eq_nil_iff.1 hnil s hs
          simpa using this
        obtain rfl := unrolled_fixed hfix htail htail'
        have hpos := hbody r List.mem_cons_self
        have heq : n * r.body.countP f = n' * r.body.countP f := by omega
        rw [Nat.eq_of_mul_eq_mul_right hpos heq]

/-- **In a pattern that is not ambiguous the number of edges tells the word.** -/
theorem word_unique {w' : List ℕ} (hs : a.Sound width selector) (hamb : a.ambiguous = false)
    (h : a.Word w) (h' : a.Word w') (hcount : w.countP a.crossedInto = w'.countP a.crossedInto) :
    w = w' := by
  refine unrolled_unique ?_ ?_ h h' hcount
  · simpa [ambiguous] using hamb
  · intro r hr
    obtain ⟨l, step, hl, hlast, hlink⟩ := (hs.repeats r hr).crosses
    refine List.countP_pos_iff.2 ⟨l + 1, ?_, ?_⟩
    · rw [Repeat.body, List.mem_range'_1]
      omega
    · simp [crossedInto, edgeStep, hlink]

end PathAutomaton

end Engine.Gql
