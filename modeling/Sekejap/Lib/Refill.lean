import Mathlib.Tactic

/-!
# Refilling in place

Slots are read and written one after the other, and the first that cannot be read ends it: the ones before stay
written.  What is left is told by the slots alone, in their order.

* **`Traced`** — a refill failed where a slot cannot be read, and left all as it was where every slot before that one
  held what was read for it.
* **`loop_traced`**, **`traced_each`** — the slots of a loop, and of one refill after another.
-/

namespace Refill

variable {σ τ ρ ε : Type*}

/-- What a refill leaves, and whether it failed. -/
abbrev Result (σ ε : Type*) := σ × Except ε Unit

/-- Slots in their order: one that cannot be read, or that holds the value read or not. -/
abbrev Slots := List (Option Prop)

/-- Every slot before the first that cannot be read holds the value read. -/
def Steady : Slots → Prop
  | [] => True
  | none :: _ => True
  | some held :: slots => held ∧ Steady slots

/-- A slot cannot be read. -/
def Fails (slots : Slots) : Prop := none ∈ slots

@[simp] lemma steady_nil : Steady [] := trivial

@[simp] lemma steady_none (slots : Slots) : Steady (none :: slots) := trivial

@[simp] lemma steady_some {held : Prop} {slots : Slots} : Steady (some held :: slots) ↔ held ∧ Steady slots := Iff.rfl

@[simp] lemma not_fails_nil : ¬ Fails [] := List.not_mem_nil

@[simp] lemma fails_none (slots : Slots) : Fails (none :: slots) := List.mem_cons_self ..

@[simp] lemma fails_some {held : Prop} {slots : Slots} : Fails (some held :: slots) ↔ Fails slots := by
  simp [Fails]

lemma fails_append {slots slots' : Slots} : Fails (slots ++ slots') ↔ Fails slots ∨ Fails slots' := List.mem_append

lemma steady_append {slots slots' : Slots} :
    Steady (slots ++ slots') ↔ Steady slots ∧ (Fails slots ∨ Steady slots') := by
  induction slots with
  | nil => simp
  | cons slot slots ih =>
      cases slot with
      | none => simp
      | some held => simp [ih, and_assoc]

/-- A refill goes by its slots. -/
structure Traced (s : σ) (r : Result σ ε) (slots : Slots) : Prop where
  fails : (∃ e, r.2 = .error e) ↔ Fails slots
  same : r.1 = s ↔ Steady slots

lemma Traced.done (s : σ) : Traced s ((s, .ok ()) : Result σ ε) [] :=
  ⟨by simp, by simp⟩

lemma Traced.refused (s : σ) (e : ε) (slots : Slots) : Traced s ((s, .error e) : Result σ ε) (none :: slots) :=
  ⟨by simp, by simp⟩

lemma Traced.written (s s' : σ) : Traced s ((s', .ok ()) : Result σ ε) [some (s' = s)] :=
  ⟨by simp, by simp⟩

/-- A refill of a part. -/
def on (f : σ → τ) (r : Result σ ε) : Result τ ε := (f r.1, r.2)

lemma Traced.on {f : σ → τ} (hf : Function.Injective f) {s : σ} {t : τ} {r : Result σ ε} {slots : Slots}
    (h : Traced s r slots) (hs : f s = t) : Traced t (on f r) slots := by
  subst hs
  exact ⟨h.fails, hf.eq_iff.trans h.same⟩

/-- One refill, and another where it has not failed. -/
def both (f : σ → τ → ρ) (r : Result σ ε) (t : τ) (r' : Result τ ε) : Result ρ ε :=
  match r.2 with
  | .error e => (f r.1 t, .error e)
  | .ok _ => (f r.1 r'.1, r'.2)

lemma Traced.both {f : σ → τ → ρ} (hf : Function.Injective2 f) {s : σ} {t : τ} {r : Result σ ε} {r' : Result τ ε}
    {slots slots' : Slots} (h : Traced s r slots) (h' : Traced t r' slots') :
    Traced (f s t) (both f r t r') (slots ++ slots') := by
  obtain ⟨s', outcome⟩ := r
  cases outcome with
  | error e =>
      have hfails : Fails slots := h.fails.1 ⟨e, rfl⟩
      refine ⟨?_, ?_⟩
      · simp [Refill.both, fails_append, hfails]
      · rw [steady_append, ← h.same]
        simp [Refill.both, hfails, hf.eq_iff]
  | ok u =>
      have hfails : ¬ Fails slots := fun hfails => by
        obtain ⟨e, he⟩ := h.fails.2 hfails
        cases he
      refine ⟨?_, ?_⟩
      · rw [fails_append, ← h'.fails]
        simp [Refill.both, hfails]
      · rw [steady_append, ← h.same, ← h'.same]
        simp [Refill.both, hfails, hf.eq_iff]

/-- Refills of the parts of a list, in their order. -/
def each (f : σ → Result σ ε) : List σ → Result (List σ) ε
  | [] => ([], .ok ())
  | s :: l => both List.cons (f s) l (each f l)

lemma traced_each {f : σ → Result σ ε} {slots : σ → Slots} (h : ∀ s, Traced s (f s) (slots s)) :
    ∀ l, Traced l (each f l) (l.flatMap slots)
  | [] => Traced.done []
  | s :: l => (h s).both (fun _ _ _ _ => List.cons.inj) (traced_each h l)

/-! ## A slot that may be missing -/

section Refill

variable {φ : Type*} (read : φ → Except ε σ)

/-- What is read takes the place of what is there. -/
def refill (s : σ) : Option φ → Result σ ε
  | none => (s, .ok ())
  | some fill =>
    match read fill with
    | .error e => (s, .error e)
    | .ok s' => (s', .ok ())

def held (s : σ) : Option φ → Slots
  | none => []
  | some fill =>
    match read fill with
    | .error _ => [none]
    | .ok s' => [some (s' = s)]

variable {read}

lemma traced_refill (s : σ) (fill : Option φ) : Traced s (refill read s fill) (held read s fill) := by
  cases fill with
  | none => exact Traced.done s
  | some fill =>
      rw [refill, held]
      cases read fill with
      | error e => exact Traced.refused s e []
      | ok s' => exact Traced.written s s'

end Refill

/-! ## Loops -/

section Loop

variable {φ ι ν π : Type*} (read : φ → Except ε ν) (pos : φ → ι) (put : σ → ι → ν → Except ε σ)

/-- Each slot is read and its value put in its place. -/
def loop (s : σ) : List φ → Result σ ε
  | [] => (s, .ok ())
  | fill :: fills =>
    match read fill with
    | .error e => (s, .error e)
    | .ok v =>
      match put s (pos fill) v with
      | .error e => (s, .error e)
      | .ok s' => loop s' fills

/-- A slot of a loop. -/
def slot (s : σ) (fill : φ) : Option Prop :=
  match read fill with
  | .error _ => none
  | .ok v =>
    match put s (pos fill) v with
    | .error _ => none
    | .ok s' => some (s' = s)

/-- The places of a value are apart: what is put in one leaves the others, and can be told there. -/
structure Apart (part : ι → σ → π) : Prop where
  other : ∀ {s s' i j v}, put s i v = .ok s' → j ≠ i → part j s' = part j s
  own : ∀ {s s' i v}, put s i v = .ok s' → part i s' = part i s → s' = s
  again : ∀ {s s' q i j v w}, put s i v = .ok s' → j ≠ i → put s j w = .ok q →
    ∃ q', put s' j w = .ok q' ∧ part j q' = part j q
  never : ∀ {s s' e i j v w}, put s i v = .ok s' → j ≠ i → put s j w = .error e → ∃ e', put s' j w = .error e'

variable {read pos put} {part : ι → σ → π}

/-- A slot in another place is what it was. -/
lemma Apart.slot_put (h : Apart put part) {s s' : σ} {i : ι} {v : ν} (hput : put s i v = .ok s') {fill : φ}
    (hi : pos fill ≠ i) : slot read pos put s' fill = slot read pos put s fill := by
  rw [slot, slot]
  cases read fill with
  | error e => rfl
  | ok w =>
      dsimp only
      cases hq : put s (pos fill) w with
      | error e =>
          obtain ⟨e', he'⟩ := h.never hput hi hq
          rw [he']
      | ok q =>
          obtain ⟨q', hq', hpart⟩ := h.again hput hi hq
          rw [hq']
          have hheld : q' = s' ↔ q = s := by
            constructor
            · rintro rfl
              exact h.own hq (hpart.symm.trans (h.other hput hi))
            · rintro rfl
              exact h.own hq' (hpart.trans (h.other hput hi).symm)
          exact congrArg some (propext hheld)

/-- A place that no slot fills is left. -/
lemma Apart.part_loop (h : Apart put part) {i : ι} {fills : List φ} :
    ∀ {s : σ}, i ∉ fills.map pos → part i (loop read pos put s fills).1 = part i s := by
  induction fills with
  | nil =>
      intro s _
      rfl
  | cons fill fills ih =>
      intro s hi
      rw [List.map_cons, List.mem_cons, not_or] at hi
      rw [loop]
      cases read fill with
      | error e => rfl
      | ok v =>
          dsimp only
          cases hput : put s (pos fill) v with
          | error e => rfl
          | ok s' => exact (ih hi.2).trans (h.other hput hi.1)

/-- **A loop goes by its slots**, each in a place of its own. -/
theorem loop_traced (h : Apart put part) {fills : List φ} :
    ∀ {s : σ}, (fills.map pos).Nodup → Traced s (loop read pos put s fills) (fills.map (slot read pos put s)) := by
  induction fills with
  | nil =>
      intro s _
      exact Traced.done s
  | cons fill fills ih =>
      intro s hnodup
      rw [List.map_cons, List.nodup_cons] at hnodup
      rw [loop, List.map_cons, slot]
      cases read fill with
      | error e => exact Traced.refused s e _
      | ok v =>
          dsimp only
          cases hput : put s (pos fill) v with
          | error e => exact Traced.refused s e _
          | ok s' =>
              dsimp only
              have hrest := ih (s := s') hnodup.2
              have hslots : fills.map (slot read pos put s') = fills.map (slot read pos put s) := by
                refine List.map_congr_left fun fill' hfill' => h.slot_put hput fun hpos => hnodup.1 ?_
                rw [← hpos]
                exact List.mem_map_of_mem hfill'
              refine ⟨?_, ?_⟩
              · rw [hrest.fails, hslots, fails_some]
              · rw [steady_some, ← hslots]
                constructor
                · intro hsame
                  have hpart := @Apart.part_loop _ _ _ _ _ _ read pos put part h (pos fill) fills s' hnodup.1
                  rw [hsame] at hpart
                  have hs := h.own hput hpart.symm
                  refine ⟨hs, hrest.same.1 ?_⟩
                  rw [hsame, hs]
                · rintro ⟨rfl, hsteady⟩
                  exact hrest.same.2 hsteady

end Loop

end Refill
