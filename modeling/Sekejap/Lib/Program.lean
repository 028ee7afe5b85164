import Mathlib.Tactic

/-!
# Programs that call their environment

A `Prog E α` is a finished computation or a call followed by what the program does with the
reply.  Because the remaining program is a value, "stop at any point" and "interleave with
another process" are statements about prefixes of calls, while the functions themselves stay the
straight-line code they are in the source.

* `wp` — what must hold before the program so that every call made keeps the guarantee `G` and
  every result satisfies `Q`.  `wp_bind` composes it, `wp_mono` weakens it.
* `Proc` — programs that also carry a mutable state and may throw.  A thrown error **keeps the
  state changes made so far**, as a `&mut` receiver and `?` do.
* `Proc.Spec` — the triple for them, with a postcondition for the result and one for the error.
-/

universe u

/-- A program over calls `E`. -/
inductive Prog (E : Type → Type) (α : Type) : Type 1
  | ret (a : α) : Prog E α
  | call {β : Type} (e : E β) (k : β → Prog E α) : Prog E α

namespace Prog

variable {E : Type → Type} {α β : Type} {W : Type u}

/-- Sequencing. -/
def bind : Prog E α → (α → Prog E β) → Prog E β
  | .ret a, f => f a
  | .call e k, f => .call e fun r => (k r).bind f

/-- **Weakest precondition.**  Every call moves the world by a step of `exec` that keeps `G`, and
every result satisfies `Q`. -/
def wp (exec : ∀ {β : Type}, E β → W → β → W → Prop) (G : W → W → Prop) :
    Prog E α → (α → W → Prop) → W → Prop
  | .ret a, Q, w => Q a w
  | .call e k, Q, w => ∀ r w', exec e w r w' → G w w' ∧ wp exec G (k r) Q w'

variable {exec : ∀ {β : Type}, E β → W → β → W → Prop} {G G' : W → W → Prop}

@[simp] lemma wp_ret (a : α) (Q : α → W → Prop) (w : W) :
    wp exec G (.ret a : Prog E α) Q w ↔ Q a w := Iff.rfl

lemma wp_bind (p : Prog E α) (f : α → Prog E β) (Q : β → W → Prop) (w : W) :
    wp exec G (p.bind f) Q w ↔ wp exec G p (fun a w' => wp exec G (f a) Q w') w := by
  induction p generalizing w with
  | ret a => rfl
  | call e k ih =>
      simp only [bind, wp]
      exact forall₃_congr fun r w' _ => and_congr_right fun _ => ih r w'

lemma wp_mono {p : Prog E α} {Q Q' : α → W → Prop} {w : W} (h : wp exec G p Q w)
    (hQ : ∀ a w, Q a w → Q' a w) : wp exec G p Q' w := by
  induction p generalizing w with
  | ret a => exact hQ _ _ h
  | call e k ih => exact fun r w' hx => ⟨(h r w' hx).1, ih r (h r w' hx).2⟩

/-- Two postconditions of one program. -/
lemma wp_and {p : Prog E α} {Q Q' : α → W → Prop} {w : W} (h : wp exec G p Q w)
    (h' : wp exec G' p Q' w) : wp exec G p (fun a w' => Q a w' ∧ Q' a w') w := by
  induction p generalizing w with
  | ret a => exact ⟨h, h'⟩
  | call e k ih => exact fun r w' hx => ⟨(h r w' hx).1, ih r (h r w' hx).2 (h' r w' hx).2⟩

/-- **A program ends.**  Where every call is answered, what holds of the program and is kept call
by call holds at an end of it, and that end satisfies the postcondition. -/
lemma exists_ret (answered : ∀ {β : Type} (e : E β) (w : W), ∃ r w', exec e w r w')
    {P : Prog E α → W → Prop}
    (step : ∀ {β : Type} {e : E β} {k : β → Prog E α} {r : β} {w w' : W}, P (.call e k) w →
      exec e w r w' → P (k r) w')
    {p : Prog E α} {Q : α → W → Prop} {w : W} (hp : P p w) (hw : wp exec G p Q w) :
    ∃ a w', P (.ret a) w' ∧ Q a w' := by
  induction p generalizing w with
  | ret a => exact ⟨a, w, hp, hw⟩
  | call e k ih =>
      obtain ⟨r, w', hx⟩ := answered e w
      exact ih r (step hp hx) (hw r w' hx).2

end Prog

/-- A program with a mutable state `σ` that may throw an `ε`. -/
def Proc (E : Type → Type) (ε σ α : Type) : Type 1 := σ → Prog E (Except ε α × σ)

namespace Proc

variable {E : Type → Type} {ε σ τ α β : Type} {W : Type u}

/-- Sequencing: the first error wins, and keeps the state it was thrown in. -/
def bind (p : Proc E ε σ α) (f : α → Proc E ε σ β) : Proc E ε σ β := fun s =>
  (p s).bind fun
    | (.ok a, s') => f a s'
    | (.error e, s') => .ret (.error e, s')

instance : Monad (Proc E ε σ) where
  pure a := fun s => .ret (.ok a, s)
  bind := bind

/-- Fail; the state stays as it is. -/
def raise (e : ε) : Proc E ε σ α := fun s => .ret (.error e, s)

/-- The current state. -/
def current : Proc E ε σ σ := fun s => .ret (.ok s, s)

/-- Update the state. -/
def modify (f : σ → σ) : Proc E ε σ Unit := fun s => .ret (.ok (), f s)

/-- A call whose reply is a plain value. -/
def ask (e : E α) : Proc E ε σ α := fun s => .call e fun r => .ret (.ok r, s)

/-- A call that may fail. -/
def try' (e : E (Except ε α)) : Proc E ε σ α := fun s => .call e fun r => .ret (r, s)

/-- Fail when `c` holds: Rust's `if c { return Err(e); }`. -/
def refuseIf (c : Prop) [Decidable c] (e : ε) : Proc E ε σ Unit :=
  if c then raise e else fun s => .ret (.ok (), s)

/-- Lift a computation that makes no call. -/
def ofExcept (r : Except ε α) : Proc E ε σ α := fun s => .ret (r, s)

/-- Run on a component of the state. -/
def zoom (get : σ → τ) (set : τ → σ → σ) (p : Proc E ε τ α) : Proc E ε σ α := fun s =>
  (p (get s)).bind fun r => .ret (r.1, set r.2 s)

/-- Run `p` and hand its outcome over as a value: Rust's `match r { Ok.., Err.. }`. -/
def attempt (p : Proc E ε σ α) : Proc E ε σ (Except ε α) := fun s =>
  (p s).bind fun r => .ret (.ok r.1, r.2)

/-- Two postconditions as one, by outcome. -/
def post (Q : α → σ → W → Prop) (X : ε → σ → W → Prop) : Except ε α × σ → W → Prop
  | (.ok a, s), w => Q a s w
  | (.error e, s), w => X e s w

/-- **The triple.**  From state `s` and world `w`, every call keeps `G`, a result satisfies `Q`
and an error satisfies `X`. -/
def Spec (exec : ∀ {β : Type}, E β → W → β → W → Prop) (G : W → W → Prop) (p : Proc E ε σ α)
    (Q : α → σ → W → Prop) (X : ε → σ → W → Prop) (s : σ) (w : W) : Prop :=
  Prog.wp exec G (p s) (post Q X) w

section rules

variable {exec : ∀ {β : Type}, E β → W → β → W → Prop} {G : W → W → Prop}
variable {Q : α → σ → W → Prop} {X : ε → σ → W → Prop} {s : σ} {w : W}

@[simp] lemma spec_pure (a : α) :
    Spec exec G (pure a : Proc E ε σ α) Q X s w ↔ Q a s w := Iff.rfl

@[simp] lemma spec_raise (e : ε) :
    Spec exec G (raise e : Proc E ε σ α) Q X s w ↔ X e s w := Iff.rfl

@[simp] lemma spec_current {Q : σ → σ → W → Prop} :
    Spec exec G (current : Proc E ε σ σ) Q X s w ↔ Q s s w := Iff.rfl

@[simp] lemma spec_modify {Q : Unit → σ → W → Prop} (f : σ → σ) :
    Spec exec G (modify f : Proc E ε σ Unit) Q X s w ↔ Q () (f s) w := Iff.rfl

@[simp] lemma spec_refuseIf {Q : Unit → σ → W → Prop} (c : Prop) [Decidable c] (e : ε) :
    Spec exec G (refuseIf c e : Proc E ε σ Unit) Q X s w ↔ (c → X e s w) ∧ (¬ c → Q () s w) := by
  unfold refuseIf
  split_ifs with h
  · simp [h]
  · simp only [h, false_implies, not_false_eq_true, true_implies, true_and]
    exact Iff.rfl

@[simp] lemma spec_ofExcept_ok (a : α) :
    Spec exec G (ofExcept (.ok a) : Proc E ε σ α) Q X s w ↔ Q a s w := Iff.rfl

@[simp] lemma spec_ofExcept_error (e : ε) :
    Spec exec G (ofExcept (.error e) : Proc E ε σ α) Q X s w ↔ X e s w := Iff.rfl

lemma spec_ask (e : E α) :
    Spec exec G (ask e : Proc E ε σ α) Q X s w ↔
      ∀ r w', exec e w r w' → G w w' ∧ Q r s w' := Iff.rfl

lemma spec_try (e : E (Except ε α)) :
    Spec exec G (try' e : Proc E ε σ α) Q X s w ↔
      ∀ r w', exec e w r w' → G w w' ∧ post Q X (r, s) w' := Iff.rfl

/-- **Sequencing.** -/
lemma spec_bind (p : Proc E ε σ α) (f : α → Proc E ε σ β) {Q : β → σ → W → Prop} :
    Spec exec G (p >>= f) Q X s w ↔
      Spec exec G p (fun a s' w' => Spec exec G (f a) Q X s' w') X s w := by
  show Prog.wp exec G ((p s).bind _) _ w ↔ _
  rw [Prog.wp_bind]
  constructor <;> intro h <;> refine Prog.wp_mono h ?_ <;> rintro ⟨a | a, s'⟩ w' h' <;> exact h'

lemma spec_zoom (get : σ → τ) (set : τ → σ → σ) (p : Proc E ε τ α) :
    Spec exec G (zoom get set p) Q X s w ↔
      Spec exec G p (fun a t w' => Q a (set t s) w') (fun e t w' => X e (set t s) w')
        (get s) w := by
  show Prog.wp exec G ((p (get s)).bind _) _ w ↔ _
  rw [Prog.wp_bind]
  constructor <;> intro h <;> refine Prog.wp_mono h ?_ <;> rintro ⟨a | a, s'⟩ w' h' <;> exact h'

lemma spec_attempt (p : Proc E ε σ α) {Q : Except ε α → σ → W → Prop} :
    Spec exec G (attempt p) Q X s w ↔
      Spec exec G p (fun a s' w' => Q (.ok a) s' w') (fun e s' w' => Q (.error e) s' w') s w := by
  show Prog.wp exec G ((p s).bind _) _ w ↔ _
  rw [Prog.wp_bind]
  constructor <;> intro h <;> refine Prog.wp_mono h ?_ <;> rintro ⟨a | a, s'⟩ w' h' <;> exact h'

lemma spec_ite (c : Prop) [Decidable c] (p q : Proc E ε σ α) :
    Spec exec G (if c then p else q) Q X s w ↔
      (c → Spec exec G p Q X s w) ∧ (¬ c → Spec exec G q Q X s w) := by
  split_ifs with h <;> simp [h]

/-- What cannot fail and what is known of the results, put together. -/
lemma Spec.and {G' : W → W → Prop} {p : Proc E ε σ α} {Q' : α → σ → W → Prop}
    {X' : ε → σ → W → Prop} (h : Spec exec G p Q (fun _ _ _ => False) s w)
    (h' : Spec exec G' p Q' X' s w) :
    Spec exec G p (fun a s w => Q a s w ∧ Q' a s w) (fun _ _ _ => False) s w := by
  refine Prog.wp_mono (Prog.wp_and h h') ?_
  rintro ⟨a | a, s'⟩ w' ⟨h₁, h₂⟩
  · exact h₁
  · exact ⟨h₁, h₂⟩

/-- **Consequence.** -/
lemma Spec.mono {p : Proc E ε σ α} {Q' : α → σ → W → Prop} {X' : ε → σ → W → Prop}
    (h : Spec exec G p Q X s w) (hQ : ∀ a s w, Q a s w → Q' a s w)
    (hX : ∀ e s w, X e s w → X' e s w) : Spec exec G p Q' X' s w := by
  refine Prog.wp_mono h ?_
  rintro ⟨a | a, s'⟩ w' h'
  · exact hX _ _ _ h'
  · exact hQ _ _ _ h'

end rules

end Proc
