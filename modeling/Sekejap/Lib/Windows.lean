import Mathlib.Data.List.Infix
import Mathlib.Data.List.Basic
import Mathlib.Tactic.Common

/-!
# Pieces of a list

`triples` are the pieces of three symbols that a list holds, in order: just the lists of three that
occur in it (`mem_triples`).

Two ways of writing symbols can agree on a part of them only.  A piece made of nothing but what the two
agree on is in the one writing when it is in the other: `infix_transfer`.
-/

namespace Windows

variable {α β : Type*} {w l m : List α}

/-- Every three neighbours, in order. -/
def triples : List α → List (List α)
  | a :: b :: c :: rest => [a, b, c] :: triples (b :: c :: rest)
  | _ => []

/-- **The pieces of three symbols are the lists of three that occur.** -/
lemma mem_triples : w ∈ triples l ↔ w <:+: l ∧ w.length = 3 := by
  induction l using triples.induct with
  | case1 a b c rest ih =>
      have hcons : w <:+: a :: b :: c :: rest ↔ w <+: a :: b :: c :: rest ∨ w <:+: b :: c :: rest :=
        List.infix_cons_iff
      rw [triples, List.mem_cons, ih, hcons]
      constructor
      · rintro (rfl | ⟨h, hlen⟩)
        · exact ⟨Or.inl ⟨rest, rfl⟩, rfl⟩
        · exact ⟨Or.inr h, hlen⟩
      · rintro ⟨h | h, hlen⟩
        · left
          obtain ⟨x, y, z, rfl⟩ := List.length_eq_three.mp hlen
          simp_all
        · exact Or.inr ⟨h, hlen⟩
  | case2 l h =>
      have hshort : l.length < 3 ∧ triples l = [] := by
        match l, h with
        | [], _ => exact ⟨by simp, rfl⟩
        | [a], _ => exact ⟨by simp, rfl⟩
        | [a, b], _ => exact ⟨by simp, rfl⟩
        | a :: b :: c :: rest, h => exact absurd rfl (h a b c rest)
      constructor
      · simp [hshort.2]
      · rintro ⟨hw, hlen⟩
        have := hw.length_le
        omega

/-! ## Two ways of writing -/

section Writings

variable {p : β → Bool} {f g : α → List β} {a : α} {v e : List β} {s : List α}

/-- The two writings of a symbol are the same, or neither has anything of the kind `p`. -/
def AgreeOn (p : β → Bool) (f g : α → List β) : Prop :=
  ∀ a, f a = g a ∨ (∀ b ∈ f a, p b = false) ∧ ∀ b ∈ g a, p b = false

lemma AgreeOn.symm (h : AgreeOn p f g) : AgreeOn p g f := fun a =>
  (h a).imp Eq.symm And.symm

lemma AgreeOn.map (h : AgreeOn p f g) (q : β → β) (hq : ∀ b, p (q b) = p b) :
    AgreeOn p (fun a => (f a).map q) fun a => (g a).map q := fun a => by
  rcases h a with h | ⟨hf, hg⟩
  · exact .inl (congrArg (List.map q) h)
  · exact .inr ⟨by simpa [hq] using hf, by simpa [hq] using hg⟩

/-- A symbol is written alike where its writing has a part of the kind. -/
lemma AgreeOn.eq_of_mem (h : AgreeOn p f g) {b : β} (hb : b ∈ f a) (hp : p b = true) : f a = g a := by
  rcases h a with h | ⟨h, -⟩
  · exact h
  · rw [h b hb] at hp
    cases hp

/-- A piece that begins in what is left of a symbol's writing begins so in the other. -/
lemma prefix_step (hv : ∀ b ∈ v, p b = true)
    (ih : ∀ {v : List β}, (∀ b ∈ v, p b = true) → v <+: s.flatMap f → v <+: s.flatMap g)
    (h : v <+: e ++ s.flatMap f) : v <+: e ++ s.flatMap g := by
  rcases List.prefix_or_prefix_of_prefix h (List.prefix_append e _) with h' | ⟨r, rfl⟩
  · exact h'.trans (List.prefix_append _ _)
  · have hr := (List.prefix_append_right_inj e).mp h
    have hall : ∀ b ∈ r, p b = true := fun b hb => hv b (List.mem_append_right e hb)
    exact (List.prefix_append_right_inj e).mpr (ih hall hr)

lemma prefix_transfer (hagree : AgreeOn p f g) (hne : ∀ a, f a ≠ []) (hv : ∀ b ∈ v, p b = true)
    (h : v <+: s.flatMap f) : v <+: s.flatMap g := by
  induction s generalizing v with
  | nil => exact h
  | cons a s ih =>
      cases v with
      | nil => exact List.nil_prefix
      | cons b v =>
          have hb : b ∈ f a := by
            cases hfa : f a with
            | nil => exact absurd hfa (hne a)
            | cons c r =>
                rw [List.flatMap_cons, hfa, List.cons_append, List.cons_prefix_cons] at h
                rw [h.1]
                exact List.mem_cons_self
          rw [List.flatMap_cons] at h ⊢
          rw [← hagree.eq_of_mem hb (hv b List.mem_cons_self)]
          exact prefix_step hv (fun hv h => ih hv h) h

/-- **A piece that both writings have in common is in both.** -/
lemma infix_transfer (hagree : AgreeOn p f g) (hne : ∀ a, f a ≠ []) (hv : ∀ b ∈ v, p b = true)
    (h : v <:+: s.flatMap f) : v <:+: s.flatMap g := by
  induction s with
  | nil => exact h
  | cons a s ih =>
      obtain ⟨x, y, hxy⟩ := h
      rw [List.flatMap_cons] at hxy ⊢
      rw [List.append_assoc] at hxy
      rcases List.append_eq_append_iff.mp hxy with ⟨e, hfa, he⟩ | ⟨e, rfl, he⟩
      · cases v with
        | nil => exact List.nil_infix
        | cons b v =>
            cases e with
            | nil =>
                have hin : b :: v <:+: s.flatMap f := ⟨[], y, by simpa using he⟩
                exact (ih hin).trans (List.suffix_append _ _).isInfix
            | cons c e =>
                obtain rfl : b = c := by simpa using congrArg List.head? he
                have hb : b ∈ f a := by simp [hfa]
                have hstep := prefix_step hv (fun hv h => prefix_transfer hagree hne hv h)
                  (⟨y, he⟩ : b :: v <+: b :: e ++ s.flatMap f)
                rw [← hagree.eq_of_mem hb (hv b List.mem_cons_self), hfa, List.append_assoc]
                exact hstep.isInfix.trans (List.suffix_append x _).isInfix
      · have hin : v <:+: s.flatMap f := ⟨e, y, by rw [he, List.append_assoc]⟩
        exact (ih hin).trans (List.suffix_append _ _).isInfix

end Writings

end Windows
