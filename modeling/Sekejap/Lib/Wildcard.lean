import Mathlib.Data.List.Infix
import Mathlib.Data.List.Basic
import Mathlib.Tactic.Common

/-!
# Wildcard patterns

A pattern is a list of tokens: one symbol, any one symbol, or any run of symbols.  `Fits` says that a
text is cut into parts that the tokens name, one after another.  What a pattern of a given form asks of
a text is said by a lemma each: symbols alone (`fits_literal`), and symbols before, after or between
runs (`fits_starts`, `fits_ends`, `fits_holds`).
-/

namespace Wildcard

/-- One token of a pattern over the symbols `α`. -/
inductive Token (α : Type*) where
  | char (a : α)
  | one
  | many
  deriving DecidableEq

variable {α β : Type*} {a b : α} {tokens ps qs : List (Token α)} {s t u : List α}

/-- **The text is cut into the parts that the tokens name.** -/
inductive Fits : List (Token α) → List α → Prop
  | nil : Fits [] []
  | char (a : α) {ps : List (Token α)} {t : List α} : Fits ps t → Fits (.char a :: ps) (a :: t)
  | one (a : α) {ps : List (Token α)} {t : List α} : Fits ps t → Fits (.one :: ps) (a :: t)
  | many (run : List α) {ps : List (Token α)} {t : List α} :
      Fits ps t → Fits (.many :: ps) (run ++ t)

/-- The tokens of a text taken literally. -/
def literal (s : List α) : List (Token α) := s.map .char

@[simp] lemma literal_nil : literal ([] : List α) = [] := rfl

@[simp] lemma literal_cons : literal (a :: s) = .char a :: literal s := rfl

@[simp] lemma literal_append : literal (s ++ t) = literal s ++ literal t := List.map_append

/-! ## The first token -/

@[simp] lemma fits_nil_iff : Fits [] t ↔ t = [] := by
  constructor
  · rintro ⟨⟩
    rfl
  · rintro rfl
    exact .nil

lemma fits_char_iff : Fits (.char a :: ps) t ↔ ∃ v, t = a :: v ∧ Fits ps v := by
  constructor
  · rintro ⟨⟩
    exact ⟨_, rfl, ‹_›⟩
  · rintro ⟨v, rfl, h⟩
    exact .char a h

lemma fits_one_iff : Fits (.one :: ps) t ↔ ∃ b v, t = b :: v ∧ Fits ps v := by
  constructor
  · rintro ⟨⟩
    exact ⟨_, _, rfl, ‹_›⟩
  · rintro ⟨b, v, rfl, h⟩
    exact .one b h

lemma fits_many_iff : Fits (.many :: ps) t ↔ ∃ k ≤ t.length, Fits ps (t.drop k) := by
  constructor
  · rintro ⟨⟩
    rename_i run v h
    exact ⟨run.length, by simp, by simpa using h⟩
  · rintro ⟨k, -, h⟩
    rw [← List.take_append_drop k t]
    exact .many _ h

@[simp] lemma fits_char_cons : Fits (.char a :: ps) (b :: t) ↔ a = b ∧ Fits ps t := by
  rw [fits_char_iff]
  constructor
  · rintro ⟨v, h, hv⟩
    obtain ⟨rfl, rfl⟩ := List.cons.inj h
    exact ⟨rfl, hv⟩
  · rintro ⟨rfl, h⟩
    exact ⟨t, rfl, h⟩

@[simp] lemma fits_one_cons : Fits (.one :: ps) (b :: t) ↔ Fits ps t := by
  rw [fits_one_iff]
  constructor
  · rintro ⟨c, v, h, hv⟩
    obtain ⟨rfl, rfl⟩ := List.cons.inj h
    exact hv
  · exact fun h => ⟨b, t, rfl, h⟩

@[simp] lemma not_fits_char_nil : ¬ Fits (.char a :: ps) [] := by
  rintro ⟨⟩

@[simp] lemma not_fits_one_nil : ¬ Fits (.one :: ps) ([] : List α) := by
  rintro ⟨⟩

/-- A text of no symbols fits just the patterns of nothing but runs. -/
lemma fits_nil_right : Fits tokens ([] : List α) ↔ ∀ x ∈ tokens, x = .many := by
  induction tokens with
  | nil => simp
  | cons x ps ih =>
      cases x with
      | char a => simp
      | one => simp
      | many => simp [fits_many_iff, ih]

/-! ## Patterns put together -/

lemma Fits.append (hs : Fits ps s) (ht : Fits qs t) : Fits (ps ++ qs) (s ++ t) := by
  induction hs with
  | nil => exact ht
  | char a _ ih => exact .char a ih
  | one a _ ih => exact .one a ih
  | many run _ ih =>
      rw [List.append_assoc]
      exact .many run ih

lemma fits_append_iff : Fits (ps ++ qs) t ↔ ∃ u v, t = u ++ v ∧ Fits ps u ∧ Fits qs v := by
  constructor
  · intro h
    induction ps generalizing t with
    | nil => exact ⟨[], t, rfl, .nil, h⟩
    | cons x ps ih =>
        cases x with
        | char a =>
            obtain ⟨w, rfl, hw⟩ := fits_char_iff.mp h
            obtain ⟨u, v, rfl, hu, hv⟩ := ih hw
            exact ⟨a :: u, v, rfl, .char a hu, hv⟩
        | one =>
            obtain ⟨b, w, rfl, hw⟩ := fits_one_iff.mp h
            obtain ⟨u, v, rfl, hu, hv⟩ := ih hw
            exact ⟨b :: u, v, rfl, .one b hu, hv⟩
        | many =>
            obtain ⟨k, -, hw⟩ := fits_many_iff.mp h
            obtain ⟨u, v, hk, hu, hv⟩ := ih hw
            refine ⟨t.take k ++ u, v, ?_, .many _ hu, hv⟩
            rw [List.append_assoc, ← hk, List.take_append_drop]
  · rintro ⟨u, v, rfl, hu, hv⟩
    exact hu.append hv

@[simp] lemma fits_literal : Fits (literal s) t ↔ t = s := by
  induction s generalizing t with
  | nil => simp
  | cons a s ih => simp [fits_char_iff, ih]

lemma fits_many : Fits [.many] t := by
  simpa using Fits.many t .nil

lemma fits_starts : Fits (literal s ++ [.many]) t ↔ s <+: t := by
  rw [fits_append_iff]
  constructor
  · rintro ⟨u, v, rfl, hu, -⟩
    rw [fits_literal.mp hu]
    exact s.prefix_append v
  · rintro ⟨v, rfl⟩
    exact ⟨s, v, rfl, fits_literal.mpr rfl, fits_many⟩

lemma fits_many_cons_iff : Fits (.many :: ps) t ↔ ∃ u v, t = u ++ v ∧ Fits ps v := by
  rw [← List.singleton_append, fits_append_iff]
  constructor
  · rintro ⟨u, v, h, -, hv⟩
    exact ⟨u, v, h, hv⟩
  · rintro ⟨u, v, h, hv⟩
    exact ⟨u, v, h, fits_many, hv⟩

lemma fits_ends : Fits (.many :: literal s) t ↔ s <:+ t := by
  simp only [fits_many_cons_iff, fits_literal]
  constructor
  · rintro ⟨u, v, rfl, rfl⟩
    exact List.suffix_append u v
  · rintro ⟨u, rfl⟩
    exact ⟨u, s, rfl, rfl⟩

lemma fits_holds : Fits (.many :: (literal s ++ [.many])) t ↔ s <:+: t := by
  simp only [fits_many_cons_iff, fits_starts]
  constructor
  · rintro ⟨u, v, rfl, w, rfl⟩
    exact ⟨u, w, by simp⟩
  · rintro ⟨u, w, rfl⟩
    exact ⟨u, s ++ w, by simp, s.prefix_append w⟩

/-- A run takes the text up to a later place. -/
lemma fits_many_drop {i : ℕ} : Fits (.many :: ps) (t.drop i) ↔ ∃ k, i ≤ k ∧ Fits ps (t.drop k) := by
  constructor
  · intro h
    obtain ⟨k, -, hk⟩ := fits_many_iff.mp h
    exact ⟨i + k, Nat.le_add_right i k, by rwa [List.drop_drop] at hk⟩
  · rintro ⟨k, hik, hk⟩
    refine fits_many_cons_iff.mpr ⟨(t.drop i).take (k - i), _, (List.take_append_drop _ _).symm, ?_⟩
    rwa [List.drop_drop, Nat.add_sub_cancel' hik]

/-- Two runs are one run. -/
lemma fits_many_many : Fits (.many :: .many :: ps) t ↔ Fits (.many :: ps) t := by
  simp only [fits_many_cons_iff]
  constructor
  · rintro ⟨u, v, rfl, u', v', rfl, h⟩
    exact ⟨u ++ u', v', by simp, h⟩
  · rintro ⟨u, v, rfl, h⟩
    exact ⟨u, v, rfl, [], v, rfl, h⟩

/-- Tokens that are no runs take one symbol each. -/
lemma fits_singles (hps : Token.many ∉ ps) (h : Fits (ps ++ qs) t) :
    ps.length ≤ t.length ∧ Fits qs (t.drop ps.length) := by
  induction ps generalizing t with
  | nil => exact ⟨Nat.zero_le _, by simpa using h⟩
  | cons x ps ih =>
      rw [List.mem_cons, not_or] at hps
      cases t with
      | nil =>
          have := fits_nil_right.mp h x (by simp)
          exact absurd this.symm hps.1
      | cons b t =>
          have htail : Fits (ps ++ qs) t := by
            cases x with
            | char a => exact (fits_char_cons.mp h).2
            | one => exact fits_one_cons.mp h
            | many => exact absurd rfl hps.1
          obtain ⟨hle, hfit⟩ := ih hps.2 htail
          exact ⟨by simpa using hle, by simpa using hfit⟩

/-- What fits between other tokens is between what fits these, marked at an end where there are none. -/
lemma Fits.marked {m m' n n' : List α} (h : Fits (ps ++ literal s ++ qs) t)
    (hm : m' = [] ∨ m' = m ∧ ps = []) (hn : n' = [] ∨ n' = n ∧ qs = []) :
    m' ++ s ++ n' <:+: m ++ t ++ n := by
  obtain ⟨u, v, rfl, hu, hv⟩ := fits_append_iff.mp h
  obtain ⟨x, y, rfl, hx, hy⟩ := fits_append_iff.mp hu
  obtain rfl := fits_literal.mp hy
  have hleft : ∃ a, m ++ x = a ++ m' := by
    rcases hm with rfl | ⟨rfl, rfl⟩
    · exact ⟨m ++ x, (List.append_nil _).symm⟩
    · exact ⟨[], by simp [fits_nil_iff.mp hx]⟩
  have hright : ∃ b, v ++ n = n' ++ b := by
    rcases hn with rfl | ⟨rfl, rfl⟩
    · exact ⟨v ++ n, rfl⟩
    · exact ⟨[], by simp [fits_nil_iff.mp hv]⟩
  obtain ⟨a, ha⟩ := hleft
  obtain ⟨b, hb⟩ := hright
  refine ⟨a, b, ?_⟩
  calc a ++ (m' ++ y ++ n') ++ b = (a ++ m') ++ y ++ (n' ++ b) := by simp
    _ = (m ++ x) ++ y ++ (v ++ n) := by rw [ha, hb]
    _ = m ++ (x ++ y ++ v) ++ n := by simp

/-! ## Symbols written in another way -/

/-- A token for each symbol that stands for the symbol of a literal token. -/
def Token.expand (f : α → List β) : Token α → List (Token β)
  | .char a => literal (f a)
  | .one => [.one]
  | .many => [.many]

@[simp] lemma flatMap_expand_literal (f : α → List β) :
    (literal s).flatMap (Token.expand f) = literal (s.flatMap f) := by
  induction s with
  | nil => rfl
  | cons a s ih => simp [Token.expand, ih]

lemma flatMap_expand_map (f : α → List β) {γ : Type*} (g : β → γ) (ps : List (Token α)) :
    (ps.flatMap (Token.expand f)).flatMap (Token.expand fun b => [g b]) =
      ps.flatMap (Token.expand fun a => (f a).map g) := by
  induction ps with
  | nil => rfl
  | cons k ps ih =>
      cases k with
      | char a => simp [Token.expand, ih, List.map_eq_flatMap]
      | one => simp [Token.expand, ih]
      | many => simp [Token.expand, ih]

@[simp] lemma flatMap_expand_self (ps : List (Token α)) :
    ps.flatMap (Token.expand fun a => [a]) = ps := by
  induction ps with
  | nil => rfl
  | cons k ps ih => cases k <;> simp [Token.expand, ih]

/-- Symbols renamed on both sides. -/
lemma Fits.map (f : α → β) (h : Fits ps t) :
    Fits (ps.flatMap (Token.expand fun a => [f a])) (t.map f) := by
  induction h with
  | nil => exact .nil
  | char a _ ih => exact .char (f a) ih
  | one a _ ih => exact .one (f a) ih
  | many run _ ih =>
      rw [List.map_append]
      exact .many (run.map f) ih

end Wildcard
