import Mathlib.Data.List.Basic
import Mathlib.Tactic.Common

/-!
# Lower case

A `CaseTable` is the part of Unicode's data that lower-casing reads.  A character is lower-cased by the
table; a text is lower-cased character by character too, but for the capital sigma, which is written in
its final form at the end of a word (`toLowercase`).  A text of ASCII characters has no such letter:
`toLowercase_ascii`.
-/

/-- One of the first 128 characters. -/
def isAscii (c : Char) : Bool := c.val < 128

/-- The data of lower-casing. -/
structure CaseTable where
  /-- A character's lower case, of one or more characters. -/
  lower : Char → List Char
  cased : Char → Bool
  caseIgnorable : Char → Bool
  lower_ascii : ∀ c, isAscii c = true → lower c = [c.toLower]
  lower_sigma : lower 'Σ' = ['σ']
  lower_ne_nil : ∀ c, lower c ≠ []

namespace CaseTable

variable (u : CaseTable) {c : Char} {text before : List Char}

/-- Whether the first character that counts is a letter with a case. -/
def caseIgnorableThenCased (cs : List Char) : Bool :=
  match cs.dropWhile u.caseIgnorable with
  | c :: _ => u.cased c
  | [] => false

/-- A capital sigma, written for its place in the word: `before` is what comes before it, read
backwards. -/
def lowerSigma (before after : List Char) : Char :=
  if u.caseIgnorableThenCased before && !u.caseIgnorableThenCased after then 'ς' else 'σ'

/-- Lower-casing from a place on. -/
def lowerFrom (before : List Char) : List Char → List Char
  | [] => []
  | c :: after =>
      (if c = 'Σ' then [u.lowerSigma before after] else u.lower c) ++ lowerFrom (c :: before) after

/-- A text in lower case. -/
def toLowercase (text : List Char) : List Char := u.lowerFrom [] text

lemma lowerFrom_ascii (h : ∀ c ∈ text, isAscii c = true) :
    u.lowerFrom before text = text.map Char.toLower := by
  induction text generalizing before with
  | nil => rfl
  | cons c text ih =>
      have hc : isAscii c = true := h c List.mem_cons_self
      have hsigma : c ≠ 'Σ' := by
        rintro rfl
        exact absurd hc (by decide)
      rw [lowerFrom, if_neg hsigma, u.lower_ascii c hc, ih fun d hd => h d (List.mem_cons_of_mem c hd)]
      rfl

/-- **A text of ASCII characters is lower-cased letter by letter.** -/
lemma toLowercase_ascii (h : text.all isAscii = true) : u.toLowercase text = text.map Char.toLower :=
  u.lowerFrom_ascii fun c hc => List.all_eq_true.mp h c hc

/-- **The two sigmas apart, a text is lower-cased character by character.** -/
lemma lowerFrom_sigma (f : Char → Char) (hf : f 'ς' = f 'σ') :
    (u.lowerFrom before text).map f = text.flatMap fun c => (u.lower c).map f := by
  induction text generalizing before with
  | nil => rfl
  | cons c text ih =>
      rw [lowerFrom, List.map_append, ih, List.flatMap_cons]
      congr 1
      by_cases hc : c = 'Σ'
      · subst hc
        rw [if_pos rfl, u.lower_sigma, lowerSigma]
        split
        · simp [hf]
        · rfl
      · rw [if_neg hc]

end CaseTable
