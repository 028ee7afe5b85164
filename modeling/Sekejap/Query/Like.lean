import Sekejap.Lib.CaseTable
import Sekejap.Lib.Utf8
import Sekejap.Lib.Wildcard

/-!
# `LIKE` and `ILIKE`

A pattern is compiled once.  What it says is read off character by character (`Reads`): an escaped
character stands for itself, `%` for any run of characters, `_` for one character.  Compiling gives an
error just where the pattern ends in an escape character that escapes nothing (`compile_fails`), and
otherwise the tokens of a pattern that asks the same (`compiled_fits`).

The shapes that need no walk are answered by the bytes of the text; `Lib/Utf8` says that these find
characters.  The walk returns to the last `%` on a mismatch.  `Walk.Good` is what holds at each of its
turns: the text fits the pattern when what is left fits what is left, or when the last `%` takes more.
-/

open Wildcard Utf8

namespace Like

/-- One element of a compiled pattern. -/
abbrev Token := Wildcard.Token Char

/-- How a compiled pattern is answered. -/
inductive Shape where
  | any
  | exact (s : List Char)
  /-- The source's `Prefix`. -/
  | starts (s : List Char)
  | suffix (s : List Char)
  | contains (s : List Char)
  | general (tokens : List Token)
  deriving DecidableEq

/-- Why a pattern cannot be compiled. -/
structure LikePatternError where
  message : String
  deriving DecidableEq

/-- What the byte search looks for, where there is one. -/
def finderOf : Shape → Option (List UInt8)
  | .contains s => some (utf8 s)
  | _ => none

/-- One compiled pattern. -/
structure LikeMatcher where
  shape : Shape
  insensitive : Bool
  finder : Option (List UInt8)
  /-- The finder is derived from the shape. -/
  finder_eq : finder = finderOf shape

/-! ## Compiling -/

section Compile

variable (u : CaseTable) (escape : Option Char) (insensitive : Bool)

def pushChar (tokens : List Token) (c : Char) : List Token :=
  if insensitive then tokens ++ literal (u.lower c) else tokens ++ [.char c]

/-- The loop over the pattern's characters. -/
def compileTokens : List Char → List Token → Except LikePatternError (List Token)
  | [], tokens => .ok tokens
  | c :: chars, tokens =>
      if some c = escape then
        match chars with
        | [] => .error ⟨"LIKE pattern must not end with escape character"⟩
        | next :: rest => compileTokens rest (pushChar u insensitive tokens next)
      else if c = '%' then
        -- adjacent `%` are one `%`
        compileTokens chars (if tokens.getLast? ≠ some .many then tokens ++ [.many] else tokens)
      else if c = '_' then compileTokens chars (tokens ++ [.one])
      else compileTokens chars (pushChar u insensitive tokens c)

end Compile

/-- The text of tokens that are all characters. -/
def literalOf (tokens : List Token) : Option (List Char) :=
  tokens.mapM fun
    | .char c => some c
    | _ => none

/-- Patterns without `_` whose `%` stand at their ends are tests of a string. -/
def shapeOf (tokens : List Token) : Shape :=
  if tokens.all (· == .many) then
    if tokens.isEmpty then .exact [] else .any
  else
    let starts := tokens.head? == some .many
    let ends := tokens.getLast? == some .many
    let inner := (tokens.take (tokens.length - ends.toNat)).drop starts.toNat
    match starts, ends, literalOf inner with
    | false, false, some s => .exact s
    | false, true, some s => .starts s
    | true, false, some s => .suffix s
    | true, true, some s => .contains s
    | _, _, none => .general tokens

/-- A matcher of the shape given. -/
def LikeMatcher.ofShape (shape : Shape) (insensitive : Bool) : LikeMatcher where
  shape := shape
  insensitive := insensitive
  finder := finderOf shape
  finder_eq := rfl

def LikeMatcher.compile (u : CaseTable) (pattern : List Char) (escape : Option Char)
    (insensitive : Bool) : Except LikePatternError LikeMatcher := do
  let tokens ← compileTokens u escape insensitive pattern []
  pure (.ofShape (shapeOf tokens) insensitive)

/-! ## The walk -/

/-- Where the walk is: the text's character, the pattern's token, and the last `%` with the character
up to which it has taken the text, which the walk has not gone back behind. -/
structure Walk where
  t : ℕ
  p : ℕ
  star : Option (ℕ × ℕ)
  star_le : ∀ s ∈ star, s.2 ≤ t

/-- The walk's start. -/
def Walk.start : Walk := ⟨0, 0, none, by simp⟩

/-- The walk moves on by one character and one token. -/
def Walk.advance (w : Walk) : Walk :=
  ⟨w.t + 1, w.p + 1, w.star, fun s hs => (w.star_le s hs).trans (Nat.le_succ _)⟩

/-- The walk meets a `%`, which takes nothing at first. -/
def Walk.save (w : Walk) : Walk :=
  ⟨w.t, w.p + 1, some (w.p, w.t), by simp⟩

/-- The walk returns to the last `%`, which takes one more character. -/
def Walk.back (sp st : ℕ) : Walk :=
  ⟨st + 1, sp + 1, some (sp, st + 1), by simp⟩

/-- One turn of the loop: the walk goes on, or the answer is known. -/
def turn (tokens : List Token) (text : List Char) (w : Walk) : Walk ⊕ Bool :=
  match text[w.t]? with
  | none => .inr ((tokens.drop w.p).all (· == .many))
  | some x =>
      match tokens[w.p]? with
      | some .many => .inl w.save
      | some .one => .inl w.advance
      | some (.char c) => if c = x then .inl w.advance else mismatch
      | none => mismatch
where
  mismatch : Walk ⊕ Bool :=
    match w.star with
    | some (sp, st) => .inl (Walk.back sp st)
    | none => .inr false

section Turns

variable {tokens : List Token} {text : List Char} {w w' : Walk} {b : Bool}

/-- A token that the walk takes a character for. -/
def takes : Token → Char → Bool
  | .char c, x => c = x
  | .one, _ => true
  | .many, _ => false

/-- **What a turn does that goes on.** -/
lemma turn_cases (h : turn tokens text w = .inl w') :
    ∃ x, text[w.t]? = some x ∧
      ((tokens[w.p]? = some .many ∧ w' = w.save) ∨
        (∃ k, tokens[w.p]? = some k ∧ takes k x = true ∧ w' = w.advance) ∨
        ∃ sp st, w.star = some (sp, st) ∧ w' = Walk.back sp st ∧
          ∀ k, tokens[w.p]? = some k → k ≠ .many ∧ takes k x = false) := by
  have hmis (hm : turn.mismatch w = .inl w') : ∃ sp st, w.star = some (sp, st) ∧ w' = Walk.back sp st := by
    rw [turn.mismatch] at hm
    split at hm
    · rename_i sp st hs
      exact ⟨sp, st, hs, (Sum.inl.inj hm).symm⟩
    · cases hm
  rw [turn] at h
  split at h
  · cases h
  · rename_i x hx
    refine ⟨x, hx, ?_⟩
    split at h
    · rename_i hp
      exact .inl ⟨hp, (Sum.inl.inj h).symm⟩
    · rename_i hp
      exact .inr (.inl ⟨_, hp, rfl, (Sum.inl.inj h).symm⟩)
    · rename_i c hp
      by_cases hc : c = x
      · rw [if_pos hc] at h
        exact .inr (.inl ⟨_, hp, by simp [takes, hc], (Sum.inl.inj h).symm⟩)
      · rw [if_neg hc] at h
        obtain ⟨sp, st, hs, hw⟩ := hmis h
        refine .inr (.inr ⟨sp, st, hs, hw, fun k hk => ?_⟩)
        obtain rfl : Token.char c = k := Option.some.inj (hp.symm.trans hk)
        exact ⟨nofun, by simp [takes, hc]⟩
    · rename_i hp
      obtain ⟨sp, st, hs, hw⟩ := hmis h
      refine .inr (.inr ⟨sp, st, hs, hw, fun k hk => ?_⟩)
      rw [hp] at hk
      cases hk

/-- **What a turn finds that gives the answer.** -/
lemma turn_done (h : turn tokens text w = .inr b) :
    (text.length ≤ w.t ∧ b = (tokens.drop w.p).all (· == .many)) ∨
      ∃ x, text[w.t]? = some x ∧ b = false ∧ w.star = none ∧
        ∀ k, tokens[w.p]? = some k → k ≠ .many ∧ takes k x = false := by
  have hmis (hm : turn.mismatch w = .inr b) : b = false ∧ w.star = none := by
    rw [turn.mismatch] at hm
    split at hm
    · cases hm
    · rename_i hs
      exact ⟨(Sum.inr.inj hm).symm, hs⟩
  rw [turn] at h
  split at h
  · rename_i ht
    exact .inl ⟨List.getElem?_eq_none_iff.mp ht, (Sum.inr.inj h).symm⟩
  · rename_i x hx
    right
    refine ⟨x, hx, ?_⟩
    split at h
    · cases h
    · cases h
    · rename_i c hp
      by_cases hc : c = x
      · rw [if_pos hc] at h
        cases h
      · rw [if_neg hc] at h
        obtain ⟨hb, hs⟩ := hmis h
        refine ⟨hb, hs, fun k hk => ?_⟩
        obtain rfl : Token.char c = k := Option.some.inj (hp.symm.trans hk)
        exact ⟨nofun, by simp [takes, hc]⟩
    · rename_i hp
      obtain ⟨hb, hs⟩ := hmis h
      refine ⟨hb, hs, fun k hk => ?_⟩
      rw [hp] at hk
      cases hk

/-- How often the last `%` can still take one character more. -/
def Walk.retries (text : List Char) (w : Walk) : ℕ :=
  match w.star with
  | none => text.length + 1
  | some s => text.length - s.2

/-- A bound on the turns that are left: each one uses up a token or a retry. -/
def Walk.left (tokens : List Token) (text : List Char) (w : Walk) : ℕ :=
  w.retries text * (tokens.length + 1) + (tokens.length - w.p)

lemma turn_left (h : turn tokens text w = .inl w') : w'.left tokens text < w.left tokens text := by
  obtain ⟨x, hx, ⟨hp, rfl⟩ | ⟨k, hp, -, rfl⟩ | ⟨sp, st, hs, rfl, -⟩⟩ := turn_cases h
  · have hlt : w.p < tokens.length := (List.getElem?_eq_some_iff.mp hp).1
    have hle : w.save.retries text ≤ w.retries text := by
      cases hs : w.star with
      | none => simp only [Walk.retries, Walk.save, hs]; omega
      | some s =>
          have := w.star_le s hs
          simp only [Walk.retries, Walk.save, hs]
          omega
    have := Nat.mul_le_mul_right (tokens.length + 1) hle
    simp only [Walk.left]
    simp only [Walk.save] at this ⊢
    omega
  · have hlt : w.p < tokens.length := (List.getElem?_eq_some_iff.mp hp).1
    have heq : w.advance.retries text = w.retries text := rfl
    simp only [Walk.left, heq]
    simp only [Walk.advance]
    omega
  · have hlt : w.t < text.length := (List.getElem?_eq_some_iff.mp hx).1
    have hle := w.star_le _ hs
    have hone : w.retries text = (Walk.back sp st).retries text + 1 := by
      simp only [Walk.retries, Walk.back, hs]
      omega
    simp only [Walk.left, hone, Nat.add_mul]
    simp only [Walk.back]
    omega

end Turns

/-- The walk from a place on. -/
def walk (tokens : List Token) (text : List Char) (w : Walk) : Bool :=
  match _h : turn tokens text w with
  | .inr b => b
  | .inl w' => walk tokens text w'
termination_by w.left tokens text
decreasing_by exact turn_left ‹_›

/-- The classic wildcard walk over characters. -/
def wildcard (tokens : List Token) (text : List Char) : Bool := walk tokens text .start

/-! ## What the walk answers -/

section Answer

variable {tokens : List Token} {text : List Char} {w w' : Walk} {b : Bool} {n : ℕ}

/-- The walk gives the answer after so many turns that go on. -/
inductive Takes (tokens : List Token) (text : List Char) : Walk → ℕ → Bool → Prop
  | done {w : Walk} {b : Bool} : turn tokens text w = .inr b → Takes tokens text w 0 b
  | next {w w' : Walk} {n : ℕ} {b : Bool} :
      turn tokens text w = .inl w' → Takes tokens text w' n b → Takes tokens text w (n + 1) b

/-- **The walk comes to its end.** -/
lemma exists_takes (tokens : List Token) (text : List Char) (w : Walk) :
    ∃ n ≤ w.left tokens text, Takes tokens text w n (walk tokens text w) := by
  induction hm : w.left tokens text using Nat.strong_induction_on generalizing w with
  | h m ih =>
      subst hm
      rw [walk]
      split
      · rename_i b h
        exact ⟨0, Nat.zero_le _, .done h⟩
      · rename_i w' h
        obtain ⟨n, hn, ht⟩ := ih _ (turn_left h) w' rfl
        exact ⟨n + 1, hn.trans_lt (turn_left h), .next h ht⟩

/-- The text fits the pattern when the last `%` takes more than it has taken. -/
def Retry (tokens : List Token) (text : List Char) (w : Walk) : Prop :=
  ∃ s ∈ w.star, ∃ k, s.2 < k ∧ Fits (tokens.drop (s.1 + 1)) (text.drop k)

/-- **What holds at each turn.**  Since the last `%` the walk has passed tokens that take one character
each, and it has lost no way for the text to fit. -/
structure Walk.Good (tokens : List Token) (text : List Char) (w : Walk) : Prop where
  passed : ∀ s ∈ w.star, ∃ ps : List Token, tokens.drop (s.1 + 1) = ps ++ tokens.drop w.p ∧
    Token.many ∉ ps ∧ w.t = s.2 + ps.length
  fits_iff : Fits tokens text ↔ Fits (tokens.drop w.p) (text.drop w.t) ∨ Retry tokens text w

lemma good_start : Walk.start.Good tokens text where
  passed := by simp [Walk.start]
  fits_iff := by simp [Walk.start, Retry]

lemma drop_eq_cons {α : Type*} {l : List α} {i : ℕ} {x : α} (h : l[i]? = some x) :
    l.drop i = x :: l.drop (i + 1) := by
  obtain ⟨hi, rfl⟩ := List.getElem?_eq_some_iff.mp h
  exact List.drop_eq_getElem_cons hi

/-- What a later place of the last `%` comes to at the token the walk has reached. -/
lemma Walk.Good.retry (hg : w.Good tokens text) (h : Retry tokens text w) :
    ∃ k, w.t < k ∧ Fits (tokens.drop w.p) (text.drop k) := by
  obtain ⟨s, hs, k, hk, hfit⟩ := h
  obtain ⟨ps, hps, hmany, ht⟩ := hg.passed s hs
  rw [hps] at hfit
  refine ⟨k + ps.length, by omega, ?_⟩
  have hrest := (fits_singles hmany hfit).2
  rwa [List.drop_drop] at hrest

lemma Walk.Good.save (hg : w.Good tokens text) (hp : tokens[w.p]? = some .many) :
    w.save.Good tokens text where
  passed := by
    rintro s ⟨⟩
    exact ⟨[], rfl, by simp, rfl⟩
  fits_iff := by
    have hsplit : (∃ k, w.t ≤ k ∧ Fits (tokens.drop (w.p + 1)) (text.drop k)) ↔
        Fits (tokens.drop w.save.p) (text.drop w.save.t) ∨ Retry tokens text w.save := by
      constructor
      · rintro ⟨k, hk, h⟩
        rcases hk.eq_or_lt with rfl | hlt
        · exact .inl h
        · exact .inr ⟨_, rfl, k, hlt, h⟩
      · rintro (h | ⟨s, hs, k, hk, h⟩)
        · exact ⟨w.t, le_rfl, h⟩
        · obtain rfl : (w.p, w.t) = s := Option.some.inj hs
          exact ⟨k, hk.le, h⟩
    rw [← hsplit, hg.fits_iff, drop_eq_cons hp, fits_many_drop]
    constructor
    · rintro (h | h)
      · exact h
      · obtain ⟨k, hk, hfit⟩ := hg.retry h
        rw [drop_eq_cons hp, fits_many_drop] at hfit
        obtain ⟨j, hj, hfit⟩ := hfit
        exact ⟨j, by omega, hfit⟩
    · exact .inl

lemma fits_takes {k : Token} {x : Char} {ps : List Token} {t : List Char} (h : takes k x = true) :
    Fits (k :: ps) (x :: t) ↔ Fits ps t := by
  cases k with
  | char c => simp_all [takes]
  | one => simp
  | many => simp [takes] at h

lemma Walk.Good.advance (hg : w.Good tokens text) {k : Token} {x : Char} (hx : text[w.t]? = some x)
    (hp : tokens[w.p]? = some k) (htakes : takes k x = true) : w.advance.Good tokens text where
  passed := by
    intro s hs
    obtain ⟨ps, hps, hmany, ht⟩ := hg.passed s hs
    refine ⟨ps ++ [k], ?_, ?_, ?_⟩
    · rw [hps, drop_eq_cons hp, List.append_assoc]
      rfl
    · rw [List.mem_append, not_or, List.mem_singleton]
      refine ⟨hmany, ?_⟩
      rintro rfl
      simp [takes] at htakes
    · simp only [Walk.advance, List.length_append, List.length_singleton]
      omega
  fits_iff := by
    rw [hg.fits_iff, drop_eq_cons hp, drop_eq_cons hx, fits_takes htakes]
    rfl

/-- Where the token does not take the character only the last `%` can help. -/
lemma not_fits_of_mismatch {x : Char} (hx : text[w.t]? = some x)
    (hmis : ∀ k, tokens[w.p]? = some k → k ≠ .many ∧ takes k x = false) :
    ¬ Fits (tokens.drop w.p) (text.drop w.t) := by
  rw [drop_eq_cons hx]
  cases hp : tokens[w.p]? with
  | none => simp [List.drop_eq_nil_of_le (List.getElem?_eq_none_iff.mp hp)]
  | some k =>
      obtain ⟨hmany, htakes⟩ := hmis k hp
      rw [drop_eq_cons hp]
      cases k with
      | char c => simp_all [takes]
      | one => simp [takes] at htakes
      | many => exact absurd rfl hmany

lemma Walk.Good.back (hg : w.Good tokens text) {x : Char} {sp st : ℕ} (hx : text[w.t]? = some x)
    (hs : w.star = some (sp, st))
    (hmis : ∀ k, tokens[w.p]? = some k → k ≠ .many ∧ takes k x = false) :
    (Walk.back sp st).Good tokens text where
  passed := by
    rintro s ⟨⟩
    exact ⟨[], rfl, by simp, rfl⟩
  fits_iff := by
    rw [hg.fits_iff, or_iff_right (not_fits_of_mismatch hx hmis)]
    constructor
    · rintro ⟨s, hs', k, hk, h⟩
      obtain rfl : (sp, st) = s := Option.some.inj (hs.symm.trans hs')
      rcases (Nat.succ_le_of_lt hk).eq_or_lt with rfl | hlt
      · exact .inl h
      · exact .inr ⟨_, rfl, k, hlt, h⟩
    · rintro (h | ⟨s, hs', k, hk, h⟩)
      · exact ⟨_, hs, st + 1, Nat.lt_succ_self st, h⟩
      · obtain rfl : (sp, st + 1) = s := Option.some.inj hs'
        exact ⟨_, hs, k, Nat.lt_of_succ_lt hk, h⟩

/-- **A turn keeps what holds.** -/
lemma Walk.Good.turn (hg : w.Good tokens text) (h : turn tokens text w = .inl w') :
    w'.Good tokens text := by
  obtain ⟨x, hx, ⟨hp, rfl⟩ | ⟨k, hp, htakes, rfl⟩ | ⟨sp, st, hs, rfl, hmis⟩⟩ := turn_cases h
  · exact hg.save hp
  · exact hg.advance hx hp htakes
  · exact hg.back hx hs hmis

/-- **The last turn's answer is right.** -/
lemma Walk.Good.done (hg : w.Good tokens text) (h : Like.turn tokens text w = .inr b) :
    b = true ↔ Fits tokens text := by
  rw [hg.fits_iff]
  rcases turn_done h with ⟨hend, rfl⟩ | ⟨x, hx, rfl, hs, hmis⟩
  · -- the text is used up: what the last `%` could take more is nothing
    have hnil {k : ℕ} (hk : w.t ≤ k) : text.drop k = [] := List.drop_eq_nil_of_le (hend.trans hk)
    have hall : (tokens.drop w.p).all (· == .many) = true ↔ Fits (tokens.drop w.p) (text.drop w.t) := by
      rw [hnil le_rfl, fits_nil_right]
      simp
    rw [hall]
    constructor
    · exact .inl
    · rintro (h | h)
      · exact h
      · obtain ⟨k, hk, hfit⟩ := hg.retry h
        rwa [hnil hk.le, ← hnil le_rfl] at hfit
  · have hretry : ¬ Retry tokens text w := by
      rintro ⟨s, hs', -⟩
      rw [hs] at hs'
      cases hs'
    simp [not_fits_of_mismatch hx hmis, hretry]

/-- **Every walk that comes to its end gives the right answer.** -/
lemma Takes.fits_iff (h : Takes tokens text w n b) (hg : w.Good tokens text) :
    b = true ↔ Fits tokens text := by
  induction h with
  | done h => exact hg.done h
  | next h _ ih => exact ih (hg.turn h)

/-- **The walk answers whether the text fits the tokens.** -/
lemma wildcard_iff (tokens : List Token) (text : List Char) :
    wildcard tokens text = true ↔ Fits tokens text := by
  obtain ⟨n, -, h⟩ := exists_takes tokens text .start
  exact h.fits_iff good_start

end Answer

/-! ## The shapes -/

def LikeMatcher.matchesFolded (m : LikeMatcher) (text : List Char) : Bool :=
  match m.shape with
  | .any => true
  | .exact s => utf8 text == utf8 s
  | .starts s => (utf8 s).isPrefixOf (utf8 text)
  | .suffix s => (utf8 s).isSuffixOf (utf8 text)
  | .contains s =>
      match m.finder with
      | some needle => decide (needle <:+: utf8 text)
      | none => decide (utf8 s <:+: utf8 text)
  | .general tokens => wildcard tokens text

/-- Whether the text matches. -/
def LikeMatcher.matchesText (u : CaseTable) (m : LikeMatcher) (text : List Char) : Bool :=
  if !m.insensitive then
    m.matchesFolded text
  else if text.all isAscii then
    m.matchesFolded (text.map Char.toLower)
  else
    m.matchesFolded (u.toLowercase text)

section Shapes

variable {tokens : List Token} {text s : List Char} {insensitive : Bool}

@[simp] lemma literalOf_char (c : Char) :
    literalOf (.char c :: tokens) = (literalOf tokens).map (c :: ·) := by
  rw [literalOf, List.mapM_cons]
  cases h : literalOf tokens <;> rw [literalOf] at h <;> simp [h]

lemma literalOf_eq_some : literalOf tokens = some s ↔ tokens = literal s := by
  induction tokens generalizing s with
  | nil => cases s <;> simp [literalOf]
  | cons k tokens ih =>
      cases k with
      | char c => cases s <;> simp [ih, and_comm]
      | one => cases s <;> simp [literalOf, List.mapM_cons]
      | many => cases s <;> simp [literalOf, List.mapM_cons]

/-- What a text's bytes are asked is what its characters are asked. -/
lemma matchesFolded_ofShape (shape : Shape) :
    (LikeMatcher.ofShape shape insensitive).matchesFolded text = true ↔
      match shape with
      | .any => True
      | .exact s => text = s
      | .starts s => s <+: text
      | .suffix s => s <:+ text
      | .contains s => s <:+: text
      | .general tokens => Fits tokens text := by
  cases shape with
  | any => simp [LikeMatcher.ofShape, LikeMatcher.matchesFolded]
  | exact s => simp [LikeMatcher.ofShape, LikeMatcher.matchesFolded, utf8_injective.eq_iff]
  | starts s => simp [LikeMatcher.ofShape, LikeMatcher.matchesFolded, utf8_prefix_iff]
  | suffix s => simp [LikeMatcher.ofShape, LikeMatcher.matchesFolded, utf8_suffix_iff]
  | contains s => simp [LikeMatcher.ofShape, LikeMatcher.matchesFolded, finderOf, utf8_infix_iff]
  | general tokens => simp [LikeMatcher.ofShape, LikeMatcher.matchesFolded, wildcard_iff]

lemma fits_of_all_many (hne : tokens ≠ []) (h : ∀ k ∈ tokens, k = .many) : Fits tokens text := by
  cases tokens with
  | nil => exact absurd rfl hne
  | cons k tokens =>
      rw [h k List.mem_cons_self]
      refine fits_many_cons_iff.mpr ⟨text, [], (List.append_nil text).symm, fits_nil_right.mpr ?_⟩
      exact fun k hk => h k (List.mem_cons_of_mem _ hk)

/-- **A shape asks what its tokens ask.** -/
lemma matchesFolded_iff (tokens : List Token) (text : List Char) (insensitive : Bool) :
    (LikeMatcher.ofShape (shapeOf tokens) insensitive).matchesFolded text = true ↔ Fits tokens text := by
  rw [matchesFolded_ofShape, shapeOf]
  by_cases hall : tokens.all (· == .many) = true
  · rw [if_pos hall]
    cases tokens with
    | nil => simp
    | cons k tokens =>
        have hfit : Fits (k :: tokens) text :=
          fits_of_all_many (List.cons_ne_nil k tokens) (by simpa using hall)
        simp [hfit]
  · rw [if_neg hall]
    cases hs : tokens.head? == some .many <;> cases he : tokens.getLast? == some .many
    · -- no run at either end
      simp only [Bool.toNat_false, Nat.sub_zero, List.take_length, List.drop_zero]
      cases hl : literalOf tokens with
      | none => rfl
      | some s =>
          rw [literalOf_eq_some.mp hl]
          simp
    · -- a run at the end
      obtain ⟨l, rfl⟩ := List.getLast?_eq_some_iff.mp (beq_iff_eq.mp he)
      have hinner : ((l ++ [Token.many]).take ((l ++ [Token.many]).length - true.toNat)).drop
          false.toNat = l := by simp
      simp only [hinner]
      cases hl : literalOf l with
      | none => rfl
      | some s =>
          rw [literalOf_eq_some.mp hl, fits_starts]
    · -- a run at the start
      obtain ⟨l, rfl⟩ := List.head?_eq_some_iff.mp (beq_iff_eq.mp hs)
      have hinner : ((Token.many :: l).take ((Token.many :: l).length - false.toNat)).drop
          true.toNat = l := by simp
      simp only [hinner]
      cases hl : literalOf l with
      | none => rfl
      | some s =>
          rw [literalOf_eq_some.mp hl, fits_ends]
    · -- a run at either end, and they are two
      obtain ⟨l, rfl⟩ := List.head?_eq_some_iff.mp (beq_iff_eq.mp hs)
      have hlast : l.getLast? = some .many := by
        cases l with
        | nil => simp at hall
        | cons k l => simpa using he
      obtain ⟨r, rfl⟩ := List.getLast?_eq_some_iff.mp hlast
      have hinner : ((Token.many :: (r ++ [Token.many])).take
          ((Token.many :: (r ++ [Token.many])).length - true.toNat)).drop true.toNat = r := by simp
      simp only [hinner]
      cases hl : literalOf r with
      | none => rfl
      | some s =>
          rw [literalOf_eq_some.mp hl, fits_holds]

end Shapes

/-! ## What a pattern says -/

/-- **What a pattern's characters stand for**, its escapes resolved. -/
inductive Reads (escape : Option Char) : List Char → List Token → Prop
  | nil : Reads escape [] []
  | escaped {e c : Char} {rest : List Char} {ps : List Token} :
      some e = escape → Reads escape rest ps → Reads escape (e :: c :: rest) (.char c :: ps)
  | many {rest : List Char} {ps : List Token} :
      some '%' ≠ escape → Reads escape rest ps → Reads escape ('%' :: rest) (.many :: ps)
  | one {rest : List Char} {ps : List Token} :
      some '_' ≠ escape → Reads escape rest ps → Reads escape ('_' :: rest) (.one :: ps)
  | char {c : Char} {rest : List Char} {ps : List Token} : some c ≠ escape → c ≠ '%' → c ≠ '_' →
      Reads escape rest ps → Reads escape (c :: rest) (.char c :: ps)

/-- The pattern ends in an escape character that escapes nothing. -/
def Dangling (escape : Option Char) (pattern : List Char) : Prop :=
  ∃ e before ps, some e = escape ∧ Reads escape before ps ∧ pattern = before ++ [e]

/-- The tokens in lower case, where case does not count. -/
def lowered (u : CaseTable) (insensitive : Bool) (ps : List Token) : List Token :=
  if insensitive then ps.flatMap (Token.expand u.lower) else ps

/-- The text in lower case, where case does not count. -/
def loweredText (u : CaseTable) (insensitive : Bool) (text : List Char) : List Char :=
  if insensitive then u.toLowercase text else text

section Compiled

variable {u : CaseTable} {escape : Option Char} {insensitive : Bool} {pattern rest : List Char}
  {tokens out ps qs : List Token} {text : List Char}

lemma lowered_cons (k : Token) (ps : List Token) :
    lowered u insensitive (k :: ps) = lowered u insensitive [k] ++ lowered u insensitive ps := by
  cases insensitive <;> simp [lowered]

@[simp] lemma lowered_many : lowered u insensitive [.many] = [.many] := by
  cases insensitive <;> rfl

@[simp] lemma lowered_one : lowered u insensitive [.one] = [.one] := by
  cases insensitive <;> rfl

lemma pushChar_eq (c : Char) :
    pushChar u insensitive tokens c = tokens ++ lowered u insensitive [.char c] := by
  cases insensitive <;> simp [pushChar, lowered, Token.expand]

lemma compileTokens_escaped {e : Char} (he : some e = escape) (c : Char) :
    compileTokens u escape insensitive (e :: c :: rest) tokens =
      compileTokens u escape insensitive rest (pushChar u insensitive tokens c) := by
  rw [compileTokens.eq_def]
  exact if_pos he

lemma compileTokens_many (he : some '%' ≠ escape) :
    compileTokens u escape insensitive ('%' :: rest) tokens =
      compileTokens u escape insensitive rest
        (if tokens.getLast? ≠ some .many then tokens ++ [.many] else tokens) := by
  rw [compileTokens.eq_def]
  exact if_neg he

lemma compileTokens_one (he : some '_' ≠ escape) :
    compileTokens u escape insensitive ('_' :: rest) tokens =
      compileTokens u escape insensitive rest (tokens ++ [.one]) := by
  rw [compileTokens.eq_def]
  exact if_neg he

lemma compileTokens_char {c : Char} (he : some c ≠ escape) (hm : c ≠ '%') (ho : c ≠ '_') :
    compileTokens u escape insensitive (c :: rest) tokens =
      compileTokens u escape insensitive rest (pushChar u insensitive tokens c) := by
  rw [compileTokens.eq_def]
  exact (if_neg he).trans ((if_neg hm).trans (if_neg ho))

/-- A `%` that is left out beside another asks nothing. -/
lemma fits_pushMany : Fits ((if tokens.getLast? ≠ some .many then tokens ++ [.many] else tokens) ++ qs)
    text ↔ Fits (tokens ++ .many :: qs) text := by
  split
  · rw [List.append_assoc, List.singleton_append]
  · rename_i h
    obtain ⟨l, rfl⟩ := List.getLast?_eq_some_iff.mp (not_not.mp h)
    simp only [List.append_assoc, List.singleton_append]
    rw [fits_append_iff, fits_append_iff]
    simp only [fits_many_many]

/-- **What a pattern says is what it is compiled to.** -/
lemma compileTokens_fits (h : Reads escape pattern ps) (tokens : List Token) :
    ∃ out, compileTokens u escape insensitive pattern tokens = .ok out ∧
      ∀ text, Fits out text ↔ Fits (tokens ++ lowered u insensitive ps) text := by
  induction h generalizing tokens with
  | nil => exact ⟨tokens, by rw [compileTokens], by simp [lowered]⟩
  | @escaped e c rest ps he _ ih =>
      obtain ⟨out, hout, hfit⟩ := ih (pushChar u insensitive tokens c)
      refine ⟨out, (compileTokens_escaped he c).trans hout, fun text => ?_⟩
      rw [hfit, pushChar_eq, lowered_cons _ ps, List.append_assoc]
  | @many rest ps he _ ih =>
      obtain ⟨out, hout, hfit⟩ := ih _
      refine ⟨out, (compileTokens_many he).trans hout, fun text => ?_⟩
      rw [hfit, fits_pushMany, lowered_cons _ ps, lowered_many]
      rfl
  | @one rest ps he _ ih =>
      obtain ⟨out, hout, hfit⟩ := ih (tokens ++ [.one])
      refine ⟨out, (compileTokens_one he).trans hout, fun text => ?_⟩
      rw [hfit, lowered_cons _ ps, lowered_one, List.append_assoc]
  | @char c rest ps he hm ho _ ih =>
      obtain ⟨out, hout, hfit⟩ := ih (pushChar u insensitive tokens c)
      refine ⟨out, (compileTokens_char he hm ho).trans hout, fun text => ?_⟩
      rw [hfit, pushChar_eq, lowered_cons _ ps, List.append_assoc]

/-- Going through what can be read comes to what follows it. -/
lemma compileTokens_append (h : Reads escape pattern ps) (tokens : List Token) :
    ∃ out, compileTokens u escape insensitive (pattern ++ rest) tokens =
      compileTokens u escape insensitive rest out := by
  induction h generalizing tokens with
  | nil => exact ⟨tokens, rfl⟩
  | escaped he _ ih =>
      obtain ⟨out, hout⟩ := ih _
      exact ⟨out, (compileTokens_escaped he _).trans hout⟩
  | many he _ ih =>
      obtain ⟨out, hout⟩ := ih _
      exact ⟨out, (compileTokens_many he).trans hout⟩
  | one he _ ih =>
      obtain ⟨out, hout⟩ := ih _
      exact ⟨out, (compileTokens_one he).trans hout⟩
  | char he hm ho _ ih =>
      obtain ⟨out, hout⟩ := ih _
      exact ⟨out, (compileTokens_char he hm ho).trans hout⟩

lemma compileTokens_dangling (h : Dangling escape pattern) (tokens : List Token) :
    compileTokens u escape insensitive pattern tokens =
      .error ⟨"LIKE pattern must not end with escape character"⟩ := by
  obtain ⟨e, before, ps, he, hread, rfl⟩ := h
  obtain ⟨out, hout⟩ := @compileTokens_append u escape insensitive before [e] ps hread tokens
  rw [hout, compileTokens.eq_def]
  exact if_pos he

lemma Dangling.cons (before : List Char) (hread : ∀ {rest ps}, Reads escape rest ps →
    ∃ qs, Reads escape (before ++ rest) qs) (h : Dangling escape pattern) :
    Dangling escape (before ++ pattern) := by
  obtain ⟨e, rest, ps, he, hrest, rfl⟩ := h
  obtain ⟨qs, hqs⟩ := hread hrest
  exact ⟨e, before ++ rest, qs, he, hqs, (List.append_assoc _ _ _).symm⟩

/-- **A pattern can be read, or it ends in an escape character.** -/
lemma reads_or_dangling (escape : Option Char) :
    ∀ pattern : List Char, (∃ ps, Reads escape pattern ps) ∨ Dangling escape pattern
  | [] => .inl ⟨[], .nil⟩
  | c :: rest => by
      by_cases he : some c = escape
      · cases rest with
        | nil => exact .inr ⟨c, [], [], he, .nil, rfl⟩
        | cons d rest =>
            rcases reads_or_dangling escape rest with ⟨ps, h⟩ | h
            · exact .inl ⟨_, .escaped he h⟩
            · exact .inr (Dangling.cons [c, d] (fun h => ⟨_, .escaped he h⟩) h)
      · have hone : ∀ {rest ps}, Reads escape rest ps → ∃ qs, Reads escape ([c] ++ rest) qs := by
          intro rest ps h
          by_cases hm : c = '%'
          · subst hm
            exact ⟨_, .many he h⟩
          · by_cases ho : c = '_'
            · subst ho
              exact ⟨_, .one he h⟩
            · exact ⟨_, .char he hm ho h⟩
        rcases reads_or_dangling escape rest with ⟨ps, h⟩ | h
        · exact .inl (hone h)
        · exact .inr (Dangling.cons [c] hone h)

/-- A pattern is read in one way. -/
lemma Reads.unique (h : Reads escape pattern ps) (h' : Reads escape pattern qs) : ps = qs := by
  induction h generalizing qs with
  | nil =>
      cases h'
      rfl
  | escaped he _ ih =>
      cases h' with
      | escaped _ h' => rw [ih h']
      | many hne _ => exact absurd he hne
      | one hne _ => exact absurd he hne
      | char hne _ _ _ => exact absurd he hne
  | many hne _ ih =>
      cases h' with
      | escaped he _ => exact absurd he hne
      | many _ h' => rw [ih h']
      | char _ hm _ _ => exact absurd rfl hm
  | one hne _ ih =>
      cases h' with
      | escaped he _ => exact absurd he hne
      | one _ h' => rw [ih h']
      | char _ _ ho _ => exact absurd rfl ho
  | char hne hm ho _ ih =>
      cases h' with
      | escaped he _ => exact absurd he hne
      | many _ _ => exact absurd rfl hm
      | one _ _ => exact absurd rfl ho
      | char _ _ _ h' => rw [ih h']

lemma matchesText_ofShape (tokens : List Token) :
    (LikeMatcher.ofShape (shapeOf tokens) insensitive).matchesText u text = true ↔
      Fits tokens (loweredText u insensitive text) := by
  have hshape : (LikeMatcher.ofShape (shapeOf tokens) insensitive).insensitive = insensitive := rfl
  rw [LikeMatcher.matchesText, hshape, loweredText]
  cases insensitive with
  | false => simp [matchesFolded_iff]
  | true =>
      by_cases hascii : text.all isAscii = true
      · simp [hascii, matchesFolded_iff, u.toLowercase_ascii hascii]
      · simp [hascii, matchesFolded_iff]

lemma compile_eq_ok {m : LikeMatcher} (h : LikeMatcher.compile u pattern escape insensitive = .ok m) :
    ∃ tokens, compileTokens u escape insensitive pattern [] = .ok tokens ∧
      m = .ofShape (shapeOf tokens) insensitive := by
  rw [LikeMatcher.compile] at h
  cases htokens : compileTokens u escape insensitive pattern [] with
  | error e =>
      rw [htokens] at h
      cases h
  | ok tokens =>
      rw [htokens] at h
      exact ⟨tokens, rfl, (Except.ok.inj h).symm⟩

/-- A pattern that can be read is compiled to what it says. -/
lemma compile_of_reads (h : Reads escape pattern ps) :
    ∃ tokens, compileTokens u escape insensitive pattern [] = .ok tokens ∧
      LikeMatcher.compile u pattern escape insensitive = .ok (.ofShape (shapeOf tokens) insensitive) ∧
      ∀ text, Fits tokens text ↔ Fits (lowered u insensitive ps) text := by
  obtain ⟨tokens, htokens, hfit⟩ := @compileTokens_fits u escape insensitive pattern ps h []
  refine ⟨tokens, htokens, ?_, fun text => hfit text⟩
  rw [LikeMatcher.compile, htokens]
  rfl

lemma compile_of_dangling (h : Dangling escape pattern) :
    LikeMatcher.compile u pattern escape insensitive =
      .error ⟨"LIKE pattern must not end with escape character"⟩ := by
  rw [LikeMatcher.compile, compileTokens_dangling h]
  rfl

/-- **Compiling fails just where an escape character is left over.** -/
lemma compile_fails : (∃ e, LikeMatcher.compile u pattern escape insensitive = .error e) ↔
    Dangling escape pattern := by
  constructor
  · rintro ⟨e, he⟩
    rcases reads_or_dangling escape pattern with ⟨ps, h⟩ | h
    · obtain ⟨tokens, -, hok, -⟩ := @compile_of_reads u escape insensitive pattern ps h
      rw [hok] at he
      cases he
    · exact h
  · exact fun h => ⟨_, compile_of_dangling h⟩

/-- What a text that matches fits. -/
lemma reads_of_matches {m : LikeMatcher} (hm : LikeMatcher.compile u pattern escape insensitive = .ok m)
    (h : m.matchesText u text = true) : ∃ ps, Reads escape pattern ps ∧
      Fits (lowered u insensitive ps) (loweredText u insensitive text) := by
  rcases reads_or_dangling escape pattern with ⟨ps, hps⟩ | hd
  · obtain ⟨tokens, -, hok, hfit⟩ := @compile_of_reads u escape insensitive pattern ps hps
    obtain rfl := Except.ok.inj (hm.symm.trans hok)
    exact ⟨ps, hps, (hfit _).mp ((matchesText_ofShape tokens).mp h)⟩
  · rw [compile_of_dangling hd] at hm
    cases hm

/-- **A compiled pattern asks of a text what the pattern says**: the text is cut so that a character
of the pattern stands for itself, `_` for one character and `%` for any run.  Where case does not count
the text is lower-cased as a whole and the pattern's characters one by one.  However the matcher
answers, the walk comes to the same answer, and to its end. -/
theorem likeMatcher_implements (u : CaseTable) (pattern : List Char) (escape : Option Char)
    (insensitive : Bool) :
    ((∃ e, LikeMatcher.compile u pattern escape insensitive = .error e) ↔ Dangling escape pattern) ∧
      ∀ m, LikeMatcher.compile u pattern escape insensitive = .ok m →
        ∃ ps tokens, (∀ qs, Reads escape pattern qs ↔ qs = ps) ∧
          compileTokens u escape insensitive pattern [] = .ok tokens ∧
          ∀ text, (m.matchesText u text = true ↔
              Fits (lowered u insensitive ps) (loweredText u insensitive text)) ∧
            ∃ n ≤ ((loweredText u insensitive text).length + 1) * (tokens.length + 1) + tokens.length,
              Takes tokens (loweredText u insensitive text) .start n (m.matchesText u text) := by
  refine ⟨compile_fails, fun m hm => ?_⟩
  obtain ⟨tokens, htokens, rfl⟩ := compile_eq_ok hm
  rcases reads_or_dangling escape pattern with ⟨ps, hps⟩ | h
  · refine ⟨ps, tokens, fun qs => ⟨fun h => h.unique hps, fun h => h ▸ hps⟩, htokens, fun text => ?_⟩
    obtain ⟨out, hout, -, hfit⟩ := @compile_of_reads u escape insensitive pattern ps hps
    obtain rfl : tokens = out := Except.ok.inj (htokens.symm.trans hout)
    refine ⟨(matchesText_ofShape tokens).trans (hfit _), ?_⟩
    obtain ⟨n, hn, ht⟩ := exists_takes tokens (loweredText u insensitive text) .start
    refine ⟨n, hn, ?_⟩
    have hsame : (LikeMatcher.ofShape (shapeOf tokens) insensitive).matchesText u text =
        walk tokens (loweredText u insensitive text) .start := by
      rw [Bool.eq_iff_iff, matchesText_ofShape, ← wildcard_iff, wildcard]
    rwa [hsame]
  · rw [compile_of_dangling h] at hm
    cases hm

end Compiled

/-- A part of the case data: the ASCII letters and three Greek ones. -/
def greek : CaseTable where
  lower c := if c = 'Α' then ['α'] else if c = 'Ο' then ['ο'] else if c = 'Σ' then ['σ'] else
    if isAscii c then [c.toLower] else [c]
  cased c := c.isAlpha || ['Α', 'Ο', 'Σ', 'α', 'ο', 'σ', 'ς'].contains c
  caseIgnorable c := ['\'', '.', ':', '^'].contains c
  lower_ascii c h := by
    have hne : ∀ d : Char, isAscii d = false → c ≠ d := by
      rintro d hd rfl
      simp [h] at hd
    simp [hne 'Α' (by decide), hne 'Ο' (by decide), hne 'Σ' (by decide), h]
  lower_sigma := by decide
  lower_ne_nil c := by
    split_ifs <;> simp

/-- **The two sides are not lower-cased alike.**  A pattern's sigma is lower-cased by itself, a text's
for its place in the word, so that `'ΑΟΣ' ILIKE 'ΑΟΣ'` does not hold, although both sides are the same in
lower case, as whole texts and character by character. -/
theorem not_lowered_alike :
    (¬ ∀ u pattern escape text m ps, Reads escape (u.toLowercase pattern) ps →
      LikeMatcher.compile u pattern escape true = .ok m →
      (m.matchesText u text = true ↔ Fits ps (u.toLowercase text))) ∧
    ¬ ∀ u pattern escape text m ps, Reads escape pattern ps →
      LikeMatcher.compile u pattern escape true = .ok m →
      (m.matchesText u text = true ↔ Fits (lowered u true ps) (text.flatMap u.lower)) := by
  have hcompile : LikeMatcher.compile greek ['Α', 'Ο', 'Σ'] none true =
      .ok (.ofShape (shapeOf (literal ['α', 'ο', 'σ'])) true) := rfl
  have hno : ¬ (LikeMatcher.ofShape (shapeOf (literal ['α', 'ο', 'σ'])) true).matchesText greek
      ['Α', 'Ο', 'Σ'] = true := by
    rw [matchesText_ofShape, fits_literal]
    decide
  have hread : ∀ a b c : Char, (∀ x ∈ [a, b, c], x ≠ '%' ∧ x ≠ '_') →
      Reads none [a, b, c] (literal [a, b, c]) := by
    intro a b c h
    simp only [List.mem_cons, List.not_mem_nil, or_false, forall_eq_or_imp, forall_eq] at h
    obtain ⟨⟨ha, ha'⟩, ⟨hb, hb'⟩, hc, hc'⟩ := h
    exact .char nofun ha ha' (.char nofun hb hb' (.char nofun hc hc' .nil))
  constructor
  · intro h
    have hfit := h greek ['Α', 'Ο', 'Σ'] none ['Α', 'Ο', 'Σ'] _ _
      (hread 'α' 'ο' 'ς' (by simp)) hcompile
    exact hno (hfit.mpr (fits_literal.mpr (by decide)))
  · intro h
    have hfit := h greek ['Α', 'Ο', 'Σ'] none ['Α', 'Ο', 'Σ'] _ _
      (hread 'Α' 'Ο' 'Σ' (by simp)) hcompile
    refine hno (hfit.mpr ?_)
    rw [lowered, if_pos rfl, flatMap_expand_literal]
    exact fits_literal.mpr (by decide)

end Like
