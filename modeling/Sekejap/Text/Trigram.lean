import Sekejap.Lib.Windows
import Sekejap.Query.Like
import Mathlib.Data.Finmap
import Mathlib.Data.List.Sort
import Mathlib.Data.List.Lex
import Mathlib.Data.Char

/-!
# Trigrams

A text is folded, marked at both ends and cut into pieces of three characters (`analyze`).  A pattern
is cut at its wildcards into runs of characters; a run at an end of the pattern is marked there, and the
pieces of the folded runs are what a matching text must hold (`required`).

`required_stored` says that it does hold them.  A text that fits a pattern has each of its runs between
what fits the tokens before it and what fits those after it (`Cut.infix_of_fits`), and folding a text is lower-casing it
character by character, the two sigmas apart, as the matcher lower-cases both sides.
-/

open Wildcard Windows

namespace Trigram

/-! ## Folding -/

/-- The pinned lower-case table. -/
structure LowerTable where
  /-- What the table has for a character. -/
  find : Char → Option (List Char)
  find_ne_nil : ∀ c s, find c = some s → s ≠ []

/-- The Unicode version of the pinned table. -/
def pinnedVersion : ℕ × ℕ × ℕ := (17, 0, 0)

/-- The standard library that the program is compiled with. -/
structure Toolchain where
  unicodeVersion : ℕ × ℕ × ℕ
  data : CaseTable

/-- A character in lower case by the pinned table. -/
def pushLower (table : LowerTable) (c : Char) : List Char :=
  if isAscii c then [c.toLower] else (table.find c).getD [c]

/-- One sigma for two. -/
def oneSigma (c : Char) : Char := if c = 'ς' then 'σ' else c

/-- A folded character. -/
def foldChar (table : LowerTable) (c : Char) : List Char := (pushLower table c).map oneSigma

/-- The folded characters of a text. -/
def fold (table : LowerTable) (text : List Char) : List Char := text.flatMap (foldChar table)

/-! ## The pieces of a text -/

/-- Written twice before the folded text. -/
def start : Char := '\u0002'

/-- Written twice after the folded text. -/
def stop : Char := '\u0003'

def maxTextBytes : ℕ := 64 * 1024

def maxPieces : ℕ := 2 ^ 18

def maxRequiredPieces : ℕ := 256

/-- Every window of three characters without a NUL, in order. -/
def windows (chars : List Char) : List (List Char) :=
  (triples chars).filter fun w => !w.contains '\u0000'

def marked (table : LowerTable) (text : List Char) : Except String (List Char) :=
  if (Utf8.utf8 text).length > maxTextBytes then
    .error "indexed text exceeds 64 KiB"
  else
    .ok ([start, start] ++ fold table text ++ [stop, stop])

/-- A text's pieces with how often each occurs, and how many were written. -/
structure Analysis where
  length : ℕ
  terms : Finmap fun _ : List Char => ℕ

def Analysis.count (a : Analysis) (piece : List Char) : Except String Analysis :=
  match a.terms.lookup piece with
  | some n => .ok ⟨a.length + 1, a.terms.insert piece (n + 1)⟩
  | none =>
      if a.terms.keys.card = maxPieces then
        .error "indexed text exceeds 262144 distinct trigram pieces"
      else
        .ok ⟨a.length + 1, a.terms.insert piece 1⟩

def analyze (table : LowerTable) (text : List Char) : Except String Analysis := do
  let chars ← marked table text
  (windows chars).foldlM Analysis.count ⟨0, ∅⟩

/-! ## The pieces a pattern requires -/

/-- One element of a pattern once its escapes are resolved. -/
inductive Token where
  | char (c : Char)
  | wild
  deriving DecidableEq

/-- The loop over the pattern's characters. -/
def patternTokens (escape : Option Char) : List Char → Except String (List Token)
  | [] => .ok []
  | c :: chars =>
      if some c = escape then
        match chars with
        | [] => .error "LIKE pattern must not end with escape character"
        | next :: rest => do
            let tokens ← patternTokens escape rest
            pure (.char next :: tokens)
      else do
        let tokens ← patternTokens escape chars
        pure ((if c = '%' ∨ c = '_' then .wild else .char c) :: tokens)

/-- A piece joins the sorted pieces. -/
def insertPiece (piece : List Char) (pieces : List (List Char)) : List (List Char) :=
  if piece ∈ pieces then pieces else pieces.orderedInsert (· ≤ ·) piece

section Required

variable (table : LowerTable) (asciiOnly : Bool) (len : ℕ)

/-- The marked and folded characters of the run of the tokens `lo` to `hi`. -/
def runChars (lo hi : ℕ) (run : List Char) : List Char :=
  (if lo = 0 then [start, start] else []) ++ fold table run ++ if hi = len then [stop, stop] else []

/-- One run of characters: the tokens `lo` to `hi`. -/
def cut (lo hi : ℕ) (run : List Char) (pieces : List (List Char)) : List (List Char) :=
  if run.isEmpty && !(lo == 0 && hi == len) then
    pieces
  else
    (windows (runChars table len lo hi run)).foldl
      (fun pieces w =>
        if pieces.length < maxRequiredPieces && (!asciiOnly || w.all isAscii) then
          insertPiece w pieces
        else
          pieces)
      pieces

/-- The loop over the tokens, of which `i` have been seen and the run began at `lo`. -/
def cutRuns (i lo : ℕ) (run : List Char) (pieces : List (List Char)) : List Token → List (List Char)
  | [] => cut table asciiOnly len lo len run pieces
  | .char c :: tokens =>
      cutRuns (i + 1) (if run.isEmpty then i else lo) (run ++ [c]) pieces tokens
  | .wild :: tokens =>
      cutRuns (i + 1) (i + 1) [] (cut table asciiOnly len lo i run pieces) tokens

end Required

/-- The pieces every text that matches the pattern holds, sorted and distinct. -/
def required (std : Toolchain) (table : LowerTable) (pattern : List Char) (escape : Option Char)
    (insensitive : Bool) : Except String (List (List Char)) := do
  let tokens ← patternTokens escape pattern
  let asciiOnly := insensitive && std.unicodeVersion != pinnedVersion
  pure (cutRuns table asciiOnly tokens.length 0 0 [] [] tokens)

/-! ## What a text's pieces are -/

section Pieces

variable {table : LowerTable} {text run : List Char} {w : List Char} {a b : Analysis}

lemma count_terms {piece : List Char} (h : a.count piece = .ok b) :
    w ∈ b.terms ↔ w ∈ a.terms ∨ w = piece := by
  have hinsert : ∀ n : ℕ, w ∈ a.terms.insert piece n ↔ w ∈ a.terms ∨ w = piece := fun n => by
    rw [Finmap.mem_insert, or_comm]
  rw [Analysis.count] at h
  split at h
  · rw [← Except.ok.inj h]
    exact hinsert _
  · split at h
    · cases h
    · rw [← Except.ok.inj h]
      exact hinsert _

lemma foldlM_terms {ws : List (List Char)} (h : ws.foldlM Analysis.count a = .ok b) :
    w ∈ b.terms ↔ w ∈ a.terms ∨ w ∈ ws := by
  induction ws generalizing a with
  | nil =>
      obtain rfl : a = b := Except.ok.inj h
      simp
  | cons piece ws ih =>
      rw [List.foldlM_cons] at h
      cases hc : a.count piece with
      | error e =>
          rw [hc] at h
          cases h
      | ok c =>
          rw [hc] at h
          rw [ih h, count_terms hc, List.mem_cons, or_assoc]

/-- The text with its marks, before it is folded. -/
def markedText (text : List Char) : List Char := [start, start] ++ text ++ [stop, stop]

lemma fold_append (s t : List Char) : fold table (s ++ t) = fold table s ++ fold table t :=
  List.flatMap_append

@[simp] lemma fold_start : fold table [start, start] = [start, start] := rfl

@[simp] lemma fold_stop : fold table [stop, stop] = [stop, stop] := rfl

/-- **The pieces stored for a text are the windows of the marked and folded text.** -/
lemma analyze_terms (h : analyze table text = .ok a) :
    w ∈ a.terms ↔ w ∈ windows (fold table (markedText text)) := by
  rw [analyze, marked] at h
  split at h
  · cases h
  · rw [foldlM_terms h, markedText, fold_append, fold_append, fold_start, fold_stop]
    simp [Finmap.notMem_empty]

lemma mem_windows : w ∈ windows text ↔ w <:+: text ∧ w.length = 3 ∧ w.contains '\u0000' = false := by
  rw [windows, List.mem_filter, mem_triples, and_assoc]
  simp

lemma windows_mono {s t : List Char} (h : w <:+: s → w <:+: t) (hw : w ∈ windows s) : w ∈ windows t := by
  rw [mem_windows] at hw ⊢
  exact ⟨h hw.1, hw.2⟩

end Pieces

/-! ## What a pattern's pieces are -/

section PatternPieces

variable {table : LowerTable} {asciiOnly : Bool} {escape : Option Char} {pattern run w : List Char}
  {pieces : List (List Char)} {tokens before after : List Token} {ps : List Like.Token}

/-- A matcher's token as the runs are cut at it. -/
def ofLike : Like.Token → Token
  | .char c => .char c
  | _ => .wild

lemma patternTokens_reads (h : Like.Reads escape pattern ps) :
    patternTokens escape pattern = .ok (ps.map ofLike) := by
  induction h with
  | nil => rw [patternTokens]; rfl
  | escaped he _ ih =>
      rw [patternTokens.eq_def]
      simp only [if_pos he, ih]
      rfl
  | many he _ ih =>
      rw [patternTokens.eq_def]
      simp only [if_neg he, ih]
      rfl
  | one he _ ih =>
      rw [patternTokens.eq_def]
      simp only [if_neg he, ih]
      rfl
  | char he hm ho _ ih =>
      rw [patternTokens.eq_def]
      simp only [if_neg he, ih, hm, ho, or_self, if_false]
      rfl

/-- The run `run` of the tokens with the marks of the ends it touches. -/
def markedRun (before after : List Token) (run : List Char) : List Char :=
  (if before = [] then [start, start] else []) ++ run ++ if after = [] then [stop, stop] else []

/-- A piece of a run of the tokens. -/
def Piece (table : LowerTable) (asciiOnly : Bool) (tokens : List Token) (w : List Char) : Prop :=
  ∃ before run after, tokens = before ++ run.map .char ++ after ∧
    w ∈ windows (fold table (markedRun before after run)) ∧ (asciiOnly = true → w.all isAscii = true)

lemma runChars_eq : runChars table (before ++ run.map Token.char ++ after).length before.length
    (before.length + run.length) run = fold table (markedRun before after run) := by
  have hstart : before.length = 0 ↔ before = [] := List.length_eq_zero_iff
  have hstop : before.length + run.length = (before ++ run.map Token.char ++ after).length ↔
      after = [] := by
    rw [List.length_append, List.length_append, List.length_map, ← List.length_eq_zero_iff]
    omega
  simp only [runChars, markedRun, hstart, hstop, fold_append]
  split <;> split <;> rfl

lemma mem_cut {len lo hi : ℕ} (h : w ∈ cut table asciiOnly len lo hi run pieces) :
    w ∈ pieces ∨ w ∈ windows (runChars table len lo hi run) ∧ (asciiOnly = true → w.all isAscii = true) := by
  rw [cut] at h
  split at h
  · exact .inl h
  · generalize hws : windows (runChars table len lo hi run) = ws at h
    clear hws
    induction ws generalizing pieces with
    | nil => exact .inl h
    | cons v ws ih =>
        rw [List.foldl_cons] at h
        rcases ih h with h | ⟨h, hascii⟩
        · split at h
          · rename_i hcond
            rw [insertPiece] at h
            split at h
            · exact .inl h
            · rw [List.mem_orderedInsert] at h
              rcases h with rfl | h
              · refine .inr ⟨List.mem_cons_self, fun ho => ?_⟩
                simpa [ho] using (Bool.and_eq_true_iff.mp hcond).2
              · exact .inl h
          · exact .inl h
        · exact .inr ⟨List.mem_cons_of_mem v h, hascii⟩

/-- **What the loop adds are pieces of runs.** -/
lemma mem_cutRuns {full : List Token} {i lo : ℕ} (hfull : full = before ++ run.map .char ++ tokens)
    (hlo : lo = before.length) (hi : i = before.length + run.length)
    (h : w ∈ cutRuns table asciiOnly full.length i lo run pieces tokens) :
    w ∈ pieces ∨ Piece table asciiOnly full w := by
  induction tokens generalizing before i lo run pieces with
  | nil =>
      have hlen : full.length = before.length + run.length := by simp [hfull]
      have heq : runChars table full.length before.length full.length run =
          fold table (markedRun before [] run) := by
        calc _ = runChars table full.length before.length (before.length + run.length) run := by
              rw [← hlen]
          _ = _ := by
              rw [hfull]
              exact runChars_eq
      refine (mem_cut h).imp_right fun hw => ⟨before, run, [], hfull, ?_, hw.2⟩
      rw [← heq, ← hlo]
      exact hw.1
  | cons k tokens ih =>
      cases k with
      | char c =>
          refine @ih (run ++ [c]) _ before _ _ ?_ ?_ ?_ h
          · simp [hfull]
          · cases run with
            | nil => simpa using hi
            | cons d run => simpa using hlo
          · simp [hi, Nat.add_assoc]
      | wild =>
          have hnext := @ih [] _ (before ++ run.map .char ++ [.wild]) _ _ (by simp [hfull])
            (by simp [hi, Nat.add_assoc]) (by simp [hi, Nat.add_assoc]) h
          rcases hnext with hw | hw
          · refine (mem_cut hw).imp_right fun hw => ⟨before, run, _, hfull, ?_, hw.2⟩
            rw [← runChars_eq, ← hi, ← hlo, ← hfull]
            exact hw.1
          · exact .inr hw

/-- **Every piece asked for is a piece of a run.** -/
lemma required_piece {std : Toolchain} {insensitive : Bool} (hread : Like.Reads escape pattern ps)
    (h : required std table pattern escape insensitive = .ok pieces) (hw : w ∈ pieces) :
    Piece table (insensitive && std.unicodeVersion != pinnedVersion) (ps.map ofLike) w := by
  rw [required, patternTokens_reads hread] at h
  rw [← Except.ok.inj h] at hw
  exact (@mem_cutRuns _ _ [] _ _ _ [] _ _ _ rfl rfl rfl hw).resolve_left List.not_mem_nil

end PatternPieces

/-! ## Every text that matches holds the pieces -/

/-- The standard library's lower case against the pinned one: the same where the Unicode versions are
the same, and otherwise the same for a character either of which has an ASCII character. -/
structure Agrees (std : Toolchain) (table : LowerTable) : Prop where
  same : std.unicodeVersion = pinnedVersion → ∀ c, std.data.lower c = pushLower table c
  ascii : std.unicodeVersion ≠ pinnedVersion →
    AgreeOn isAscii std.data.lower (pushLower table)

section Stored

variable {std : Toolchain} {table : LowerTable} {escape : Option Char} {insensitive : Bool}
  {pattern text run w : List Char} {pieces : List (List Char)} {before after : List Token}
  {ps : List Like.Token}

/-- A character in lower case as the matcher has it, with one sigma for two. -/
def lowerChar (std : Toolchain) (c : Char) : List Char := (std.data.lower c).map oneSigma

lemma isAscii_oneSigma (c : Char) : isAscii (oneSigma c) = isAscii c := by
  rw [oneSigma]
  split
  · rename_i h
    subst h
    decide
  · rfl

lemma Agrees.lowerChar_eq (h : Agrees std table) (hv : std.unicodeVersion = pinnedVersion) :
    lowerChar std = foldChar table :=
  funext fun c => congrArg (List.map oneSigma) (h.same hv c)

lemma Agrees.agreeOn (h : Agrees std table) (hv : std.unicodeVersion ≠ pinnedVersion) :
    AgreeOn isAscii (lowerChar std) (foldChar table) :=
  (h.ascii hv).map oneSigma isAscii_oneSigma

lemma lowerChar_start : lowerChar std start = [start] := by
  rw [lowerChar, std.data.lower_ascii start (by decide)]
  decide

lemma lowerChar_stop : lowerChar std stop = [stop] := by
  rw [lowerChar, std.data.lower_ascii stop (by decide)]
  decide

lemma lowerChar_ne_nil (c : Char) : lowerChar std c ≠ [] := by
  simpa [lowerChar] using std.data.lower_ne_nil c

lemma foldChar_ne_nil (c : Char) : foldChar table c ≠ [] := by
  rw [foldChar, Ne, List.map_eq_nil_iff, pushLower]
  split
  · simp
  · cases h : table.find c with
    | none => simp
    | some s => simpa using table.find_ne_nil c s h

/-- A pattern that is cut at a run, before and after it. -/
lemma exists_split (h : ps.map ofLike = before ++ run.map .char ++ after) :
    ∃ qs rs, ps = qs ++ literal run ++ rs ∧ (before = [] → qs = []) ∧ (after = [] → rs = []) := by
  obtain ⟨l, rs, rfl, hl, hrs⟩ := List.map_eq_append_iff.mp h
  obtain ⟨qs, m, rfl, hqs, hm⟩ := List.map_eq_append_iff.mp hl
  have hlit : m = literal run := by
    clear h hl
    induction run generalizing m with
    | nil => simpa using hm
    | cons c run ih =>
        cases m with
        | nil => simp at hm
        | cons k m =>
            rw [List.map_cons, List.map_cons, List.cons.injEq] at hm
            cases k with
            | char d =>
                obtain rfl : d = c := by simpa [ofLike] using hm.1
                rw [literal_cons, ih m hm.2]
            | one => simp [ofLike] at hm
            | many => simp [ofLike] at hm
  refine ⟨qs, rs, by rw [hlit], ?_, ?_⟩
  · rintro rfl
    simpa using hqs
  · rintro rfl
    simpa using hrs

/-- What is marked is not changed by lower-casing. -/
lemma flatMap_marks {f : Char → List Char} (hstart : f start = [start]) (hstop : f stop = [stop])
    (left right : Prop) [Decidable left] [Decidable right] :
    ((if left then [start, start] else []) ++ run ++ if right then [stop, stop] else []).flatMap f =
      (if left then [start, start] else []) ++ run.flatMap f ++ if right then [stop, stop] else [] := by
  split <;> split <;> simp [hstart, hstop]

/-- **A run is where the text fits it.**  `f` is what is done to the characters of both sides before
they are compared. -/
lemma infix_of_fits {f : Char → List Char} (hstart : f start = [start]) (hstop : f stop = [stop])
    (hsplit : ps.map ofLike = before ++ run.map .char ++ after)
    (h : Fits (ps.flatMap (Wildcard.Token.expand f)) (text.flatMap f)) :
    (markedRun before after run).flatMap f <:+: (markedText text).flatMap f := by
  obtain ⟨qs, rs, rfl, hqs, hrs⟩ := exists_split hsplit
  rw [List.flatMap_append, List.flatMap_append, flatMap_expand_literal] at h
  have htext : (markedText text).flatMap f = [start, start] ++ text.flatMap f ++ [stop, stop] := by
    simp [markedText, hstart, hstop]
  rw [markedRun, flatMap_marks hstart hstop, htext]
  apply h.marked
  · by_cases hb : before = []
    · exact .inr ⟨if_pos hb, by simp [hqs hb]⟩
    · exact .inl (if_neg hb)
  · by_cases ha : after = []
    · exact .inr ⟨if_pos ha, by simp [hrs ha]⟩
    · exact .inl (if_neg ha)

/-- What the matcher compares, with one sigma for two. -/
lemma fits_lowerChar (h : Fits (Like.lowered std.data true ps) (Like.loweredText std.data true text)) :
    Fits (ps.flatMap (Wildcard.Token.expand (lowerChar std))) (text.flatMap (lowerChar std)) := by
  have hmap := h.map oneSigma
  rw [Like.lowered, if_pos rfl, flatMap_expand_map, Like.loweredText, if_pos rfl, CaseTable.toLowercase,
    CaseTable.lowerFrom_sigma _ _ (by decide)] at hmap
  exact hmap

/-- **A piece of a run that the text fits is a piece of the text.** -/
lemma stored_of_fits (hstd : Agrees std table)
    (h : Fits (Like.lowered std.data insensitive ps) (Like.loweredText std.data insensitive text))
    (hsplit : ps.map ofLike = before ++ run.map .char ++ after)
    (hascii : (insensitive && std.unicodeVersion != pinnedVersion) = true → w.all isAscii = true)
    (hw : w <:+: fold table (markedRun before after run)) : w <:+: fold table (markedText text) := by
  cases insensitive with
  | false =>
      -- the run is in the text, and so is its fold in the text's fold
      have hfit : Fits (ps.flatMap (Wildcard.Token.expand fun c => [c])) (text.flatMap fun c => [c]) := by
        simpa [Like.lowered, Like.loweredText, List.flatMap_singleton'] using h
      have hin := infix_of_fits rfl rfl hsplit hfit
      rw [List.flatMap_singleton', List.flatMap_singleton'] at hin
      exact hw.trans (hin.flatMap (foldChar table))
  | true =>
      have hin := infix_of_fits lowerChar_start lowerChar_stop hsplit (fits_lowerChar h)
      by_cases hv : std.unicodeVersion = pinnedVersion
      · rw [hstd.lowerChar_eq hv] at hin
        exact hw.trans hin
      · -- the piece is ASCII, and that is lower-cased alike
        have hall : ∀ c ∈ w, isAscii c = true := by
          simpa using hascii (by simpa using hv)
        have hagree := hstd.agreeOn hv
        have hrun := infix_transfer hagree.symm foldChar_ne_nil hall hw
        exact infix_transfer hagree lowerChar_ne_nil hall (hrun.trans hin)

/-- **Every text the matcher accepts holds every piece the pattern requires**, so that a search which asks the
index only for texts with all of them loses none.  A run of the pattern's characters is a run of the text as
it is analysed (`stored_of_fits`), and the windows of a run are windows of the whole. -/
theorem required_stored {m : Like.LikeMatcher} {analysis : Analysis} (hstd : Agrees std table)
    (hm : Like.LikeMatcher.compile std.data pattern escape insensitive = .ok m)
    (htext : m.matchesText std.data text = true)
    (hrequired : required std table pattern escape insensitive = .ok pieces)
    (hanalysis : analyze table text = .ok analysis) (piece : List Char) (hpiece : piece ∈ pieces) :
    piece ∈ analysis.terms := by
  obtain ⟨ps, hread, hfit⟩ := Like.reads_of_matches hm htext
  obtain ⟨before, run, after, hsplit, hw, hascii⟩ := required_piece hread hrequired hpiece
  rw [analyze_terms hanalysis]
  exact windows_mono (stored_of_fits hstd hfit hsplit hascii) hw

end Stored

/-! ## A run of three letters -/

/-- The pinned table's part for the letters of `Like.greek`. -/
def greekTable : LowerTable where
  find c := if c = 'Α' then some ['α'] else if c = 'Ο' then some ['ο'] else
    if c = 'Σ' then some ['σ'] else none
  find_ne_nil c s h := by
    split_ifs at h <;> simp_all [← Option.some.inj h]

/-- The pinned version of the standard library, on the letters of `Like.greek`. -/
def pinnedStd : Toolchain := ⟨pinnedVersion, Like.greek⟩

lemma agrees_pinnedStd : Agrees pinnedStd greekTable where
  same _ c := by
    have hne : isAscii c = true → c ≠ 'Α' ∧ c ≠ 'Ο' ∧ c ≠ 'Σ' := by
      intro h
      refine ⟨?_, ?_, ?_⟩ <;>
        · rintro rfl
          revert h
          decide
    simp only [pinnedStd, Like.greek, pushLower, greekTable]
    by_cases h : isAscii c = true
    · obtain ⟨ha, ho, hs⟩ := hne h
      simp [h, ha, ho, hs]
    · split_ifs <;> simp_all
  ascii h := absurd rfl h

theorem required_stored_aos : ∃ m pieces analysis,
    Like.LikeMatcher.compile pinnedStd.data ['%', 'Α', 'Ο', 'Σ', '%'] (some '\\') true = .ok m ∧
    required pinnedStd greekTable ['%', 'Α', 'Ο', 'Σ', '%'] (some '\\') true = .ok pieces ∧
    analyze greekTable ['Α', 'Ο', 'Σ', 'S'] = .ok analysis ∧
    ['α', 'ο', 'σ'] ∈ pieces ∧ ['α', 'ο', 'σ'] ∈ analysis.terms := by
  have hm : Like.LikeMatcher.compile pinnedStd.data ['%', 'Α', 'Ο', 'Σ', '%'] (some '\\') true =
      .ok (.ofShape (.contains ['α', 'ο', 'σ']) true) := rfl
  have htext : (Like.LikeMatcher.ofShape (.contains ['α', 'ο', 'σ']) true).matchesText pinnedStd.data
      ['Α', 'Ο', 'Σ', 'S'] = true := by decide
  have hrequired : required pinnedStd greekTable ['%', 'Α', 'Ο', 'Σ', '%'] (some '\\') true =
      .ok [['α', 'ο', 'σ']] := rfl
  exact ⟨_, _, _, hm, hrequired, rfl, by decide,
    required_stored agrees_pinnedStd hm htext hrequired rfl _ (by decide)⟩

end Trigram
