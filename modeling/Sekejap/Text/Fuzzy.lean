import Sekejap.Collections.OrderedKey
import Sekejap.Lib.EditDistance
import Sekejap.Lib.Rounding
import Sekejap.Lib.Utf8

/-!
# The typo-tolerant walk

The terms of a text index are keys in order, and a token is looked for among them
(`core/engine/src/index/text/fuzzy.rs`).  Each term is read a character at a time into the table of edit
distances; where a whole row is past the bound no longer term can answer, and the walk seeks past all
terms that begin so.

* **`scanTerm_good`** — what is found of one term, and what a dead prefix says of every term it begins.
* **`scanFrom_spec`** — the walk from a key on: every turn either takes the answer of one term or passes
  terms without one.
* **`walk_exact`** — a walk that does not report a bound takes exactly the terms that answer; it reports one
  only where there was one, and fails only where it was cancelled.
-/

open Bytes Fallible EditDistance

open Ieee (f64)

namespace Engine.Fuzzy

/-! ## Entries in key order -/

/-- A tree as its entries, in the order of their keys. -/
structure Store where
  entries : List (Bytes × Bytes)
  sorted : entries.Pairwise fun a b => a.1 < b.1

/-- The entries from a key on. -/
def Store.range (store : Store) (start : Bytes) : List (Bytes × Bytes) :=
  store.entries.dropWhile fun e => decide (e.1 < start)

/-- `TERM_STATS` -/
def termStats : UInt8 := 0x77

def indexPrefix (tag : UInt8) (id : ℕ) : Bytes := tag :: orderedInto id

def termStatsKey (id : ℕ) (term : List Char) : Bytes := indexPrefix termStats id ++ Utf8.utf8 term ++ [0]

/-! ## The walk -/

/-- `MAX_VISITED` -/
def maxVisited : ℕ := 4096

/-- `MAX_TERMS` -/
def maxTerms : ℕ := 64

/-- Why a walk did not return. -/
inductive Stop where
  | cancelled
  | failed (e : Error)
  deriving DecidableEq

/-- The edits spent on a token of so many characters. -/
def editBound (chars : ℕ) : ℕ := if chars ≤ 4 then 0 else if chars ≤ 8 then 1 else 2

/-- The quality of a term for a token, each operation rounded. -/
def quality (edits bound typed found : ℕ) : ℚ :=
  let spent := f64.round (1 - f64.round (edits / (bound + 1 : ℕ)))
  let completion := if found ≤ typed then 1 else f64.round (typed / found)
  f64.round (spent * completion)

/-- The first byte string past every extension of a prefix, which is read from its end. -/
def successorFrom : List UInt8 → Option Bytes
  | [] => none
  | last :: next => if last ≠ 0xFF then some ((last + 1) :: next).reverse else successorFrom next

def successor (p : Bytes) : Option Bytes := successorFrom p.reverse

/-- An accepted term. -/
structure Kept where
  term : List Char
  df : ℕ
  distance : ℕ
  completed : ℕ
  score : ℚ
  deriving DecidableEq

/-- The accepted terms of one token, kept by quality under `cap`. -/
structure Best where
  cap : ℕ
  kept : List Kept
  dropped : Bool

/-- The order in which a kept term is given up: the lowest score, and the last of these terms. -/
def Kept.worse (a b : Kept) : Prop :=
  a.score < b.score ∨ a.score = b.score ∧ Utf8.utf8 b.term ≤ Utf8.utf8 a.term

instance : DecidableRel Kept.worse := fun _ _ => inferInstanceAs (Decidable (_ ∨ _))

/-- The worst of the kept terms and its place, the first on a tie. -/
def worst (kept : List Kept) : Option (Kept × ℕ) :=
  kept.zipIdx.foldl (fun held k => match held with
    | none => some k
    | some h => if h.1.worse k.1 then some h else some k) none

def Best.offer (best : Best) (k : Kept) : Best :=
  if best.kept.length < best.cap then { best with kept := best.kept ++ [k] }
  else
    match worst best.kept with
    | none => { best with dropped := true }
    | some (held, place) =>
        if held.score < k.score then { best with kept := best.kept.set place k, dropped := true }
        else { best with dropped := true }

section Token

variable (token : List Char) (complete : Bool) (bound : ℕ)

/-- What the loop over a term's characters leaves. -/
structure Scanned where
  row : List ℕ
  spent : Option ℕ
  dead : Option ℕ
  chars : ℕ
  deriving DecidableEq

/-- The edits of the best prefix so far, for a token that completes. -/
def spend (row : List ℕ) (spent : Option ℕ) : Option ℕ :=
  if complete ∧ row.getLastD 0 ≤ bound then
    match spent with
    | some held => some (min held (row.getLastD 0))
    | none => some (row.getLastD 0)
  else spent

/-- The loop over the characters, of which `chars` in `bytes` bytes have been read. -/
def scanChars : List Char → ℕ → ℕ → List ℕ → Option ℕ → Scanned
  | [], chars, _, row, spent => ⟨row, spent, none, chars⟩
  | ch :: rest, chars, bytes, row, spent =>
      let row := nextRow token ch row (chars + 1)
      let bytes := bytes + ch.utf8Size
      let spent := spend complete bound row spent
      if bound < row.min?.getD 0 then
        -- once some prefix has answered, so does every term that begins with it
        if complete && spent.isSome then ⟨row, spent, none, chars + 1⟩
        else ⟨row, spent, some bytes, chars + 1⟩
      else scanChars rest (chars + 1) bytes row spent

def scanTerm (term : List Char) : Scanned :=
  let row := List.range (token.length + 1)
  scanChars token complete bound term 0 0 row (spend complete bound row none)

/-- The edits and the characters of a term that is accepted. -/
def accepted (term : List Char) : Option (ℕ × ℕ) :=
  let s := scanTerm token complete bound term
  if complete then s.spent.map fun distance => (distance, term.length)
  else if s.dead.isNone ∧ s.row.getLastD 0 ≤ bound then some (s.row.getLastD 0, s.chars)
  else none

/-- What is offered of a term. -/
def answer (term : List Char) (df : ℕ) : Option Kept :=
  (accepted token complete bound term).map fun (distance, found) =>
    let found := if complete then term.length else found
    { term, df, distance
      completed := if complete then found - token.length else 0
      score := quality distance bound token.length (if complete then found else token.length) }

/-- The term and the document frequency of an entry. -/
def readEntry (keyPrefix : Bytes) (entry : Bytes × Bytes) : Except Error (List Char × ℕ) := do
  let raw := entry.1.drop keyPrefix.length
  refuse (raw.getLast? ≠ some 0) (.corrupt "text term statistics key")
  let term ← orElse (String.fromUTF8? ⟨raw.dropLast.toArray⟩)
    (.corrupt "text term statistics key is not UTF-8")
  refuse (entry.2.length ≠ 8) (.corrupt "text term statistics length")
  let df := bigEndianNat entry.2
  refuse (df = 0) (.corrupt "zero persisted document frequency")
  pure (term.toList, df)

/-- What the walk does after an entry. -/
inductive Next where
  | step
  | seek (start : Bytes)
  | stop
  deriving DecidableEq

/-- One turn of the inner loop: what the entry's term offers, and where the walk goes on. -/
def visit (keyPrefix : Bytes) (entry : Bytes × Bytes) (best : Best) : Except Error (Best × Next) := do
  let (term, df) ← readEntry keyPrefix entry
  let best := match answer token complete bound term df with
    | some k => best.offer k
    | none => best
  match (scanTerm token complete bound term).dead with
  | none => pure (best, .step)
  | some size =>
      match successor (keyPrefix ++ (entry.1.drop keyPrefix.length).take size) with
      | some next => pure (best, .seek next)
      | none => pure (best, .stop)

/-- How many entries have been stepped over. -/
abbrev Visited := { n : ℕ // n ≤ maxVisited }

/-- The two loops of the walk, from the entries the cursor stands on.  `asked` counts the calls of
`cancelled`. -/
def scanFrom (store : Store) (keyPrefix : Bytes) (cancelled : ℕ → Bool)
    (cursor : List (Bytes × Bytes)) (best : Best) (visited : Visited) (asked : ℕ) :
    Except Stop (Best × Visited × ℕ) :=
  match cursor with
  | [] => .ok (best, visited, asked)
  | entry :: rest =>
      if ¬ keyPrefix <+: entry.1 then .ok (best, visited, asked)
      else if h : visited.1 = maxVisited then .ok ({ best with dropped := true }, visited, asked)
      else
        let visited' : Visited := ⟨visited.1 + 1, by have := visited.2; omega⟩
        match visit token complete bound keyPrefix entry best with
        | .error e => .error (.failed e)
        | .ok (best, .step) => scanFrom store keyPrefix cancelled rest best visited' asked
        | .ok (best, .seek start) =>
            if cancelled asked then .error .cancelled
            else scanFrom store keyPrefix cancelled (store.range start) best visited' (asked + 1)
        | .ok (best, .stop) => .ok (best, visited', asked)
termination_by maxVisited - visited.1
decreasing_by
  all_goals
    have := visited.2
    omega

end Token

/-- The bound of a token. -/
def boundOf (token : List Char) (typos : Bool) : ℕ := if typos then editBound token.length else 0

/-- `walk_token` -/
def walkToken (store : Store) (id : ℕ) (token : List Char) (complete typos : Bool) (cap : ℕ)
    (cancelled : ℕ → Bool) (visited : Visited) (asked : ℕ) : Except Stop (Best × Visited × ℕ) :=
  if cancelled asked then .error .cancelled
  else
    let keyPrefix := indexPrefix termStats id
    scanFrom token complete (boundOf token typos) store keyPrefix cancelled (store.range keyPrefix)
      ⟨cap, [], false⟩ visited (asked + 1)

/-! ## The expansion of a query -/

/-- One query token's accepted term, by its place among the terms. -/
structure Accepted where
  term : ℕ
  distance : ℕ
  completed : ℕ
  score : ℚ
  deriving DecidableEq

structure Expansion where
  tokens : List (List Char)
  terms : List (List Char)
  dfs : List ℕ
  groups : List (List Accepted)
  visited : ℕ
  truncated : Bool

section Expand

variable (store : Store) (id : ℕ) (typos : Bool) (cap : ℕ) (cancelled : ℕ → Bool)

/-- The walks of the tokens, one after another. -/
def walkAll : List (List Char × Bool) → Visited → ℕ → Except Stop (List (List Kept) × Visited × Bool)
  | [], visited, _ => .ok ([], visited, false)
  | (token, complete) :: flagged, visited, asked => do
      let (best, visited, asked) ← walkToken store id token complete typos cap cancelled visited asked
      let (collected, visited, truncated) ← walkAll flagged visited asked
      pure (best.kept :: collected, visited, best.dropped || truncated)

end Expand

/-- The distinct terms of all groups, with their frequencies. -/
def distinctTerms (collected : List (List Kept)) : List (List Char × ℕ) :=
  collected.flatten.foldl (fun terms k =>
    if terms.all fun held => held.1 ≠ k.term then terms ++ [(k.term, k.df)] else terms) []

/-- By score, the highest first, and then by place. -/
def Accepted.before (a b : Accepted) : Bool :=
  decide (b.score < a.score ∨ a.score = b.score ∧ a.term ≤ b.term)

/-- Every token is expanded to the terms near it, and the terms of all are numbered together. -/
def expandTokens (store : Store) (id : ℕ) (flagged : List (List Char × Bool)) (typos : Bool)
    (cancelled : ℕ → Bool) : Except Stop Expansion :=
  if flagged.isEmpty then .ok ⟨[], [], [], [], 0, false⟩
  else do
    -- a fair share of the terms for each token
    let cap := max (maxTerms / flagged.length) 1
    let (collected, visited, truncated) ←
      walkAll store id typos cap cancelled flagged ⟨0, Nat.zero_le _⟩ 0
    let terms := (distinctTerms collected).mergeSort fun a b => decide (Utf8.utf8 a.1 ≤ Utf8.utf8 b.1)
    let place := fun w => (terms.map Prod.fst).idxOf w
    pure {
      tokens := flagged.map Prod.fst
      terms := terms.map Prod.fst
      dfs := terms.map Prod.snd
      groups := collected.map fun group =>
        (group.map fun k => (⟨place k.term, k.distance, k.completed, k.score⟩ : Accepted)).mergeSort
          Accepted.before
      visited, truncated }

/-! ## Runs that may be cancelled -/

section Polled

variable {α β : Type} {run run' : (ℕ → Bool) → Except Stop α} {asked mid last : ℕ} {x : α} {y : β}

/-- A run that makes the calls of `cancelled` from `asked` on until before `last`: it fails where one of them
says so, and answers `x` where none does. -/
structure Polled (run : (ℕ → Bool) → Except Stop α) (asked last : ℕ) (x : α) : Prop where
  le : asked ≤ last
  stops : ∀ cancelled, (∃ n, asked ≤ n ∧ n < last ∧ cancelled n = true) → run cancelled = .error .cancelled
  runs : ∀ cancelled, (∀ n, asked ≤ n → n < last → cancelled n = false) → run cancelled = .ok x

lemma Polled.ok (h : ∀ cancelled, run cancelled = .ok x) : Polled run asked asked x where
  le := le_rfl
  stops := by
    rintro cancelled ⟨n, hle, hlt, -⟩
    omega
  runs cancelled _ := h cancelled

/-- One more call, before the others. -/
lemma Polled.ask (h : Polled run (asked + 1) last x) :
    Polled (fun cancelled => if cancelled asked then .error .cancelled else run cancelled) asked last x where
  le := by have := h.le; omega
  stops := by
    rintro cancelled ⟨n, hle, hlt, hn⟩
    split_ifs with hasked
    · rfl
    · refine h.stops cancelled ⟨n, ?_, hlt, hn⟩
      rcases Nat.eq_or_lt_of_le hle with rfl | hlt
      · exact absurd hn hasked
      · exact hlt
  runs cancelled hfree := by
    have hasked := hfree asked le_rfl h.le
    rw [if_neg (by simp [hasked])]
    exact h.runs cancelled fun n hle hlt => hfree n (by omega) hlt

lemma Polled.bind {f : α → (ℕ → Bool) → Except Stop β} (h : Polled run asked mid x)
    (h' : Polled (f x) mid last y) :
    Polled (fun cancelled => run cancelled >>= fun a => f a cancelled) asked last y where
  le := h.le.trans h'.le
  stops := by
    rintro cancelled ⟨n, hle, hlt, hn⟩
    by_cases hfirst : ∃ n, asked ≤ n ∧ n < mid ∧ cancelled n = true
    · rw [h.stops cancelled hfirst]
      rfl
    · push Not at hfirst
      have hmid : mid ≤ n := not_lt.1 fun hlt => hfirst n hle hlt hn
      rw [h.runs cancelled fun n hle hlt => Bool.eq_false_iff.2 (hfirst n hle hlt)]
      exact h'.stops cancelled ⟨n, hmid, hlt, hn⟩
  runs cancelled hfree := by
    rw [h.runs cancelled fun n hle hlt => hfree n hle (hlt.trans_le h'.le)]
    exact h'.runs cancelled fun n hle hlt => hfree n (h.le.trans hle) hlt

/-- What is made of the answer asks nothing. -/
lemma Polled.map (h : Polled run asked last x) (f : α → β) :
    Polled (fun cancelled => run cancelled >>= fun a => pure (f a)) asked last (f x) :=
  h.bind (Polled.ok fun _ => rfl)

end Polled

/-! ## Prefixes and their successor -/

section Successor

variable {p k next : Bytes} {x : UInt8}

lemma successor_cons (x : UInt8) (p : Bytes) : successor (x :: p) =
    match successor p with
    | some next => some (x :: next)
    | none => if x ≠ 0xFF then some [x + 1] else none := by
  have hfrom : ∀ r : List UInt8, successorFrom (r ++ [x]) =
      match successorFrom r with
      | some next => some (x :: next)
      | none => if x ≠ 0xFF then some [x + 1] else none := by
    intro r
    induction r with
    | nil =>
        rw [List.nil_append, successorFrom, successorFrom]
        split_ifs <;> rfl
    | cons last r ih =>
        rw [List.cons_append, successorFrom, successorFrom]
        by_cases hlast : last ≠ 0xFF
        · rw [if_pos hlast, if_pos hlast]
          simp
        · rw [if_neg hlast, if_neg hlast]
          exact ih
  rw [successor, List.reverse_cons, hfrom]
  rfl

/-- A string from the prefix on and before its successor begins with the prefix. -/
lemma prefix_of_successor (h : ∀ next, successor p = some next → k < next) (hk : p ≤ k) : p <+: k := by
  induction p generalizing k with
  | nil => exact List.nil_prefix
  | cons x p ih =>
      cases k with
      | nil => exact absurd hk (List.nil_lt_cons x p).not_ge
      | cons y k =>
          rw [successor_cons] at h
          rcases cons_le_cons_iff.mp hk with hlt | ⟨rfl, hle⟩
          · -- a first byte past `x` is past the successor
            exfalso
            have hx : x ≠ 0xFF := by
              rintro rfl
              exact absurd hlt (not_lt.2 (UInt8.le_iff_toNat_le.2 (Nat.le_of_lt_succ (UInt8.toNat_lt y))))
            have hsucc : x + 1 ≤ y := by
              rw [UInt8.le_iff_toNat_le, UInt8.toNat_add, UInt8.toNat_one]
              rw [UInt8.lt_iff_toNat_lt] at hlt
              have := UInt8.toNat_lt y
              omega
            cases hp : successor p with
            | some next =>
                have hbefore := h (x :: next) (by rw [hp])
                rcases List.cons_lt_cons_iff.mp hbefore with hyx | ⟨rfl, -⟩
                · exact absurd hyx hlt.not_gt
                · exact absurd hlt (lt_irrefl _)
            | none =>
                have hbefore := h [x + 1] (by rw [hp]; exact if_pos hx)
                rcases List.cons_lt_cons_iff.mp hbefore with hyx | ⟨-, hnil⟩
                · exact absurd hyx (not_lt.2 hsucc)
                · exact absurd hnil (List.not_lt_nil _)
          · refine List.cons_prefix_cons.mpr ⟨rfl, ih (fun next hnext => ?_) hle⟩
            have hbefore := h (x :: next) (by rw [hnext])
            rcases List.cons_lt_cons_iff.mp hbefore with hxx | ⟨-, hlt⟩
            · exact absurd hxx (lt_irrefl _)
            · exact hlt

/-- Every extension of a prefix is before its successor. -/
lemma lt_successor (h : successor p = some next) (hk : p <+: k) : k < next := by
  induction p generalizing k next with
  | nil => simp [successor, successorFrom] at h
  | cons x p ih =>
      obtain ⟨r, rfl⟩ := hk
      rw [successor_cons] at h
      cases hp : successor p with
      | some next' =>
          rw [hp] at h
          obtain rfl := Option.some.inj h
          exact List.cons_lt_cons_iff.mpr (Or.inr ⟨rfl, ih hp (List.prefix_append p r)⟩)
      | none =>
          rw [hp] at h
          dsimp only at h
          split_ifs at h with hx
          obtain rfl := Option.some.inj h
          refine List.cons_lt_cons_iff.mpr (Or.inl ?_)
          rw [UInt8.lt_iff_toNat_lt, UInt8.toNat_add, UInt8.toNat_one]
          have hne : x.toNat ≠ 255 := fun h255 => hx (UInt8.toNat_inj.1 h255)
          have := UInt8.toNat_lt x
          omega

end Successor

/-! ## One term -/

section Term

variable {token term p rest q : List Char} {complete : Bool} {bound d df n : ℕ} {o : Option ℕ}

/-- The distance that a term answers a token with: the fewest edits between them, or between the token and
a prefix of the term for a token that completes. -/
def Answers (token : List Char) (complete : Bool) (term : List Char) (d : ℕ) : Prop :=
  IsLeast {k | ∃ p, (p = term ∨ complete = true ∧ p <+: term) ∧ Edits p token k} d

/-- The same by the distances of the table. -/
lemma answers_iff : Answers token complete term d
    ↔ if complete then IsLeast {k | ∃ p, p <+: term ∧ distance p token = k} d
      else distance term token = d := by
  rw [Answers, isLeast_edits_iff]
  cases complete with
  | true =>
      have hbegun : ∀ p, (p = term ∨ p <+: term) ↔ p <+: term := by
        intro p
        refine ⟨?_, Or.inr⟩
        rintro (rfl | h)
        · exact List.prefix_rfl
        · exact h
      simp only [true_and, hbegun, if_true]
  | false =>
      have hone : {k | ∃ p, (p = term ∨ false = true ∧ p <+: term) ∧ distance p token = k}
          = {distance term token} := by
        ext k
        simp [eq_comm]
      rw [hone, if_neg Bool.false_ne_true]
      exact ⟨fun h => h.unique isLeast_singleton |>.symm, fun h => h ▸ isLeast_singleton⟩

/-- What has been spent once the prefix `p` has been read: nothing while no prefix of it is near, and the
least distance of its prefixes after that. -/
def Spent (token : List Char) (complete : Bool) (bound : ℕ) (p : List Char) : Option ℕ → Prop
  | none => complete = true → ∀ q, q <+: p → bound < distance q token
  | some d => complete = true ∧ d ≤ bound ∧ IsLeast {k | ∃ q, q <+: p ∧ distance q token = k} d

lemma spent_spend (h : Spent token complete bound p o) (c : Char) :
    Spent token complete bound (p ++ [c]) (spend complete bound (row token (p ++ [c])) o) := by
  have hbegun : ∀ q, q <+: p ++ [c] ↔ q <+: p ∨ q = p ++ [c] := fun q => by
    rw [List.prefix_concat_iff, or_comm]
  rw [spend.eq_def, getLast_row]
  split_ifs with hnear
  · obtain ⟨hcomplete, hle⟩ := hnear
    cases o with
    | none =>
        refine ⟨hcomplete, hle, ⟨_, (hbegun _).2 (Or.inr rfl), rfl⟩, ?_⟩
        rintro k ⟨q, hq, rfl⟩
        rcases (hbegun q).1 hq with hq | rfl
        · exact hle.trans (h hcomplete q hq).le
        · exact le_rfl
    | some held =>
        obtain ⟨-, hheld, ⟨q₀, hq₀, hdist⟩, hleast⟩ := h
        refine ⟨hcomplete, (min_le_left _ _).trans hheld, ?_, ?_⟩
        · rcases min_choice held (distance (p ++ [c]) token) with hmin | hmin <;> rw [hmin]
          · exact ⟨q₀, (hbegun q₀).2 (Or.inl hq₀), hdist⟩
          · exact ⟨_, (hbegun _).2 (Or.inr rfl), rfl⟩
        · rintro k ⟨q, hq, rfl⟩
          rcases (hbegun q).1 hq with hq | rfl
          · exact (min_le_left _ _).trans (hleast ⟨q, hq, rfl⟩)
          · exact min_le_right _ _
  · rw [not_and, not_le] at hnear
    cases o with
    | none =>
        intro hcomplete q hq
        rcases (hbegun q).1 hq with hq | rfl
        · exact h hcomplete q hq
        · exact hnear hcomplete
    | some held =>
        obtain ⟨hcomplete, hheld, ⟨q₀, hq₀, hdist⟩, hleast⟩ := h
        refine ⟨hcomplete, hheld, ⟨q₀, (hbegun q₀).2 (Or.inl hq₀), hdist⟩, ?_⟩
        rintro k ⟨q, hq, rfl⟩
        rcases (hbegun q).1 hq with hq | rfl
        · exact hleast ⟨q, hq, rfl⟩
        · exact hheld.trans (hnear hcomplete).le

/-- A row that is past the bound in every cell. -/
lemma bound_lt_extend (h : bound < (row token p).min?.getD 0) (u : List Char) :
    bound < distance (p ++ u) token := by
  refine row_le_extend (fun j hj => ?_) u
  cases hmin : (row token p).min? with
  | none => rw [hmin] at h; exact absurd h (Nat.not_lt_zero _)
  | some m =>
      rw [hmin] at h
      exact Nat.succ_le_of_lt (lt_of_lt_of_le h ((List.min?_eq_some_iff.1 hmin).2 j hj))

/-- A prefix that no term which begins with it answers with. -/
def Dead (token : List Char) (complete : Bool) (bound : ℕ) (p : List Char) : Prop :=
  ∀ u d, Answers token complete (p ++ u) d → bound < d

lemma prefix_append_cases (h : q <+: p ++ rest) : q <+: p ∨ ∃ u, q = p ++ u := by
  rcases List.prefix_or_prefix_of_prefix h (List.prefix_append p rest) with hq | ⟨u, rfl⟩
  · exact Or.inl hq
  · exact Or.inr ⟨u, rfl⟩

/-- What the loop over a term leaves. -/
structure Scanned.Good (token : List Char) (complete : Bool) (bound : ℕ) (term : List Char)
    (s : Scanned) : Prop where
  spent : Spent token complete bound term s.spent
  row : complete = false → s.dead = none → s.row = EditDistance.row token term
  dead : ∀ size, s.dead = some size → ∃ p, p <+: term ∧ (Utf8.utf8 p).length = size ∧
    Dead token complete bound p

lemma scanChars_good (hspent : Spent token complete bound p o) :
    Scanned.Good token complete bound (p ++ rest)
      (scanChars token complete bound rest p.length (Utf8.utf8 p).length (row token p) o) := by
  induction rest generalizing p o with
  | nil =>
      rw [List.append_nil]
      exact ⟨hspent, fun _ _ => rfl, by simp [scanChars]⟩
  | cons c rest ih =>
      have hsize : (Utf8.utf8 p).length + c.utf8Size = (Utf8.utf8 (p ++ [c])).length := by
        simp [String.length_utf8EncodeChar]
      have hchars : p.length + 1 = (p ++ [c]).length := by simp
      have hnext := spent_spend hspent c
      have happend : p ++ c :: rest = p ++ [c] ++ rest := by simp
      rw [scanChars, nextRow_row, hsize, hchars, happend]
      generalize spend complete bound (row token (p ++ [c])) o = next at hnext
      split_ifs with hfar hdone
      · -- some prefix has answered and no longer one comes nearer
        obtain ⟨hcomplete, hsome⟩ := Bool.and_eq_true_iff.1 hdone
        obtain ⟨d, rfl⟩ := Option.isSome_iff_exists.1 hsome
        obtain ⟨-, hle, ⟨q₀, hq₀, hdist⟩, hleast⟩ := hnext
        refine ⟨⟨hcomplete, hle, ⟨q₀, hq₀.trans (List.prefix_append _ _), hdist⟩, ?_⟩, ?_, by simp⟩
        · rintro k ⟨q, hq, rfl⟩
          rcases prefix_append_cases hq with hq | ⟨u, rfl⟩
          · exact hleast ⟨q, hq, rfl⟩
          · exact hle.trans (bound_lt_extend hfar u).le
        · intro hfalse
          rw [hcomplete] at hfalse
          exact absurd hfalse (by decide)
      · have hnone : complete = true → next = none := by
          intro hcomplete
          simpa [hcomplete] using hdone
        have hdead : Dead token complete bound (p ++ [c]) := by
          intro u d h
          cases complete with
          | false =>
              obtain rfl : distance (p ++ [c] ++ u) token = d := by simpa [answers_iff] using h
              exact bound_lt_extend hfar u
          | true =>
              rw [hnone rfl] at hnext
              rw [answers_iff, if_pos rfl] at h
              obtain ⟨q, hq, rfl⟩ := h.1
              rcases prefix_append_cases hq with hq | ⟨v, rfl⟩
              · exact hnext rfl q hq
              · exact bound_lt_extend hfar v
        refine ⟨?_, fun _ h => by simp at h, ?_⟩
        · cases next with
          | some d => exact absurd (hnone hnext.1) (by simp)
          | none =>
              intro hcomplete q hq
              rcases prefix_append_cases hq with hq | ⟨u, rfl⟩
              · exact hnext hcomplete q hq
              · exact bound_lt_extend hfar u
        · rintro size ⟨⟩
          exact ⟨p ++ [c], List.prefix_append _ _, rfl, hdead⟩
      · exact ih hnext

/-- **What is found of one term.** -/
lemma scanTerm_good (token : List Char) (complete : Bool) (bound : ℕ) (term : List Char) :
    Scanned.Good token complete bound term (scanTerm token complete bound term) := by
  have hspent : Spent token complete bound [] (spend complete bound (row token []) none) := by
    rw [spend, getLast_row]
    split_ifs with hnear
    · refine ⟨hnear.1, hnear.2, ⟨[], List.nil_prefix, rfl⟩, ?_⟩
      rintro k ⟨q, hq, rfl⟩
      rw [List.prefix_nil.1 hq]
    · rw [not_and, not_le] at hnear
      intro hcomplete q hq
      rw [List.prefix_nil.1 hq]
      exact hnear hcomplete
  rw [scanTerm, ← row_nil]
  exact scanChars_good hspent

/-- **A term is accepted when its distance is within the bound.** -/
lemma accepted_iff : (∃ found, accepted token complete bound term = some (d, found))
    ↔ Answers token complete term d ∧ d ≤ bound := by
  obtain ⟨hspent, hrow, hdead⟩ := scanTerm_good token complete bound term
  rw [accepted]
  generalize scanTerm token complete bound term = s at hspent hrow hdead
  cases complete with
  | true =>
      simp only [if_true, Option.map_eq_some_iff, Prod.mk.injEq, answers_iff]
      constructor
      · rintro ⟨found, e, he, rfl, -⟩
        rw [he] at hspent
        exact ⟨hspent.2.2, hspent.2.1⟩
      · rintro ⟨hleast, hle⟩
        cases hs : s.spent with
        | none =>
            rw [hs] at hspent
            obtain ⟨q, hq, rfl⟩ := hleast.1
            exact absurd (hspent rfl q hq) hle.not_gt
        | some e =>
            rw [hs] at hspent
            exact ⟨term.length, e, rfl, hspent.2.2.unique hleast, rfl⟩
  | false =>
      have hanswers : Answers token false term d ↔ distance term token = d := by simp [answers_iff]
      rw [hanswers]
      simp only [Bool.false_eq_true, if_false]
      cases hd : s.dead with
      | none =>
          rw [hrow rfl hd, getLast_row]
          constructor
          · rintro ⟨found, h⟩
            split_ifs at h with hle
            obtain ⟨rfl, -⟩ := Prod.mk.inj (Option.some.inj h)
            exact ⟨rfl, hle.2⟩
          · rintro ⟨rfl, hle⟩
            exact ⟨s.chars, if_pos ⟨rfl, hle⟩⟩
      | some size =>
          obtain ⟨p, ⟨u, rfl⟩, -, hdead⟩ := hdead size hd
          constructor
          · rintro ⟨found, h⟩
            simp at h
          · rintro ⟨h, hle⟩
            exact absurd (hdead u d (hanswers.2 h)) hle.not_gt

/-- What is kept of a term that answers with `d`. -/
def keptOf (token : List Char) (complete : Bool) (bound : ℕ) (term : List Char) (df d : ℕ) : Kept where
  term := term
  df := df
  distance := d
  completed := if complete then term.length - token.length else 0
  score := quality d bound token.length (if complete then term.length else token.length)

/-- **What is offered of a term** is its distance, when that is within the bound. -/
lemma answer_iff {k : Kept} : answer token complete bound term df = some k
    ↔ ∃ d, Answers token complete term d ∧ d ≤ bound ∧ k = keptOf token complete bound term df d := by
  have hkept : ∀ d found, (fun x : ℕ × ℕ =>
      ({ term, df, distance := x.1
         completed := if complete then (if complete then term.length else x.2) - token.length else 0
         score := quality x.1 bound token.length
           (if complete then (if complete then term.length else x.2) else token.length) } : Kept))
        (d, found) = keptOf token complete bound term df d := by
    intro d found
    cases complete <;> rfl
  rw [answer, Option.map_eq_some_iff]
  constructor
  · rintro ⟨⟨d, found⟩, hd, rfl⟩
    obtain ⟨hanswers, hle⟩ := accepted_iff.1 ⟨found, hd⟩
    exact ⟨d, hanswers, hle, hkept d found⟩
  · rintro ⟨d, hanswers, hle, rfl⟩
    obtain ⟨found, hd⟩ := accepted_iff.2 ⟨hanswers, hle⟩
    exact ⟨(d, found), hd, hkept d found⟩

end Term

/-! ## The dictionary -/

/-- The entries of a text index's terms, and no others of its keys. -/
structure Dictionary (store : Store) (id : ℕ) (terms : Set (List Char)) (df : List Char → ℕ) : Prop where
  entries : ∀ e, (e ∈ store.entries ∧ indexPrefix termStats id <+: e.1)
    ↔ ∃ w ∈ terms, e = (termStatsKey id w, bigEndian 8 (df w))
  pos : ∀ w ∈ terms, 0 < df w
  lt : ∀ w ∈ terms, df w < 2 ^ 64

section Dictionary

variable {store : Store} {id : ℕ} {terms : Set (List Char)} {df : List Char → ℕ} {w : List Char}
  {token : List Char} {complete : Bool} {bound : ℕ} {best best' : Best} {k : Kept}
  {cursor rest : List (Bytes × Bytes)} {entry e : Bytes × Bytes} {cancelled : ℕ → Bool}
  {visited visited' : Visited} {asked asked' : ℕ} {keyPrefix start : Bytes}

lemma fromUTF8_utf8_ofList (w : List Char) :
    String.fromUTF8? ⟨(Utf8.utf8 w).toArray⟩ = some (String.ofList w) := by
  have hbytes : (⟨(Utf8.utf8 w).toArray⟩ : ByteArray) = (String.ofList w).toByteArray := by
    rw [String.toByteArray_ofList, List.utf8Encode]
    exact ByteArray.ext (by simp [Utf8.utf8])
  have hvalid := (String.ofList w).isValidUTF8
  rw [hbytes, String.fromUTF8?, dif_pos hvalid]
  rfl

lemma termStatsKey_drop (id : ℕ) (w : List Char) :
    (termStatsKey id w).drop (indexPrefix termStats id).length = Utf8.utf8 w ++ [0] := by
  rw [termStatsKey, List.append_assoc, List.drop_left]

lemma prefix_termStatsKey (id : ℕ) (w : List Char) : indexPrefix termStats id <+: termStatsKey id w := by
  rw [termStatsKey, List.append_assoc]
  exact List.prefix_append _ _

lemma readEntry_term {n : ℕ} (hn : 0 < n) (hlt : n < 2 ^ 64) :
    readEntry (indexPrefix termStats id) (termStatsKey id w, bigEndian 8 n) = .ok (w, n) := by
  have hcount : bigEndianNat (bigEndian 8 n) = n := bigEndianNat_bigEndian (by simpa using hlt)
  simp only [readEntry, termStatsKey_drop, bind_eq_ok, refuse_eq_ok, orElse_eq_ok, pure_eq_ok]
  refine ⟨(), by simp, String.ofList w, ?_, (), by simp, (), by omega, ?_⟩
  · rw [List.dropLast_concat, fromUTF8_utf8_ofList]
  · rw [hcount, String.toList_ofList]

/-- What an entry's term offers. -/
def entryAnswer (token : List Char) (complete : Bool) (bound : ℕ) (keyPrefix : Bytes)
    (entry : Bytes × Bytes) : Option Kept :=
  if keyPrefix <+: entry.1 then
    match readEntry keyPrefix entry with
    | .ok (term, df) => answer token complete bound term df
    | .error _ => none
  else none

lemma entryAnswer_term (token : List Char) (complete : Bool) (bound : ℕ)
    (hd : Dictionary store id terms df) (hw : w ∈ terms) :
    entryAnswer token complete bound (indexPrefix termStats id) (termStatsKey id w, bigEndian 8 (df w))
      = answer token complete bound w (df w) := by
  rw [entryAnswer, if_pos (prefix_termStatsKey id w), readEntry_term (hd.pos w hw) (hd.lt w hw)]

/-- **A seek passes only terms without an answer.** -/
lemma answer_of_dead {p : List Char} (hp : p <+: w) (hdead : Dead token complete bound p) (n : ℕ) :
    answer token complete bound w n = none := by
  obtain ⟨u, rfl⟩ := hp
  rw [← Option.not_isSome_iff_eq_none, Option.isSome_iff_exists]
  rintro ⟨k, hk⟩
  obtain ⟨d, hanswers, hle, -⟩ := answer_iff.1 hk
  exact absurd (hdead u d hanswers) hle.not_gt

/-- A term whose key lies past that of another, and begins with the bytes of a prefix of the other's text,
begins with that prefix. -/
lemma prefix_of_key {p v : List Char} (hp : p <+: w) (hle : termStatsKey id w ≤ termStatsKey id v)
    (h : indexPrefix termStats id ++ Utf8.utf8 p <+: termStatsKey id v) : p <+: v := by
  rw [termStatsKey, termStatsKey, List.append_assoc, List.append_assoc] at *
  have hbytes : Utf8.utf8 p <+: Utf8.utf8 (v ++ ['\u0000']) := by
    rw [Utf8.utf8_append]
    exact (List.prefix_append_right_inj _).1 h
  rcases List.prefix_concat_iff.1 (Utf8.utf8_prefix_iff.1 hbytes) with rfl | hv
  · -- the whole of the key is then a proper prefix of the other, which lies before it
    exfalso
    obtain ⟨u, rfl⟩ := hp
    refine absurd hle (not_le.2 ?_)
    refine List.append_left_lt ?_
    rw [Utf8.utf8_append, Utf8.utf8_append, List.append_assoc, List.append_assoc]
    refine List.append_left_lt ?_
    have hnul : Utf8.utf8 ['\u0000'] = [0] := by decide
    rw [hnul]
    refine List.cons_lt_cons_iff.2 (Or.inr ⟨rfl, ?_⟩)
    cases hrest : Utf8.utf8 u ++ [0] with
    | nil => simp at hrest
    | cons b r => exact List.nil_lt_cons b r
  · exact hv

lemma skip_isPrefix {p : List Char} (hp : p <+: w) :
    indexPrefix termStats id ++ Utf8.utf8 p <+: termStatsKey id w := by
  obtain ⟨u, rfl⟩ := hp
  rw [termStatsKey, Utf8.utf8_append, ← List.append_assoc, List.append_assoc]
  exact List.prefix_append _ _

/-- What one turn leaves. -/
lemma visit_spec (token : List Char) (complete : Bool) (bound : ℕ) (best : Best)
    (hd : Dictionary store id terms df) (hw : w ∈ terms) :
    ∃ next, visit token complete bound (indexPrefix termStats id)
        (termStatsKey id w, bigEndian 8 (df w)) best
        = .ok (match answer token complete bound w (df w) with
            | some k => best.offer k
            | none => best, next)
      ∧ (next = .step ∨ ∃ p, p <+: w ∧ Dead token complete bound p
          ∧ ((∃ start, next = .seek start
              ∧ successor (indexPrefix termStats id ++ Utf8.utf8 p) = some start)
            ∨ next = .stop ∧ successor (indexPrefix termStats id ++ Utf8.utf8 p) = none)) := by
  obtain ⟨-, -, hdead⟩ := scanTerm_good token complete bound w
  rw [visit, readEntry_term (hd.pos w hw) (hd.lt w hw)]
  simp only [termStatsKey_drop, bind, Except.bind]
  cases hs : (scanTerm token complete bound w).dead with
  | none => exact ⟨.step, rfl, Or.inl rfl⟩
  | some size =>
      obtain ⟨p, hp, hsize, hdead⟩ := hdead size hs
      have htake : (Utf8.utf8 w ++ [0]).take size = Utf8.utf8 p := by
        obtain ⟨u, rfl⟩ := hp
        rw [Utf8.utf8_append, List.append_assoc, ← hsize, List.take_left]
      simp only [htake]
      cases hsucc : successor (indexPrefix termStats id ++ Utf8.utf8 p) with
      | none => exact ⟨.stop, rfl, Or.inr ⟨p, hp, hdead, Or.inr ⟨rfl, hsucc⟩⟩⟩
      | some start => exact ⟨.seek start, rfl, Or.inr ⟨p, hp, hdead, Or.inl ⟨start, rfl, hsucc⟩⟩⟩

/-- The terms between an entry and the key a walk seeks to, or all past it where there is none, have no
answer. -/
lemma entryAnswer_of_dead (hd : Dictionary store id terms df) {p : List Char} (hp : p <+: w)
    (hdead : Dead token complete bound p) (he : e ∈ store.entries) (hge : termStatsKey id w ≤ e.1)
    (hlt : ∀ start, successor (indexPrefix termStats id ++ Utf8.utf8 p) = some start → e.1 < start) :
    entryAnswer token complete bound (indexPrefix termStats id) e = none := by
  by_cases hbegun : indexPrefix termStats id <+: e.1
  · obtain ⟨v, hv, rfl⟩ := (hd.entries e).1 ⟨he, hbegun⟩
    have hbegins := prefix_of_successor hlt ((le_of_isPrefix (skip_isPrefix hp)).trans hge)
    rw [entryAnswer_term token complete bound hd hv]
    exact answer_of_dead (prefix_of_key hp hge hbegins) hdead _
  · rw [entryAnswer, if_neg hbegun]

/-! ## The walk -/

lemma offer_dropped (h : (best.offer k).dropped = false) :
    best.dropped = false ∧ (best.offer k).kept = best.kept ++ [k] := by
  rw [Best.offer] at h ⊢
  split_ifs at h ⊢ with hroom
  · exact ⟨h, rfl⟩
  · cases hw : worst best.kept with
    | none => simp [hw] at h
    | some held =>
        simp only [hw] at h
        split_ifs at h

/-- An offer changes neither the cap nor, past it, the number kept. -/
lemma offer_fields (k : Kept) (hroom : best.kept.length ≤ best.cap) :
    (best.offer k).cap = best.cap
      ∧ (best.offer k).kept.length = min best.cap (best.kept.length + 1)
      ∧ ((best.offer k).dropped = true ↔ best.dropped = true ∨ best.cap < best.kept.length + 1) := by
  rw [Best.offer]
  split_ifs with hlt
  · refine ⟨rfl, ?_, ?_⟩
    · rw [List.length_append, List.length_singleton]
      omega
    · simp [Nat.not_lt.2 (Nat.succ_le_of_lt hlt)]
  · have hfull : best.kept.length = best.cap := by omega
    have hpast : best.cap < best.kept.length + 1 := by omega
    cases hw : worst best.kept with
    | none => simp [hfull]
    | some held =>
        dsimp only
        split_ifs
        · simp [hfull]
        · simp [hfull]

lemma mem_range (h : e ∈ store.range start) : e ∈ store.entries ∧ start ≤ e.1 := by
  have hsub := List.dropWhile_sublist (fun e : Bytes × Bytes => decide (e.1 < start))
    (l := store.entries)
  refine ⟨hsub.subset h, ?_⟩
  -- the first entry is not before `start`, and those after it are past it
  cases hr : store.range start with
  | nil => rw [hr] at h; exact absurd h List.not_mem_nil
  | cons first rest =>
      have hfirst : ¬ first.1 < start := by
        have hhead := List.head?_dropWhile_not (fun e : Bytes × Bytes => decide (e.1 < start)) store.entries
        rw [show store.entries.dropWhile _ = first :: rest from hr] at hhead
        simpa using hhead
      have hsorted : (first :: rest).Pairwise fun a b => a.1 < b.1 := hr ▸ store.sorted.sublist hsub
      rw [hr] at h
      rcases h with _ | ⟨_, h⟩
      · exact not_lt.1 hfirst
      · exact (not_lt.1 hfirst).trans (List.rel_of_pairwise_cons hsorted h).le

lemma filterMap_dropWhile {β γ : Type*} {f : β → Option γ} {q : β → Bool} {l : List β}
    (h : ∀ x ∈ l, q x = true → f x = none) : (l.dropWhile q).filterMap f = l.filterMap f := by
  induction l with
  | nil => rfl
  | cons x l ih =>
      rw [List.dropWhile_cons]
      split_ifs with hx
      · rw [List.filterMap_cons_none (h x List.mem_cons_self hx),
          ih fun y hy => h y (List.mem_cons_of_mem x hy)]
      · rfl

/-- Where the cursor of a walk stands: at the rest of the entries, none of them before the index's. -/
structure Stands (store : Store) (keyPrefix : Bytes) (cursor : List (Bytes × Bytes)) : Prop where
  rest : ∃ before, store.entries = before ++ cursor
  le : ∀ e ∈ cursor, keyPrefix ≤ e.1

lemma Stands.mem (h : Stands store keyPrefix cursor) (he : e ∈ cursor) : e ∈ store.entries := by
  obtain ⟨before, hb⟩ := h.rest
  rw [hb]
  exact List.mem_append_right before he

lemma Stands.sorted (h : Stands store keyPrefix cursor) : cursor.Pairwise fun a b => a.1 < b.1 := by
  obtain ⟨before, hb⟩ := h.rest
  have := store.sorted
  rw [hb] at this
  exact (List.pairwise_append.1 this).2.1

lemma Stands.head_le (h : Stands store keyPrefix (entry :: rest)) (he : e ∈ entry :: rest) :
    entry.1 ≤ e.1 := by
  rcases he with _ | ⟨_, he⟩
  · exact le_rfl
  · exact (List.rel_of_pairwise_cons h.sorted he).le

lemma Stands.step (h : Stands store keyPrefix (entry :: rest)) : Stands store keyPrefix rest := by
  obtain ⟨before, hb⟩ := h.rest
  exact ⟨⟨before ++ [entry], by simp [hb]⟩, fun e he => h.le e (List.mem_cons_of_mem entry he)⟩

/-- A seek past the entry drops only entries of the cursor. -/
lemma Stands.range (h : Stands store keyPrefix (entry :: rest)) (hstart : entry.1 < start) :
    store.range start = (entry :: rest).dropWhile fun e => decide (e.1 < start) := by
  obtain ⟨before, hb⟩ := h.rest
  have hsorted := store.sorted
  rw [hb] at hsorted
  rw [Store.range, hb]
  refine List.dropWhile_append_of_pos fun e he => ?_
  have hlt := (List.pairwise_append.1 hsorted).2.2 e he entry List.mem_cons_self
  exact decide_eq_true (hlt.trans hstart)

lemma Stands.seek (h : Stands store keyPrefix (entry :: rest)) (hstart : entry.1 < start) :
    Stands store keyPrefix (store.range start) := by
  obtain ⟨gone, hgone⟩ := List.dropWhile_suffix (fun e : Bytes × Bytes => decide (e.1 < start))
    (l := store.entries)
  refine ⟨⟨gone, hgone.symm⟩, fun e he => ?_⟩
  rw [h.range hstart] at he
  exact h.le e ((List.dropWhile_sublist _).subset he)

/-- What a walk that has been offered the answers of some entries makes of the next one. -/
def taken (best : Best) (answers : List Kept) : Best := answers.foldl Best.offer best

/-- **What is kept of the answers offered**: all of them while there is room, and `dropped` says just whether
there was. -/
lemma taken_spec (best : Best) (answers : List Kept) (hroom : best.kept.length ≤ best.cap) :
    (taken best answers).cap = best.cap
      ∧ ((taken best answers).dropped = true
        ↔ best.dropped = true ∨ best.cap < best.kept.length + answers.length)
      ∧ ((taken best answers).dropped = false → (taken best answers).kept = best.kept ++ answers) := by
  induction answers generalizing best with
  | nil => simp [taken, hroom]
  | cons k answers ih =>
      obtain ⟨hcap, hlen, hdropped⟩ := offer_fields k hroom
      obtain ⟨hcap', hdropped', hkept'⟩ := ih (best.offer k) (by omega)
      have hcons : taken best (k :: answers) = taken (best.offer k) answers := rfl
      rw [hcons]
      refine ⟨hcap'.trans hcap, ?_, fun h => ?_⟩
      · rw [hdropped', hdropped, hcap, hlen, or_assoc]
        refine or_congr_right ?_
        rw [List.length_cons]
        omega
      · have hnot : (best.offer k).dropped = false := by
          rw [← Bool.not_eq_true] at h ⊢
          exact fun h' => h (hdropped'.2 (Or.inl h'))
        rw [hkept' h, (offer_dropped hnot).2, List.append_assoc, List.singleton_append]

/-- The entries of the index among those of a cursor. -/
def pending (keyPrefix : Bytes) (cursor : List (Bytes × Bytes)) : List (Bytes × Bytes) :=
  cursor.filter fun e => decide (keyPrefix <+: e.1)

/-- How a walk ends that stood at `cursor`: past the last entry, with all the answers offered, or at the bound
on the entries with one left, having offered the first of them. -/
structure Walked (token : List Char) (complete : Bool) (bound : ℕ) (keyPrefix : Bytes)
    (cursor : List (Bytes × Bytes)) (best best' : Best) (visited visited' : Visited) : Prop where
  offered : best' = taken best (cursor.filterMap (entryAnswer token complete bound keyPrefix))
    ∨ best'.dropped = true ∧ maxVisited < visited.1 + (pending keyPrefix cursor).length
  visited : visited'.1 ≤ visited.1 + (pending keyPrefix cursor).length

/-- A walk that has seen one entry and stands at later ones of the cursor. -/
lemma Walked.cons {cursor' : List (Bytes × Bytes)} {offered : Best} {visited₁ : Visited}
    (h : Walked token complete bound keyPrefix cursor' offered best' visited₁ visited')
    (hvisited : visited₁.1 = visited.1 + 1)
    (hpending : (pending keyPrefix cursor').length + 1 ≤ (pending keyPrefix cursor).length)
    (hanswers : taken best (cursor.filterMap (entryAnswer token complete bound keyPrefix))
      = taken offered (cursor'.filterMap (entryAnswer token complete bound keyPrefix))) :
    Walked token complete bound keyPrefix cursor best best' visited visited' := by
  obtain ⟨hoffered, hle⟩ := h
  refine ⟨?_, by omega⟩
  rcases hoffered with rfl | ⟨hdropped, hlt⟩
  · exact Or.inl hanswers.symm
  · exact Or.inr ⟨hdropped, by omega⟩

/-- **The walk from a key on** ends, and has offered the answers of the entries from there in their order
unless it came to the bound. -/
lemma scanFrom_spec (token : List Char) (complete : Bool) (bound : ℕ) (best : Best) (visited : Visited)
    (asked : ℕ) (hd : Dictionary store id terms df)
    (hstands : Stands store (indexPrefix termStats id) cursor) :
    ∃ best' visited' asked',
      Polled (fun cancelled => scanFrom token complete bound store (indexPrefix termStats id) cancelled cursor
        best visited asked) asked asked' (best', visited', asked')
      ∧ Walked token complete bound (indexPrefix termStats id) cursor best best' visited visited' := by
  generalize hleft : maxVisited - visited.1 = left
  induction left using Nat.strong_induction_on generalizing cursor best visited asked with
  | _ left ih =>
    cases cursor with
    | nil =>
        refine ⟨best, visited, asked, Polled.ok fun cancelled => ?_, Or.inl rfl, Nat.le_add_right _ _⟩
        rw [scanFrom]
    | cons entry rest =>
        by_cases hbegun : indexPrefix termStats id <+: entry.1
        swap
        · -- past the index's entries, so none of the rest is one
          refine ⟨best, visited, asked, Polled.ok fun cancelled => ?_, Or.inl ?_, Nat.le_add_right _ _⟩
          · rw [scanFrom, if_pos hbegun]
          · rw [List.filterMap_eq_nil_iff.2]
            · rfl
            intro e he
            rw [entryAnswer, if_neg]
            intro hpe
            exact hbegun (prefix_of_between (hstands.le entry List.mem_cons_self) (hstands.head_le he) hpe)
        have hone : (pending (indexPrefix termStats id) (entry :: rest)).length
            = (pending (indexPrefix termStats id) rest).length + 1 := by
          rw [pending, List.filter_cons_of_pos (by simpa using hbegun), List.length_cons, pending]
        by_cases hmax : visited.1 = maxVisited
        · refine ⟨{ best with dropped := true }, visited, asked, Polled.ok fun cancelled => ?_,
            Or.inr ⟨rfl, by omega⟩, Nat.le_add_right _ _⟩
          rw [scanFrom, if_neg (not_not.2 hbegun), dif_pos hmax]
        · obtain ⟨w, hw, rfl⟩ := (hd.entries entry).1 ⟨hstands.mem List.mem_cons_self, hbegun⟩
          obtain ⟨next, hvisit, hnext⟩ := visit_spec token complete bound best hd hw
          have hhead := entryAnswer_term token complete bound hd hw
          have hsmaller : maxVisited - (visited.1 + 1) < left := by have := visited.2; omega
          have hroom : visited.1 + 1 ≤ maxVisited := by have := visited.2; omega
          simp only [scanFrom, if_neg (not_not.2 hbegun), dif_neg hmax, hvisit]
          generalize hoffered : (match answer token complete bound w (df w) with
            | some k => best.offer k
            | none => best) = offered
          -- the entry offers its own answer
          have hcons : taken best (((termStatsKey id w, bigEndian 8 (df w)) :: rest).filterMap
              (entryAnswer token complete bound (indexPrefix termStats id)))
              = taken offered
                (rest.filterMap (entryAnswer token complete bound (indexPrefix termStats id))) := by
            rw [List.filterMap_cons, hhead, ← hoffered]
            cases answer token complete bound w (df w) <;> rfl
          -- from any cursor further on the walk ends as it should
          have hmore : ∀ asked cursor', Stands store (indexPrefix termStats id) cursor' →
              ∃ best' visited' asked',
                Polled (fun cancelled => scanFrom token complete bound store (indexPrefix termStats id)
                  cancelled cursor' offered ⟨visited.1 + 1, hroom⟩ asked) asked asked'
                  (best', visited', asked')
                ∧ Walked token complete bound (indexPrefix termStats id) cursor' offered best'
                  ⟨visited.1 + 1, hroom⟩ visited' :=
            fun asked cursor' h => ih _ hsmaller _ _ _ h rfl
          rcases hnext with rfl | ⟨p, hp, hdead, ⟨start, rfl, hsucc⟩ | ⟨rfl, hsucc⟩⟩
          · obtain ⟨best', visited', asked', hpolled, hwalked⟩ := hmore asked rest hstands.step
            exact ⟨best', visited', asked', hpolled, hwalked.cons rfl hone.ge hcons⟩
          · -- the entry itself and those up to `start` have no answer
            have hstart : termStatsKey id w < start := lt_successor hsucc (skip_isPrefix hp)
            have hpass : (store.range start).filterMap
                (entryAnswer token complete bound (indexPrefix termStats id))
                = ((termStatsKey id w, bigEndian 8 (df w)) :: rest).filterMap
                  (entryAnswer token complete bound (indexPrefix termStats id)) := by
              rw [hstands.range hstart]
              refine filterMap_dropWhile fun e he hlt => ?_
              have hge : termStatsKey id w ≤ e.1 := hstands.head_le he
              refine entryAnswer_of_dead hd hp hdead (hstands.mem he) hge fun s hs => ?_
              rw [hsucc] at hs
              exact Option.some.inj hs ▸ of_decide_eq_true hlt
            have hfewer : (pending (indexPrefix termStats id) (store.range start)).length + 1
                ≤ (pending (indexPrefix termStats id)
                  ((termStatsKey id w, bigEndian 8 (df w)) :: rest)).length := by
              rw [hone, hstands.range hstart, List.dropWhile_cons]
              rw [if_pos (by simpa using hstart)]
              exact Nat.succ_le_succ ((List.dropWhile_sublist _).filter _).length_le
            have hnone : answer token complete bound w (df w) = none := answer_of_dead hp hdead (df w)
            obtain rfl : best = offered := by rw [← hoffered, hnone]
            obtain ⟨best', visited', asked', hpolled, hwalked⟩ :=
              hmore (asked + 1) _ (hstands.seek hstart)
            exact ⟨best', visited', asked', hpolled.ask, hwalked.cons rfl hfewer (by rw [hpass])⟩
          · have hnone : ((termStatsKey id w, bigEndian 8 (df w)) :: rest).filterMap
                (entryAnswer token complete bound (indexPrefix termStats id)) = [] := by
              rw [List.filterMap_eq_nil_iff]
              intro e he
              have hge : termStatsKey id w ≤ e.1 := hstands.head_le he
              refine entryAnswer_of_dead hd hp hdead (hstands.mem he) hge fun s hs => ?_
              rw [hsucc] at hs
              exact absurd hs (by simp)
            obtain rfl : best = offered := by rw [← hoffered, answer_of_dead hp hdead]
            have hle : visited.1 + 1 ≤ visited.1 + (pending (indexPrefix termStats id)
                ((termStatsKey id w, bigEndian 8 (df w)) :: rest)).length := by
              rw [hone]
              omega
            exact ⟨best, _, asked, Polled.ok fun cancelled => rfl, Or.inl (by rw [hnone]; rfl), hle⟩

/-- The terms are as many as the entries of the index. -/
lemma length_pending (hd : Dictionary store id terms df) :
    (pending (indexPrefix termStats id) store.entries).length = terms.ncard := by
  have hinj : Function.Injective fun w => (termStatsKey id w, bigEndian 8 (df w)) := by
    intro v w h
    have hkey : termStatsKey id v = termStatsKey id w := congrArg Prod.fst h
    rw [termStatsKey, termStatsKey, List.append_assoc, List.append_assoc] at hkey
    exact Utf8.utf8_injective (List.append_cancel_right (List.append_cancel_left hkey))
  have hnodup : (pending (indexPrefix termStats id) store.entries).Nodup := by
    refine List.Nodup.filter _ (store.sorted.imp fun hlt heq => ?_)
    rw [heq] at hlt
    exact lt_irrefl _ hlt
  have himage : (fun w => (termStatsKey id w, bigEndian 8 (df w))) '' terms
      = ((pending (indexPrefix termStats id) store.entries).toFinset : Set (Bytes × Bytes)) := by
    ext e
    rw [Set.mem_image, List.coe_toFinset, Set.mem_ofPred_eq, pending, List.mem_filter, decide_eq_true_iff,
      hd.entries e]
    exact exists_congr fun w => and_congr_right fun _ => eq_comm
  rw [← Set.ncard_image_of_injective terms hinj, himage, Set.ncard_coe_finset,
    List.toFinset_card_of_nodup hnodup]

end Dictionary

/-! ## What a walk takes -/

section Exact

variable {store : Store} {id : ℕ} {terms : Set (List Char)} {df : List Char → ℕ} {w : List Char}

/-- Exactly the terms that answer a token within its bound, each once and with its distance. -/
structure Exact (terms : Set (List Char)) (df : List Char → ℕ) (token : List Char) (complete : Bool)
    (bound : ℕ) (kept : List Kept) : Prop where
  mem : ∀ k, k ∈ kept ↔ ∃ w ∈ terms, ∃ d, Answers token complete w d ∧ d ≤ bound
    ∧ k = keptOf token complete bound w (df w) d
  nodup : (kept.map Kept.term).Nodup

/-- An answer is of an entry of the dictionary. -/
lemma entryAnswer_eq_some (hd : Dictionary store id terms df) {token : List Char} {complete : Bool}
    {bound : ℕ} {e : Bytes × Bytes} {k : Kept} (he : e ∈ store.entries)
    (h : entryAnswer token complete bound (indexPrefix termStats id) e = some k) :
    ∃ w ∈ terms, e = (termStatsKey id w, bigEndian 8 (df w)) ∧ k.term = w
      ∧ answer token complete bound w (df w) = some k := by
  by_cases hbegun : indexPrefix termStats id <+: e.1
  · obtain ⟨w, hw, rfl⟩ := (hd.entries e).1 ⟨he, hbegun⟩
    rw [entryAnswer_term token complete bound hd hw] at h
    obtain ⟨d, -, -, rfl⟩ := answer_iff.1 h
    exact ⟨w, hw, rfl, rfl, h⟩
  · rw [entryAnswer, if_neg hbegun] at h
    exact absurd h (by simp)

lemma exact_entries (hd : Dictionary store id terms df) (token : List Char) (complete : Bool)
    (bound : ℕ) : Exact terms df token complete bound
      (store.entries.filterMap (entryAnswer token complete bound (indexPrefix termStats id))) where
  mem k := by
    rw [List.mem_filterMap]
    constructor
    · rintro ⟨e, he, hk⟩
      obtain ⟨w, hw, -, -, hanswer⟩ := entryAnswer_eq_some hd he hk
      exact ⟨w, hw, answer_iff.1 hanswer⟩
    · rintro ⟨w, hw, hanswer⟩
      refine ⟨_, ((hd.entries _).2 ⟨w, hw, rfl⟩).1, ?_⟩
      rw [entryAnswer_term token complete bound hd hw]
      exact answer_iff.2 hanswer
  nodup := by
    refine List.pairwise_map.2 (List.pairwise_filterMap.2 (store.sorted.imp_of_mem ?_))
    rintro a b ha hb hlt x hx y hy heq
    obtain ⟨w, -, rfl, hxw, -⟩ := entryAnswer_eq_some hd ha hx
    obtain ⟨v, -, rfl, hyv, -⟩ := entryAnswer_eq_some hd hb hy
    rw [← hxw, ← hyv, heq] at hlt
    exact lt_irrefl _ hlt

/-- **One walk** is exact unless it reports a bound, and reports one only where there was one. -/
lemma walkToken_spec (hd : Dictionary store id terms df) (token : List Char) (complete typos : Bool)
    (cap : ℕ) (visited : Visited) (asked : ℕ) :
    ∃ best visited' asked', asked < asked'
      ∧ Polled (fun cancelled => walkToken store id token complete typos cap cancelled visited asked)
        asked asked' (best, visited', asked')
      ∧ (best.dropped = false → Exact terms df token complete (boundOf token typos) best.kept)
      ∧ (best.dropped = true → maxVisited < visited.1 + terms.ncard
        ∨ ∃ all, Exact terms df token complete (boundOf token typos) all ∧ cap < all.length)
      ∧ visited'.1 ≤ visited.1 + terms.ncard := by
  have hstands : Stands store (indexPrefix termStats id) (store.range (indexPrefix termStats id)) := by
    obtain ⟨before, hb⟩ := List.dropWhile_suffix
      (fun e : Bytes × Bytes => decide (e.1 < indexPrefix termStats id)) (l := store.entries)
    exact ⟨⟨before, hb.symm⟩, fun e he => (mem_range he).2⟩
  have hall : (store.range (indexPrefix termStats id)).filterMap
      (entryAnswer token complete (boundOf token typos) (indexPrefix termStats id))
      = store.entries.filterMap
        (entryAnswer token complete (boundOf token typos) (indexPrefix termStats id)) := by
    refine filterMap_dropWhile fun e _ hlt => ?_
    rw [entryAnswer, if_neg]
    exact fun hbegun => absurd (of_decide_eq_true hlt) (not_lt.2 (le_of_isPrefix hbegun))
  have hcount : (pending (indexPrefix termStats id) (store.range (indexPrefix termStats id))).length
      ≤ terms.ncard := by
    rw [← length_pending hd]
    exact ((List.dropWhile_sublist _).filter _).length_le
  have hexact := exact_entries hd token complete (boundOf token typos)
  obtain ⟨best, visited', asked', hpolled, hoffered, hvisited⟩ :=
    scanFrom_spec token complete (boundOf token typos) ⟨cap, [], false⟩ visited (asked + 1) hd hstands
  rw [hall] at hoffered
  generalize store.entries.filterMap
    (entryAnswer token complete (boundOf token typos) (indexPrefix termStats id)) = all at hoffered hexact
  obtain ⟨-, hdropped, hkept⟩ := taken_spec ⟨cap, [], false⟩ all (Nat.zero_le cap)
  refine ⟨best, visited', asked', hpolled.le, hpolled.ask, fun h => ?_, fun h => ?_, by omega⟩
  · rcases hoffered with rfl | ⟨h', -⟩
    · rw [hkept h, List.nil_append]
      exact hexact
    · rw [h] at h'
      exact absurd h' (by decide)
  · rcases hoffered with rfl | ⟨-, hlt⟩
    · right
      rcases hdropped.1 h with h | hlt
      · exact absurd h Bool.false_ne_true
      · exact ⟨all, hexact, by simpa using hlt⟩
    · exact Or.inl (by omega)

/-- **The walks of all tokens**: the entries are counted together. -/
lemma walkAll_spec (hd : Dictionary store id terms df) (typos : Bool) (cap : ℕ)
    (flagged : List (List Char × Bool)) (visited : Visited) (asked : ℕ) :
    ∃ collected visited' truncated asked',
      Polled (fun cancelled => walkAll store id typos cap cancelled flagged visited asked)
        asked asked' (collected, visited', truncated)
      ∧ (truncated = false → List.Forall₂
        (fun f kept => Exact terms df f.1 f.2 (boundOf f.1 typos) kept) flagged collected)
      ∧ (truncated = true → maxVisited < visited.1 + flagged.length * terms.ncard
        ∨ ∃ f ∈ flagged, ∃ all, Exact terms df f.1 f.2 (boundOf f.1 typos) all ∧ cap < all.length) := by
  induction flagged generalizing visited asked with
  | nil => exact ⟨[], visited, false, asked, Polled.ok fun _ => rfl, fun _ => .nil, by simp⟩
  | cons f flagged ih =>
      obtain ⟨token, complete⟩ := f
      obtain ⟨best, visited₁, asked₁, -, hwalk, hexact, hbounded, hle⟩ :=
        walkToken_spec hd token complete typos cap visited asked
      obtain ⟨collected, visited', truncated, asked', hrest, hall, hrestBounded⟩ := ih visited₁ asked₁
      have hrun := hrest.map fun x : List (List Kept) × Visited × Bool =>
        (best.kept :: x.1, x.2.1, best.dropped || x.2.2)
      have hmul : (flagged.length + 1) * terms.ncard = flagged.length * terms.ncard + terms.ncard :=
        Nat.succ_mul _ _
      refine ⟨_, _, _, asked', hwalk.bind hrun, fun hnot => ?_, fun htrunc => ?_⟩
      · obtain ⟨hbest, hnot⟩ := Bool.or_eq_false_iff.1 hnot
        exact .cons (hexact hbest) (hall hnot)
      · rw [List.length_cons, hmul]
        rcases (Bool.or_eq_true_iff).1 htrunc with h | h
        · rcases hbounded h with hlt | ⟨all, hall, hlt⟩
          · exact Or.inl (by omega)
          · exact Or.inr ⟨_, List.mem_cons_self, all, hall, hlt⟩
        · rcases hrestBounded h with hlt | ⟨f, hf, all, hall, hlt⟩
          · exact Or.inl (by omega)
          · exact Or.inr ⟨f, List.mem_cons_of_mem _ hf, all, hall, hlt⟩

/-! ## The expansion -/

lemma mem_distinctTerms {collected : List (List Kept)} :
    w ∈ (distinctTerms collected).map Prod.fst ↔ ∃ k ∈ collected.flatten, k.term = w := by
  have hfold : ∀ (l : List Kept) (held : List (List Char × ℕ)),
      w ∈ (l.foldl (fun terms k => if terms.all fun held => held.1 ≠ k.term then
        terms ++ [(k.term, k.df)] else terms) held).map Prod.fst
        ↔ w ∈ held.map Prod.fst ∨ ∃ k ∈ l, k.term = w := by
    intro l
    induction l with
    | nil => simp
    | cons k l ih =>
        intro held
        rw [List.foldl_cons, ih]
        split_ifs with hnew
        · rw [List.map_append, List.mem_append, List.map_cons, List.map_nil, List.mem_singleton, or_assoc,
            List.exists_mem_cons_iff, eq_comm (a := w)]
        · -- the term is held already
          have hheld : k.term ∈ held.map Prod.fst := by
            simpa using hnew
          rw [List.exists_mem_cons_iff]
          constructor
          · rintro (h | h)
            · exact Or.inl h
            · exact Or.inr (Or.inr h)
          · rintro (h | rfl | h)
            · exact Or.inl h
            · exact Or.inl hheld
            · exact Or.inr h
  simpa [distinctTerms] using hfold collected.flatten []

/-- What a token's group says: the terms by their places, each once, with their distances. -/
structure GroupExact (terms : Set (List Char)) (token : List Char) (complete : Bool) (bound : ℕ)
    (found : List (List Char)) (group : List Accepted) : Prop where
  mem : ∀ w d, (∃ a ∈ group, found[a.term]? = some w ∧ a.distance = d)
    ↔ w ∈ terms ∧ Answers token complete w d ∧ d ≤ bound
  nodup : (group.map Accepted.term).Nodup

lemma groupExact_of_exact {token : List Char} {complete : Bool} {bound : ℕ} {kept : List Kept}
    {found : List (List Char)} (h : Exact terms df token complete bound kept)
    (hfound : ∀ k ∈ kept, k.term ∈ found) :
    GroupExact terms token complete bound found
      ((kept.map fun k => (⟨found.idxOf k.term, k.distance, k.completed, k.score⟩ : Accepted)).mergeSort
        Accepted.before) := by
  have hplace : ∀ v ∈ found, found[found.idxOf v]? = some v := fun v hv =>
    List.getElem?_idxOf hv
  constructor
  · intro w d
    simp only [List.mem_mergeSort, List.mem_map]
    constructor
    · rintro ⟨_, ⟨k, hk, rfl⟩, hw, rfl⟩
      rw [hplace _ (hfound k hk)] at hw
      obtain ⟨v, hv, d, hanswers, hle, rfl⟩ := (h.mem k).1 hk
      obtain rfl : v = w := Option.some.inj hw
      exact ⟨hv, hanswers, hle⟩
    · rintro ⟨hw, hanswers, hle⟩
      have hk := (h.mem (keptOf token complete bound w (df w) d)).2 ⟨w, hw, d, hanswers, hle, rfl⟩
      exact ⟨_, ⟨_, hk, rfl⟩, hplace w (hfound _ hk), rfl⟩
  · have hperm := (List.mergeSort_perm (kept.map fun k =>
      (⟨found.idxOf k.term, k.distance, k.completed, k.score⟩ : Accepted)) Accepted.before).map
        Accepted.term
    rw [hperm.nodup_iff, List.map_map]
    have hmap : kept.map (Accepted.term ∘ fun k =>
        (⟨found.idxOf k.term, k.distance, k.completed, k.score⟩ : Accepted))
        = (kept.map Kept.term).map fun v => found.idxOf v := by
      rw [List.map_map]
      rfl
    rw [hmap]
    refine List.Nodup.map_on ?_ h.nodup
    intro v hv u hu heq
    obtain ⟨k, hk, rfl⟩ := List.mem_map.1 hv
    obtain ⟨j, hj, rfl⟩ := List.mem_map.1 hu
    have hkplace := hplace _ (hfound k hk)
    rw [heq, hplace _ (hfound j hj)] at hkplace
    exact (Option.some.inj hkplace).symm

/-- Every token's group is exact once all the kept terms have a place. -/
lemma forall_groupExact {flagged : List (List Char × Bool)} {typos : Bool} {found : List (List Char)}
    {collected : List (List Kept)} (hall : List.Forall₂
      (fun f kept => Exact terms df f.1 f.2 (boundOf f.1 typos) kept) flagged collected)
    (hfound : ∀ kept ∈ collected, ∀ k ∈ kept, k.term ∈ found) :
    List.Forall₂ (fun f kept => GroupExact terms f.1 f.2 (boundOf f.1 typos) found
      ((kept.map fun k => (⟨found.idxOf k.term, k.distance, k.completed, k.score⟩ : Accepted)).mergeSort
        Accepted.before)) flagged collected := by
  induction hall with
  | nil => exact .nil
  | cons hf _ ih =>
      refine .cons (groupExact_of_exact hf (hfound _ List.mem_cons_self)) (ih fun kept hkept => ?_)
      exact hfound kept (List.mem_cons_of_mem _ hkept)

lemma expandTokens_spec (hd : Dictionary store id terms df) (flagged : List (List Char × Bool))
    (typos : Bool) :
    ∃ x asked, Polled (fun cancelled => expandTokens store id flagged typos cancelled) 0 asked x
      ∧ (x.truncated = false → List.Forall₂
        (fun f group => GroupExact terms f.1 f.2 (boundOf f.1 typos) x.terms group) flagged x.groups)
      ∧ (x.truncated = true → maxVisited < flagged.length * terms.ncard
        ∨ ∃ f ∈ flagged, ∃ all, Exact terms df f.1 f.2 (boundOf f.1 typos) all
          ∧ max (maxTerms / flagged.length) 1 < all.length) := by
  by_cases hempty : flagged.isEmpty = true
  · refine ⟨⟨[], [], [], [], 0, false⟩, 0, Polled.ok fun cancelled => ?_, fun _ => ?_, by simp⟩
    · rw [expandTokens, if_pos hempty]
    · rw [List.isEmpty_iff.1 hempty]
      exact .nil
  · obtain ⟨collected, visited, truncated, asked, hwalks, hexact, hbounded⟩ :=
      walkAll_spec hd typos (max (maxTerms / flagged.length) 1) flagged ⟨0, Nat.zero_le _⟩ 0
    simp only [expandTokens, if_neg hempty]
    refine ⟨_, asked, hwalks.bind (Polled.ok fun _ => rfl), fun hnot => ?_, fun htrunc => ?_⟩
    · rw [List.forall₂_map_right_iff]
      have hall := hexact hnot
      -- every kept term is among the distinct ones
      have hfound : ∀ kept ∈ collected, ∀ k ∈ kept, k.term ∈ ((distinctTerms collected).mergeSort
          fun a b => decide (Utf8.utf8 a.1 ≤ Utf8.utf8 b.1)).map Prod.fst := by
        intro kept hkept k hk
        have hmem := mem_distinctTerms.2 ⟨k, List.mem_flatten.2 ⟨kept, hkept, hk⟩, rfl⟩
        exact ((List.mergeSort_perm _ _).map Prod.fst).mem_iff.2 hmem
      exact forall_groupExact hall hfound
    · simpa using hbounded htrunc

/-- **The walk is exact.**  It fails only where a call of `cancelled` that it makes says so.  Unless it
reports a bound it has taken exactly the terms that answer the token within its bound, each once and with its
distance; it reports one only where the terms are more than it may visit or the answers more than it may keep.
Whatever it passes by a seek has no answer; and all this holds of every token of a query.

The table's row for a common prefix is the same for all terms that begin so (`scanTerm_good`), which is why a
row past the bound speaks for all of them. -/
theorem walk_exact (hd : Dictionary store id terms df) (typos : Bool) :
    (∀ token complete cap visited asked, ∃ best visited' asked', asked < asked'
      ∧ Polled (fun cancelled => walkToken store id token complete typos cap cancelled visited asked)
        asked asked' (best, visited', asked')
      ∧ (best.dropped = false → Exact terms df token complete (boundOf token typos) best.kept)
      ∧ (best.dropped = true → maxVisited < visited.1 + terms.ncard
        ∨ ∃ all, Exact terms df token complete (boundOf token typos) all ∧ cap < all.length)
      ∧ visited'.1 ≤ visited.1 + terms.ncard)
    ∧ (∀ token complete best best' next, ∀ w ∈ terms,
        visit token complete (boundOf token typos) (indexPrefix termStats id)
          (termStatsKey id w, bigEndian 8 (df w)) best = .ok (best', next) → next ≠ .step →
        ∀ v ∈ terms, termStatsKey id w ≤ termStatsKey id v →
          (∀ start, next = .seek start → termStatsKey id v < start) →
          ∀ d, Answers token complete v d → boundOf token typos < d)
    ∧ ∀ flagged, ∃ x asked,
        Polled (fun cancelled => expandTokens store id flagged typos cancelled) 0 asked x
        ∧ (x.truncated = false → List.Forall₂
          (fun f group => GroupExact terms f.1 f.2 (boundOf f.1 typos) x.terms group) flagged x.groups)
        ∧ (x.truncated = true → maxVisited < flagged.length * terms.ncard
          ∨ ∃ f ∈ flagged, ∃ all, Exact terms df f.1 f.2 (boundOf f.1 typos) all
            ∧ max (maxTerms / flagged.length) 1 < all.length) := by
  refine ⟨fun token complete cap visited asked =>
    walkToken_spec hd token complete typos cap visited asked, ?_,
    fun flagged => expandTokens_spec hd flagged typos⟩
  intro token complete best best' next w hw hvisit hne v hv hle hlt d hanswers
  obtain ⟨next', hvisit', hnext⟩ := visit_spec token complete (boundOf token typos) best hd hw
  rw [hvisit', Except.ok.injEq, Prod.mk.injEq] at hvisit
  obtain ⟨-, rfl⟩ := hvisit
  rcases hnext with rfl | ⟨p, hp, hdead, hnext⟩
  · exact absurd rfl hne
  · have hbefore : ∀ start, successor (indexPrefix termStats id ++ Utf8.utf8 p) = some start →
        termStatsKey id v < start := by
      intro start hsucc
      rcases hnext with ⟨start', rfl, hsucc'⟩ | ⟨rfl, hsucc'⟩
      · rw [hsucc'] at hsucc
        exact Option.some.inj hsucc ▸ hlt start' rfl
      · rw [hsucc'] at hsucc
        exact absurd hsucc (by simp)
    have hbegins := prefix_of_successor hbefore ((le_of_isPrefix (skip_isPrefix hp)).trans hle)
    obtain ⟨u, rfl⟩ := prefix_of_key hp hle hbegins
    exact hdead u d hanswers

end Exact

/-! ## A dictionary of two terms -/

/-- The entries of `cat` and `dog` in the index 1. -/
def twoTerms : Store where
  entries := [(termStatsKey 1 ['c', 'a', 't'], bigEndian 8 3), (termStatsKey 1 ['d', 'o', 'g'], bigEndian 8 1)]
  sorted := by simp; decide

lemma dictionary_twoTerms : Dictionary twoTerms 1 {['c', 'a', 't'], ['d', 'o', 'g']}
    (fun w => if w = ['d', 'o', 'g'] then 1 else 3) where
  entries e := by
    constructor
    · rintro ⟨he, -⟩
      simp only [twoTerms, List.mem_cons, List.not_mem_nil, or_false] at he
      rcases he with rfl | rfl
      · exact ⟨['c', 'a', 't'], by simp, by simp⟩
      · exact ⟨['d', 'o', 'g'], by simp, by simp⟩
    · rintro ⟨w, hw, rfl⟩
      refine ⟨?_, prefix_termStatsKey 1 w⟩
      rcases hw with rfl | rfl
      · simp [twoTerms]
      · simp [twoTerms]
  pos w _ := by split_ifs <;> decide
  lt w _ := by split_ifs <;> decide

/-- The walk for `cat` asks twice, at its start and for the seek past `dog`, and keeps `cat`. -/
theorem walk_exact_twoTerms : ∃ best visited' asked',
    walkToken twoTerms 1 ['c', 'a', 't'] false true 64 (fun _ => false) ⟨0, Nat.zero_le _⟩ 0
        = .ok (best, visited', asked')
      ∧ best.kept = [keptOf ['c', 'a', 't'] false 0 ['c', 'a', 't'] 3 0] := by
  obtain ⟨best, visited', asked', -, hpolled, hexact, hbounded, -⟩ :=
    (walk_exact dictionary_twoTerms true).1 ['c', 'a', 't'] false 64 ⟨0, Nat.zero_le _⟩ 0
  have hbound : boundOf ['c', 'a', 't'] true = 0 := rfl
  have hcat : ∀ kept, Exact {['c', 'a', 't'], ['d', 'o', 'g']} (fun w => if w = ['d', 'o', 'g'] then 1 else 3)
      ['c', 'a', 't'] false 0 kept → kept = [keptOf ['c', 'a', 't'] false 0 ['c', 'a', 't'] 3 0] := by
    rintro kept ⟨hmem, hnodup⟩
    refine List.perm_singleton.1 ((List.perm_ext_iff_of_nodup hnodup.of_map (List.nodup_singleton _)).2 ?_)
    intro k
    rw [hmem, List.mem_singleton]
    constructor
    · rintro ⟨w, rfl | rfl, d, hd, hle, rfl⟩
      · obtain rfl := Nat.le_zero.1 hle
        rfl
      · have hdog : distance ['d', 'o', 'g'] ['c', 'a', 't'] = 3 := by simp [distance, cost]
        rw [answers_iff, if_neg (by decide), hdog] at hd
        omega
    · rintro rfl
      exact ⟨_, Or.inl rfl, 0, by simp [answers_iff, distance, cost], le_rfl, rfl⟩
  have hkept : best.dropped = false := by
    rw [Bool.eq_false_iff]
    intro h
    rcases hbounded h with hlt | ⟨all, hall, hlt⟩
    · rw [Set.ncard_pair (by decide)] at hlt
      exact absurd hlt (by decide)
    · rw [hcat all (hbound ▸ hall)] at hlt
      exact absurd hlt (by decide)
  exact ⟨best, visited', asked', hpolled.runs _ fun _ _ _ => rfl, hcat best.kept (hbound ▸ hexact hkept)⟩

end Engine.Fuzzy
