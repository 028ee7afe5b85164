import Sekejap.Lang.Fields

/-!
# Reading intervals

`parse_interval` (`lang/src/functions.rs`): magnitudes and units, one after the other.

* **`parseInterval_ne_abort`** — it never aborts.
-/

namespace Lang

open Machine Utf8 Numerals

/-- The microseconds of a unit. -/
def unitScale (s unit : String) : Outcome SqlError ℤ :=
  let word := unit.map Char.toLower
  if word = "microsecond" ∨ word = "microseconds" ∨ word = "us" then .ok 1
  else if word = "millisecond" ∨ word = "milliseconds" ∨ word = "ms" then .ok 1000
  else if word = "second" ∨ word = "seconds" ∨ word = "sec" ∨ word = "secs" ∨ word = "s" then .ok microsPerSecond
  else if word = "minute" ∨ word = "minutes" ∨ word = "min" ∨ word = "mins" then .ok microsPerMinute
  else if word = "hour" ∨ word = "hours" ∨ word = "h" then .ok microsPerHour
  else if word = "day" ∨ word = "days" ∨ word = "d" then .ok microsPerDay
  else if word = "week" ∨ word = "weeks" ∨ word = "w" then .ok (7 * microsPerDay)
  else if word = "month" ∨ word = "months" ∨ word = "mon" ∨ word = "year" ∨ word = "years" ∨ word = "y" then
    .error (.unsupported (s!"interval '{s}': a month and a year are NOT fixed widths (28-31 days, 365-366 days), "
      ++ "so there is no constant to fold at prepare. QL_CONTRACT §4.2 folds an interval to microseconds; "
      ++ "date_trunc('month'|'year', t) is the calendar-aware spelling and is accepted"))
  else if word = "" then
    .error (.unsupported (s!"interval '{s}': a magnitude needs a unit (microseconds, milliseconds, seconds, "
      ++ "minutes, hours, days, weeks)"))
  else .error (.unsupported s!"interval '{s}': `{word}` is not a fixed-width unit")

def isAsciiAlphabetic (b : UInt8) : Bool :=
  decide ((65 ≤ b.toNat ∧ b.toNat ≤ 90) ∨ (97 ≤ b.toNat ∧ b.toNat ≤ 122))

/-- A result that has to fit. -/
def checkedOp (n : ℤ) (e : SqlError) : Outcome SqlError ℤ := if Fits n then .ok n else .error e

/-- The loop over what is left of the text, which runs out of fuel in no text: it aborts there. -/
def intervalLoop (s : String) : ℕ → ℤ → Bool → List Char → Outcome SqlError (ℤ × Bool)
  | 0, _, _, _ => .abort
  | fuel + 1, total, seen, rest =>
    if trim rest = [] then return (total, seen)
    else do
      let body := trimStart rest
      let signLen := if body.head? = some '-' ∨ body.head? = some '+' then 1 else 0
      let digits := ((utf8 (← sliceFrom body signLen)).takeWhile isAsciiDigit).length
      if digits = 0 then .error (.unsupported s!"interval '{s}': expected a whole number before the unit")
      else do
        let written ← slice body 0 (signLen + digits)
        let magnitude ← Outcome.ofOption (parseI64 written)
          (.unsupported s!"interval '{s}': the magnitude does not fit i64")
        let after := trimStart (← sliceFrom body (signLen + digits))
        let unitLen := ((utf8 after).takeWhile isAsciiAlphabetic).length
        let unit ← slice after 0 unitLen
        let scale ← unitScale s (String.ofList unit)
        let product ← checkedOp (magnitude * scale)
          (.unsupported s!"interval '{s}': the magnitude overflows i64")
        let total ← checkedOp (total + product) (.unsupported s!"interval '{s}': the total overflows i64")
        let rest ← sliceFrom after unitLen
        intervalLoop s fuel total true rest

/-- `interval '<n> <unit>'`, in microseconds. -/
def parseInterval (text : String) : Outcome SqlError ℤ :=
  let s := trim text.toList
  if s = [] then .error (.unsupported "interval '': no magnitude written")
  else do
    let (total, seen) ← intervalLoop (String.ofList s) (s.length + 1) 0 false s
    if seen then return total
    else .error (.unsupported s!"interval '{String.ofList s}': empty")

/-! ## The reader never aborts -/

lemma unitScale_ne_abort (s unit : String) : unitScale s unit ≠ .abort := by
  rw [unitScale]
  split_ifs <;> simp

lemma checkedOp_ne_abort (n : ℤ) (e : SqlError) : checkedOp n e ≠ .abort := by
  rw [checkedOp]
  split_ifs <;> simp

lemma isAlpha_iff (c : Char) : c.isAlpha ↔ (65 ≤ c.toNat ∧ c.toNat ≤ 90) ∨ (97 ≤ c.toNat ∧ c.toNat ≤ 122) := by
  have h : c.isAlpha = (decide (c.val ≥ 'A'.val ∧ c.val ≤ 'Z'.val)
      || (decide (c.val ≥ 'a'.val) && decide (c.val ≤ 'z'.val))) := rfl
  rw [h, Bool.or_eq_true, decide_eq_true_eq, Bool.and_eq_true, decide_eq_true_eq, decide_eq_true_eq]
  rfl

/-- The letters a text starts with are told by their bytes. -/
lemma takeWhile_letters (t : List Char) :
    ((utf8 t).takeWhile isAsciiAlphabetic).length = (t.takeWhile Char.isAlpha).length := by
  refine length_takeWhile (fun c hc => ?_) (fun b hb => ?_) (fun c hc => ?_) t
  · have := (isAlpha_iff c).1 hc
    omega
  · have := of_decide_eq_true hb
    omega
  · rw [isAsciiAlphabetic, toNat_byte hc, Bool.eq_iff_iff, decide_eq_true_eq, isAlpha_iff]

/-- The text after as many bytes as a run of ASCII characters. -/
lemma slice_takeWhile {p : Char → Bool} (hp : ∀ c, p c → c.toNat < 128) {u : List Char} (t : List Char) :
    (slice (u ++ t) 0 (size u + (t.takeWhile p).length) : Outcome SqlError (List Char)) = .ok (u ++ t.takeWhile p)
      ∧ (sliceFrom (u ++ t) (size u + (t.takeWhile p).length) : Outcome SqlError (List Char))
        = .ok (t.dropWhile p) := by
  have hsize : size (u ++ t.takeWhile p) = size u + (t.takeWhile p).length := by
    rw [size_append, size_of_ascii fun c hc => hp c (List.mem_takeWhile_imp hc)]
  have happ : u ++ t = [] ++ (u ++ t.takeWhile p ++ t.dropWhile p) := by
    rw [List.append_assoc, List.takeWhile_append_dropWhile]
    rfl
  constructor
  · rw [happ]
    exact slice_append rfl (by rw [hsize, Nat.zero_add])
  · rw [happ]
    exact sliceFrom_append hsize

/-- The sign of a magnitude. -/
lemma exists_sign (body : List Char) : ∃ u t, body = u ++ t
    ∧ size u = if body.head? = some '-' ∨ body.head? = some '+' then 1 else 0 := by
  by_cases hsign : body.head? = some '-' ∨ body.head? = some '+'
  · rw [if_pos hsign]
    cases body with
    | nil => simp at hsign
    | cons c t =>
        refine ⟨[c], t, rfl, ?_⟩
        simp only [List.head?_cons, Option.some_inj] at hsign
        obtain rfl | rfl := hsign <;> rfl
  · exact ⟨[], body, rfl, by rw [if_neg hsign]; rfl⟩

lemma length_trimStart_le (t : List Char) : (trimStart t).length ≤ t.length := (List.dropWhile_suffix _).length_le

/-- Every turn of the loop leaves less of the text. -/
lemma intervalLoop_ne_abort (s : String) : ∀ (fuel : ℕ) (total : ℤ) (seen : Bool) (rest : List Char),
    rest.length < fuel → intervalLoop s fuel total seen rest ≠ .abort := by
  intro fuel
  induction fuel with
  | zero =>
      intro total seen rest h
      exact absurd h (Nat.not_lt_zero _)
  | succ fuel ih =>
      intro total seen rest h
      have hbody := length_trimStart_le rest
      obtain ⟨u, t, hut, hsign⟩ := exists_sign (trimStart rest)
      have hfrom : (sliceFrom (u ++ t) (size u) : Outcome SqlError (List Char)) = .ok t := sliceFrom_append rfl
      have hdigit : ∀ c : Char, c.isDigit → c.toNat < 128 := fun c hc => by
        have := digit_ascii hc
        omega
      obtain ⟨hmagnitude, hafter⟩ := @slice_takeWhile Char.isDigit hdigit u t
      have hletter : ∀ c : Char, c.isAlpha → c.toNat < 128 := fun c hc => by
        rw [isAlpha_iff] at hc
        omega
      obtain ⟨hunit, hrest⟩ := @slice_takeWhile Char.isAlpha hletter [] (trimStart (t.dropWhile Char.isDigit))
      rw [intervalLoop]
      split_ifs with htrim
      · simp
      · dsimp only
        rw [← hsign, hut, hfrom, Outcome.ok_bind, takeWhile_digits]
        split_ifs with hnone
        · simp
        · have hless : ((trimStart (t.dropWhile Char.isDigit)).dropWhile Char.isAlpha).length < fuel := by
            have hletters :=
              (List.dropWhile_suffix (p := Char.isAlpha) (l := trimStart (t.dropWhile Char.isDigit))).length_le
            have hblanks := length_trimStart_le (t.dropWhile Char.isDigit)
            have hdigits := congrArg List.length (List.takeWhile_append_dropWhile (p := Char.isDigit) (l := t))
            have hlen := congrArg List.length hut
            rw [List.length_append] at hdigits hlen
            omega
          simp only [size_nil, Nat.zero_add, List.nil_append] at hunit hrest
          rw [hmagnitude, hafter, Outcome.ok_bind]
          refine Outcome.bind_ne_abort (Outcome.ofOption_ne_abort _ _) fun magnitude _ => ?_
          rw [Outcome.ok_bind, takeWhile_letters, hunit, hrest, Outcome.ok_bind]
          refine Outcome.bind_ne_abort (unitScale_ne_abort _ _) fun scale _ => ?_
          refine Outcome.bind_ne_abort (checkedOp_ne_abort _ _) fun product _ => ?_
          refine Outcome.bind_ne_abort (checkedOp_ne_abort _ _) fun total _ => ?_
          exact ih total true _ hless

/-- **Reading an interval never aborts.** -/
theorem parseInterval_ne_abort (text : String) : parseInterval text ≠ .abort := by
  rw [parseInterval]
  dsimp only
  split_ifs with hempty
  · simp
  · refine Outcome.bind_ne_abort (intervalLoop_ne_abort _ _ _ _ _ (Nat.lt_succ_self _)) fun a _ => ?_
    split_ifs <;> simp

end Lang
