import Sekejap.Lang.Timestamps

/-!
# The parts of a timestamp

The fraction, the seconds, the time of the day and the zone: what is written as one is read, what is read is
written as one, and where reading aborts.

* **`readClock_text`**, **`exists_clock`**, **`readClock_abort_iff`** — the time of the day.
* **`readZone_text`**, **`exists_zone`**, **`readZone_abort_iff`** — the zone.
-/

namespace Lang

open Calendar Machine Utf8 Numerals

variable {checked : Bool} {text : String} {r rest : List Char}

/-! ## Numbers and fractions -/

lemma Num.parse {n : ℕ} {f : List Char} (h : Num n f) : parseI64 f = some (val f) := by
  obtain ⟨v, hv⟩ := Option.isSome_iff_exists.1 h.2
  rw [val, hv]
  rfl

lemma Num.size {n : ℕ} {f : List Char} (h : Num n f) : size f = n := (size_of_parse h.parse).trans h.1

lemma Num.abs_lt {n : ℕ} {f : List Char} (h : Num n f) : |val f| < 10 ^ n := by
  rw [← h.1]
  exact abs_lt_of_parse h.parse

lemma parsed_num {n : ℕ} {f : List Char} (h : Num n f) : parsed text (some f) = .ok (val f) := by
  rw [parsed, Option.bind_some, h.parse]

/-- A piece of so many bytes is a number of so many characters, or an error. -/
lemma parsed_cases {n : ℕ} {f : List Char} (h : size f = n) :
    parsed text (some f) = .error (bad text) ∨ Num n f := by
  rw [parsed, Option.bind_some]
  cases hv : parseI64 f with
  | none => exact Or.inl rfl
  | some v => exact Or.inr ⟨(size_of_parse hv).symm.trans h, by rw [hv]; rfl⟩

lemma isAsciiDigit_byte {c : Char} (hc : c.toNat < 128) : isAsciiDigit (byte c) = c.isDigit := by
  rw [isAsciiDigit, toNat_byte hc, Char.isDigit, Bool.decide_and]
  rfl

/-- The digits a text starts with are told by their bytes. -/
lemma takeWhile_digits (t : List Char) :
    ((utf8 t).takeWhile isAsciiDigit).length = (t.takeWhile Char.isDigit).length := by
  refine length_takeWhile (fun c hc => ?_) (fun b hb => ?_) (fun c hc => isAsciiDigit_byte hc) t
  · have := digit_ascii hc
    omega
  · have := (of_decide_eq_true hb).2
    omega

lemma scaledUp_eq {n : ℕ} : ∀ {v : ℤ}, 0 ≤ v → v * 10 ^ n ≤ i64Max →
    scaledUp checked n v = .ok (v * 10 ^ n) := by
  induction n with
  | zero =>
      intro v _ _
      rw [scaledUp, pow_zero, mul_one]
  | succ n ih =>
      intro v hpos hmax
      have hnext : v * 10 * 10 ^ n = v * 10 ^ (n + 1) := by ring
      have hle : v * 10 ≤ v * 10 * 10 ^ n := le_mul_of_one_le_right (by omega) (one_le_pow₀ (by decide))
      have hfits : Fits (v * 10) := ⟨by dsimp only [i64Min]; omega, by omega⟩
      rw [scaledUp, fit_of_fits hfits, Outcome.ok_bind, ih (by omega) (by rwa [hnext]), hnext]

lemma scaledDown_eq {n : ℕ} : ∀ {v : ℤ}, 0 ≤ v → scaledDown n v = v / 10 ^ n := by
  induction n with
  | zero =>
      intro v _
      rw [scaledDown, pow_zero, Int.ediv_one]
  | succ n ih =>
      intro v hpos
      rw [scaledDown, Int.tdiv_eq_ediv_of_nonneg hpos, ih (Int.ediv_nonneg hpos (by decide)),
        Int.ediv_ediv_of_nonneg (by decide), pow_succ, mul_comm]

/-- The digits of a fraction, to the ninth. -/
def fractionDigits (t : List Char) : List Char := (t.takeWhile Char.isDigit).take 9

lemma digits_fractionDigits {t : List Char} (h : fractionDigits t ≠ []) : Digits (fractionDigits t) :=
  ⟨h, fun _ hc => List.mem_takeWhile_imp (List.mem_of_mem_take hc)⟩

lemma fractionDigits_append (t : List Char) : fractionDigits t ++ t.drop (fractionDigits t).length = t := by
  have hprefix : fractionDigits t <+: t := (List.take_prefix _ _).trans (List.takeWhile_prefix _)
  exact (List.prefix_iff_eq_append.1 hprefix)

lemma fits_number {f : List Char} (h : Digits f) (hlen : f.length ≤ 9) : Fits (number f) := by
  have hlt : number f < 10 ^ 9 := h.number_lt.trans_le (Nat.pow_le_pow_right (by decide) hlen)
  rw [fits_iff]
  omega

lemma number_scaled {f : List Char} (h : Digits f) (hlen : f.length ≤ 9) :
    number f * 10 ^ (6 - f.length) ≤ 1000000000 := by
  calc number f * 10 ^ (6 - f.length) ≤ 10 ^ f.length * 10 ^ (6 - f.length) :=
        Nat.mul_le_mul_right _ h.number_lt.le
    _ = 10 ^ (f.length + (6 - f.length)) := (pow_add 10 _ _).symm
    _ ≤ 10 ^ 9 := Nat.pow_le_pow_right (by decide) (by omega)

lemma number_scaled_le {f : List Char} (h : Digits f) (hlen : f.length ≤ 9) :
    (number f : ℤ) * 10 ^ (6 - f.length) ≤ i64Max := by
  have hcast : (number f : ℤ) * 10 ^ (6 - f.length) ≤ 1000000000 := by exact_mod_cast number_scaled h hlen
  exact hcast.trans (by decide)

lemma readFraction_dot (t : List Char) : readFraction checked text ('.' :: t) =
    if fractionDigits t = [] then .error (bad text)
    else .ok (fractionValue (some (fractionDigits t)), t.drop (fractionDigits t).length) := by
  have hdot : (utf8 ('.' :: t)).head? = some (byte '.') := (head_iff (by decide)).2 ⟨t, rfl⟩
  have hrest : (sliceFrom ('.' :: t) 1 : Outcome SqlError (List Char)) = .ok t := sliceFrom_append (u := ['.']) rfl
  have hcount : min ((utf8 t).takeWhile isAsciiDigit).length 9 = (fractionDigits t).length := by
    rw [takeWhile_digits, fractionDigits, List.length_take, min_comm]
  rw [readFraction, if_pos hdot, hrest, Outcome.ok_bind]
  dsimp only
  rw [hcount]
  by_cases hnil : fractionDigits t = []
  · rw [if_pos hnil, if_pos (List.length_eq_zero_iff.2 hnil)]
  · have hdigits := digits_fractionDigits hnil
    have hsize : size (fractionDigits t) = (fractionDigits t).length := size_of_ascii hdigits.ascii
    have hlen : (fractionDigits t).length ≤ 9 := by
      rw [fractionDigits, List.length_take]
      exact min_le_left _ _
    have happ := fractionDigits_append t
    have hslice : (slice ('.' :: t) 1 (1 + (fractionDigits t).length) : Outcome SqlError (List Char))
        = .ok (fractionDigits t) := by
      have := @slice_append (fractionDigits t) ['.'] (t.drop (fractionDigits t).length) 1 _ SqlError rfl (by rw [hsize])
      rwa [happ] at this
    have hfrom : (sliceFrom ('.' :: t) (1 + (fractionDigits t).length) : Outcome SqlError (List Char))
        = .ok (t.drop (fractionDigits t).length) := by
      have := @sliceFrom_append ('.' :: fractionDigits t) (t.drop (fractionDigits t).length) _ SqlError
        (show size ('.' :: fractionDigits t) = 1 + (fractionDigits t).length by rw [size_cons, hsize]; rfl)
      rwa [List.cons_append, happ] at this
    rw [if_neg hnil, if_neg (mt List.length_eq_zero_iff.1 hnil), hslice, Outcome.ok_bind]
    generalize fractionDigits t = f at *
    have hparsed : parsed text (some f) = .ok (number f : ℤ) := by
      rw [parsed, Option.bind_some, parseI64_eq_some.2 (Or.inl ⟨hdigits, fits_number hdigits hlen, rfl⟩)]
    rw [hparsed, Outcome.ok_bind, scaledUp_eq (Int.natCast_nonneg _) (number_scaled_le hdigits hlen),
      Outcome.ok_bind, scaledDown_eq (mul_nonneg (Int.natCast_nonneg _) (by positivity)), hfrom]
    rfl

lemma readFraction_none (h : ∀ t, rest ≠ '.' :: t) : readFraction checked text rest = .ok (0, rest) := by
  rw [readFraction, if_neg]
  · rfl
  · intro hdot
    obtain ⟨t, ht⟩ := (head_iff (by decide)).1 hdot
    exact h t ht

/-- A zone starts here, or nothing is left. -/
def Ends (r : List Char) : Prop := ∀ c t, r = c :: t → c = 'Z' ∨ c = 'z' ∨ c = '+' ∨ c = '-'

lemma Ends.ne {d : Char} (h : Ends r) (hd : d ≠ 'Z' ∧ d ≠ 'z' ∧ d ≠ '+' ∧ d ≠ '-') (t : List Char) : r ≠ d :: t := by
  intro hr
  obtain rfl | rfl | rfl | rfl := h d t hr <;> simp at hd

lemma Ends.takeWhile (h : Ends r) : r.takeWhile Char.isDigit = [] := by
  cases r with
  | nil => rfl
  | cons c t =>
      refine List.takeWhile_cons_of_neg ?_
      obtain rfl | rfl | rfl | rfl := h c t rfl <;> decide

/-- A fraction that is written is read. -/
lemma readFraction_text {f : Option (List Char)} (h : ∀ digits, f = some digits → Digits digits) (hshort : Short f)
    (hr : Ends r) : readFraction checked text (fractionText f ++ r) = .ok (fractionValue f, r) := by
  cases f with
  | none => exact readFraction_none fun t => hr.ne (by decide) t
  | some d =>
      have hdigits := h d rfl
      have hfraction : fractionDigits (d ++ r) = d := by
        rw [fractionDigits, List.takeWhile_append_of_pos hdigits.2, hr.takeWhile, List.append_nil,
          List.take_of_length_le (hshort d rfl)]
      rw [fractionText, List.cons_append, readFraction_dot, hfraction, if_neg hdigits.1, List.drop_left]

/-- What is read as a fraction is written as one. -/
lemma exists_fraction {v : ℤ} (h : readFraction checked text rest = .ok (v, r)) : ∃ f, rest = fractionText f ++ r
    ∧ (∀ digits, f = some digits → Digits digits) ∧ Short f := by
  by_cases hdot : ∃ t, rest = '.' :: t
  · obtain ⟨t, rfl⟩ := hdot
    rw [readFraction_dot] at h
    split_ifs at h with hnil
    cases h
    refine ⟨some (fractionDigits t), ?_, ?_, ?_⟩
    · rw [fractionText, List.cons_append, fractionDigits_append]
    · rintro _ ⟨⟩
      exact digits_fractionDigits hnil
    · rintro _ ⟨⟩
      rw [fractionDigits, List.length_take]
      exact min_le_left _ _
  · rw [readFraction_none fun t ht => hdot ⟨t, ht⟩] at h
    cases h
    exact ⟨none, rfl, by simp, fun _ hf => by cases hf⟩

lemma readFraction_ne_abort : readFraction checked text rest ≠ .abort := by
  by_cases hdot : ∃ t, rest = '.' :: t
  · obtain ⟨t, rfl⟩ := hdot
    rw [readFraction_dot]
    split_ifs <;> simp
  · rw [readFraction_none fun t ht => hdot ⟨t, ht⟩]
    simp

/-! ## Seconds -/

lemma readSecond_none (h : ∀ t, rest ≠ ':' :: t) : readSecond checked text rest = .ok (0, 0, rest) := by
  rw [readSecond, if_neg]
  · rfl
  · intro hcolon
    obtain ⟨t, ht⟩ := (head_iff (by decide)).1 hcolon
    exact h t ht

lemma size_colon (t : List Char) : size (':' :: t) = 1 + size t := size_cons

/-- Two bytes are read for the seconds. -/
lemma readSecond_cut {s t : List Char} (hs : size s = 2) : readSecond checked text (':' :: (s ++ t)) = (do
    let second ← parsed text (some s)
    let (micro, rest) ← readFraction checked text t
    return (second, micro, rest)) := by
  have hslice : (slice (':' :: (s ++ t)) 1 3 : Outcome SqlError (List Char)) = .ok s :=
    @slice_append s [':'] t 1 3 SqlError rfl (by rw [hs])
  have hfrom : (sliceFrom (':' :: (s ++ t)) 3 : Outcome SqlError (List Char)) = .ok t :=
    @sliceFrom_append (':' :: s) t 3 SqlError (by rw [size_colon, hs])
  rw [readSecond, if_pos ((head_iff (by decide)).2 ⟨_, rfl⟩), if_neg (by rw [size_colon, size_append]; omega),
    hslice, hfrom]
  rfl

lemma readSecond_torn {t : List Char} (h : Torn 2 t) : readSecond checked text (':' :: t) = .abort := by
  have hslice : (slice (':' :: t) 1 3 : Outcome SqlError (List Char)) = .abort := @slice_torn [':'] t 1 SqlError 2 rfl h
  rw [readSecond, if_pos ((head_iff (by decide)).2 ⟨_, rfl⟩), if_neg (by rw [size_colon]; have := h.1; omega), hslice]
  rfl

lemma readSecond_short {t : List Char} (h : size t < 2) : readSecond checked text (':' :: t) = .error (bad text) := by
  rw [readSecond, if_pos ((head_iff (by decide)).2 ⟨_, rfl⟩), if_pos (by rw [size_colon]; omega)]

/-- Seconds that are written are read. -/
lemma readSecond_text {o : Option (List Char × Option (List Char))} (h : SecondWritten o)
    (hshort : Short (o.bind Prod.snd)) (hr : Ends r) :
    readSecond checked text (secondText o ++ r) = .ok ((secondValue o).1, (secondValue o).2, r) := by
  cases o with
  | none => exact readSecond_none fun t => hr.ne (by decide) t
  | some p =>
      obtain ⟨s, f⟩ := p
      obtain ⟨hs, hf⟩ := h (s, f) rfl
      rw [secondText, List.cons_append, List.append_assoc, readSecond_cut hs.size, parsed_num hs,
        readFraction_text hf hshort hr]
      rfl

/-- What is read as seconds is written as such. -/
lemma exists_second {second micro : ℤ} (h : readSecond checked text rest = .ok (second, micro, r)) :
    ∃ o, rest = secondText o ++ r ∧ SecondWritten o ∧ Short (o.bind Prod.snd) := by
  by_cases hcolon : ∃ t, rest = ':' :: t
  · obtain ⟨t, rfl⟩ := hcolon
    obtain hsize | htorn | ⟨s, t, rfl, hs⟩ := cut_cases 2 t
    · rw [readSecond_short hsize] at h
      cases h
    · rw [readSecond_torn htorn] at h
      cases h
    · rw [readSecond_cut hs] at h
      obtain ⟨_, hsecond, h⟩ := Outcome.bind_eq_ok.1 h
      obtain ⟨⟨_, rest⟩, hfraction, h⟩ := Outcome.bind_eq_ok.1 h
      cases h
      obtain ⟨f, rfl, hf, hshort⟩ := exists_fraction hfraction
      obtain herror | hnum := @parsed_cases text 2 s hs
      · rw [herror] at hsecond
        cases hsecond
      · refine ⟨some (s, f), ?_, ?_, hshort⟩
        · rw [secondText, List.cons_append, List.append_assoc]
        · rintro _ ⟨⟩
          exact ⟨hnum, hf⟩
  · rw [readSecond_none fun t ht => hcolon ⟨t, ht⟩] at h
    cases h
    refine ⟨none, rfl, ?_, ?_⟩ <;> rintro _ ⟨⟩

lemma parsed_ne_abort (piece : Option (List Char)) : parsed text piece ≠ .abort := by
  rw [parsed]
  cases piece.bind parseI64 <;> simp

/-- Seconds abort where they end inside a character. -/
lemma readSecond_abort_iff : readSecond checked text rest = .abort ↔ ∃ t, rest = ':' :: t ∧ Torn 2 t := by
  constructor
  · intro h
    by_cases hcolon : ∃ t, rest = ':' :: t
    · obtain ⟨t, rfl⟩ := hcolon
      obtain hsize | htorn | ⟨s, t, rfl, hs⟩ := cut_cases 2 t
      · rw [readSecond_short hsize] at h
        cases h
      · exact ⟨t, rfl, htorn⟩
      · rw [readSecond_cut hs] at h
        refine absurd h (Outcome.bind_ne_abort (parsed_ne_abort _) fun _ _ =>
          Outcome.bind_ne_abort readFraction_ne_abort fun _ _ => ?_)
        simp
    · rw [readSecond_none fun t ht => hcolon ⟨t, ht⟩] at h
      cases h
  · rintro ⟨t, rfl, h⟩
    exact readSecond_torn h

/-! ## The time of the day -/

/-- What stands between a date and a time. -/
def Separator (c : Char) : Prop := c = 'T' ∨ c = 't' ∨ c = ' '

lemma readClock_none (h : ∀ c t, rest = c :: t → ¬ Separator c) :
    readClock checked text rest = .ok (⟨0, 0, 0, 0⟩, rest) := by
  cases rest with
  | nil => rfl
  | cons c t =>
      obtain ⟨b, hb, hbyte⟩ := @exists_index_zero SqlError c t
      have hsep : ¬ (b = byte 'T' ∨ b = byte 't' ∨ b = byte ' ') := by
        rw [hbyte 'T' (by decide), hbyte 't' (by decide), hbyte ' ' (by decide)]
        exact h c t rfl
      rw [readClock, if_neg (List.cons_ne_nil c t), hb, Outcome.ok_bind, if_neg hsep]
      rfl

/-- After a separator. -/
lemma readClock_separator {c : Char} {t : List Char} (hc : Separator c) : readClock checked text (c :: t) =
    if size t < 5 then .error (bad text)
    else do
      let colon ← index (utf8 t) 2
      if colon ≠ byte ':' then .error (bad text)
      else do
        let hour ← parsed text (some (← slice t 0 2))
        let minute ← parsed text (some (← slice t 3 5))
        let rest ← sliceFrom t 5
        let (second, micro, rest) ← readSecond checked text rest
        return (⟨hour, minute, second, micro⟩, rest) := by
  obtain ⟨b, hb, hbyte⟩ := @exists_index_zero SqlError c t
  have hsep : b = byte 'T' ∨ b = byte 't' ∨ b = byte ' ' := by
    rw [hbyte 'T' (by decide), hbyte 't' (by decide), hbyte ' ' (by decide)]
    exact hc
  have hfrom : (sliceFrom (c :: t) 1 : Outcome SqlError (List Char)) = .ok t := by
    refine @sliceFrom_append [c] t 1 SqlError ?_
    obtain rfl | rfl | rfl := hc <;> rfl
  rw [readClock, if_neg (List.cons_ne_nil c t), hb, Outcome.ok_bind, if_pos hsep, hfrom, Outcome.ok_bind]

/-- The hour and its colon. -/
lemma readClock_hour {c : Char} {h t : List Char} (hc : Separator c) (hh : size h = 2) (ht : 2 ≤ size t) :
    readClock checked text (c :: (h ++ ':' :: t)) = (do
      let hour ← parsed text (some h)
      let minute ← parsed text (some (← slice (h ++ ':' :: t) 3 5))
      let rest ← sliceFrom (h ++ ':' :: t) 5
      let (second, micro, rest) ← readSecond checked text rest
      return (⟨hour, minute, second, micro⟩, rest)) := by
  have hlt : 2 < size (h ++ ':' :: t) := by
    rw [size_append, size_colon]
    omega
  obtain ⟨b, hb, hbyte⟩ := @exists_index (h ++ ':' :: t) 2 SqlError hlt
  have hcolon : b = byte ':' := (hbyte ':' (by decide)).2 ⟨h, t, rfl, hh⟩
  have hslice : (slice (h ++ ':' :: t) 0 2 : Outcome SqlError (List Char)) = .ok h :=
    @slice_append h [] (':' :: t) 0 2 SqlError rfl (by rw [hh])
  rw [readClock_separator hc, if_neg (by rw [size_append, size_colon]; omega), hb, Outcome.ok_bind,
    if_neg (not_not.2 hcolon), hslice]
  rfl

lemma readClock_cut {c : Char} {h m t : List Char} (hc : Separator c) (hh : size h = 2) (hm : size m = 2) :
    readClock checked text (c :: (h ++ ':' :: (m ++ t))) = (do
      let hour ← parsed text (some h)
      let minute ← parsed text (some m)
      let (second, micro, rest) ← readSecond checked text t
      return (⟨hour, minute, second, micro⟩, rest)) := by
  have hsize : size (h ++ [':']) = 3 := by
    rw [size_append, hh]
    rfl
  have happ : h ++ ':' :: (m ++ t) = h ++ [':'] ++ (m ++ t) := by simp
  have hslice : (slice (h ++ ':' :: (m ++ t)) 3 5 : Outcome SqlError (List Char)) = .ok m := by
    rw [happ]
    exact slice_append hsize (by rw [hm])
  have hfrom : (sliceFrom (h ++ ':' :: (m ++ t)) 5 : Outcome SqlError (List Char)) = .ok t := by
    rw [happ, ← List.append_assoc]
    exact sliceFrom_append (by rw [size_append, hsize, hm])
  rw [readClock_hour hc hh (by rw [size_append]; omega), hslice, hfrom]
  rfl

lemma readClock_torn {c : Char} {h t : List Char} (hc : Separator c) (hh : Num 2 h) (ht : Torn 2 t) :
    readClock checked text (c :: (h ++ ':' :: t)) = .abort := by
  have hslice : (slice (h ++ ':' :: t) 3 5 : Outcome SqlError (List Char)) = .abort := by
    have happ : h ++ ':' :: t = h ++ [':'] ++ t := by simp
    have hsize : size (h ++ [':']) = 3 := by
      rw [size_append, hh.size]
      rfl
    rw [happ]
    exact @slice_torn _ _ 3 SqlError 2 hsize ht
  rw [readClock_hour hc hh.size ht.1, hslice, parsed_num hh]
  rfl

/-- What follows a separator. -/
lemma readClock_cases {c : Char} (hc : Separator c) (t : List Char) :
    (∃ e, readClock checked text (c :: t) = .error e) ∨ ∃ h u, t = h ++ ':' :: u ∧ Num 2 h
      ∧ (Torn 2 u ∨ ∃ m w, u = m ++ w ∧ size m = 2) := by
  by_cases hsize : size t < 5
  · left
    rw [readClock_separator hc, if_pos hsize]
    exact ⟨_, rfl⟩
  · obtain ⟨b, hb, hbyte⟩ := @exists_index t 2 SqlError (by omega)
    by_cases hcolon : b = byte ':'
    · obtain ⟨h, u, rfl, hh⟩ := (hbyte ':' (by decide)).1 hcolon
      rw [size_append, size_colon, hh] at hsize
      obtain herror | hnum := @parsed_cases text 2 h hh
      · left
        rw [readClock_hour hc hh (by omega), herror]
        exact ⟨_, rfl⟩
      · right
        refine ⟨h, u, rfl, hnum, ?_⟩
        obtain hshort | htorn | hcut := cut_cases 2 u
        · omega
        · exact Or.inl htorn
        · exact Or.inr hcut
    · left
      rw [readClock_separator hc, if_neg hsize, hb, Outcome.ok_bind, if_pos hcolon]
      exact ⟨_, rfl⟩

/-- A time that is written is read. -/
lemma readClock_text {c : Option ClockText} (h : ClockWritten c) (hshort : Short (clockFraction c)) (hr : Ends r) :
    readClock checked text (clockText c ++ r) = .ok (clockValue c, r) := by
  cases c with
  | none =>
      refine readClock_none ?_
      intro d t hd hsep
      obtain rfl | rfl | rfl := hsep <;> exact hr.ne (by decide) t hd
  | some c =>
      obtain ⟨hsep, hhour, hminute, hsecond⟩ := h c rfl
      rw [clockText]
      simp only [List.cons_append, List.append_assoc]
      rw [readClock_cut hsep hhour.size hminute.size, parsed_num hhour, parsed_num hminute,
        readSecond_text hsecond hshort hr]
      rfl

/-- A time whose minute or second ends inside a character. -/
def TornClock (rest : List Char) : Prop :=
  ∃ c hour t, rest = c :: (hour ++ ':' :: t) ∧ Separator c ∧ Num 2 hour
    ∧ (Torn 2 t ∨ ∃ minute u, t = minute ++ ':' :: u ∧ Num 2 minute ∧ Torn 2 u)

/-- **What becomes of a time**: it is refused, or read as it is written, or torn. -/
lemma readClock_results : (∃ e, readClock checked text rest = .error e)
    ∨ (∃ v r, readClock checked text rest = .ok (v, r)
      ∧ ∃ c, rest = clockText c ++ r ∧ ClockWritten c ∧ Short (clockFraction c))
    ∨ (readClock checked text rest = .abort ∧ TornClock rest) := by
  by_cases hsep : ∃ c t, rest = c :: t ∧ Separator c
  · obtain ⟨c, t, rfl, hc⟩ := hsep
    obtain ⟨e, he⟩ | ⟨hour, u, rfl, hhour, htorn | ⟨m, w, rfl, hm⟩⟩ := @readClock_cases checked text c hc t
    · exact Or.inl ⟨e, he⟩
    · exact Or.inr (Or.inr ⟨readClock_torn hc hhour htorn, c, hour, u, rfl, hc, hhour, Or.inl htorn⟩)
    · rw [readClock_cut hc hhour.size hm, parsed_num hhour, Outcome.ok_bind]
      obtain herror | hnum := @parsed_cases text 2 m hm
      · exact Or.inl ⟨_, by rw [herror]; rfl⟩
      · rw [parsed_num hnum, Outcome.ok_bind]
        cases hsecond : readSecond checked text w with
        | error e => exact Or.inl ⟨e, rfl⟩
        | abort =>
            obtain ⟨u, rfl, hu⟩ := readSecond_abort_iff.1 hsecond
            exact Or.inr (Or.inr ⟨rfl, c, hour, _, rfl, hc, hhour, Or.inr ⟨m, u, rfl, hnum, hu⟩⟩)
        | ok p =>
            obtain ⟨o, rfl, ho, hshort⟩ := exists_second hsecond
            refine Or.inr (Or.inl ⟨_, _, rfl, some ⟨c, hour, m, o⟩, by simp [clockText], ?_, hshort⟩)
            rintro _ ⟨⟩
            exact ⟨hc, hhour, hnum, ho⟩
  · refine Or.inr (Or.inl ⟨_, _, readClock_none fun c t ht hc => hsep ⟨c, t, ht, hc⟩, none, rfl, ?_, ?_⟩) <;>
      rintro _ ⟨⟩

/-- What is read as a time is written as one. -/
lemma exists_clock {v : Clock} (h : readClock checked text rest = .ok (v, r)) :
    ∃ c, rest = clockText c ++ r ∧ ClockWritten c ∧ Short (clockFraction c) := by
  obtain ⟨e, he⟩ | ⟨v', r', hok, hc⟩ | ⟨habort, -⟩ := @readClock_results checked text rest
  · cases he.symm.trans h
  · cases hok.symm.trans h
    exact hc
  · cases habort.symm.trans h

lemma readClock_abort_iff : readClock checked text rest = .abort ↔ TornClock rest := by
  constructor
  · intro h
    obtain ⟨e, he⟩ | ⟨v, r, hok, -⟩ | ⟨-, htorn⟩ := @readClock_results checked text rest
    · cases he.symm.trans h
    · cases hok.symm.trans h
    · exact htorn
  · rintro ⟨c, hour, t, rfl, hc, hhour, htorn | ⟨minute, u, rfl, hminute, htorn⟩⟩
    · exact readClock_torn hc hhour htorn
    · rw [readClock_cut hc hhour.size hminute.size, parsed_num hhour, parsed_num hminute, Outcome.ok_bind,
        Outcome.ok_bind, readSecond_torn htorn]
      rfl

/-! ## The zone -/

/-- The byte after the hours is a colon. -/
lemma colon_iff {h t : List Char} (hh : size h = 2) : (utf8 (h ++ t))[2]? = some (byte ':') ↔ ∃ u, t = ':' :: u := by
  rw [byteAt_iff (by decide)]
  constructor
  · rintro ⟨h', u, happ, hh'⟩
    exact ⟨u, (append_inj_of_size happ (hh.trans hh'.symm)).2⟩
  · rintro ⟨u, rfl⟩
    exact ⟨h, u, rfl, hh⟩

lemma slice_hours {h t : List Char} (hh : size h = 2) :
    (slice (h ++ t) 0 2 : Outcome SqlError (List Char)) = .ok h :=
  @slice_append h [] t 0 2 SqlError rfl (by rw [hh])

/-- Hours and minutes with a colon between. -/
lemma cutOffset_colon {h u : List Char} (hh : size h = 2) (hu : 2 ≤ size u) : cutOffset text (h ++ ':' :: u) = (do
    let om ← slice (h ++ ':' :: u) 3 5
    return (h, om, 6)) := by
  have hsize : 5 ≤ size (h ++ ':' :: u) := by
    rw [size_append, size_colon]
    omega
  rw [cutOffset, if_pos ⟨hsize, (colon_iff hh).2 ⟨u, rfl⟩⟩, slice_hours hh]
  rfl

/-- Hours and minutes with none. -/
lemma cutOffset_plain {h u : List Char} (hh : size h = 2) (hu : 2 ≤ size u) (hcolon : ∀ w, u = ':' :: w → size w < 2) :
    cutOffset text (h ++ u) = (do
      let om ← slice (h ++ u) 2 4
      return (h, om, 5)) := by
  have hnot : ¬ (5 ≤ size (h ++ u) ∧ (utf8 (h ++ u))[2]? = some (byte ':')) := by
    rintro ⟨hsize, hbyte⟩
    obtain ⟨w, rfl⟩ := (colon_iff hh).1 hbyte
    have := hcolon w rfl
    rw [size_append, size_colon] at hsize
    omega
  rw [cutOffset, if_neg hnot, if_pos (by rw [size_append]; omega), slice_hours hh]
  rfl

/-- Hours alone. -/
lemma cutOffset_hours {h u : List Char} (hh : size h = 2) (hu : size u < 2) :
    cutOffset text (h ++ u) = .ok (h, ['0', '0'], 3) := by
  rw [cutOffset, if_neg (by rw [size_append]; omega), if_neg (by rw [size_append]; omega),
    if_pos (by rw [size_append]; omega), slice_hours hh]
  rfl

lemma cutOffset_colon_cut {h m : List Char} (hh : size h = 2) (hm : size m = 2) (r : List Char) :
    cutOffset text (h ++ ':' :: (m ++ r)) = .ok (h, m, 6) := by
  have hslice : (slice (h ++ ':' :: (m ++ r)) 3 5 : Outcome SqlError (List Char)) = .ok m := by
    have happ : h ++ ':' :: (m ++ r) = h ++ [':'] ++ (m ++ r) := by simp
    rw [happ]
    exact slice_append (by rw [size_append, hh]; rfl) (by rw [hm])
  rw [cutOffset_colon hh (by rw [size_append]; omega), hslice]
  rfl

lemma cutOffset_plain_cut {h m r : List Char} (hh : size h = 2) (hm : size m = 2)
    (hcolon : ∀ w, m ++ r = ':' :: w → size w < 2) : cutOffset text (h ++ (m ++ r)) = .ok (h, m, 5) := by
  have hslice : (slice (h ++ (m ++ r)) 2 4 : Outcome SqlError (List Char)) = .ok m :=
    slice_append hh (by rw [hm])
  rw [cutOffset_plain hh (by rw [size_append]; omega) hcolon, hslice]
  rfl

/-- An offset whose hours or minutes end inside a character. -/
def TornOffset (t : List Char) : Prop :=
  Torn 2 t ∨ ∃ h u, t = h ++ u ∧ size h = 2
    ∧ ((∃ w, u = ':' :: w ∧ Torn 2 w) ∨ ((∀ w, u ≠ ':' :: w) ∧ Torn 2 u))

lemma cutOffset_torn {t : List Char} (h : TornOffset t) : cutOffset text t = .abort := by
  obtain htorn | ⟨h, u, rfl, hh, ⟨w, rfl, hw⟩ | ⟨hcolon, hu⟩⟩ := h
  · have hbyte : ¬ (5 ≤ size t ∧ (utf8 t)[2]? = some (byte ':')) := by
      rintro ⟨-, hbyte⟩
      obtain ⟨h, u, rfl, hh⟩ := (byteAt_iff (by decide)).1 hbyte
      have hcut := htorn.2
      rw [cutAt_append hh] at hcut
      cases hcut
    have hslice : (slice t 0 2 : Outcome SqlError (List Char)) = .abort := @slice_torn [] t 0 SqlError 2 rfl htorn
    rw [cutOffset, if_neg hbyte, hslice, if_pos htorn.1]
    split_ifs <;> rfl
  · have hslice : (slice (h ++ ':' :: w) 3 5 : Outcome SqlError (List Char)) = .abort := by
      have happ : h ++ ':' :: w = h ++ [':'] ++ w := by simp
      have hsize : size (h ++ [':']) = 3 := by
        rw [size_append, hh]
        rfl
      rw [happ]
      exact @slice_torn _ _ 3 SqlError 2 hsize hw
    rw [cutOffset_colon hh hw.1, hslice]
    rfl
  · have hslice : (slice (h ++ u) 2 4 : Outcome SqlError (List Char)) = .abort := @slice_torn h u 2 SqlError 2 hh hu
    rw [cutOffset_plain hh hu.1 fun w hw => absurd hw (hcolon w), hslice]
    rfl

/-- How an offset is written: its hours, its minutes, and what is left. -/
inductive Offset : List Char → List Char → List Char → List Char → ℕ → Prop
  | colon (h m r : List Char) : Offset (h ++ ':' :: (m ++ r)) h m r 6
  | plain (h m r : List Char) : Offset (h ++ (m ++ r)) h m r 5
  | hours (h r : List Char) : Offset (h ++ r) h ['0', '0'] r 3

lemma cutOffset_cases (t : List Char) : (∃ e, cutOffset text t = .error e) ∨ TornOffset t
    ∨ ∃ h m r used, cutOffset text t = .ok (h, m, used) ∧ size h = 2 ∧ size m = 2 ∧ Offset t h m r used := by
  obtain hshort | htorn | ⟨h, u, rfl, hh⟩ := cut_cases 2 t
  · left
    rw [cutOffset, if_neg (by omega), if_neg (by omega), if_neg (by omega)]
    exact ⟨_, rfl⟩
  · exact Or.inr (Or.inl (Or.inl htorn))
  · right
    by_cases hcolon : ∃ w, u = ':' :: w ∧ 2 ≤ size w
    · obtain ⟨w, rfl, hw⟩ := hcolon
      obtain hshort | htorn | ⟨m, r, rfl, hm⟩ := cut_cases 2 w
      · omega
      · exact Or.inl (Or.inr ⟨h, _, rfl, hh, Or.inl ⟨w, rfl, htorn⟩⟩)
      · exact Or.inr ⟨h, m, r, 6, cutOffset_colon_cut hh hm r, hh, hm, Offset.colon h m r⟩
    · have hcolon' : ∀ w, u = ':' :: w → size w < 2 := fun w hw => by
        by_contra hsize
        exact hcolon ⟨w, hw, not_lt.1 hsize⟩
      obtain hshort | htorn | ⟨m, r, rfl, hm⟩ := cut_cases 2 u
      · exact Or.inr ⟨h, _, u, 3, cutOffset_hours hh hshort, hh, rfl, Offset.hours h u⟩
      · refine Or.inl (Or.inr ⟨h, u, rfl, hh, Or.inr ⟨?_, htorn⟩⟩)
        -- a colon and one more byte can be cut
        rintro w rfl
        have hw : size (':' :: w) = 2 := by
          have := hcolon' w rfl
          have := htorn.1
          rw [size_colon] at *
          omega
        have hcut := htorn.2
        rw [← List.append_nil (':' :: w), cutAt_append hw] at hcut
        cases hcut
      · exact Or.inr ⟨h, m, r, 5, cutOffset_plain_cut hh hm hcolon', hh, hm, Offset.plain h m r⟩

lemma readZone_none (h : ¬ ∃ c t, rest = c :: t ∧ (c = 'Z' ∨ c = 'z' ∨ c = '+' ∨ c = '-')) :
    readZone checked text rest = .ok (0, rest) := by
  cases rest with
  | nil => rfl
  | cons c t =>
      obtain ⟨b, hb, hbyte⟩ := @exists_index_zero SqlError c t
      have hutc : ¬ (b = byte 'Z' ∨ b = byte 'z') := by
        rw [hbyte 'Z' (by decide), hbyte 'z' (by decide)]
        rintro (hc | hc)
        · exact h ⟨c, t, rfl, Or.inl hc⟩
        · exact h ⟨c, t, rfl, Or.inr (Or.inl hc)⟩
      have hsign : ¬ (b = byte '+' ∨ b = byte '-') := by
        rw [hbyte '+' (by decide), hbyte '-' (by decide)]
        exact fun hc => h ⟨c, t, rfl, Or.inr (Or.inr hc)⟩
      rw [readZone, if_neg (List.cons_ne_nil c t), hb, Outcome.ok_bind, if_neg hutc, if_neg hsign]
      rfl

lemma readZone_utc {c : Char} (hc : c = 'Z' ∨ c = 'z') (t : List Char) :
    readZone checked text (c :: t) = .ok (0, t) := by
  obtain ⟨b, hb, hbyte⟩ := @exists_index_zero SqlError c t
  have hutc : b = byte 'Z' ∨ b = byte 'z' := by
    rw [hbyte 'Z' (by decide), hbyte 'z' (by decide)]
    exact hc
  have hfrom : (sliceFrom (c :: t) 1 : Outcome SqlError (List Char)) = .ok t := by
    refine @sliceFrom_append [c] t 1 SqlError ?_
    obtain rfl | rfl := hc <;> rfl
  rw [readZone, if_neg (List.cons_ne_nil c t), hb, Outcome.ok_bind, if_pos hutc, hfrom]
  rfl

/-- After a sign. -/
lemma readZone_sign {c : Char} (hc : c = '+' ∨ c = '-') (t : List Char) : readZone checked text (c :: t) = (do
    let (oh, om, used) ← cutOffset text t
    let hours ← fit checked ((← parsed text (some oh)) * microsPerHour)
    let minutes ← fit checked ((← parsed text (some om)) * microsPerMinute)
    let offset ← fit checked (hours + minutes)
    let offset ← fit checked (signValue c * offset)
    let rest ← sliceFrom (c :: t) used
    return (offset, rest)) := by
  obtain ⟨b, hb, hbyte⟩ := @exists_index_zero SqlError c t
  have hutc : ¬ (b = byte 'Z' ∨ b = byte 'z') := by
    rw [hbyte 'Z' (by decide), hbyte 'z' (by decide)]
    obtain rfl | rfl := hc <;> decide
  have hsign : b = byte '+' ∨ b = byte '-' := by
    rw [hbyte '+' (by decide), hbyte '-' (by decide)]
    exact hc
  have hvalue : (if b = byte '-' then -1 else 1 : ℤ) = signValue c := by
    rw [signValue]
    exact if_congr (hbyte '-' (by decide)) rfl rfl
  have hfrom : (sliceFrom (c :: t) 1 : Outcome SqlError (List Char)) = .ok t := by
    refine @sliceFrom_append [c] t 1 SqlError ?_
    obtain rfl | rfl := hc <;> rfl
  rw [readZone, if_neg (List.cons_ne_nil c t), hb, Outcome.ok_bind, if_neg hutc, if_pos hsign, hvalue, hfrom,
    Outcome.ok_bind]

/-- What is left after an offset. -/
lemma sliceFrom_offset {c : Char} {t h m : List Char} {used : ℕ} (hc : c = '+' ∨ c = '-') (hh : size h = 2)
    (hm : size m = 2) (ht : Offset t h m r used) :
    (sliceFrom (c :: t) used : Outcome SqlError (List Char)) = .ok r := by
  have hsize : c.utf8Size = 1 := by
    obtain rfl | rfl := hc <;> rfl
  cases ht with
  | colon =>
      have happ : c :: (h ++ ':' :: (m ++ r)) = c :: (h ++ ':' :: m) ++ r := by simp
      rw [happ]
      exact sliceFrom_append (by rw [size_cons, size_append, size_colon, hh, hm, hsize])
  | plain =>
      have happ : c :: (h ++ (m ++ r)) = c :: (h ++ m) ++ r := by simp
      rw [happ]
      exact sliceFrom_append (by rw [size_cons, size_append, hh, hm, hsize])
  | hours => exact @sliceFrom_append (c :: h) r 3 SqlError (by rw [size_cons, hh, hsize])

/-- The hours and the minutes of an offset are few. -/
lemma readZone_offset {c : Char} {t h m : List Char} {used : ℕ} (hc : c = '+' ∨ c = '-') (hh : Num 2 h)
    (hm : Num 2 m) (ht : Offset t h m r used) (hcut : cutOffset text t = .ok (h, m, used)) :
    readZone checked text (c :: t)
      = .ok (signValue c * (val h * microsPerHour + val m * microsPerMinute), r) := by
  have hhour := abs_lt.1 hh.abs_lt
  have hminute := abs_lt.1 hm.abs_lt
  have hfrom := sliceFrom_offset hc hh.size hm.size ht
  have hsum : Fits (val h * microsPerHour + val m * microsPerMinute) := by
    rw [fits_iff]
    dsimp only [microsPerHour, microsPerMinute]
    omega
  have hsign : Fits (signValue c * (val h * microsPerHour + val m * microsPerMinute)) := by
    rw [fits_iff, signValue]
    dsimp only [microsPerHour, microsPerMinute]
    split_ifs <;> omega
  rw [readZone_sign hc, hcut, Outcome.ok_bind]
  dsimp only
  rw [parsed_num hh, Outcome.ok_bind, fit_of_fits (by rw [fits_iff]; dsimp only [microsPerHour]; omega),
    Outcome.ok_bind, parsed_num hm, Outcome.ok_bind,
    fit_of_fits (by rw [fits_iff]; dsimp only [microsPerMinute]; omega), Outcome.ok_bind, fit_of_fits hsum,
    Outcome.ok_bind, fit_of_fits hsign, Outcome.ok_bind, hfrom]
  rfl

lemma num_zeros : Num 2 ['0', '0'] := by
  refine ⟨rfl, ?_⟩
  decide

lemma val_zeros : val ['0', '0'] = 0 := by
  decide

/-- A zone that is written is read. -/
lemma readZone_text {z : Option ZoneText} (h : ZoneWritten z) :
    readZone checked text (zoneText z) = .ok (zoneValue z, []) := by
  cases z with
  | none => rfl
  | some z =>
      cases z with
      | utc letter => exact readZone_utc h []
      | hours sign hour =>
          obtain ⟨hsign, hhour⟩ := h
          have hcut : cutOffset text hour = .ok (hour, ['0', '0'], 3) := by
            have := @cutOffset_hours text hour [] hhour.size (by decide)
            rwa [List.append_nil] at this
          have hread := @readZone_offset checked text [] _ _ _ _ _ hsign hhour num_zeros
            (by simpa using Offset.hours hour []) hcut
          rw [val_zeros, zero_mul, add_zero] at hread
          exact hread
      | minutes sign hour colon minute =>
          obtain ⟨hsign, hhour, hminute⟩ := h
          cases colon with
          | true =>
              have hcut := @cutOffset_colon_cut text hour minute hhour.size hminute.size []
              have hread := @readZone_offset checked text [] sign _ _ _ _ hsign hhour hminute
                (Offset.colon hour minute []) hcut
              rw [List.append_nil] at hread
              exact hread
          | false =>
              have hcolon : ∀ w, minute ++ [] = ':' :: w → size w < 2 := by
                intro w hw
                have hsize := hminute.size
                rw [← List.append_nil minute, hw, size_colon] at hsize
                omega
              have hcut := @cutOffset_plain_cut text hour minute [] hhour.size hminute.size hcolon
              have hread := @readZone_offset checked text [] sign _ _ _ _ hsign hhour hminute
                (Offset.plain hour minute []) hcut
              rw [List.append_nil] at hread
              exact hread

/-- Where the hours or the minutes are no numbers there is an error. -/
lemma readZone_numbers {c : Char} {t h m : List Char} {used : ℕ} (hc : c = '+' ∨ c = '-') (hh : size h = 2)
    (hm : size m = 2) (hcut : cutOffset text t = .ok (h, m, used)) :
    readZone checked text (c :: t) = .error (bad text) ∨ (Num 2 h ∧ Num 2 m) := by
  rw [readZone_sign hc, hcut, Outcome.ok_bind]
  dsimp only
  obtain herror | hhour := @parsed_cases text 2 h hh
  · left
    rw [herror]
    rfl
  · obtain herror | hminute := @parsed_cases text 2 m hm
    · left
      have hbound := abs_lt.1 hhour.abs_lt
      rw [parsed_num hhour, Outcome.ok_bind, fit_of_fits (by rw [fits_iff]; dsimp only [microsPerHour]; omega),
        Outcome.ok_bind, herror]
      rfl
    · exact Or.inr ⟨hhour, hminute⟩

def TornZone (rest : List Char) : Prop := ∃ c t, rest = c :: t ∧ (c = '+' ∨ c = '-') ∧ TornOffset t

/-- **What becomes of a zone**: it is refused, or read as it is written, or torn. -/
lemma readZone_results : (∃ e, readZone checked text rest = .error e)
    ∨ (∃ v r, readZone checked text rest = .ok (v, r) ∧ ∃ z, rest = zoneText z ++ r ∧ ZoneWritten z)
    ∨ (readZone checked text rest = .abort ∧ TornZone rest) := by
  by_cases hzone : ∃ c t, rest = c :: t ∧ (c = 'Z' ∨ c = 'z' ∨ c = '+' ∨ c = '-')
  · obtain ⟨c, t, rfl, hc⟩ := hzone
    by_cases hutc : c = 'Z' ∨ c = 'z'
    · exact Or.inr (Or.inl ⟨_, _, readZone_utc hutc t, some (.utc c), rfl, hutc⟩)
    · have hsign : c = '+' ∨ c = '-' := by tauto
      obtain ⟨e, he⟩ | htorn | ⟨hour, m, left, used, hcut, hh, hm, hoffset⟩ := @cutOffset_cases text t
      · exact Or.inl ⟨e, by rw [readZone_sign hsign, he]; rfl⟩
      · exact Or.inr (Or.inr ⟨by rw [readZone_sign hsign, cutOffset_torn htorn]; rfl, c, t, rfl, hsign, htorn⟩)
      · obtain herror | ⟨hhour, hminute⟩ := @readZone_numbers checked text c t _ _ _ hsign hh hm hcut
        · exact Or.inl ⟨_, herror⟩
        · refine Or.inr (Or.inl ⟨_, _, readZone_offset hsign hhour hminute hoffset hcut, ?_⟩)
          cases hoffset with
          | colon => exact ⟨some (.minutes c hour true m), by simp [zoneText], hsign, hhour, hminute⟩
          | plain => exact ⟨some (.minutes c hour false m), by simp [zoneText], hsign, hhour, hminute⟩
          | hours => exact ⟨some (.hours c hour), rfl, hsign, hhour⟩
  · exact Or.inr (Or.inl ⟨_, _, readZone_none hzone, none, rfl, trivial⟩)

/-- What is read as a zone is written as one. -/
lemma exists_zone {v : ℤ} (h : readZone checked text rest = .ok (v, r)) :
    ∃ z, rest = zoneText z ++ r ∧ ZoneWritten z := by
  obtain ⟨e, he⟩ | ⟨v', r', hok, hz⟩ | ⟨habort, -⟩ := @readZone_results checked text rest
  · cases he.symm.trans h
  · cases hok.symm.trans h
    exact hz
  · cases habort.symm.trans h

lemma readZone_abort_iff : readZone checked text rest = .abort ↔ TornZone rest := by
  constructor
  · intro h
    obtain ⟨e, he⟩ | ⟨v, r, hok, -⟩ | ⟨-, htorn⟩ := @readZone_results checked text rest
    · cases he.symm.trans h
    · cases hok.symm.trans h
    · exact htorn
  · rintro ⟨c, t, rfl, hsign, htorn⟩
    rw [readZone_sign hsign, cutOffset_torn htorn]
    rfl

end Lang
