import Sekejap.Lang.Intervals
import Sekejap.Lang.Reading

/-!
# Which texts are timestamps

A text is written as a timestamp in one way (**`text_injective`**), and so the reader's answer is told from what is
written.  **`readsWell_iff`** says which texts are read as they are spelled: the reader cuts fields at fixed bytes, so
it aborts where a cut falls inside a character, and it takes a sign for a digit.
-/

namespace Lang

open Machine Utf8 Numerals

variable {r r' : List Char}

/-! ## A timestamp is written in one way -/

/-- The length of a zone, which tells how it is written. -/
def zoneLength : Option ZoneText → ℕ
  | none => 0
  | some (.utc _) => 1
  | some (.hours _ _) => 3
  | some (.minutes _ _ true _) => 6
  | some (.minutes _ _ false _) => 5

lemma length_zoneText {z : Option ZoneText} (hz : ZoneWritten z) : (zoneText z).length = zoneLength z := by
  cases z with
  | none => rfl
  | some z =>
      cases z with
      | utc letter => rfl
      | hours sign hour => rw [zoneText, List.length_cons, hz.2.1, zoneLength]
      | minutes sign hour colon minute =>
          obtain ⟨-, hhour, hminute⟩ := hz
          cases colon <;> simp [zoneText, zoneLength, hhour.1, hminute.1]

lemma zoneText_injective {z z' : Option ZoneText} (hz : ZoneWritten z) (hz' : ZoneWritten z')
    (h : zoneText z = zoneText z') : z = z' := by
  have hlen := congrArg List.length h
  rw [length_zoneText hz, length_zoneText hz'] at hlen
  rcases z with _ | letter | ⟨sign, hour⟩ | ⟨sign, hour, _ | _, minute⟩ <;>
    rcases z' with _ | letter' | ⟨sign', hour'⟩ | ⟨sign', hour', _ | _, minute'⟩ <;>
    simp [zoneLength] at hlen
  · rfl
  · simpa [zoneText] using h
  · simpa [zoneText] using h
  · obtain ⟨rfl, htail⟩ := List.cons.inj h
    obtain ⟨rfl, rfl⟩ := List.append_inj htail (hz.2.1.1.trans hz'.2.1.1.symm)
    rfl
  · obtain ⟨rfl, htail⟩ := List.cons.inj h
    obtain ⟨rfl, hcolon⟩ := List.append_inj htail (hz.2.1.1.trans hz'.2.1.1.symm)
    obtain rfl := (List.cons.inj hcolon).2
    rfl

lemma fractionText_injective {f f' : Option (List Char)} (hf : ∀ d, f = some d → Digits d)
    (hf' : ∀ d, f' = some d → Digits d) (hr : Ends r) (hr' : Ends r')
    (h : fractionText f ++ r = fractionText f' ++ r') : f = f' ∧ r = r' := by
  cases f with
  | none =>
      cases f' with
      | none => exact ⟨rfl, h⟩
      | some d => exact absurd h (hr.ne (by decide) _)
  | some d =>
      cases f' with
      | none => exact absurd h.symm (hr'.ne (by decide) _)
      | some d' =>
          rw [fractionText, fractionText, List.cons_append, List.cons_append] at h
          have htail := (List.cons.inj h).2
          have hd : (d ++ r).takeWhile Char.isDigit = d := by
            rw [List.takeWhile_append_of_pos (hf d rfl).2, hr.takeWhile, List.append_nil]
          have hd' : (d' ++ r').takeWhile Char.isDigit = d' := by
            rw [List.takeWhile_append_of_pos (hf' d' rfl).2, hr'.takeWhile, List.append_nil]
          obtain rfl : d = d' := by rw [← hd, htail, hd']
          exact ⟨rfl, List.append_cancel_left htail⟩

lemma secondText_injective {o o' : Option (List Char × Option (List Char))} (ho : SecondWritten o)
    (ho' : SecondWritten o') (hr : Ends r) (hr' : Ends r') (h : secondText o ++ r = secondText o' ++ r') :
    o = o' ∧ r = r' := by
  cases o with
  | none =>
      cases o' with
      | none => exact ⟨rfl, h⟩
      | some p => exact absurd h (hr.ne (by decide) _)
  | some p =>
      cases o' with
      | none => exact absurd h.symm (hr'.ne (by decide) _)
      | some p' =>
          obtain ⟨s, f⟩ := p
          obtain ⟨s', f'⟩ := p'
          obtain ⟨hs, hf⟩ := ho _ rfl
          obtain ⟨hs', hf'⟩ := ho' _ rfl
          simp only [secondText, List.cons_append, List.append_assoc, List.cons.injEq, true_and] at h
          obtain ⟨rfl, hrest⟩ := List.append_inj h (hs.1.trans hs'.1.symm)
          obtain ⟨rfl, rfl⟩ := fractionText_injective hf hf' hr hr' hrest
          exact ⟨rfl, rfl⟩

lemma clockText_injective {c c' : Option ClockText} (hc : ClockWritten c) (hc' : ClockWritten c')
    (hr : Ends r) (hr' : Ends r') (h : clockText c ++ r = clockText c' ++ r') : c = c' ∧ r = r' := by
  have hsep : ∀ {r : List Char} {d : Char}, Ends r → (d = 'T' ∨ d = 't' ∨ d = ' ') → ∀ t, r ≠ d :: t := by
    rintro r d hr (rfl | rfl | rfl) t <;> exact hr.ne (by decide) t
  cases c with
  | none =>
      cases c' with
      | none => exact ⟨rfl, h⟩
      | some c' => exact absurd h (hsep hr (hc' _ rfl).1 _)
  | some c =>
      cases c' with
      | none => exact absurd h.symm (hsep hr' (hc _ rfl).1 _)
      | some c' =>
          obtain ⟨sep, hour, minute, second⟩ := c
          obtain ⟨sep', hour', minute', second'⟩ := c'
          obtain ⟨-, hhour, hminute, hsecond⟩ := hc _ rfl
          obtain ⟨-, hhour', hminute', hsecond'⟩ := hc' _ rfl
          simp only [clockText, List.cons_append, List.append_assoc, List.cons.injEq] at h
          obtain ⟨rfl, htail⟩ := h
          obtain ⟨rfl, hcolon⟩ := List.append_inj htail (hhour.1.trans hhour'.1.symm)
          obtain ⟨rfl, hrest⟩ := List.append_inj (List.cons.inj hcolon).2 (hminute.1.trans hminute'.1.symm)
          obtain ⟨rfl, rfl⟩ := secondText_injective hsecond hsecond' hr hr' hrest
          exact ⟨rfl, rfl⟩

/-- **A timestamp is written in one way.** -/
lemma text_injective {p p' : Stamp} (hp : p.Written) (hp' : p'.Written) (h : p.text = p'.text) : p = p' := by
  obtain ⟨y, m, d, c, z⟩ := p
  obtain ⟨y', m', d', c', z'⟩ := p'
  simp only [Stamp.text] at h
  obtain ⟨rfl, hmonth⟩ := List.append_inj h (hp.year.1.trans hp'.year.1.symm)
  obtain ⟨rfl, hday⟩ := List.append_inj (List.cons.inj hmonth).2 (hp.month.1.trans hp'.month.1.symm)
  obtain ⟨rfl, hrest⟩ := List.append_inj (List.cons.inj hday).2 (hp.day.1.trans hp'.day.1.symm)
  obtain ⟨rfl, hzone⟩ := clockText_injective hp.clock hp'.clock (zoneText_ends hp.zone) (zoneText_ends hp'.zone) hrest
  obtain rfl := zoneText_injective hp.zone hp'.zone hzone
  rfl

/-! ## What the reader answers -/

/-- Reading never aborts, and what is accepted is what is spelled as a timestamp. -/
def ReadsWell (text : String) : Prop :=
  (∀ checked, parseTimestamp checked text ≠ .abort
    ∧ ((∃ m, parseTimestamp checked text = .ok m) ↔ Spelled (trim text.toList)))
  ∧ parseInterval text ≠ .abort

/-- **A text is read well** where no field ends inside a character, no sign stands for a digit, and the fraction has at
most nine digits: a timestamp with a sign is accepted, one with more digits is not. -/
theorem readsWell_iff (text : String) : ReadsWell text ↔ ¬ TornStamp (trim text.toList)
    ∧ ∀ p : Stamp, trim text.toList = p.text → p.Written → (p.Plain ↔ Short (clockFraction p.clock)) := by
  constructor
  · rintro ⟨hreads, -⟩
    obtain ⟨habort, haccept⟩ := hreads true
    refine ⟨mt parseTimestamp_abort_iff.2 habort, fun p htext hp => ?_⟩
    constructor
    · intro hplain
      obtain ⟨m, hm⟩ := haccept.2 ⟨p, htext, hp, hplain⟩
      obtain ⟨p', htext', hp', hshort⟩ := exists_stamp hm
      obtain rfl := text_injective hp hp' (htext.symm.trans htext')
      exact hshort
    · intro hshort
      obtain ⟨p', htext', hp', hplain⟩ := haccept.1 ⟨_, parseTimestamp_text hp hshort htext⟩
      obtain rfl := text_injective hp hp' (htext.symm.trans htext')
      exact hplain
  · rintro ⟨htorn, hplain⟩
    refine ⟨fun checked => ⟨mt parseTimestamp_abort_iff.1 htorn, ?_⟩, parseInterval_ne_abort text⟩
    constructor
    · rintro ⟨m, hm⟩
      obtain ⟨p, htext, hp, hshort⟩ := exists_stamp hm
      exact ⟨p, htext, hp, (hplain p htext hp).2 hshort⟩
    · rintro ⟨p, htext, hp, hdigits⟩
      exact ⟨_, parseTimestamp_text hp ((hplain p htext hp).1 hdigits) htext⟩

/-- The minute ends inside a character of two bytes. -/
theorem readsWell_torn : ¬ ReadsWell "2001-02-03T04:0é" := by
  rintro ⟨hreads, -⟩
  refine (hreads true).1 (parseTimestamp_abort_iff.2 ⟨['2', '0', '0', '1'], ['0', '2'], ['0', '3'],
    ['T', '0', '4', ':', '0', 'é'], by decide +kernel, ⟨?_, ?_, ?_⟩, by decide, by decide,
    Or.inl ⟨'T', ['0', '4'], ['0', 'é'], rfl, Or.inl rfl, ?_, Or.inl ⟨by decide, by decide⟩⟩⟩)
  all_goals exact ⟨rfl, by decide⟩

end Lang
