import Sekejap.Lang.Micros
import Sekejap.Lib.Numerals

/-!
# Texts of instants

The reader and the writer of timestamps (`lang/src/functions.rs`), and what a timestamp is as a text, part by part.
The reader cuts the text at byte offsets; a cut inside a character aborts.
-/

open Calendar Machine Utf8 Numerals

namespace Lang

/-! ## The reader -/

/-- The error that quotes the text. -/
def bad (text : String) : SqlError :=
  .parameter (s!"`{text}` is not an ISO-8601 or Postgres date/time literal: write YYYY-MM-DD, "
    ++ "or YYYY-MM-DD HH:MM:SS[.ffffff] with an optional Z or +HH:MM offset")

/-- A piece of the text, read as a number. -/
def parsed (text : String) (piece : Option (List Char)) : Outcome SqlError ℤ :=
  match piece.bind parseI64 with
  | some v => .ok v
  | none => .error (bad text)

/-- The loop that pads a short fraction. -/
def scaledUp (checked : Bool) : ℕ → ℤ → Outcome SqlError ℤ
  | 0, fraction => .ok fraction
  | n + 1, fraction => do
      let fraction ← fit checked (fraction * 10)
      scaledUp checked n fraction

/-- The loop that drops digits past microseconds. -/
def scaledDown : ℕ → ℤ → ℤ
  | 0, fraction => fraction
  | n + 1, fraction => scaledDown n (fraction.tdiv 10)

def isAsciiDigit (b : UInt8) : Bool := decide (48 ≤ b.toNat ∧ b.toNat ≤ 57)

/-- The fraction of a second, and the rest of the text. -/
def readFraction (checked : Bool) (text : String) (rest : List Char) : Outcome SqlError (ℤ × List Char) :=
  if (utf8 rest).head? = some (byte '.') then do
    let digits := min ((utf8 (← sliceFrom rest 1)).takeWhile isAsciiDigit).length 9
    if digits = 0 then .error (bad text)
    else do
      let fraction ← parsed text (some (← slice rest 1 (1 + digits)))
      let fraction ← scaledUp checked (6 - digits) fraction
      let fraction := scaledDown (digits - 6) fraction
      let rest ← sliceFrom rest (1 + digits)
      return (fraction, rest)
  else return (0, rest)

/-- The seconds and their fraction, and the rest of the text. -/
def readSecond (checked : Bool) (text : String) (rest : List Char) : Outcome SqlError (ℤ × ℤ × List Char) :=
  if (utf8 rest).head? = some (byte ':') then
    if size rest < 3 then .error (bad text)
    else do
      let second ← parsed text (some (← slice rest 1 3))
      let rest ← sliceFrom rest 3
      let (micro, rest) ← readFraction checked text rest
      return (second, micro, rest)
  else return (0, 0, rest)

/-- The time of the day. -/
structure Clock where
  hour : ℤ
  minute : ℤ
  second : ℤ
  micro : ℤ
  deriving DecidableEq

/-- The time of the day, and the rest of the text. -/
def readClock (checked : Bool) (text : String) (rest : List Char) : Outcome SqlError (Clock × List Char) :=
  if rest = [] then return (⟨0, 0, 0, 0⟩, rest)
  else do
    let first ← index (utf8 rest) 0
    if first = byte 'T' ∨ first = byte 't' ∨ first = byte ' ' then do
      let rest ← sliceFrom rest 1
      if size rest < 5 then .error (bad text)
      else do
        let colon ← index (utf8 rest) 2
        if colon ≠ byte ':' then .error (bad text)
        else do
          let hour ← parsed text (some (← slice rest 0 2))
          let minute ← parsed text (some (← slice rest 3 5))
          let rest ← sliceFrom rest 5
          let (second, micro, rest) ← readSecond checked text rest
          return (⟨hour, minute, second, micro⟩, rest)
    else return (⟨0, 0, 0, 0⟩, rest)

/-- The hours and the minutes of an offset, and how much of the text they and the sign take. -/
def cutOffset (text : String) (body : List Char) : Outcome SqlError (List Char × List Char × ℕ) :=
  if 5 ≤ size body ∧ (utf8 body)[2]? = some (byte ':') then do
    let oh ← slice body 0 2
    let om ← slice body 3 5
    return (oh, om, 6)
  else if 4 ≤ size body then do
    let oh ← slice body 0 2
    let om ← slice body 2 4
    return (oh, om, 5)
  else if 2 ≤ size body then do
    let oh ← slice body 0 2
    return (oh, ['0', '0'], 3)
  else .error (bad text)

/-- The zone suffix, and the rest of the text. -/
def readZone (checked : Bool) (text : String) (rest : List Char) : Outcome SqlError (ℤ × List Char) :=
  if rest = [] then return (0, rest)
  else do
    let first ← index (utf8 rest) 0
    if first = byte 'Z' ∨ first = byte 'z' then do
      let rest ← sliceFrom rest 1
      return (0, rest)
    else if first = byte '+' ∨ first = byte '-' then do
      let sign : ℤ := if first = byte '-' then -1 else 1
      let body ← sliceFrom rest 1
      let (oh, om, used) ← cutOffset text body
      let hours ← fit checked ((← parsed text (some oh)) * microsPerHour)
      let minutes ← fit checked ((← parsed text (some om)) * microsPerMinute)
      let offset ← fit checked (hours + minutes)
      let offset ← fit checked (sign * offset)
      let rest ← sliceFrom rest used
      return (offset, rest)
    else return (0, rest)

/-- The instant of a date and a time at an offset. -/
def instant (checked : Bool) (days : ℤ) (clock : Clock) (offset : ℤ) : Outcome SqlError ℤ := do
  let days ← fit checked (days * microsPerDay)
  let hours ← fit checked (clock.hour * microsPerHour)
  let toHour ← fit checked (days + hours)
  let minutes ← fit checked (clock.minute * microsPerMinute)
  let toMinute ← fit checked (toHour + minutes)
  let seconds ← fit checked (clock.second * microsPerSecond)
  let toSecond ← fit checked (toMinute + seconds)
  let toMicro ← fit checked (toSecond + clock.micro)
  fit checked (toMicro - offset)

/-- `parse_timestamp`: ten bytes of a date, then a time and a zone if there are any. -/
def parseTimestamp (checked : Bool) (text : String) : Outcome SqlError ℤ := do
  let s := trim text.toList
  if size s < 10 then .error (bad text)
  else do
    let b4 ← index (utf8 s) 4
    let b7 ← index (utf8 s) 7
    if b4 ≠ byte '-' ∨ b7 ≠ byte '-' then .error (bad text)
    else do
      let year ← parsed text (get s 0 4)
      let month ← parsed text (get s 5 7)
      let day ← parsed text (get s 8 10)
      if ¬ (1 ≤ month ∧ month ≤ 12) ∨ ¬ (1 ≤ day ∧ day ≤ 31) then .error (bad text)
      else do
        let rest ← sliceFrom s 10
        let (clock, rest) ← readClock checked text rest
        let (offset, rest) ← readZone checked text rest
        if trim rest ≠ [] then .error (bad text)
        else if ¬ (0 ≤ clock.hour ∧ clock.hour ≤ 23) ∨ ¬ (0 ≤ clock.minute ∧ clock.minute ≤ 59)
            ∨ ¬ (0 ≤ clock.second ∧ clock.second ≤ 60) then .error (bad text)
        else
          -- a day that does not exist decodes as another
          let days := daysFromCivil year month.toNat day.toNat
          if civilFromDays days ≠ (year, month.toNat, day.toNat) then .error (bad text)
          else instant checked days clock offset

/-! ## The writer -/

/-- The ISO-8601 spelling of an instant: always UTC, and a fraction only where there is one. -/
def formatTimestamp (checked : Bool) (micros : ℤ) : Outcome SqlError String := do
  let c ← civilFromMicros checked micros
  let head := padded 4 c.year ++ '-' :: zeroPadded 2 c.month ++ '-' :: zeroPadded 2 c.day
    ++ 'T' :: zeroPadded 2 c.hour ++ ':' :: zeroPadded 2 c.minute ++ ':' :: zeroPadded 2 c.second
  if c.micro = 0 then return String.ofList (head ++ ['Z'])
  else return String.ofList (head ++ '.' :: zeroPadded 6 c.micro ++ ['Z'])

/-! ## Timestamps as written -/

/-- The time of the day, as written: the hour, the minute, and the second with its fraction. -/
structure ClockText where
  separator : Char
  hour : List Char
  minute : List Char
  second : Option (List Char × Option (List Char))

/-- A zone, as written. -/
inductive ZoneText where
  | utc (letter : Char)
  | hours (sign : Char) (hour : List Char)
  | minutes (sign : Char) (hour : List Char) (colon : Bool) (minute : List Char)

/-- A timestamp, as written. -/
structure Stamp where
  year : List Char
  month : List Char
  day : List Char
  clock : Option ClockText
  zone : Option ZoneText

def fractionText : Option (List Char) → List Char
  | none => []
  | some digits => '.' :: digits

def secondText : Option (List Char × Option (List Char)) → List Char
  | none => []
  | some (second, fraction) => ':' :: (second ++ fractionText fraction)

def clockText : Option ClockText → List Char
  | none => []
  | some c => c.separator :: (c.hour ++ ':' :: (c.minute ++ secondText c.second))

def zoneText : Option ZoneText → List Char
  | none => []
  | some (.utc letter) => [letter]
  | some (.hours sign hour) => sign :: hour
  | some (.minutes sign hour colon minute) => sign :: (hour ++ (if colon then ':' :: minute else minute))

def Stamp.text (p : Stamp) : List Char :=
  p.year ++ '-' :: (p.month ++ '-' :: (p.day ++ (clockText p.clock ++ zoneText p.zone)))

/-- A number of so many characters. -/
def Num (n : ℕ) (f : List Char) : Prop := f.length = n ∧ (parseI64 f).isSome

/-- The number of a field. -/
def val (f : List Char) : ℤ := (parseI64 f).getD 0

/-- The microseconds of a fraction, cut to six digits. -/
def fractionValue : Option (List Char) → ℤ
  | none => 0
  | some digits => number digits * 10 ^ (6 - digits.length) / 10 ^ (digits.length - 6)

/-- The seconds and the microseconds. -/
def secondValue : Option (List Char × Option (List Char)) → ℤ × ℤ
  | none => (0, 0)
  | some (second, fraction) => (val second, fractionValue fraction)

def clockValue : Option ClockText → Clock
  | none => ⟨0, 0, 0, 0⟩
  | some c => ⟨val c.hour, val c.minute, (secondValue c.second).1, (secondValue c.second).2⟩

def signValue (sign : Char) : ℤ := if sign = '-' then -1 else 1

def zoneValue : Option ZoneText → ℤ
  | none => 0
  | some (.utc _) => 0
  | some (.hours sign hour) => signValue sign * (val hour * microsPerHour)
  | some (.minutes sign hour _ minute) =>
    signValue sign * (val hour * microsPerHour + val minute * microsPerMinute)

/-- The fields are in place: each has its length and reads as a number, and a fraction has digits. -/
def SecondWritten (second : Option (List Char × Option (List Char))) : Prop :=
  ∀ p, second = some p → Num 2 p.1 ∧ ∀ digits, p.2 = some digits → Digits digits

def ClockWritten (clock : Option ClockText) : Prop :=
  ∀ c, clock = some c → (c.separator = 'T' ∨ c.separator = 't' ∨ c.separator = ' ')
    ∧ Num 2 c.hour ∧ Num 2 c.minute ∧ SecondWritten c.second

def ZoneWritten : Option ZoneText → Prop
  | none => True
  | some (.utc letter) => letter = 'Z' ∨ letter = 'z'
  | some (.hours sign hour) => (sign = '+' ∨ sign = '-') ∧ Num 2 hour
  | some (.minutes sign hour _ minute) => (sign = '+' ∨ sign = '-') ∧ Num 2 hour ∧ Num 2 minute

/-- The fraction of the seconds. -/
def clockFraction (clock : Option ClockText) : Option (List Char) := (clock.bind ClockText.second).bind Prod.snd

/-- There are at most nine digits. -/
def Short (fraction : Option (List Char)) : Prop := ∀ digits, fraction = some digits → digits.length ≤ 9

/-- A timestamp that is written as one: its fields in place, its day one that exists, its time in range. -/
structure Stamp.Written (p : Stamp) : Prop where
  year : Num 4 p.year
  month : Num 2 p.month
  day : Num 2 p.day
  clock : ClockWritten p.clock
  zone : ZoneWritten p.zone
  date : Valid (val p.year, (val p.month).toNat, (val p.day).toNat)
  hour : 0 ≤ (clockValue p.clock).hour ∧ (clockValue p.clock).hour ≤ 23
  minute : 0 ≤ (clockValue p.clock).minute ∧ (clockValue p.clock).minute ≤ 59
  second : 0 ≤ (clockValue p.clock).second ∧ (clockValue p.clock).second ≤ 60

def secondFields : Option (List Char × Option (List Char)) → List (List Char)
  | none => []
  | some (second, _) => [second]

def clockFields : Option ClockText → List (List Char)
  | none => []
  | some c => c.hour :: c.minute :: secondFields c.second

def zoneFields : Option ZoneText → List (List Char)
  | none => []
  | some (.utc _) => []
  | some (.hours _ hour) => [hour]
  | some (.minutes _ hour _ minute) => [hour, minute]

/-- The numbers of a timestamp. -/
def Stamp.fields (p : Stamp) : List (List Char) :=
  p.year :: p.month :: p.day :: (clockFields p.clock ++ zoneFields p.zone)

/-- Every number is written in digits alone, without a sign. -/
def Stamp.Plain (p : Stamp) : Prop := ∀ f ∈ p.fields, Digits f

/-- A text is a timestamp: `YYYY-MM-DD`, a time with `T` or a space before it, and a zone. -/
def Spelled (s : List Char) : Prop := ∃ p : Stamp, s = p.text ∧ p.Written ∧ p.Plain

/-- The microseconds of a time of the day. -/
def Clock.micros (c : Clock) : ℤ :=
  c.hour * microsPerHour + c.minute * microsPerMinute + c.second * microsPerSecond + c.micro

/-- The instant of a timestamp. -/
def Stamp.value (p : Stamp) : ℤ :=
  daysFromCivil (val p.year) (val p.month).toNat (val p.day).toNat * microsPerDay
    + (clockValue p.clock).micros - zoneValue p.zone

end Lang
