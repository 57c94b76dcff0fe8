import Redaction.Calendar.Duration

/-!
# Dates and times

Dates of the proleptic Gregorian calendar and times of day to the microsecond, with or without an
offset from universal time. The written form is that of ISO 8601. The instant that a time with an
offset names is its `universal`; an offset may have a fraction of a second of its own.
-/

namespace Redaction.Calendar

structure Date where
  year : Nat
  month : Nat
  day : Nat
deriving Repr, DecidableEq

/-- A time of day; the offset is in microseconds east of universal time. -/
structure Clock where
  hour : Nat
  minute : Nat
  second : Nat
  micros : Nat
  offset : Option Int
deriving Repr, DecidableEq

/-- The first `count` characters as a number, and the characters after them. -/
def digits? (count : Nat) (cs : List Char) : Option (Nat × List Char) :=
  if (cs.take count).length = count then
    (Text.ofNumeral? (cs.take count)).map fun n => (n, cs.drop count)
  else none

def after? (c : Char) : List Char → Option (List Char)
  | x :: cs => if x = c then some cs else none
  | [] => none

/-- A fraction of a second in microseconds; places beyond the sixth are left out. -/
def fraction? (cs : List Char) : Option (Nat × List Char) :=
  match after? '.' cs with
  | none => some (0, cs)
  | some rest =>
    let places := rest.takeWhile Char.isDigit
    let six := (places ++ List.replicate 6 '0').take 6
    if places.isEmpty then none
    else some (Nat.ofDigitChars 10 six 0, rest.dropWhile Char.isDigit)

namespace Date

def text (d : Date) : String :=
  Text.decimal 4 d.year ++ "-" ++ Text.decimal 2 d.month ++ "-" ++ Text.decimal 2 d.day

/-- Reads a date and gives the characters after it. -/
def ofChars? (cs : List Char) : Option (Date × List Char) := do
  let (year, cs) ← digits? 4 cs
  let (month, cs) ← digits? 2 (← after? '-' cs)
  let (day, cs) ← digits? 2 (← after? '-' cs)
  pure (⟨year, month, day⟩, cs)

def literal (d : Date) : String :=
  "datetime.date(" ++ String.intercalate ", " ([d.year, d.month, d.day].map (Text.decimal 1)) ++ ")"

/-- The days of a common year before each month. -/
def daysBeforeMonth : List Nat := [0, 0, 31, 59, 90, 120, 151, 181, 212, 243, 273, 304, 334]

def isLeap (year : Nat) : Bool := year % 4 = 0 && (year % 100 ≠ 0 || year % 400 = 0)

/-- The number of a day, counted from the beginning of the calendar. -/
def ordinal (d : Date) : Nat :=
  let past := d.year - 1
  let leapDay := if isLeap d.year && 2 < d.month then 1 else 0
  past * 365 + past / 4 - past / 100 + past / 400 + daysBeforeMonth.getD d.month 0 + leapDay + d.day

end Date

namespace Clock

/-- Hours, minutes and, unless they are zero, seconds and microseconds of an offset. -/
def offsetText (offset : Int) : String :=
  let size := offset.natAbs
  let seconds := size / 1000000
  let micros := size % 1000000
  (if offset < 0 then "-" else "+") ++ Text.decimal 2 (seconds / 3600) ++ ":" ++
    Text.decimal 2 (seconds / 60 % 60) ++
    (if seconds % 60 = 0 && micros = 0 then "" else ":" ++ Text.decimal 2 (seconds % 60)) ++
    (if micros = 0 then "" else "." ++ Text.decimal 6 micros)

def text (t : Clock) : String :=
  Text.decimal 2 t.hour ++ ":" ++ Text.decimal 2 t.minute ++ ":" ++ Text.decimal 2 t.second ++
    (if t.micros = 0 then "" else "." ++ Text.decimal 6 t.micros) ++
    (t.offset.map offsetText).getD ""

/-- Reads hours, minutes and optional seconds with an optional fraction. -/
def parts? (cs : List Char) : Option ((Nat × Nat × Nat × Nat) × List Char) := do
  let (hour, cs) ← digits? 2 cs
  let (minute, cs) ← digits? 2 (← after? ':' cs)
  match after? ':' cs with
  | none => pure ((hour, minute, 0, 0), cs)
  | some cs =>
    let (seconds, cs) ← digits? 2 cs
    let (micros, cs) ← fraction? cs
    pure ((hour, minute, seconds, micros), cs)

/-- Reads an offset that takes up all the characters; no characters are no offset. An offset of less
than a second is read as zero. -/
def offset? : List Char → Option (Option Int)
  | [] => some none
  | ['Z'] => some (some 0)
  | c :: cs => do
    let ((hour, minute, seconds, micros), rest) ← parts? cs
    if !rest.isEmpty then none
    let whole : Int := (hour * 3600 + minute * 60 + seconds) * Calendar.second
    let size := if whole = 0 then 0 else whole + micros
    if c = '+' then some (some size) else if c = '-' then some (some (-size)) else none

/-- Reads a time of day that takes up all the characters. -/
def ofChars? (cs : List Char) : Option Clock := do
  let ((hour, minute, seconds, micros), rest) ← parts? cs
  pure ⟨hour, minute, seconds, micros, ← offset? rest⟩

/-- The microseconds since midnight, local time. -/
def sinceMidnight (t : Clock) : Int :=
  (t.hour * 3600 + t.minute * 60 + t.second) * Calendar.second + t.micros

/-- The microseconds since midnight, universal time when there is an offset. -/
def universal (t : Clock) : Int := t.sinceMidnight - t.offset.getD 0

/-- The arguments of the literal of a time: seconds and microseconds only as far as needed. -/
def arguments (t : Clock) : List String :=
  ([t.hour, t.minute] ++
    (if t.second = 0 && t.micros = 0 then [] else [t.second]) ++
    (if t.micros = 0 then [] else [t.micros])).map (Text.decimal 1)

def zoneLiteral (offset : Int) : String :=
  if offset = 0 then "datetime.timezone.utc"
  else "datetime.timezone(" ++ (Duration.ofLength offset).literal ++ ")"

def zoneArgument (t : Clock) : List String :=
  (t.offset.map fun offset => "tzinfo=" ++ zoneLiteral offset).toList

def literal (t : Clock) : String :=
  "datetime.time(" ++ String.intercalate ", " (t.arguments ++ t.zoneArgument) ++ ")"

end Clock

structure Moment where
  date : Date
  clock : Clock
deriving Repr, DecidableEq

namespace Moment

/-- The written form of a moment, with a character between date and time. -/
def text (separator : String) (m : Moment) : String := m.date.text ++ separator ++ m.clock.text

/-- Reads a moment whose date and time are parted by one character. -/
def ofChars? (cs : List Char) : Option Moment := do
  let (date, rest) ← Date.ofChars? cs
  pure ⟨date, ← Clock.ofChars? (rest.drop 1)⟩

def literal (m : Moment) : String :=
  let date := [m.date.year, m.date.month, m.date.day].map (Text.decimal 1)
  "datetime.datetime(" ++
    String.intercalate ", " (date ++ m.clock.arguments ++ m.clock.zoneArgument) ++ ")"

/-- The microseconds since the beginning of the calendar, universal time when there is an offset. -/
def universal (m : Moment) : Int := m.date.ordinal * Calendar.day + m.clock.universal

end Redaction.Calendar.Moment
