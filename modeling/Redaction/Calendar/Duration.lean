import Redaction.Text.Digits

/-!
# Durations

A duration is a whole number of days, which may be negative, and a non-negative rest of seconds and
microseconds that is shorter than a day.
-/

namespace Redaction.Calendar

def second : Int := 1000000

def day : Int := 86400 * second

structure Duration where
  days : Int
  seconds : Nat
  micros : Nat
deriving Repr, DecidableEq

namespace Duration

def length (d : Duration) : Int := d.days * day + d.seconds * second + d.micros

def ofLength (micros : Int) : Duration :=
  let rest := micros % day
  ⟨micros / day, (rest / second).toNat, (rest % second).toNat⟩

theorem length_ofLength (micros : Int) : (ofLength micros).length = micros := by
  simp only [length, ofLength, day, second]
  omega

/-- The text of a duration: its days unless there are none, then hours, minutes and seconds. -/
def text (d : Duration) : String :=
  let days :=
    if d.days = 0 then ""
    else Text.signed d.days ++ (if d.days.natAbs = 1 then " day, " else " days, ")
  days ++ Text.decimal 1 (d.seconds / 3600) ++ ":" ++ Text.decimal 2 (d.seconds / 60 % 60) ++
    ":" ++ Text.decimal 2 (d.seconds % 60) ++
    (if d.micros = 0 then "" else "." ++ Text.decimal 6 d.micros)

/-- The literal of a duration names the parts that are not zero. -/
def literal (d : Duration) : String :=
  let part := fun (name : String) (amount : Int) =>
    if amount = 0 then [] else [name ++ "=" ++ Text.signed amount]
  let parts := part "days" d.days ++ part "seconds" d.seconds ++ part "microseconds" d.micros
  "datetime.timedelta(" ++
    (if parts.isEmpty then "0" else String.intercalate ", " parts) ++ ")"

end Redaction.Calendar.Duration
