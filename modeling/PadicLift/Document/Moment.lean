import PadicLift.Fault

/-!
# Days and points in time

A day is written as year, month and day with dashes between them. A point in time goes on with a
time of day, perhaps with parts of a second and with its distance from universal time. The numbers
have to be within their limits.

Two days are compared as days. Two points in time are compared if both tell their distance from
universal time, or neither does; a day and a point in time are never equal and have no order.
-/

namespace PadicLift

/-- A time of day. -/
structure Clock where
  hour : Nat
  minute : Nat
  second : Nat
  /-- Millionths of a second. -/
  micro : Nat
  /-- Minutes ahead of universal time. -/
  zone : Option Int
deriving DecidableEq, Repr, Inhabited

/-- A day, or with a time of day a point in time. -/
structure Moment where
  year : Nat
  month : Nat
  day : Nat
  clock : Option Clock
deriving DecidableEq, Repr, Inhabited

namespace Moment

/-! ## Digits -/

/-- The number that decimal digits give. -/
def number (digits : List Char) : Nat :=
  digits.foldl (fun s d => 10 * s + (d.toNat - '0'.toNat)) 0

/-- The digits at the head of some characters, from `low` to `high` many, and what follows. -/
def digits? (low high : Nat) (cs : List Char) : Option (List Char × List Char) :=
  let taken := (cs.take high).takeWhile Char.isDigit
  if low ≤ taken.length then some (taken, cs.drop taken.length) else none

/-- What follows a mark. -/
def behind? (mark : Char) : List Char → Option (List Char)
  | c :: rest => if c == mark then some rest else none
  | [] => none

/-- A number with at least so many digits. -/
def padded (places n : Nat) : String :=
  let digits := toString n
  String.ofList (List.replicate (places - digits.length) '0') ++ digits

/-! ## Limits -/

/-- The number of days of a month. -/
def daysOf (year month : Nat) : Nat :=
  if month = 2 then
    if year % 4 = 0 ∧ (year % 100 ≠ 0 ∨ year % 400 = 0) then 29 else 28
  else if month = 4 ∨ month = 6 ∨ month = 9 ∨ month = 11 then 30
  else 31

/-- A number within limits. -/
def within (part : String) (low high n : Nat) : Except Fault Unit :=
  if low ≤ n ∧ n ≤ high then .ok () else .error (.argument (.notWithin part low high))

/-- Admits a day. -/
def admitDay (year month day : Nat) : Except Fault Unit := do
  if year = 0 then .error (.argument (.year year))
  within "month" 1 12 month
  if day = 0 ∨ daysOf year month < day then .error (.argument .dayOfMonth)

/-- A span of whole minutes in a message: days, perhaps negative, and seconds of a day. -/
def spanText (minutes : Int) : String :=
  let days := Int.fdiv minutes 1440
  let seconds := Int.fmod minutes 1440 * 60
  let parts :=
    (if days = 0 then [] else [s!"days={days}"]) ++
      (if seconds = 0 then [] else [s!"seconds={seconds}"])
  "datetime.timedelta(" ++ String.intercalate ", " parts ++ ")"

/-- Admits a time of day. The distance from universal time, which is less than a day, comes
first. -/
def admitZone (c : Clock) : Except Fault Unit :=
  match c.zone with
  | some z =>
    if z.natAbs < 1440 then .ok () else .error (.argument (.zoneTooFar (spanText z)))
  | none => .ok ()

/-- Admits the parts of a time of day. -/
def admitClock (c : Clock) : Except Fault Unit := do
  within "hour" 0 23 c.hour
  within "minute" 0 59 c.minute
  within "second" 0 59 c.second

/-- A day or a point in time, if it is within its limits. -/
def checked (m : Moment) : Except Fault Moment := do
  match m.clock with
  | none => admitDay m.year m.month m.day
  | some c => do
    admitZone c
    admitDay m.year m.month m.day
    admitClock c
  return m

/-! ## Reading -/

/-- Whether a character may stand between words on a line. -/
def isSpace (c : Char) : Bool := c == ' ' || c == '\t'

/-- What follows the mark between a day and its time. -/
def behindDay? : List Char → Option (List Char)
  | [] => none
  | c :: rest =>
    if c == 'T' || c == 't' then some rest
    else if isSpace c then some (rest.dropWhile isSpace)
    else none

/-- The millionths of a second that the digits behind a point give, and what follows. -/
def splitMicro : List Char → Nat × List Char
  | '.' :: rest =>
    let places := (rest.takeWhile Char.isDigit).take 6
    (number (places ++ List.replicate (6 - places.length) '0'), rest.dropWhile Char.isDigit)
  | cs => (0, cs)

/-- The distance from universal time that some characters give; nothing gives none. -/
def zone? (cs : List Char) : Option (Option Int) :=
  match cs.dropWhile isSpace with
  | [] => if cs.isEmpty then some none else none
  | ['Z'] => some (some 0)
  | sign :: rest =>
    if sign == '+' || sign == '-' then do
      let (hours, more) ← digits? 1 2 rest
      let minutes ←
        match more with
        | [] => some []
        | ':' :: ds => if ds.length == 2 && ds.all Char.isDigit then some ds else none
        | _ => none
      let distance : Int := 60 * number hours + number minutes
      return some (if sign == '-' then -distance else distance)
    else none

/-- The time of day that some characters give. -/
def clock? (cs : List Char) : Option Clock := do
  let (hour, cs) ← digits? 1 2 cs
  let (minute, cs) ← digits? 2 2 (← behind? ':' cs)
  let (second, cs) ← digits? 2 2 (← behind? ':' cs)
  let (micro, cs) := splitMicro cs
  return ⟨number hour, number minute, number second, micro, ← zone? cs⟩

/-- A year, a month and a day with as few digits as the last two may have, and what follows. -/
def day? (least : Nat) (cs : List Char) : Option (Moment × List Char) := do
  let (year, cs) ← digits? 4 4 cs
  let (month, cs) ← digits? least 2 (← behind? '-' cs)
  let (day, cs) ← digits? least 2 (← behind? '-' cs)
  return (⟨number year, number month, number day, none⟩, cs)

/-- The day or the point in time that some characters give. The month and the day of a day by itself
have at least so many digits. -/
def read? (least : Nat) (cs : List Char) : Option (Except Fault Moment) :=
  match day? least cs with
  | some (m, []) => some m.checked
  | _ => do
    let (m, rest) ← day? 1 cs
    let clock ← clock? (← behindDay? rest)
    return checked { m with clock := some clock }

/-! ## Writing -/

/-- The day as it is written. -/
def dayText (m : Moment) : String :=
  padded 4 m.year ++ "-" ++ padded 2 m.month ++ "-" ++ padded 2 m.day

/-- A time of day as it is written. -/
def clockText (c : Clock) : String :=
  padded 2 c.hour ++ ":" ++ padded 2 c.minute ++ ":" ++ padded 2 c.second ++
    (if c.micro = 0 then "" else "." ++ padded 6 c.micro) ++
    match c.zone with
    | none => ""
    | some z =>
      (if z < 0 then "-" else "+") ++ padded 2 (z.natAbs / 60) ++ ":" ++ padded 2 (z.natAbs % 60)

/-- A day or a point in time as it is written. -/
def text (m : Moment) : String :=
  m.dayText ++ m.clock.elim "" fun c => " " ++ clockText c

/-- The distance from universal time inside a message. -/
def zoneShown (z : Int) : String :=
  "tzinfo=datetime.timezone" ++
    if z = 0 then ".utc" else "(" ++ spanText z ++ ")"

/-- The parts of a time of day inside a message; seconds are left out where they are 0. -/
def clockShown (c : Clock) : List String :=
  [toString c.hour, toString c.minute] ++
    (if c.second = 0 ∧ c.micro = 0 then [] else [toString c.second]) ++
    (if c.micro = 0 then [] else [toString c.micro]) ++
    (c.zone.map zoneShown).toList

/-- A day or a point in time inside a message. -/
def shown (m : Moment) : String :=
  let day := [m.year, m.month, m.day].map toString
  match m.clock with
  | none => "datetime.date(" ++ String.intercalate ", " day ++ ")"
  | some c => "datetime.datetime(" ++ String.intercalate ", " (day ++ clockShown c) ++ ")"

/-! ## Order -/

/-- How many days come before a day since the first one there is. -/
def dayNumber (m : Moment) : Nat :=
  let years := m.year - 1
  let months := (List.range (m.month - 1)).foldl (fun s k => s + daysOf m.year (k + 1)) 0
  365 * years + years / 4 - years / 100 + years / 400 + months + (m.day - 1)

/-- The millionths of a second since the first day began, in universal time if the distance from it
is told. -/
def instant (m : Moment) : Int :=
  match m.clock with
  | none => m.dayNumber * 86400000000
  | some c =>
    let minutes : Int := (m.dayNumber * 24 + c.hour : Nat) * 60 + c.minute - c.zone.getD 0
    (minutes * 60 + c.second) * 1000000 + c.micro

/-- Whether there is an order between two. -/
def comparable (m k : Moment) : Bool :=
  match m.clock, k.clock with
  | none, none => true
  | some c, some d => c.zone.isSome == d.zone.isSome
  | _, _ => false

/-- Whether two are equal. -/
def same (m k : Moment) : Bool := m.comparable k && m.instant == k.instant

/-- Whether one comes before another. -/
def before (m k : Moment) : Bool := m.comparable k && m.instant < k.instant

end Moment
end PadicLift
