import ScalarScript.Text.Cut
/-!
Moments: dates and times of day, and how they are shown.
-/
namespace ScalarScript

structure Date where
  year : Nat
  month : Nat
  day : Nat
  deriving DecidableEq, Repr

structure Clock where
  hour : Nat := 0
  minute : Nat := 0
  second : Nat := 0
  nanosecond : Nat := 0
  deriving DecidableEq, Repr

-- A date with a time of day, so many minutes ahead of the universal time.
structure Moment where
  date : Date
  clock : Clock := {}
  ahead : Int := 0
  deriving DecidableEq, Repr

-- A number of at least so many digits.
def paddedDigits (width n : Nat) : List Char :=
  let digits := Nat.toDigits 10 n
  List.replicate (width - digits.length) '0' ++ digits

def padded (width n : Nat) : String := String.ofList (paddedDigits width n)

namespace Date

def isLeap (year : Nat) : Bool := year % 4 = 0 && (year % 100 ≠ 0 || year % 400 = 0)

def daysIn (year month : Nat) : Nat :=
  if month = 2 then (if isLeap year then 29 else 28)
  else if [4, 6, 9, 11].contains month then 30
  else 31

def isValid (d : Date) : Bool :=
  1 ≤ d.month && d.month ≤ 12 && 1 ≤ d.day && d.day ≤ daysIn d.year d.month

def shown (d : Date) : String := s!"{padded 4 d.year}-{padded 2 d.month}-{padded 2 d.day}"

end Date

namespace Clock

def isValid (c : Clock) : Bool := c.hour < 24 && c.minute < 60 && c.second < 60

-- Nanoseconds as so many digits behind a point.
def places (count nanosecond : Nat) : String :=
  if count = 0 then "" else "." ++ String.ofList ((paddedDigits 9 nanosecond).take count)

-- With as many places behind the point as that number says.
def shownTo (count : Nat) (c : Clock) : String :=
  s!"{padded 2 c.hour}:{padded 2 c.minute}:{padded 2 c.second}" ++ places count c.nanosecond

-- How many places are needed, zeros at the end left out.
def precision (c : Clock) : Nat :=
  ((paddedDigits 9 c.nanosecond).reverse.dropWhile (· = '0')).length

def shown (c : Clock) : String := c.shownTo c.precision

-- The nanoseconds that the digits behind a point stand for. After nine of them the others do not
-- count.
def nanoseconds (digits : List Char) : Nat :=
  ((digits ++ List.replicate 9 '0').take 9).foldl (fun n d => n * 10 + (d.toNat - 48)) 0

end Clock

namespace Moment

-- The distance to the universal time.
def zone (ahead : Int) : String :=
  (if ahead < 0 then "-" else "+") ++ padded 2 (ahead.natAbs / 60) ++ padded 2 (ahead.natAbs % 60)

def shown (m : Moment) : String :=
  let name := if m.ahead = 0 then "UTC" else zone m.ahead
  s!"{m.date.shown} {m.clock.shown} {zone m.ahead} {name}"

end Moment

end ScalarScript
