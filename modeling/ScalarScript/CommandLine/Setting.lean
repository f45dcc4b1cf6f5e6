import ScalarScript.Document.Datum
import ScalarScript.Number.Arithmetic
import ScalarScript.Number.Integer
import ScalarScript.Number.Shortest
import ScalarScript.Text.Cut
/-!
Values of settings. A setting is read as a switch, a number or a text, whatever it was given as.
-/
namespace ScalarScript

inductive SettingValue where
  | switch (b : Bool)
  | integer (n : Int)
  | decimal (x : Float)
  | text (s : String)
  -- a date or a time, as it is shown
  | moment (shown : String)
  -- a list or a table, which no setting can be
  | compound

namespace SettingValue

-- The value that a datum of a document gives; a null leaves the setting alone.
def ofDatum? : Datum → Option SettingValue
  | .null => none
  | .bool b => some (switch b)
  | .integer n => some (integer n)
  | .float x => some (decimal x)
  | .text s => some (text s)
  | .moment s => some (moment s)
  | .list _ | .table .. => some compound

def switchWords : List (String × Bool) :=
  ["1", "t", "T", "true", "TRUE", "True"].map (·, true) ++
  ["0", "f", "F", "false", "FALSE", "False"].map (·, false)

def parseSwitch? (s : String) : Option Bool := switchWords.lookup s

def truth : SettingValue → Bool
  | switch b => b
  | integer n => n ≠ 0
  | decimal x => x != 0
  | text s => (parseSwitch? s).getD false
  | moment _ | compound => false

-- A whole number may be written with zeros, and further points, after a point.
def withoutZeroPlaces (s : String) : String :=
  -- from the end on; `zero` tells that a zero was passed
  let rec whole? (zero : Bool) : List Char → Option (List Char)
    | '.' :: rest => if zero then some rest else whole? zero rest
    | '0' :: rest => whole? true rest
    | _ => none
  match whole? false s.toList.reverse with
  | some whole => String.ofList whole.reverse
  | none => s

-- The least whole number of 64 bits stands for all that have no place among them.
def leastWhole : Int := -Nat.pow 2 63

-- A number without its places.
def wholePart (x : Float) : Int :=
  if x.isNaN || x.isInf then leastWhole
  else
    let size := Number.wholeNat (Number.truncate x).abs
    let n := if Number.isNegative x then -(size : Int) else size
    if leastWhole ≤ n && n < Nat.pow 2 63 then n else leastWhole

-- What is no number counts as zero. A number of 64 bits without a sign wraps around.
def number : SettingValue → Int
  | switch b => if b then 1 else 0
  | integer n => n.bmod (Nat.pow 2 64)
  | decimal x => wholePart x
  | text s => (Number.parseInteger (withoutZeroPlaces s)).toOption.getD 0
  | moment _ | compound => 0

def shown : SettingValue → String
  | switch b => if b then "true" else "false"
  | integer n => toString n
  | decimal x =>
    if x.isNaN then "NaN" else if x.isInf then (if x < 0 then "-Inf" else "+Inf")
    else Number.format x
  | text s | moment s => s
  | compound => ""

end SettingValue

end ScalarScript
