import ScalarScript.Number.Shortest
import ScalarScript.Text.Quoted
import ScalarScript.Text.Sorted
/-!
Data: what a document of settings holds, whatever format it is written in.
-/
namespace ScalarScript

inductive Datum where
  | null
  | bool (b : Bool)
  | integer (n : Int)
  | float (x : Float)
  | text (s : String)
  -- a date or a time, as it is shown
  | moment (shown : String)
  | list (items : List Datum)
  -- a table that is not `plain` may have keys that are no texts
  | table (plain : Bool) (entries : List (Datum × Datum))
  deriving Inhabited

namespace Datum

def isCompound : Datum → Bool
  | list _ | table .. => true
  | _ => false

-- Whether two scalars are the same.
def same : Datum → Datum → Bool
  | null, null => true
  | bool a, bool b => a == b
  | integer m, integer n => m == n
  | float x, float y => x == y
  | text s, text t => s == t
  | moment s, moment t => s == t
  | _, _ => false

-- Puts a value under a key, in place of the value it has.
def put (entries : List (Datum × Datum)) (key value : Datum) : List (Datum × Datum) :=
  if entries.any (·.1.same key) then
    entries.map fun (k, v) => if k.same key then (k, value) else (k, v)
  else entries ++ [(key, value)]

-- The entries under texts.
def fields (entries : List (Datum × Datum)) : List (String × Datum) :=
  entries.filterMap fun
    | (text key, value) => some (key, value)
    | _ => none

-- Whether a key is shown before another.
def before : Datum → Datum → Bool
  | text s, text t => !(t < s)
  | integer m, integer n => m ≤ n
  | float x, float y => x ≤ y
  | _, _ => true

-- A number with an exponent where it is very small or has more than six digits before the point.
def shownFloat (x : Float) : String :=
  if x.isNaN then "NaN" else if x.isInf then (if x < 0 then "-Inf" else "+Inf")
  else
    let d := Number.shortest x
    let e := d.exponent + ((Number.natDigits d.digits).length - 1 : Nat)
    if x != 0 && (e < -4 || 6 ≤ e) then Number.signed x (d.scientific 2)
    else Number.signed x d.positional

mutual

-- A datum with its kind, as it is shown where it must not stand.
def described : Datum → String
  | null => "interface \x7b\x7d(nil)"
  | bool b => if b then "true" else "false"
  | integer n => toString n
  | float x => shownFloat x
  | text s => Text.quote s
  | moment s => s
  | list items => "[]interface \x7b\x7d\x7b" ++ ", ".intercalate (describedItems items) ++ "\x7d"
  | table plain entries =>
    let kind := if plain then "string" else "interface \x7b\x7d"
    let members := (describedEntries entries).mergeSort fun a b => a.1.before b.1
    "map[" ++ kind ++ "]interface \x7b\x7d\x7b" ++ ", ".intercalate (members.map (·.2)) ++ "\x7d"

def describedItems : List Datum → List String
  | [] => []
  | item :: items => described item :: describedItems items

def describedEntries : List (Datum × Datum) → List (Datum × String)
  | [] => []
  | (key, value) :: entries =>
    (key, described key ++ ":" ++ described value) :: describedEntries entries

end

end Datum

end ScalarScript
