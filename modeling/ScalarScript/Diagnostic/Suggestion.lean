import ScalarScript.Text.LowerCase
/-!
Suggestions for misspelled names: the names in scope with the least edit distance.
-/
namespace ScalarScript

structure Suggestion where
  name : String
  distance : Nat
  deriving DecidableEq, Repr

namespace Suggestion

-- One entry per remaining character of `word`: the least of leaving out, inserting and replacing.
-- `diagonal` and `left` are the entries before the head of `above`, one row up and in this row.
def rowTail (c : Char) : List Char → Nat → Nat → List Nat → List Nat
  | x :: word, diagonal, left, up :: above =>
    let entry := min (min (up + 1) (left + 1)) (diagonal + if x = c then 0 else 1)
    entry :: rowTail c word up entry above
  | _, _, _, _ => []

-- The distances from the prefixes of `word` to a text, after the text grew by `c`.
def nextRow (word : List Char) (row : List Nat) (c : Char) : List Nat :=
  match row with
  | [] => []
  | first :: above => (first + 1) :: rowTail c word first (first + 1) above

-- The least number of characters to insert, leave out or replace. The rows run along the shorter
-- text.
def editDistance (a b : List Char) : Nat :=
  let (short, long) := if b.length < a.length then (b, a) else (a, b)
  (long.foldl (nextRow short) (List.range (short.length + 1))).getLastD 0

-- The largest distance at which a name of that many characters is still suggested.
def threshold (length : Nat) : Nat := if length ≤ 3 then 1 else if length ≤ 5 then 2 else 3

def most : Nat := 3

-- Nearest first, equal distances by name.
def before (a b : Suggestion) : Bool :=
  a.distance < b.distance || (a.distance == b.distance && !(b.name < a.name))

-- The candidate as a suggestion for a name in lower case, if it is near enough and no mere
-- change of case.
def candidate? (folded : String) (name : String) : Option Suggestion :=
  let lowered := Text.lower name
  if name.isEmpty || lowered = folded then none
  else
    let d := editDistance folded.toList lowered.toList
    if d ≤ threshold folded.length then some ⟨name, d⟩ else none

-- The names nearest to a name, letter case aside.
def similar (name : String) (inScope : List String) : List Suggestion :=
  if name.isEmpty then []
  else ((inScope.filterMap (candidate? (Text.lower name))).mergeSort before).take most

def hint : List Suggestion → String
  | [] => ""
  | [s] => "did you mean '" ++ s.name ++ "'?"
  | ss => "did you mean one of: " ++ ", ".intercalate (ss.map fun s => "'" ++ s.name ++ "'") ++ "?"

end Suggestion

end ScalarScript
