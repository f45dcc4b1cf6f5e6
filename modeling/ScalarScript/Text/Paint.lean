/-!
Colored text for terminals.
-/
namespace ScalarScript.Text

-- Attributes of colored text, by their numbers in escape sequences.
abbrev Style := List Nat

namespace Style

def bold : Style := [1]
def faint : Style := [2]
def red : Style := [31]
def green : Style := [32]
def yellow : Style := [33]
def cyan : Style := [36]
def white : Style := [37]
def gray : Style := [90]
def brightRed : Style := [91, 1]
def brightYellow : Style := [93]
def brightBlue : Style := [94]

-- The attribute that undoes one: bold and faint have one of their own.
def undo (number : Nat) : Nat := if number = 1 || number = 2 then 22 else 0

def sequence (style : Style) : String :=
  "\x1b[" ++ ";".intercalate (style.map toString) ++ "m"

end Style

-- The text in a style, or as it is where colors are off.
def paint (color : Bool) (style : Style) (s : String) : String :=
  if color then style.sequence ++ s ++ Style.sequence (style.map Style.undo) else s

end ScalarScript.Text
