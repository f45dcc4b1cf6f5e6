import ScalarScript.Text.Printable
/-!
Quoted text: a text between quotes on one line, every character that would not show written as an
escape.
-/
namespace ScalarScript.Text

-- `width` hexadecimal digits, the high ones zero where the number is small.
def hex (width n : Nat) : List Char :=
  let digits := Nat.toDigits 16 n
  List.replicate (width - digits.length) '0' ++ digits

-- One character of a text quoted by `quote`.
def escape (quote c : Char) : List Char :=
  if c = quote || c = '\\' then ['\\', c]
  else if isPrintable c then [c]
  else match c.toNat with
    | 7 => ['\\', 'a']
    | 8 => ['\\', 'b']
    | 9 => ['\\', 't']
    | 10 => ['\\', 'n']
    | 11 => ['\\', 'v']
    | 12 => ['\\', 'f']
    | 13 => ['\\', 'r']
    | n =>
      if n < 128 then '\\' :: 'x' :: hex 2 n
      else if n < 0x10000 then '\\' :: 'u' :: hex 4 n
      else '\\' :: 'U' :: hex 8 n

def quoteWith (quote : Char) (cs : List Char) : String :=
  String.ofList (quote :: cs.flatMap (escape quote) ++ [quote])

-- A text between double quotes.
def quote (s : String) : String := quoteWith '"' s.toList

-- A character between single quotes.
def quoteChar (c : Char) : String := quoteWith '\'' [c]

-- The number of a character, and the character itself where it can be shown.
def codePoint (c : Char) : String :=
  let number := "U+" ++ String.ofList ((hex 4 c.toNat).map Char.toUpper)
  if isPrintable c then s!"{number} '{c}'" else number

end ScalarScript.Text
