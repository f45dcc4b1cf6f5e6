/-!
Bytes written as letters: four characters stand for three bytes, and equals signs fill up the last
four.
-/
namespace ScalarScript.Text

-- The six bits that a character stands for.
def sixBits? (c : Char) : Option Nat :=
  if c.isUpper then some (c.toNat - 65)
  else if c.isLower then some (c.toNat - 71)
  else if c.isDigit then some (c.toNat + 4)
  else if c = '+' then some 62
  else if c = '/' then some 63
  else none

-- The high bits of a word of 24 bits, as that many bytes.
def bytesOf (count word : Nat) : List UInt8 :=
  [word / 65536, word / 256, word].take count |>.map Nat.toUInt8

def wordOf? (cs : List Char) : Option Nat :=
  cs.foldlM (fun word c => (sixBits? c).map (word * 64 + ·)) 0

def decodeGroups : List Char → Option (List UInt8)
  | [] => some []
  | [a, b, '=', '='] => (wordOf? [a, b]).map fun word => bytesOf 1 (word * 4096)
  | [a, b, c, '='] => (wordOf? [a, b, c]).map fun word => bytesOf 2 (word * 64)
  | a :: b :: c :: d :: rest => do
    let word ← wordOf? [a, b, c, d]
    return bytesOf 3 word ++ (← decodeGroups rest)
  | _ => none

-- The bytes that a text stands for. Line breaks may stand anywhere.
def decodeBase64? (s : String) : Option (List UInt8) :=
  decodeGroups (s.toList.filter fun c => c ≠ '\n' && c ≠ '\r')

end ScalarScript.Text
