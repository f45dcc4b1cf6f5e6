/-!
Text from bytes. Well-formed UTF-8 decodes as usual; every byte that begins no well-formed
sequence stands for one replacement character.
-/
namespace ScalarScript.Text

def replacement : Char := Char.ofNat 0xFFFD

def continues (b : UInt8) : Bool := 0x80 ≤ b && b ≤ 0xBF

-- The payload of a continuation byte.
def tail6 (b : UInt8) : Nat := b.toNat % 64

-- The character at the head of the bytes and the number of bytes it takes, if there is one.
def headChar? : List UInt8 → Option (Char × Nat)
  | [] => none
  | a :: rest =>
    if a < 0x80 then some (Char.ofNat a.toNat, 1)
    else if 0xC2 ≤ a && a ≤ 0xDF then
      match rest with
      | b :: _ => if continues b then some (Char.ofNat (a.toNat % 32 * 64 + tail6 b), 2) else none
      | _ => none
    else if 0xE0 ≤ a && a ≤ 0xEF then
      match rest with
      | b :: c :: _ =>
        let low := if a == 0xE0 then 0xA0 else 0x80
        let high := if a == 0xED then 0x9F else 0xBF
        if low ≤ b && b ≤ high && continues c then
          some (Char.ofNat ((a.toNat % 16 * 64 + tail6 b) * 64 + tail6 c), 3)
        else none
      | _ => none
    else if 0xF0 ≤ a && a ≤ 0xF4 then
      match rest with
      | b :: c :: d :: _ =>
        let low := if a == 0xF0 then 0x90 else 0x80
        let high := if a == 0xF4 then 0x8F else 0xBF
        if low ≤ b && b ≤ high && continues c && continues d then
          some (Char.ofNat (((a.toNat % 8 * 64 + tail6 b) * 64 + tail6 c) * 64 + tail6 d), 4)
        else none
      | _ => none
    else none

-- `skip` bytes belong to the character already decoded.
def decodeFrom : Nat → List UInt8 → List Char
  | _, [] => []
  | skip + 1, _ :: rest => decodeFrom skip rest
  | 0, a :: rest =>
    match headChar? (a :: rest) with
    | some (c, n) => c :: decodeFrom (n - 1) rest
    | none => replacement :: decodeFrom 0 rest

-- The first byte of a character, seen as a character itself.
def leadByte (c : Char) : Char :=
  Char.ofNat ((String.singleton c).toUTF8.toList.headD 0).toNat

def decodeUtf8 (bytes : List UInt8) : String := String.ofList (decodeFrom 0 bytes)

end ScalarScript.Text
