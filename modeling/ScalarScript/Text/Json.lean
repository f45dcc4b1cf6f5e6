import ScalarScript.Text.Quoted
/-!
JSON texts: strings that are safe inside a web page too, and objects over several lines.
-/
namespace ScalarScript.Text

def jsonEscape (c : Char) : List Char :=
  match c with
  | '"' | '\\' => ['\\', c]
  | '\x08' => ['\\', 'b']
  | '\x0c' => ['\\', 'f']
  | '\n' => ['\\', 'n']
  | '\r' => ['\\', 'r']
  | '\t' => ['\\', 't']
  | c =>
    if c.toNat < 32 || c = '<' || c = '>' || c = '&' || c.toNat = 0x2028 || c.toNat = 0x2029 then
      '\\' :: 'u' :: hex 4 c.toNat
    else [c]

def jsonString (s : String) : String :=
  String.ofList ('"' :: s.toList.flatMap jsonEscape ++ ['"'])

-- An object with the members given, their values written already.
def jsonObject (members : List (String × String)) : String :=
  let lines := members.map fun (key, value) => s!"  {jsonString key}: {value}"
  "\x7b\n" ++ ",\n".intercalate lines ++ "\n\x7d"

end ScalarScript.Text
