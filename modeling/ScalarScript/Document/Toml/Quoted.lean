import ScalarScript.Number.Numeral
import ScalarScript.Text.Cut
import ScalarScript.Text.Quoted
import ScalarScript.Text.Utf8
/-!
Texts between quotes in a TOML document. Between double quotes a backslash begins an escape; three
quotes allow line breaks.
-/
namespace ScalarScript.Toml

structure Fault where
  message : String
  deriving DecidableEq, Repr

def Fault.text (f : Fault) : String := "toml: " ++ f.message

def refuse {α : Type} (message : String) : Except Fault α := .error ⟨message⟩

def isBlank (c : Char) : Bool := c == ' ' || c == '\t'

def isBreak (c : Char) : Bool := c == '\n' || c == '\r'

-- Characters that may not stand in a document.
def isForbidden (c : Char) : Bool :=
  (c < ' ' && c ≠ '\t' && !isBreak c) || c == '\x7f'

namespace Quoted

-- A text between single quotes, the first of which was passed.
def literal (read : List Char) : List Char → Except Fault (String × List Char)
  | [] => refuse "unterminated literal string"
  | c :: rest =>
    if c = '\'' then .ok (String.ofList read.reverse, rest)
    else if isBreak c then refuse "literal strings cannot have new lines"
    else if isForbidden c then refuse "invalid character"
    else literal (c :: read) rest

-- The characters up to a double quote, escapes as they stand.
def basicToken (read : List Char) : List Char → Except Fault (List Char × List Char)
  | [] => refuse "basic string not terminated by \""
  | c :: rest =>
    if c = '"' then .ok (read.reverse, rest)
    else if isBreak c then refuse "basic strings cannot have new lines"
    else if c = '\\' then
      match rest with
      | [] => refuse "need a character after \\"
      | escaped :: rest => basicToken (escaped :: c :: read) rest
    else basicToken (c :: read) rest

-- Behind three quotes: up to two more of them belong to the text.
def closing (quote : Char) (kind : String) (read rest : List Char) :
    Except Fault (List Char × List Char) :=
  let extra := (rest.takeWhile (· = quote)).length
  if 2 < extra then
    refuse s!"{String.ofList [quote, quote, quote]} not allowed in multiline {kind} string"
  else .ok (read.reverse ++ List.replicate extra quote, rest.drop extra)

-- The characters up to three quotes. Only between double quotes a backslash protects a quote.
def longToken (quote : Char) (kind : String) (read : List Char) :
    List Char → Except Fault (List Char × List Char)
  | [] =>
    refuse s!"multiline {kind} string not terminated by {String.ofList [quote, quote, quote]}"
  | c :: rest =>
    if c = quote && [quote, quote].isPrefixOf rest then closing quote kind read (rest.drop 2)
    else if c = '\\' && quote = '"' then
      match rest with
      | [] => refuse "need a character after \\"
      | escaped :: rest => longToken quote kind (escaped :: c :: read) rest
    else if c = '\r' then
      match rest with
      | '\n' :: rest => longToken quote kind ('\n' :: c :: read) rest
      | _ => refuse "need a \\n after \\r"
    else if quote = '\'' && isForbidden c then refuse "invalid character"
    else longToken quote kind (c :: read) rest

-- A line break right behind the opening quotes does not count.
def withoutFirstBreak : List Char → List Char
  | '\n' :: rest => rest
  | '\r' :: '\n' :: rest => rest
  | cs => cs

def hexDigits (read : Nat) : Nat → List Char → Except Fault Nat
  | 0, _ => .ok read
  | count + 1, c :: rest =>
    match Number.digitValue? true c with
    | some d => hexDigits (read * 16 + d) count rest
    | none => refuse "non-hex character"
  | _ + 1, [] => .ok read

-- The character of that many hexadecimal digits.
def hexChar (width : Nat) (cs : List Char) : Except Fault Char := do
  let available := (String.ofList cs).utf8ByteSize
  if available < width then
    refuse s!"unicode point needs {width} character, not {available}"
  let n ← hexDigits 0 width cs
  if n.isValidChar then return Char.ofNat n
  refuse "escape sequence is invalid Unicode code point"

def named (c : Char) : Option Char :=
  [('"', '"'), ('\\', '\\'), ('b', '\x08'), ('f', '\x0c'), ('n', '\n'), ('r', '\r'), ('t', '\t'),
    ('e', '\x1b')].lookup c

-- Whether only white space follows on the line.
def endsLine (cs : List Char) : Bool :=
  match cs.dropWhile isBlank with
  | '\n' :: _ | '\r' :: '\n' :: _ => true
  | _ => false

-- The text that some characters stand for. `long` tells that three quotes are around them, and a
-- backslash at the end of a line then takes away the white space up to the next word.
def unescape (long : Bool) (read : List Char) : Nat → List Char → Except Fault (List Char)
  | 0, _ => .ok read.reverse
  | steps + 1, cs => do
    match cs with
    | [] => return read.reverse
    | '\\' :: rest =>
      if long && endsLine rest then
        unescape long read steps (rest.dropWhile fun c => isBlank c || isBreak c)
      else
        match rest with
        | [] => return read.reverse
        | c :: rest =>
          match named c with
          | some c => unescape long (c :: read) steps rest
          | none =>
            if c = 'u' || c = 'U' then
              let width := if c = 'u' then 4 else 8
              let ahead := if long then (rest ++ ['"', '"', '"']).take width else rest
              unescape long ((← hexChar width ahead) :: read) steps (rest.drop width)
            else refuse s!"invalid escaped character {Text.codePoint (Text.leadByte c)}"
    | c :: rest =>
      if isForbidden c then refuse s!"invalid character {Text.codePoint c}"
      unescape long (c :: read) steps rest

-- The text of a token between double quotes.
def decoded (long : Bool) (token : List Char) : Except Fault String := do
  let body := if long then withoutFirstBreak token else token
  if !token.contains '\\' then
    if body.any isForbidden then refuse "invalid UTF-8"
    return String.ofList body
  return String.ofList (← unescape long [] (body.length + 1) body)

-- A text between double quotes, the first of which was passed.
def basic (cs : List Char) : Except Fault (String × List Char) := do
  let (token, rest) ← basicToken [] cs
  return (← decoded false token, rest)

-- A text between quotes, the first of which is next.
def read (quote : Char) (cs : List Char) : Except Fault (String × List Char) := do
  let cs := cs.drop 1
  if [quote, quote].isPrefixOf cs then
    let kind := if quote = '"' then "basic" else "literal"
    let (token, rest) ← longToken quote kind [] (cs.drop 2)
    if quote = '"' then return (← decoded true token, rest)
    return (String.ofList (withoutFirstBreak token), rest)
  else if quote = '"' then basic cs
  else literal [] cs

end Quoted

end ScalarScript.Toml
