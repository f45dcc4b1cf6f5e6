import ScalarScript.Diagnostic.Failure
import ScalarScript.Text.Blank
import ScalarScript.Text.Letter
import ScalarScript.Token.Basic
/-!
From text to tokens, one token at a time. The lexer keeps the characters still to be read and those
from the start of the current line on; every reader takes the longest word that starts where it
stands.
-/
namespace ScalarScript

inductive LexFault where
  | unknownSymbol (c : Char)
  | unterminatedString
  | invalidNumber (text : String)
  | invalidEscape (c : Char)
  -- half of a doubled operator
  | incompleteOperator (c : Char)
  | unterminatedComment
  deriving DecidableEq, Repr

namespace LexFault

def code : LexFault → Code
  | unknownSymbol _ => .unknownSymbol
  | unterminatedString => .unterminatedString
  | invalidNumber _ => .invalidNumber
  | invalidEscape _ => .invalidEscape
  | incompleteOperator _ => .incompleteOperator
  | unterminatedComment => .unterminatedComment

def message : LexFault → String
  | unknownSymbol c => s!"unknown symbol {Text.quoteChar c}"
  | unterminatedString => "unterminated string literal"
  | invalidNumber text => s!"invalid number literal {Text.quote text}"
  | invalidEscape c => "invalid escape sequence \\" ++ c.toString
  | incompleteOperator c =>
    "incomplete operator '" ++ c.toString ++ "' (expected '" ++ c.toString ++ c.toString ++ "')"
  | unterminatedComment => "unterminated block comment"

end LexFault

structure Lexer where
  rest : List Char
  -- the characters from the start of the current line on
  lineRest : List Char
  line : Nat := 1
  inComment : Bool := false
  -- the mark of the last line has been given
  finished : Bool := false

namespace Lexer

def start (source : String) : Lexer := { rest := source.toList, lineRest := source.toList }

-- The current line as messages and line marks show it.
def lineText (l : Lexer) : String :=
  String.ofList (Text.trimChars (l.lineRest.takeWhile (· ≠ '\n')))

def fail (l : Lexer) (f : LexFault) : LexError where
  code := f.code
  message := f.message
  line := l.line
  sourceLine := l.lineText

-- Skips blanks and comments up to the next line break, token or end. The flag tells whether the
-- place lies inside a block comment.
def skip : Bool → List Char → Bool × List Char
  | inside, [] => (inside, [])
  | inside, '\n' :: rest => (inside, '\n' :: rest)
  | true, '*' :: '/' :: rest => skip false rest
  | true, _ :: rest => skip true rest
  | false, '/' :: '/' :: rest => (false, rest.dropWhile (· ≠ '\n'))
  | false, '/' :: '*' :: rest => skip true rest
  | false, c :: rest => if Text.isBlank c then skip false rest else (false, c :: rest)

def isNameStart (c : Char) : Bool := c == '_' || Text.isLetter c

def isNamePart (c : Char) : Bool := isNameStart c || c.isDigit

-- What a reader makes of the characters before it: a word or a fault, and the characters left.
structure Reading where
  result : Except LexFault (Kind × String)
  rest : List Char

def word (cs : List Char) : Reading :=
  let name := String.ofList (cs.takeWhile isNamePart)
  ⟨.ok (Kind.ofWord name, name), cs.dropWhile isNamePart⟩

-- Digits, and a point with the digits after it.
def decimalPart (cs : List Char) : List Char × List Char :=
  let whole := cs.takeWhile Char.isDigit
  match cs.dropWhile Char.isDigit with
  | '.' :: rest => (whole ++ '.' :: rest.takeWhile Char.isDigit, rest.dropWhile Char.isDigit)
  | rest => (whole, rest)

-- The mark and sign that open an exponent.
def exponentMark : List Char → List Char × List Char
  | e :: s :: rest =>
    if e = 'e' || e = 'E' then
      if s = '+' || s = '-' then ([e, s], rest) else ([e], s :: rest)
    else ([], e :: s :: rest)
  | [e] => if e = 'e' || e = 'E' then ([e], []) else ([], [e])
  | [] => ([], [])

-- A numeral must not run into a name, and an exponent needs digits.
def numeral (cs : List Char) : Reading :=
  let (decimal, afterDecimal) := decimalPart cs
  let (mark, afterMark) := exponentMark afterDecimal
  let digits := if mark.isEmpty then [] else afterMark.takeWhile Char.isDigit
  let rest := if mark.isEmpty then afterMark else afterMark.dropWhile Char.isDigit
  let text := decimal ++ mark ++ digits
  if !mark.isEmpty && digits.isEmpty then ⟨.error (.invalidNumber (String.ofList text)), rest⟩
  else match rest with
    | c :: _ =>
      if isNameStart c then ⟨.error (.invalidNumber (String.ofList (text ++ [c]))), rest⟩
      else ⟨.ok (.number, String.ofList text), rest⟩
    | [] => ⟨.ok (.number, String.ofList text), rest⟩

-- The character that an escape stands for.
def unescape? (c : Char) : Option Char :=
  match c with
  | 'n' => some '\n'
  | 't' => some '\t'
  | 'r' => some '\r'
  | '\\' => some '\\'
  | '"' => some '"'
  | '\'' => some '\''
  | _ => none

-- The text up to the closing quote; `text` holds what has been read, in reverse.
def stringBody (quote : Char) (text : List Char) : List Char → Reading
  | [] => ⟨.error .unterminatedString, []⟩
  | '\n' :: rest => ⟨.error .unterminatedString, '\n' :: rest⟩
  | ['\\'] => ⟨.error .unterminatedString, []⟩
  | '\\' :: c :: rest =>
    match unescape? c with
    | some d => stringBody quote (d :: text) rest
    | none => ⟨.error (.invalidEscape c), c :: rest⟩
  | c :: rest =>
    if c = quote then ⟨.ok (.string, String.ofList text.reverse), rest⟩
    else stringBody quote (c :: text) rest

def single? (c : Char) : Option Kind :=
  match c with
  | '+' => some .plus
  | '-' => some .minus
  | '*' => some .star
  | '/' => some .slash
  | '%' => some .percent
  | '^' => some .caret
  | '?' => some .question
  | ':' => some .colon
  | '(' => some .leftParen
  | ')' => some .rightParen
  | '\x7b' => some .leftBrace
  | '\x7d' => some .rightBrace
  | ',' => some .comma
  | ';' => some .semicolon
  | '=' => some .assign
  | '!' => some .bang
  | '<' => some .less
  | '>' => some .greater
  | _ => none

def double? (c d : Char) : Option Kind :=
  match c, d with
  | '=', '=' => some .equal
  | '!', '=' => some .notEqual
  | '<', '=' => some .lessEqual
  | '>', '=' => some .greaterEqual
  | '&', '&' => some .and
  | '|', '|' => some .or
  | _, _ => none

def singleOperator (c : Char) (rest : List Char) : Reading :=
  match single? c with
  | some kind => ⟨.ok (kind, c.toString), rest⟩
  | none =>
    if c = '&' || c = '|' then ⟨.error (.incompleteOperator c), c :: rest⟩
    else ⟨.error (.unknownSymbol c), c :: rest⟩

def operator (c : Char) : List Char → Reading
  | d :: rest =>
    match double? c d with
    | some kind => ⟨.ok (kind, String.ofList [c, d]), rest⟩
    | none => singleOperator c (d :: rest)
  | [] => singleOperator c []

def startsNumeral (c : Char) (rest : List Char) : Bool :=
  c.isDigit || (c == '.' && match rest with
    | d :: _ => d.isDigit
    | [] => false)

-- The word that starts with `c`.
def read (c : Char) (rest : List Char) : Reading :=
  if isNameStart c then word (c :: rest)
  else if startsNumeral c rest then numeral (c :: rest)
  else if c = '"' || c = '\'' then stringBody c [] rest
  else operator c rest

-- The next token. After a fault the lexer stands where reading stopped and can go on.
def next (l : Lexer) : Except LexError Token × Lexer :=
  match skip l.inComment l.rest with
  | (inside, '\n' :: rest) =>
    (.ok ⟨.lineMark, l.lineText, l.line⟩,
      { l with rest := rest, lineRest := rest, line := l.line + 1, inComment := inside })
  | (true, rest) =>
    (.error (l.fail .unterminatedComment), { l with rest := rest, inComment := true })
  | (false, []) =>
    if l.finished then
      (.ok ⟨.finish, "", l.line⟩, { l with rest := [], inComment := false })
    else
      (.ok ⟨.lineMark, l.lineText, l.line⟩,
        { l with rest := [], inComment := false, finished := true })
  | (false, c :: rest) =>
    let reading := read c rest
    let after := { l with rest := reading.rest, inComment := false }
    match reading.result with
    | .ok (kind, literal) => (.ok ⟨kind, literal, l.line⟩, after)
    | .error f => (.error (l.fail f), after)

-- All tokens up to the end; `tokens` holds those already read, in reverse.
def collect : Nat → Lexer → List Token → Except LexError (List Token)
  | 0, _, tokens => .ok tokens.reverse
  | steps + 1, l, tokens =>
    match l.next with
    | (.error e, _) => .error e
    | (.ok t, l) => if t.kind = .finish then .ok tokens.reverse else collect steps l (t :: tokens)

end Lexer

-- The tokens of a source text. Every token but the last line mark takes at least one character,
-- so the bound on their number is never reached.
def tokenize (source : String) : Except LexError (List Token) :=
  (Lexer.start source).collect (source.length + 2) []

end ScalarScript
