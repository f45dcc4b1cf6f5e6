import ScalarScript.Text.Quoted
import ScalarScript.Value.Ty
/-!
Tokens: the words of a script. A line mark follows the tokens of every line and carries its text.
-/
namespace ScalarScript

inductive Kind where
  | and | assign | star | bang | caret | colon | comma | equal | greater | greaterEqual
  | leftBrace | leftParen | less | lessEqual | minus | percent | notEqual | or | plus | question
  | rightBrace | rightParen | semicolon | slash
  | identifier | number | string
  -- the end of a line, and of the whole text
  | lineMark | finish
  | typeBool | typeDouble | typeString
  | kwIf | kwElse | kwWhile | kwFor | kwLoop | kwBreak | kwReturn | kwExit
  | kwTrue | kwFalse | kwNull
  deriving DecidableEq, Repr

namespace Kind

def name : Kind → String
  | and => "&&"
  | assign => "="
  | star => "*"
  | bang => "!"
  | caret => "^"
  | colon => ":"
  | comma => ","
  | equal => "=="
  | greater => ">"
  | greaterEqual => ">="
  | leftBrace => "\x7b"
  | leftParen => "("
  | less => "<"
  | lessEqual => "<="
  | minus => "-"
  | percent => "%"
  | notEqual => "!="
  | or => "||"
  | plus => "+"
  | question => "?"
  | rightBrace => "\x7d"
  | rightParen => ")"
  | semicolon => ";"
  | slash => "/"
  | identifier => "IDENT"
  | number => "NUMBER"
  | string => "STRING"
  | lineMark => "EOL"
  | finish => "EOF"
  | typeBool => "BOOL"
  | typeDouble => "DOUBLE"
  | typeString => "STRING_TYPE"
  | kwIf => "IF"
  | kwElse => "ELSE"
  | kwWhile => "WHILE"
  | kwFor => "FOR"
  | kwLoop => "LOOP"
  | kwBreak => "BREAK"
  | kwReturn => "RETURN"
  | kwExit => "EXIT"
  | kwTrue => "TRUE"
  | kwFalse => "FALSE"
  | kwNull => "NULL"

def keywords : List (String × Kind) :=
  [("bool", typeBool), ("double", typeDouble), ("string", typeString), ("if", kwIf),
   ("else", kwElse), ("while", kwWhile), ("for", kwFor), ("loop", kwLoop), ("break", kwBreak),
   ("return", kwReturn), ("exit", kwExit), ("true", kwTrue), ("false", kwFalse), ("null", kwNull)]

-- A word is a keyword or a name.
def ofWord (word : String) : Kind := (keywords.lookup word).getD identifier

-- The scalar type that a keyword names.
def scalar? : Kind → Option Scalar
  | typeBool => some .bool
  | typeDouble => some .double
  | typeString => some .string
  | _ => none

def isTypeName (k : Kind) : Bool := k.scalar?.isSome

end Kind

structure Token where
  kind : Kind
  literal : String
  line : Nat
  deriving DecidableEq, Repr

def Token.text (t : Token) : String := s!"{t.kind.name} {Text.quote t.literal} (line {t.line})"

end ScalarScript
