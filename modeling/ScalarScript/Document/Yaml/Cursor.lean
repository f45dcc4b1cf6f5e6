import ScalarScript.Text.Cut
/-!
Cursors in a YAML text, what can be wrong at a place of it, and the tokens that it consists of.
-/
namespace ScalarScript.Yaml

-- A place in a text. Everything counts from zero.
structure Mark where
  index : Nat := 0
  line : Nat := 0
  column : Nat := 0
  deriving DecidableEq, Repr, Inhabited

inductive Fault where
  -- among the characters
  | scanning (context problem : Mark) (message : String)
  -- among the tokens
  | parsing (context problem : Mark) (message : String)
  | other (message : String)
  deriving DecidableEq, Repr

namespace Fault

-- The line to name: that of the context, or else that of the problem. The first line is not named.
def line (context problem : Mark) (offset : Nat) : String :=
  let n := if context.line ≠ 0 then context.line else problem.line
  if n = 0 then "" else s!"line {n + offset}: "

-- Lines count from one among the characters and from zero among the tokens.
def text : Fault → String
  | scanning context problem message => line context problem 1 ++ message
  | parsing context problem message => line context problem 0 ++ message
  | other message => message

end Fault

def isBlank (c : Char) : Bool := c == ' ' || c == '\t'

-- The two line breaks that a scalar keeps as they are.
def isKeptBreak (c : Char) : Bool := c.toNat == 0x2028 || c.toNat == 0x2029

def isBreak (c : Char) : Bool := c == '\n' || c == '\r' || c.toNat == 0x85 || isKeptBreak c

-- The characters of names.
def isWordChar (c : Char) : Bool := c.isAlphanum || c == '_' || c == '-'

def byteOrderMark : Char := Char.ofNat 0xFEFF

-- Characters that may stand in a text at all.
def isAllowed (c : Char) : Bool :=
  c == '\t' || c == '\n' || c == '\r' || (' ' ≤ c && c ≤ '~') || c.toNat == 0x85 ||
    (0xA0 ≤ c.toNat && c.toNat ≤ 0xFFFD) || 0x10000 ≤ c.toNat

structure Cursor where
  rest : List Char
  mark : Mark := {}
  -- whether a line break was passed and nothing but blanks since
  afterBreak : Bool := false
  deriving Repr

namespace Cursor

def atEnd (c : Cursor) : Bool := c.rest.isEmpty

def atChar (c : Cursor) (x : Char) : Bool := c.rest.head? == some x

def atBlank (c : Cursor) : Bool := c.rest.head?.any isBlank

def atBreak (c : Cursor) : Bool := c.rest.head?.any isBreak

def atWhite (c : Cursor) : Bool := c.atBlank || c.atBreak

-- Whether a word ends before these characters.
def wordEnds (rest : List Char) : Bool := rest.head?.all fun c => isBlank c || isBreak c

-- Passes over that many characters of the line.
def skip (c : Cursor) (count : Nat) : Cursor where
  rest := c.rest.drop count
  mark := { c.mark with index := c.mark.index + count, column := c.mark.column + count }
  afterBreak := c.afterBreak && (c.rest.take count).all isBlank

def skipBlanks (c : Cursor) : Cursor := c.skip (c.rest.takeWhile isBlank).length

def skipLine (c : Cursor) : Cursor := c.skip (c.rest.takeWhile (!isBreak ·)).length

-- The characters up to one that fails the test, and the cursor there.
def takeWhile (c : Cursor) (test : Char → Bool) : List Char × Cursor :=
  let taken := c.rest.takeWhile test
  (taken, c.skip taken.length)

-- The line break at the cursor, as it counts in a scalar, and the cursor behind it.
def takeBreak (c : Cursor) : List Char × Cursor :=
  let behind (rest : List Char) (width : Nat) : Cursor :=
    { rest, mark := ⟨c.mark.index + width, c.mark.line + 1, 0⟩, afterBreak := true }
  match c.rest with
  | '\r' :: '\n' :: rest => (['\n'], behind rest 2)
  | b :: rest =>
    if isKeptBreak b then ([b], behind rest 1)
    else if isBreak b then (['\n'], behind rest 1)
    else ([], c)
  | [] => ([], c)

-- Whether a line begins with three such characters alone.
def atTriple (c : Cursor) (x : Char) : Bool :=
  match c.rest with
  | a :: b :: d :: rest =>
    c.mark.column == 0 && a == x && b == x && d == x && wordEnds rest
  | _ => false

-- Whether a document ends here.
def atDocument (c : Cursor) : Bool := c.atTriple '-' || c.atTriple '.'

end Cursor

-- Some tokens are written down, and some stand for indentation.
inductive TokenKind where
  | streamStart
  | streamEnd
  | version (major minor : Nat)
  | tagDirective (handle expansion : String)
  | documentStart
  | documentEnd
  | blockSequenceStart
  | blockMappingStart
  | blockEnd
  | flowSequenceStart
  | flowSequenceEnd
  | flowMappingStart
  | flowMappingEnd
  | blockEntry
  | flowEntry
  | key
  | value
  | reference (name : String)
  | anchor (name : String)
  | tag (handle suffix : String)
  | scalar (text : String) (plain : Bool)
  deriving DecidableEq, Repr, Inhabited

structure Token where
  kind : TokenKind
  start : Mark
  stop : Mark
  deriving DecidableEq, Repr, Inhabited

end ScalarScript.Yaml
