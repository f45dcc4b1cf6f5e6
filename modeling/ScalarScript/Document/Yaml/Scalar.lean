import ScalarScript.Document.Yaml.Cursor
import ScalarScript.Number.Numeral
/-!
Scalars in their three spellings: plain words, quoted texts and blocks of lines.
-/
namespace ScalarScript.Yaml

-- The white space between two words of a scalar.
structure Gap where
  broken : Bool := false
  -- the blanks, where no line break follows them
  blanks : List Char := []
  -- the first line break and the others
  first : List Char := []
  others : List Char := []

namespace Gap

-- What it counts as: a single line break is a blank, and of several the first one is dropped.
def folded (g : Gap) : List Char :=
  if !g.broken then g.blanks
  else if g.first ≠ ['\n'] then g.first ++ g.others
  else if g.others.isEmpty then [' ']
  else g.others

-- Blanks behind a line break do not count.
def addBlank (g : Gap) (c : Char) : Gap :=
  if g.broken then g else { g with blanks := g.blanks ++ [c] }

def addBreak (g : Gap) (text : List Char) : Gap :=
  if g.broken then { g with others := g.others ++ text } else { broken := true, first := text }

-- Reads on to the next word. `least` is the column from which on tabs may follow a line break.
def read (least : Nat) (start : Mark) : Nat → Gap → Cursor → Except Fault (Gap × Cursor)
  | 0, g, c => .ok (g, c)
  | steps + 1, g, c =>
    match c.rest with
    | [] => .ok (g, c)
    | x :: _ =>
      if isBlank x then
        if g.broken && x == '\t' && c.mark.column < least then
          .error (.scanning start c.mark "found a tab character that violates indentation")
        else read least start steps (g.addBlank x) (c.skip 1)
      else if isBreak x then
        let (text, behind) := c.takeBreak
        read least start steps (g.addBreak text) behind
      else .ok (g, c)

end Gap

-- A scalar that was read: its text, whether a line break followed, and the place behind it.
structure Scanned where
  text : List Char
  broken : Bool := false
  cursor : Cursor

namespace Plain

def endsInFlow (c : Char) : Bool := [',', '?', '[', ']', '\x7b', '\x7d'].contains c

-- The word at the head of the characters. A colon ends it where white space follows.
def word (flow : Bool) : List Char → List Char
  | [] => []
  | c :: rest =>
    let colon := c == ':' && Cursor.wordEnds rest
    if isBlank c || isBreak c || colon || (flow && endsInFlow c) then []
    else c :: word flow rest

-- Reads words as long as they are indented enough.
def readFrom (flow : Bool) (least : Nat) (start : Mark) :
    Nat → List Char → Gap → Cursor → Except Fault Scanned
  | 0, text, g, c => .ok ⟨text, g.broken, c⟩
  | steps + 1, text, g, c => do
    if c.atDocument || c.atChar '#' then return ⟨text, g.broken, c⟩
    let word := word flow c.rest
    let c := c.skip word.length
    let (text, g) := if word.isEmpty then (text, g) else (text ++ g.folded ++ word, {})
    if !c.atWhite then return ⟨text, g.broken, c⟩
    let (g, c) ← g.read least start c.rest.length c
    if !flow && c.mark.column < least then return ⟨text, g.broken, c⟩
    readFrom flow least start steps text g c

def read (flow : Bool) (least : Nat) (c : Cursor) : Except Fault Scanned :=
  readFrom flow least c.mark (c.rest.length + 1) [] {} c

end Plain

namespace Quotation

def named (c : Char) : Option Nat :=
  [('0', 0), ('a', 7), ('b', 8), ('t', 9), ('\t', 9), ('n', 10), ('v', 11), ('f', 12), ('r', 13),
    ('e', 27), (' ', 32), ('"', 34), ('\'', 39), ('\\', 92), ('N', 0x85), ('_', 0xA0),
    ('L', 0x2028), ('P', 0x2029)].lookup c

-- How many hexadecimal digits follow.
def digitsAfter (c : Char) : Option Nat := [('x', 2), ('u', 4), ('U', 8)].lookup c

def hexNumber? (cs : List Char) : Option Nat :=
  cs.foldlM (fun n c => (Number.digitValue? true c).map (n * 16 + ·)) 0

-- The character that an escape stands for, and the place behind it. The cursor is at the
-- backslash.
def escape (start : Mark) (c : Cursor) (mark : Char) : Except Fault (Char × Cursor) :=
  match named mark, digitsAfter mark with
  | some n, _ => .ok (Char.ofNat n, c.skip 2)
  | none, none => .error (.scanning start c.mark "found unknown escape character")
  | none, some width =>
    let c := c.skip 2
    let digits := c.rest.take width
    match if digits.length = width then hexNumber? digits else none with
    | none => .error (.scanning start c.mark "did not find expected hexdecimal number")
    | some n =>
      if n.isValidChar then .ok (Char.ofNat n, c.skip width)
      else .error (.scanning start c.mark "found invalid Unicode character escape code")

-- Reads up to white space or the closing quote. A line break behind a backslash ends it too and
-- counts for nothing.
def readWord (quote : Char) (start : Mark) : Nat → List Char → Cursor → Except Fault Scanned
  | 0, text, c => .ok ⟨text, false, c⟩
  | steps + 1, text, c =>
    match c.rest with
    | [] => .ok ⟨text, false, c⟩
    | x :: rest =>
      if isBlank x || isBreak x then .ok ⟨text, false, c⟩
      else if x == quote then
        if quote == '\'' && rest.head? == some '\'' then
          readWord quote start steps (text ++ [x]) (c.skip 2)
        else .ok ⟨text, false, c⟩
      else if quote == '"' && x == '\\' then
        if rest.head?.any isBreak then .ok ⟨text, true, (c.skip 1).takeBreak.2⟩
        else do
          let (x, c) ← escape start c (rest.headD '\x00')
          readWord quote start steps (text ++ [x]) c
      else readWord quote start steps (text ++ [x]) (c.skip 1)

def readFrom (quote : Char) (start : Mark) : Nat → List Char → Cursor → Except Fault Scanned
  | 0, text, c => .ok ⟨text, false, c⟩
  | steps + 1, text, c => do
    if c.atDocument then
      throw (.scanning start c.mark "found unexpected document indicator")
    if c.atEnd then throw (.scanning start c.mark "found unexpected end of stream")
    let word ← readWord quote start (c.rest.length + 1) [] c
    let c := word.cursor
    let text := text ++ word.text
    if c.atChar quote then return ⟨text, false, c.skip 1⟩
    let (g, c) ← Gap.read 0 start c.rest.length { broken := word.broken } c
    readFrom quote start steps (text ++ g.folded) c

def read (quote : Char) (c : Cursor) : Except Fault Scanned :=
  readFrom quote c.mark (c.rest.length + 1) [] (c.skip 1)

end Quotation

-- What becomes of the line breaks at the end of a block.
inductive Chomping where
  | strip | clip | keep
  deriving DecidableEq

structure BlockHeader where
  chomping : Chomping := .clip
  -- how much deeper the block is indented, where that is said
  increment : Option Nat := none

namespace Block

def chomping? (c : Char) : Option Chomping := [('+', .keep), ('-', .strip)].lookup c

def readIncrement (start : Mark) (c : Cursor) : Except Fault (Option Nat × Cursor) :=
  match c.rest.head? with
  | none => .ok (none, c)
  | some x =>
    if x == '0' then
      .error (.scanning start c.mark "found an indentation indicator equal to 0")
    else if x.isDigit then .ok (some (x.toNat - 48), c.skip 1)
    else .ok (none, c)

def readChomping (c : Cursor) : Option Chomping × Cursor :=
  match c.rest.head?.bind chomping? with
  | some chomping => (some chomping, c.skip 1)
  | none => (none, c)

-- The two signs of a header, in any order.
def readHeader (start : Mark) (c : Cursor) : Except Fault (BlockHeader × Cursor) := do
  match readChomping c with
  | (some chomping, c) =>
    let (increment, c) ← readIncrement start c
    return (⟨chomping, increment⟩, c)
  | (none, c) =>
    let (increment, c) ← readIncrement start c
    let (chomping, c) := if increment.isSome then readChomping c else (none, c)
    return (⟨chomping.getD .clip, increment⟩, c)

-- What follows the header must be blank or a comment.
def endHeader (start : Mark) (c : Cursor) : Except Fault Cursor :=
  let c := c.skipBlanks
  let c := if c.atChar '#' then c.skipLine else c
  if c.atEnd || c.atBreak then .ok c.takeBreak.2
  else .error (.scanning start c.mark "did not find expected comment or line break")

-- Passes indentation and empty lines. Without an indentation known, any is passed.
def readBreaks (start : Mark) (indent : Option Nat) :
    Nat → Nat → List Char → Cursor → Except Fault (Nat × List Char × Cursor)
  | 0, deepest, breaks, c => .ok (deepest, breaks, c)
  | steps + 1, deepest, breaks, c =>
    let room := match indent with
      | none => c.rest.length
      | some n => n - c.mark.column
    let c := c.skip ((c.rest.take room).takeWhile (· == ' ')).length
    let deepest := max deepest c.mark.column
    if indent.all (c.mark.column < ·) && c.atChar '\t' then
      .error (.scanning start c.mark
        "found a tab character where an indentation space is expected")
    else if c.atBreak then
      let (text, c) := c.takeBreak
      readBreaks start indent steps deepest (breaks ++ text) c
    else .ok (deepest, breaks, c)

-- The lines of a block: `lead` is the line break of the line before, `trail` those of the empty
-- lines after it.
def readLines (literal : Bool) (start : Mark) (chomping : Chomping) (indent : Nat) :
    Nat → List Char → List Char → List Char → Bool → Cursor → Except Fault Scanned
  | 0, text, _, _, _, c => .ok ⟨text, false, c⟩
  | steps + 1, text, lead, trail, indented, c => do
    if c.mark.column = indent && !c.atEnd then
      let fold := !literal && lead == ['\n'] && !indented && !c.atBlank
      let join := if !fold then lead else if trail.isEmpty then [' '] else []
      let (line, behind) := c.takeWhile (!isBreak ·)
      let (lead, behind) := behind.takeBreak
      let (_, breaks, behind) ← readBreaks start (some indent) (behind.rest.length + 1) 0 [] behind
      readLines literal start chomping indent steps (text ++ join ++ trail ++ line) lead breaks
        c.atBlank behind
    else
      let kept := if chomping = .strip then [] else lead
      let tail := if chomping = .keep then trail else []
      return ⟨text ++ kept ++ tail, false, c⟩

-- A block scalar inside a collection of the indentation given.
def read (literal : Bool) (outer : Int) (c : Cursor) : Except Fault Scanned := do
  let start := c.mark
  let (header, c) ← readHeader start (c.skip 1)
  let c ← endHeader start c
  let known := header.increment.map fun n => if 0 ≤ outer then outer.toNat + n else n
  let (deepest, breaks, c) ← readBreaks start known (c.rest.length + 1) 0 [] c
  let indent := known.getD (max deepest (max (outer + 1).toNat 1))
  readLines literal start header.chomping indent (c.rest.length + 1) [] [] breaks false c

end Block

end ScalarScript.Yaml
