import ScalarScript.Document.Yaml.Property
/-!
Reading tokens. Tokens wait in a queue, because a key shows itself as one only by the colon behind
it, and because errors are noticed two tokens ahead.
-/
namespace ScalarScript.Yaml

-- A place where a key without a sign of its own may have begun.
structure SimpleKey where
  possible : Bool := false
  -- whether nothing else may stand there
  required : Bool := false
  -- the number of its first token
  number : Nat := 0
  mark : Mark := {}

structure Scanner where
  cursor : Cursor
  started : Bool := false
  -- how many brackets are open
  flow : Nat := 0
  indent : Int := -1
  -- the indentations around the present one
  outer : List Int := []
  keyAllowed : Bool := false
  -- one for every open bracket and one more, innermost first
  keys : List SimpleKey := []
  queue : List Token := []
  -- how many tokens have left the queue
  taken : Nat := 0

abbrev Scan := EStateM Fault Scanner

namespace Scan

def cursor : Scan Cursor := return (← get).cursor

def move (c : Cursor) : Scan Unit := modify fun s => { s with cursor := c }

-- A fault at the cursor.
def fail {α : Type} (context : Mark) (message : String) : Scan α := do
  throw (.scanning context (← cursor).mark message)

def lift {α : Type} (r : Except Fault α) : Scan α :=
  match r with
  | .ok a => pure a
  | .error f => throw f

def append (kind : TokenKind) (start : Mark) : Scan Unit := modify fun s =>
  { s with queue := s.queue ++ [⟨kind, start, s.cursor.mark⟩] }

-- A token without any characters.
def emptyToken (kind : TokenKind) (mark : Mark) : Token := { kind, start := mark, stop := mark }

-- Puts a token of no length before the token of that number.
def insert (number : Nat) (kind : TokenKind) (mark : Mark) : Scan Unit := modify fun s =>
  let place := number - s.taken
  { s with queue := s.queue.take place ++ emptyToken kind mark :: s.queue.drop place }

def allowKey (allowed : Bool) : Scan Unit := modify fun s => { s with keyAllowed := allowed }

def keyMissing : String := "could not find expected ':'"

-- A key ends on its line and has at most 1024 characters.
def isCurrent (k : SimpleKey) : Scan Bool := do
  let mark := (← cursor).mark
  if !k.possible then return false
  if mark.line ≤ k.mark.line && mark.index ≤ k.mark.index + 1024 then return true
  if k.required then fail k.mark keyMissing
  return false

def setKey (k : SimpleKey) : Scan Unit := modify fun s => { s with keys := k :: s.keys.tail }

-- From here on the present key can no longer become one.
def dropKey : Scan Unit := do
  match (← get).keys with
  | k :: _ =>
    if k.possible && k.required then fail k.mark keyMissing
    setKey { k with possible := false }
  | [] => pure ()

-- A key may begin here.
def noteKey : Scan Unit := do
  let s ← get
  if s.keyAllowed then
    dropKey
    setKey
      { possible := true
        required := s.flow = 0 && s.indent = s.cursor.mark.column
        number := s.taken + s.queue.length
        mark := s.cursor.mark }

def deepest : Nat := 10000

def tooDeep : String := s!"exceeded max depth of {deepest}"

-- Opens a block collection at a column that is deeper than the present indentation. It begins
-- before the token of that number, or at the end of the queue.
def openBlock (column : Nat) (number : Option Nat) (kind : TokenKind) (mark : Mark) :
    Scan Unit := do
  let s ← get
  if s.flow = 0 && s.indent < column then
    set { s with indent := column, outer := s.indent :: s.outer }
    if deepest < s.outer.length + 1 then fail mark tooDeep
    insert (number.getD (s.taken + s.queue.length)) kind mark

-- Closes the block collections that are deeper than a column.
def closeBlocks (column : Int) (mark : Mark) : List Int → Scan Unit
  | [] => pure ()
  | indent :: outer => do
    let s ← get
    if s.flow = 0 && column < s.indent then
      set { s with indent, outer, queue := s.queue ++ [emptyToken .blockEnd mark] }
      closeBlocks column mark outer

def closeTo (column : Int) (mark : Mark) : Scan Unit := do
  closeBlocks column mark (← get).outer

-- The lines of blanks and comments behind a comment, as long as a comment follows. The cursor is
-- at the first comment.
def skipComments : Nat → Cursor → Cursor
  | 0, c => c
  | steps + 1, c =>
    let c := c.skipLine
    let gap := c.rest.takeWhile fun x => isBlank x || x == '\n' || x == '\r'
    if gap.length < 512 && (c.rest.drop gap.length).head? == some '#' then
      match Gap.read 0 c.mark gap.length {} c with
      | .ok (_, c) => skipComments steps c
      | .error _ => c
    else c

-- A comment that begins on the line of the token before it.
def skipComment : Scan Unit := do
  let c ← cursor
  let behind := c.skipBlanks
  if !c.afterBreak && behind.atChar '#' then move behind.skipLine

def skipIndentation (c : Cursor) (tabs : Bool) : Cursor :=
  let c := if c.mark.column = 0 && c.atChar byteOrderMark then c.skip 1 else c
  c.skip (c.rest.takeWhile fun x => x == ' ' || (tabs && x == '\t')).length

-- Passes white space and comments. A line break may begin a key.
def toToken : Nat → Scan Unit
  | 0 => pure ()
  | steps + 1 => do
    let s ← get
    let c := skipIndentation s.cursor (0 < s.flow || !s.keyAllowed)
    let c := if c.atChar '#' then skipComments c.rest.length c else c
    if c.atBreak then
      move c.takeBreak.2
      if s.flow = 0 then allowKey true
      toToken steps
    else move c

def startStream : Scan Unit := do
  let mark := (← cursor).mark
  modify fun s => { s with started := true, keyAllowed := true, keys := [{}] }
  append .streamStart mark

-- The end of the text counts as a line of its own.
def endStream : Scan Unit := do
  let c ← cursor
  if c.mark.column ≠ 0 then
    move { c with mark := { c.mark with line := c.mark.line + 1, column := 0 } }
  let mark := (← cursor).mark
  closeTo (-1) mark
  dropKey
  allowKey false
  append .streamEnd mark

def leaveBlocks : Scan Unit := do
  closeTo (-1) (← cursor).mark
  dropKey
  allowKey false

def fetchDirective : Scan Unit := do
  leaveBlocks
  let c ← cursor
  let (kind, behind) ← lift (Property.readDirective c)
  move behind
  append kind c.mark

-- A token of signs alone.
def fetchSign (kind : TokenKind) (width : Nat) : Scan Unit := do
  let c ← cursor
  move (c.skip width)
  append kind c.mark

def fetchDocument (kind : TokenKind) : Scan Unit := do
  leaveBlocks
  fetchSign kind 3

def openFlow (kind : TokenKind) : Scan Unit := do
  noteKey
  modify fun s => { s with flow := s.flow + 1, keys := {} :: s.keys }
  if deepest < (← get).flow then fail (← cursor).mark tooDeep
  allowKey true
  fetchSign kind 1

def closeFlow (kind : TokenKind) : Scan Unit := do
  dropKey
  modify fun s => if s.flow = 0 then s else { s with flow := s.flow - 1, keys := s.keys.tail }
  allowKey false
  fetchSign kind 1

def fetchFlowEntry : Scan Unit := do
  dropKey
  allowKey true
  fetchSign .flowEntry 1

-- Opens a block collection here, where that is allowed. Inside brackets nothing is opened.
def openHere (kind : TokenKind) (refusal : String) : Scan Unit := do
  let s ← get
  if s.flow = 0 then
    if !s.keyAllowed then fail s.cursor.mark refusal
    openBlock s.cursor.mark.column none kind s.cursor.mark

def fetchBlockEntry : Scan Unit := do
  openHere .blockSequenceStart "block sequence entries are not allowed in this context"
  dropKey
  allowKey true
  fetchSign .blockEntry 1

def fetchKey : Scan Unit := do
  openHere .blockMappingStart "mapping keys are not allowed in this context"
  dropKey
  allowKey ((← get).flow = 0)
  fetchSign .key 1

-- A colon makes what stands before it a key, or follows a key with its own sign.
def fetchValue : Scan Unit := do
  let s ← get
  let k := s.keys.headD {}
  if ← isCurrent k then
    insert k.number .key k.mark
    openBlock k.mark.column (some k.number) .blockMappingStart k.mark
    setKey { k with possible := false }
    allowKey false
  else
    openHere .blockMappingStart "mapping values are not allowed in this context"
    allowKey (s.flow = 0)
  fetchSign .value 1

-- A token that may begin a key.
def fetchProperty (read : Cursor → Except Fault (TokenKind × Cursor)) : Scan Unit := do
  noteKey
  allowKey false
  let c ← cursor
  let (kind, behind) ← lift (read c)
  move behind
  append kind c.mark

def scalarToken (plain : Bool) (s : Scanned) : TokenKind := .scalar (String.ofList s.text) plain

def fetchBlockScalar (literal : Bool) : Scan Unit := do
  dropKey
  allowKey true
  let s ← get
  let scanned ← lift (Block.read literal s.indent s.cursor)
  move scanned.cursor
  append (scalarToken false scanned) s.cursor.mark

-- Behind a plain scalar with a line break after it a key may begin.
def fetchPlain : Scan Unit := do
  noteKey
  allowKey false
  let s ← get
  let scanned ← lift (Plain.read (0 < s.flow) (s.indent + 1).toNat s.cursor)
  move scanned.cursor
  append (scalarToken true scanned) s.cursor.mark
  if scanned.broken then allowKey true

def fetchContent (x : Char) (rest : List Char) : Scan Unit := do
  let s ← get
  let flow := 0 < s.flow
  let alone := Cursor.wordEnds rest
  let reject : Scan Unit := fail s.cursor.mark "found character that cannot start any token"
  match x with
  | '[' => openFlow .flowSequenceStart
  | '\x7b' => openFlow .flowMappingStart
  | ']' => closeFlow .flowSequenceEnd
  | '\x7d' => closeFlow .flowMappingEnd
  | ',' => fetchFlowEntry
  | '-' => if alone then fetchBlockEntry else fetchPlain
  | '?' => if flow || alone then fetchKey else fetchPlain
  | ':' => if flow || alone then fetchValue else fetchPlain
  | '*' => fetchProperty fun c => do
    let (name, c) ← Property.readName c
    return (.reference name, c)
  | '&' => fetchProperty fun c => do
    let (name, c) ← Property.readName c
    return (.anchor name, c)
  | '!' => fetchProperty fun c => do
    let (handle, suffix, c) ← Property.readTag c
    return (.tag handle suffix, c)
  | '|' => if flow then reject else fetchBlockScalar true
  | '>' => if flow then reject else fetchBlockScalar false
  | '\'' | '"' => fetchProperty fun c => do
    let scanned ← Quotation.read x c
    return (scalarToken false scanned, scanned.cursor)
  | '%' | '@' | '`' | '#' | '\t' => reject
  | _ => fetchPlain

def fetchNext : Scan Unit := do
  let s ← get
  if !s.started then startStream
  else
    toToken (s.cursor.rest.length + 1)
    closeTo (← cursor).mark.column s.cursor.mark
    let c ← cursor
    match c.rest with
    | [] => endStream
    | x :: rest =>
      if c.mark.column = 0 && x == '%' then fetchDirective
      else if c.atTriple '-' then fetchDocument .documentStart
      else if c.atTriple '.' then fetchDocument .documentEnd
      else
        fetchContent x rest
        if (← get).queue.getLast?.all (·.kind ≠ .blockEntry) then skipComment

-- Whether the first token of the queue will stay what it is. It needs two more behind it.
def isSettled : Scan Bool := do
  let s ← get
  if s.queue.length < 3 then return false
  match s.keys.find? fun k => k.possible && k.number == s.taken with
  | some k => return !(← isCurrent k)
  | none => return true

def fetchMore : Nat → Scan Unit
  | 0 => pure ()
  | steps + 1 => do
    if !(← isSettled) then
      fetchNext
      fetchMore steps

-- The next token, which stays in the queue.
def peek : Scan Token := do
  fetchMore ((← cursor).rest.length + 5)
  return (← get).queue.headD default

def advance : Scan Unit := modify fun s =>
  { s with queue := s.queue.tail, taken := s.taken + 1 }

end Scan

end ScalarScript.Yaml
