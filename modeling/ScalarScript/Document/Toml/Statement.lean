import ScalarScript.Document.Toml.Scalar
/-!
Statements of a TOML document: a key with a value, or the head of a table.
-/
namespace ScalarScript.Toml

-- A value as it is written.
inductive Written where
  | text (s : String)
  | bool (b : Bool)
  | scalar (s : Scalar)
  | list (items : List Written)
  | table (entries : List (List String × Written))
  deriving Inhabited

inductive Statement where
  | entry (key : List String) (value : Written)
  | table (key : List String)
  -- one more table of a list
  | item (key : List String)

abbrev Read := EStateM Fault (List Char)

namespace Read

def fail {α : Type} (message : String) : Read α := throw ⟨message⟩

-- Runs a reader on the characters that are left.
def lift {α : Type} (read : List Char → Except Fault (α × List Char)) : Read α := do
  match read (← get) with
  | .ok (a, rest) =>
    set rest
    pure a
  | .error f => throw f

def skip (count : Nat) : Read Unit := modify (·.drop count)

def skipBlanks : Read Unit := modify (·.dropWhile isBlank)

def expect (x : Char) : Read Unit := do
  match ← get with
  | [] => fail s!"expected character {x} but the document ended here"
  | c :: _ =>
    if c ≠ x then fail s!"expected character {x}"
    skip 1

def lineBreak : Read Unit := do
  match ← get with
  | '\n' :: _ => skip 1
  | ['\r'] => fail "windows new line expected"
  | '\r' :: c :: _ =>
    if c ≠ '\n' then fail "windows new line should be \\r\\n"
    skip 2
  | c :: _ => fail s!"expected newline but got {Text.codePoint (Text.leadByte c)}"
  | [] => pure ()

-- The characters of a comment. They end before the line feed.
def comment : List Char → Except Fault (Unit × List Char)
  | [] => .ok ((), [])
  | c :: rest =>
    if c = '\n' then .ok ((), c :: rest)
    else if c = '\r' then
      if rest.head? = some '\n' then .ok ((), rest) else refuse "invalid character in comment"
    else if isForbidden c then refuse "invalid character in comment"
    else comment rest

def skipComment : Read Unit := do
  if (← get).head? = some '#' then lift comment

def isKeyChar (c : Char) : Bool := c.isAlphanum || c == '-' || c == '_'

-- One part of a key.
def simpleKey : Read String := do
  match ← get with
  | [] => fail "expected key but found none"
  | '\'' :: _ => lift fun cs => Quoted.literal [] (cs.drop 1)
  | '"' :: _ => lift fun cs => Quoted.basic (cs.drop 1)
  | c :: cs =>
    if !isKeyChar c then fail s!"invalid character at start of key: {Text.leadByte c}"
    let name := (c :: cs).takeWhile isKeyChar
    skip name.length
    return String.ofList name

-- The parts of a key that follow the first one.
def keyParts (read : List String) : Nat → Read (List String)
  | 0 => return read.reverse
  | steps + 1 => do
    skipBlanks
    if (← get).head? = some '.' then
      skip 1
      skipBlanks
      let part ← simpleKey
      keyParts (part :: read) steps
    else return read.reverse

def key : Read (List String) := do
  let first ← simpleKey
  keyParts [first] ((← get).length + 1)

-- Passes white space, line breaks and comments.
def skipLines : Nat → Read Unit
  | 0 => pure ()
  | steps + 1 => do
    skipBlanks
    skipComment
    if (← get).head?.any isBreak then
      lineBreak
      skipLines steps

def word (text : String) (b : Bool) : Read Written := do
  if !text.toList.isPrefixOf (← get) then fail s!"expected '{text}'"
  skip text.length
  return .bool b

mutual

def value : Nat → Read Written
  | 0 => fail ""
  | steps + 1 => do
    match ← get with
    | [] => fail "expected value, not eof"
    | c :: _ =>
      match c with
      | '"' | '\'' => return .text (← lift (Quoted.read c))
      | 't' => word "true" true
      | 'f' => word "false" false
      | '[' =>
        skip 1
        return .list (← items true [] steps)
      | '\x7b' =>
        skip 1
        return .table (← entries true [] steps)
      | _ => return .scalar (← lift Scalar.scan)

-- The items of a list up to its end. A comma may stand behind the last one.
def items (first : Bool) (read : List Written) : Nat → Read (List Written)
  | 0 => fail ""
  | steps + 1 => do
    if (← get).isEmpty then expect ']'
    skipLines ((← get).length + 1)
    match ← get with
    | [] => fail "array is incomplete"
    | ']' :: _ =>
      skip 1
      return read.reverse
    | c :: _ =>
      if c = ',' then
        if first then fail "array cannot start with comma"
        skip 1
        skipLines ((← get).length + 1)
      else if !first then fail "array elements must be separated by commas"
      if (← get).head? = some ']' then
        skip 1
        return read.reverse
      else
        let item ← value steps
        skipLines ((← get).length + 1)
        items false (item :: read) steps

-- The entries of a table on one line.
def entries (first : Bool) (read : List (List String × Written)) :
    Nat → Read (List (List String × Written))
  | 0 => fail ""
  | steps + 1 => do
    if (← get).isEmpty then expect '\x7d'
    skipBlanks
    match ← get with
    | [] => fail "inline table is incomplete"
    | '\x7d' :: _ =>
      skip 1
      return read.reverse
    | _ =>
      if !first then
        expect ','
        skipBlanks
      let entry ← entry steps
      entries false (entry :: read) steps

def entry : Nat → Read (List String × Written)
  | 0 => fail ""
  | steps + 1 => do
    let key ← key
    skipBlanks
    if (← get).isEmpty then fail "expected = after a key, but the document ends there"
    expect '='
    skipBlanks
    return (key, ← value steps)

end

-- The head of a table, or of one more table of a list.
def head : Read Statement := do
  let double := (← get).drop 1 |>.head? |>.any (· = '[')
  skip (if double then 2 else 1)
  skipBlanks
  let key ← key
  skipBlanks
  expect ']'
  if double then
    expect ']'
    return .item key
  return .table key

-- The statement on a line, if it has one.
def line : Read (Option Statement) := do
  skipBlanks
  match ← get with
  | [] => return none
  | c :: _ =>
    if c = '#' then
      skipComment
      return none
    if isBreak c then return none
    let statement ←
      if c = '[' then head
      else do
        let (key, value) ← entry (4 * ((← get).length + 4))
        pure (.entry key value)
    skipBlanks
    skipComment
    return some statement

end Read

end ScalarScript.Toml
