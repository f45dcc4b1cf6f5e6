import ScalarScript.Document.Yaml.Scanner
import ScalarScript.Document.Yaml.Tag
/-!
Nodes: the tree that the tokens of a YAML document form.
-/
namespace ScalarScript.Yaml

inductive Node where
  | scalar (line : Nat) (tag value : String)
  | list (line : Nat) (tag : String) (items : List Node)
  | table (line : Nat) (tag : String) (entries : List (Node × Node))
  -- another node by its anchor; a node that contains the reference itself is not known yet
  | reference (line : Nat) (name : String) (ofTable : Bool) (target : Option Node)
  deriving Inhabited

namespace Node

def line : Node → Nat
  | scalar line .. | list line .. | table line .. | reference line .. => line

end Node

-- A name for a node, which is not complete while its parts are read.
structure Anchor where
  name : String
  number : Nat
  ofTable : Bool
  node : Option Node

structure Composer where
  scanner : Scanner
  -- the newest first
  anchors : List Anchor := []
  -- what the handles of tags stand for
  handles : List (String × String) := []

abbrev Compose := EStateM Fault Composer

namespace Compose

def scan {α : Type} (act : Scan α) : Compose α := do
  let s ← get
  match act.run s.scanner with
  | .ok a scanner =>
    set { s with scanner }
    pure a
  | .error f _ => throw f

def peek : Compose Token := scan Scan.peek

def advance : Compose Unit := scan Scan.advance

-- Passes a token and returns the one behind it.
def pass : Compose Token := do
  advance
  peek

-- A plain scalar without any characters.
def blank (mark : Mark) : Node := .scalar (mark.line + 1) Tag.null ""

-- Names a node that is going to be read, and returns its number.
def openAnchor (name : Option String) (ofTable : Bool) : Compose (Option Nat) := do
  match name with
  | none => return none
  | some name =>
    let number := (← get).anchors.length
    modify fun s => { s with anchors := ⟨name, number, ofTable, none⟩ :: s.anchors }
    return some number

-- The node of that number is complete.
def closeAnchor (number : Option Nat) (node : Node) : Compose Node := do
  if let some number := number then
    modify fun s =>
      { s with
        anchors := s.anchors.map fun a =>
          if a.number = number then { a with node := some node } else a }
  return node

def refer (line : Nat) (name : String) : Compose Node := do
  match (← get).anchors.find? (·.name == name) with
  | some a => return .reference line name a.ofTable a.node
  | none => throw (.other s!"unknown anchor '{name}' referenced")

def readAnchor : Compose (Option String) := do
  match (← peek).kind with
  | .anchor name =>
    advance
    return some name
  | _ => return none

-- A tag as it is written, and where.
structure WrittenTag where
  handle : String
  suffix : String
  mark : Mark

def readTag : Compose (Option WrittenTag) := do
  let token ← peek
  match token.kind with
  | .tag handle suffix =>
    advance
    return some ⟨handle, suffix, token.start⟩
  | _ => return none

-- An anchor and a tag, in any order.
def readProperties : Compose (Option String × Option WrittenTag) := do
  match ← readAnchor with
  | some name => return (some name, ← readTag)
  | none =>
    match ← readTag with
    | some tag => return (← readAnchor, some tag)
    | none => return (none, none)

-- The tag with its handle written out.
def fullTag (start : Mark) : Option WrittenTag → Compose String
  | none => return ""
  | some tag => do
    if tag.handle.isEmpty then return tag.suffix
    let full := ((← get).handles.lookup tag.handle).map (· ++ tag.suffix)
    match full.filter (!·.isEmpty) with
    | some full => return full
    | none => throw (.parsing start tag.mark "found undefined tag handle")

-- A tag that says nothing leaves the usual one.
def tagOr (usual tag : String) : String :=
  if tag.isEmpty || tag = "!" then usual else Tag.short tag

-- The tag of a scalar that has none written.
def usualTag (plain : Bool) (text : String) : String :=
  if !plain then Tag.text
  else if text = "<<" then Tag.merge
  else (Scalar.denoted true text).1

-- Which tokens end a node where it may be left out.
def endsBlockItem (kind : TokenKind) : Bool := [.blockEntry, .blockEnd].contains kind

def endsEntry (kind : TokenKind) : Bool := [.key, .value, .blockEnd].contains kind

def endsFlowItem (kind : TokenKind) : Bool := [.flowEntry, .flowSequenceEnd].contains kind

def endsFlowEntry (kind : TokenKind) : Bool := [.flowEntry, .flowMappingEnd].contains kind

-- The ways in which a list may be written.
inductive ListStyle where
  | block | indentless | flow

mutual

-- A node. A block collection may stand in a block only; items without indentation of their own
-- only under a key.
def node (block indentless : Bool) : Nat → Compose Node
  | 0 => throw (.other "")
  | steps + 1 => do
    let token ← peek
    let start := token.start
    if let .reference name := token.kind then
      advance
      refer (start.line + 1) name
    else
      let (anchor, written) ← readProperties
      let tag ← fullTag start written
      let token ← peek
      let line := start.line + 1
      let list (style : ListStyle) : Compose Node := do
        let number ← openAnchor anchor false
        let items ← items style token.start true [] steps
        closeAnchor number (.list line (tagOr Tag.list tag) items)
      let table (flow : Bool) : Compose Node := do
        let number ← openAnchor anchor true
        let entries ← entries flow token.start true [] steps
        closeAnchor number (.table line (tagOr Tag.table tag) entries)
      let scalar (usual text : String) : Compose Node := do
        let number ← openAnchor anchor false
        closeAnchor number (.scalar line (tagOr usual tag) text)
      let otherwise : Compose Node := do
        if anchor.isSome || !tag.isEmpty then scalar Tag.null ""
        else throw (.parsing start token.start "did not find expected node content")
      match token.kind with
      | .blockEntry => if indentless then list .indentless else otherwise
      | .scalar text plain =>
        advance
        scalar (usualTag plain text) text
      | .flowSequenceStart =>
        advance
        list .flow
      | .flowMappingStart =>
        advance
        table true
      | .blockSequenceStart =>
        if block then
          advance
          list .block
        else otherwise
      | .blockMappingStart =>
        if block then
          advance
          table false
        else otherwise
      | _ => otherwise

-- The items of a list up to its end.
def items (style : ListStyle) (start : Mark) (first : Bool) (read : List Node) :
    Nat → Compose (List Node)
  | 0 => throw (.other "")
  | steps + 1 => do
    let token ← peek
    match style, token.kind with
    | .block, .blockEntry | .indentless, .blockEntry =>
      let next ← pass
      let missing := endsBlockItem next.kind || (style matches .indentless && endsEntry next.kind)
      let item ← if missing then pure (blank token.stop) else node true false steps
      items style start false (item :: read) steps
    | .indentless, _ => return read.reverse
    | .block, .blockEnd | .flow, .flowSequenceEnd =>
      advance
      return read.reverse
    | .block, _ => throw (.parsing start token.start "did not find expected '-' indicator")
    | .flow, kind =>
      if !first then
        if kind ≠ .flowEntry then
          throw (.parsing start token.start "did not find expected ',' or ']'")
        advance
      let token ← peek
      match token.kind with
      | .flowSequenceEnd =>
        advance
        return read.reverse
      | .key =>
        advance
        let item ← pair (token.start.line + 1) steps
        items style start false (item :: read) steps
      | _ =>
        let item ← node false false steps
        items style start false (item :: read) steps

-- A table of a single entry among the items of a list.
def pair (line : Nat) : Nat → Compose Node
  | 0 => throw (.other "")
  | steps + 1 => do
    let token ← peek
    let key ←
      if token.kind = .value || endsFlowItem token.kind then
        advance
        pure (blank token.stop)
      else node false false steps
    let token ← peek
    let value ←
      if token.kind = .value then
        let next ← pass
        if endsFlowItem next.kind then pure (blank token.start) else node false false steps
      else pure (blank token.start)
    return .table line Tag.table [(key, value)]

-- The entries of a table up to its end.
def entries (flow : Bool) (start : Mark) (first : Bool) (read : List (Node × Node)) :
    Nat → Compose (List (Node × Node))
  | 0 => throw (.other "")
  | steps + 1 => do
    let token ← peek
    let last : TokenKind := if flow then .flowMappingEnd else .blockEnd
    let problem := if flow then "did not find expected ',' or '\x7d'"
      else "did not find expected key"
    if token.kind = last then
      advance
      return read.reverse
    else
      if flow && !first then
        if token.kind ≠ .flowEntry then throw (.parsing start token.start problem)
        advance
      let token ← peek
      if flow && token.kind = last then
        advance
        return read.reverse
      else if token.kind = .key then
        let next ← pass
        let missing := if flow then next.kind = .value || endsFlowEntry next.kind
          else endsEntry next.kind
        let place := if flow then next.start else token.stop
        let key ← if missing then pure (blank place) else node (!flow) (!flow) steps
        let value ← entryValue flow steps
        entries flow start false ((key, value) :: read) steps
      else if flow then
        let key ← node false false steps
        let value := blank (← peek).start
        entries flow start false ((key, value) :: read) steps
      else throw (.parsing start token.start problem)

-- The value of an entry, which may be left out.
def entryValue (flow : Bool) : Nat → Compose Node
  | 0 => throw (.other "")
  | steps + 1 => do
    let token ← peek
    if token.kind = .value then
      let next ← pass
      let missing := if flow then endsFlowEntry next.kind else endsEntry next.kind
      let place := if flow then next.start else token.stop
      if missing then return blank place
      node (!flow) (!flow) steps
    else return blank token.start

end

def usualHandles : List (String × String) := [("!", "!"), ("!!", Tag.standard)]

-- The directives before a document.
def directives (versioned : Bool) (handles : List (String × String)) : Nat → Compose Unit
  | 0 => pure ()
  | steps + 1 => do
    let token ← peek
    let refuse (message : String) : Compose Unit := throw (.parsing {} token.start message)
    match token.kind with
    | .version major minor =>
      if versioned then refuse "found duplicate %YAML directive"
      if major ≠ 1 || minor ≠ 1 then refuse "found incompatible YAML document"
      advance
      directives true handles steps
    | .tagDirective handle expansion =>
      if (handles.lookup handle).isSome then refuse "found duplicate %TAG directive"
      advance
      directives versioned (handles ++ [(handle, expansion)]) steps
    | _ => modify fun s => { s with handles := handles ++ usualHandles }

def isDirective : TokenKind → Bool
  | .version .. | .tagDirective .. => true
  | _ => false

-- The root of a document that begins with its sign.
def explicit (steps : Nat) : Compose Node := do
  directives false [] steps
  let token ← peek
  if token.kind ≠ .documentStart then
    throw (.parsing {} token.start "did not find expected <document start>")
  let next ← pass
  if isDirective next.kind || [.documentStart, .documentEnd, .streamEnd].contains next.kind then
    return blank next.start
  node true false steps

-- The root of the first document. The token behind it is looked at too.
def document (steps : Nat) : Compose (Option Node) := do
  let _ ← peek
  let next ← pass
  if next.kind = .streamEnd then return none
  let root ←
    if isDirective next.kind || next.kind = .documentStart then explicit steps
    else
      modify fun s => { s with handles := usualHandles }
      node true false steps
  let _ ← peek
  return some root

end Compose

-- The root node of a text, if it has one.
def Node.read (text : String) : Except Fault (Option Node) :=
  let cs := match text.toList with
    | c :: rest => if c = byteOrderMark then rest else c :: rest
    | [] => []
  if !cs.all isAllowed then .error (.other "control characters are not allowed")
  else
    let start : Composer := { scanner := { cursor := { rest := cs } } }
    match (Compose.document (8 * (cs.length + 8))).run start with
    | .ok root _ => .ok root
    | .error f _ => .error f

end ScalarScript.Yaml
