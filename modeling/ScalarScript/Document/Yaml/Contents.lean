import ScalarScript.Document.Yaml.Node
/-!
What a YAML document holds: its nodes as data. The root has to be a table with texts as keys.
Complaints about single nodes are gathered; other faults end the reading at once.
-/
namespace ScalarScript.Yaml

structure Reading where
  -- how many nodes were visited, and how many of them behind references
  visited : Nat := 0
  referred : Nat := 0
  -- the newest first
  complaints : List String := []

abbrev Read := EStateM Fault Reading

namespace Node

-- What tells a key from others in the same table: its kind and its characters.
def keyText : Node → Nat × String
  | scalar _ _ value => (0, value)
  | list .. => (1, "")
  | table .. => (2, "")
  | reference _ name .. => (3, name)

def tag : Node → String
  | scalar _ tag _ | list _ tag _ | table _ tag _ => tag
  | reference _ _ _ target =>
    match target with
    | some target => target.tag
    | none => ""

-- Whether it takes in the entries of another table.
def isMerge : Node → Bool
  | scalar _ tag value => value = "<<" && tag = Tag.merge
  | _ => false

-- Whether all keys are texts.
def hasPlainKeys (entries : List (Node × Node)) : Bool :=
  entries.all fun (key, _) => key.tag = Tag.text || key.tag = Tag.merge

end Node

namespace Read

def complain (line : Nat) (problem : String) : Read Unit :=
  modify fun s => { s with complaints := s!"line {line}: {problem}" :: s.complaints }

-- The share of nodes behind references that a document may have. Large documents may have less.
def allowedShare (visited : Nat) : Float :=
  if visited ≤ 400000 then 0.99
  else if 4000000 ≤ visited then 0.10
  else 0.99 - 0.89 * (Number.ofInt (visited - 400000) / 3600000)

def visit (referred : Bool) : Read Unit := do
  modify fun s =>
    { s with visited := s.visited + 1, referred := s.referred + if referred then 1 else 0 }
  let s ← get
  let share := Number.ofInt s.referred / Number.ofInt s.visited
  if 100 < s.referred && 1000 < s.visited && share > allowedShare s.visited then
    throw (.other "document contains excessive aliasing")

-- A complaint about a node that cannot be what it has to be.
def mismatch (node : Node) (wanted : String) : Read Unit := do
  let shown := match node.keyText.2.toUTF8.toList with
    | bytes => if bytes.length ≤ 10 then bytes else bytes.take 7 ++ "...".toUTF8.toList
  let value := if node.tag = Tag.list || node.tag = Tag.table then ""
    else s!" `{Text.decodeUtf8 shown}`"
  complain node.line s!"cannot unmarshal {node.tag}{value} into {wanted}"

-- Complains about keys that a table has twice, and tells whether there were any.
def checkKeys : List (Node × Node) → Read Bool
  | [] => return false
  | (key, _) :: rest => do
    let again := (rest.map (·.1)).filter fun other => other.keyText = key.keyText
    for other in again do
      complain other.line
        s!"mapping key {Text.quote other.keyText.2} already defined at line {key.line}"
    let more ← checkKeys rest
    return !again.isEmpty || more

def lift {α : Type} (r : Except Fault α) : Read α :=
  match r with
  | .ok a => pure a
  | .error f => throw f

def failReference {α : Type} (name : String) : Read α :=
  throw (.other s!"anchor '{name}' value contains itself")

-- A table while it is being filled, and, where it is taken into another one, the keys that no
-- longer count.
structure Filling where
  entries : List (Datum × Datum) := []
  taken : Option (List Datum) := none

-- A key that must be a text; none where it is null or a collection.
def textKey : Bool → Node → Read (Option Datum)
  | referred, .scalar _ tag value => do
    visit referred
    match ← lift (Scalar.datum tag value) with
    | .null => return none
    | .text s => return some (.text s)
    | _ => return some (.text value)
  | referred, .list line tag items => do
    visit referred
    mismatch (.list line tag items) "string"
    return none
  | referred, .table line tag entries => do
    visit referred
    if !(← checkKeys entries) then mismatch (.table line tag entries) "string"
    return none
  | referred, .reference _ name _ target => do
    visit referred
    match target with
    | some target => textKey true target
    | none => failReference name

-- Notes a key of a table. A key that was taken already does not count.
def takeKey (key : Datum) (f : Filling) : Bool × Filling :=
  match f.taken with
  | none => (true, f)
  | some taken =>
    if taken.any (·.same key) then (false, f) else (true, { f with taken := some (key :: taken) })

def wantTable {α : Type} : Read α :=
  throw (.other "map merge requires map or sequence of maps as the value")

mutual

-- What a node denotes where anything may stand. A table with complaints denotes nothing.
def value (referred : Bool) : Node → Read (Option Datum)
  | .scalar _ tag value => do
    visit referred
    return some (← lift (Scalar.datum tag value))
  | .list _ _ items => do
    visit referred
    return some (.list (← values referred items))
  | .table _ _ entries => do
    visit referred
    let plain := Node.hasPlainKeys entries
    match ← fill referred plain entries {} with
    | some f => return some (.table plain f.entries)
    | none => return none
  | .reference _ name _ target => do
    visit referred
    match target with
    | some target => value true target
    | none => failReference name
termination_by n => (sizeOf n, 0)

def values (referred : Bool) : List Node → Read (List Datum)
  | [] => return []
  | item :: items => do
    let first ← value referred item
    let rest ← values referred items
    return first.toList ++ rest
termination_by items => (sizeOf items, 0)

-- Adds the entries of a table to those there are, then the entries of the tables it takes in.
def fill (referred plain : Bool) (entries : List (Node × Node)) (f : Filling) :
    Read (Option Filling) := do
  if ← checkKeys entries then return none
  let f ← own referred plain entries f
  if entries.any (·.1.isMerge) then
    let taken ← match f.taken with
      | some taken => pure taken
      | none => keys referred entries
    let merged ← merges referred plain entries { f with taken := some taken }
    return some { merged with taken := if f.taken.isSome then merged.taken else none }
  return some f
termination_by (sizeOf entries, 1)

def keys (referred : Bool) : List (Node × Node) → Read (List Datum)
  | [] => return []
  | (key, _) :: rest => do
    let first ← value referred key
    let rest ← keys referred rest
    return first.toList ++ rest
termination_by entries => (sizeOf entries, 0)

-- The entries that a table has itself.
def own (referred plain : Bool) : List (Node × Node) → Filling → Read Filling
  | [], f => return f
  | (key, item) :: rest, f => do
    if key.isMerge then own referred plain rest f
    else
      match ← if plain then textKey referred key else value referred key with
      | none => own referred plain rest f
      | some k =>
        let (counts, f) := takeKey k f
        if !counts then own referred plain rest f
        else
          if k.isCompound then throw (.other s!"invalid map key: {k.described}")
          match ← value referred item with
          | some v => own referred plain rest { f with entries := Datum.put f.entries k v }
          | none => own referred plain rest f
termination_by entries _ => (sizeOf entries, 0)

-- The entries that a table takes from others.
def merges (referred plain : Bool) : List (Node × Node) → Filling → Read Filling
  | [], f => return f
  | (key, item) :: rest, f => do
    if key.isMerge then merge referred plain item f
    else merges referred plain rest f
termination_by entries _ => (sizeOf entries, 0)

def merge (referred plain : Bool) : Node → Filling → Read Filling
  | .list _ _ items, f => mergeAll referred plain items f
  | .table _ _ entries, f => do
    visit referred
    return (← fill referred plain entries f).getD f
  | .reference _ name ofTable target, f => do
    if !ofTable then wantTable
    visit referred
    match target with
    | some (.table _ _ entries) =>
      visit true
      return (← fill true plain entries f).getD f
    | _ => failReference name
  | .scalar .., _ => wantTable
termination_by n _ => (sizeOf n, 0)

def mergeAll (referred plain : Bool) : List Node → Filling → Read Filling
  | [], f => return f
  | item :: items, f => do
    if let .list .. := item then wantTable
    let f ← merge referred plain item f
    mergeAll referred plain items f
termination_by items _ => (sizeOf items, 0)

end

-- The root has to be a table.
def root (node : Node) : Read (List (Datum × Datum)) := do
  visit false
  visit false
  let wanted := "map[string]interface \x7b\x7d"
  match node with
  | .scalar _ tag value =>
    match ← lift (Scalar.datum tag value) with
    | .null => return []
    | _ =>
      mismatch node wanted
      return []
  | .table _ _ entries => return ((← fill false true entries {}).getD {}).entries
  | node =>
    mismatch node wanted
    return []

end Read

-- The entries of the first document of a text.
def contents (text : String) : Except Fault (List (Datum × Datum)) := do
  match ← Node.read text with
  | none => return []
  | some node =>
    match (Read.root node).run {} with
    | .error f _ => throw f
    | .ok entries s =>
      if s.complaints.isEmpty then return entries
      throw (.other ("unmarshal errors:\n  " ++ "\n  ".intercalate s.complaints.reverse))

end ScalarScript.Yaml
