import ScalarScript.Document.Toml.Statement
/-!
What a TOML document holds. The tables form a tree that the statements fill, and no key may be
defined twice.
-/
namespace ScalarScript.Toml

inductive Entry where
  | value (d : Datum)
  -- `explicit` tells that it can get no further entries, `dotted` that a key with several parts
  -- has made it
  | table (explicit dotted : Bool) (fields : List (String × Entry))
  -- the last table of a list, and those before it
  | tables (earlier : List Datum) (fields : List (String × Entry))
  deriving Inhabited

abbrev Fields := List (String × Entry)

namespace Entry

def kind : Entry → String
  | value _ => "value"
  | table .. => "table"
  | tables .. => "array table"

def fields : Entry → Fields
  | value _ => []
  | table _ _ fields | tables _ fields => fields

def withFields (fields : Fields) : Entry → Entry
  | value d => value d
  | table explicit dotted _ => table explicit dotted fields
  | tables earlier _ => tables earlier fields

end Entry

namespace Fields

-- Puts an entry under a name, in place of the one there is.
def put (fields : Fields) (name : String) (entry : Entry) : Fields :=
  if (fields.lookup name).isSome then
    fields.map fun (n, e) => if n = name then (n, entry) else (n, e)
  else fields ++ [(name, entry)]

def notTable {α : Type} (name : String) (e : Entry) : Except Fault α :=
  refuse s!"expected {name} to be a table, not a {e.kind}"

-- Defines a key of one or several parts.
def define (d : Datum) : List String → Fields → Except Fault Fields
  | [], fields => .ok fields
  | [name], fields =>
    if (fields.lookup name).isSome then refuse s!"key {name} is already defined"
    else .ok (put fields name (.value d))
  | name :: rest, fields =>
    match fields.lookup name with
    | none => do return put fields name (.table false true (← define d rest []))
    | some (.table explicit dotted inner) => do
      if explicit then
        refuse s!"cannot redefine table {name} that has already been explicitly defined"
      return put fields name (.table explicit dotted (← define d rest inner))
    | some e => notTable name e

-- Goes to the table of a key, making those on the way, and changes it there.
def reach (change : String → Fields → Except Fault Fields) :
    List String → Fields → Except Fault Fields
  | [], fields => .ok fields
  | [name], fields => change name fields
  | name :: rest, fields =>
    match fields.lookup name with
    | none => do return put fields name (.table false false (← reach change rest []))
    | some (.value d) => notTable name (.value d)
    | some e => do return put fields name (e.withFields (← reach change rest e.fields))

-- The head of a table, which may come only once.
def openTable (name : String) (fields : Fields) : Except Fault Fields :=
  match fields.lookup name with
  | none => .ok (put fields name (.table true false []))
  | some (.table explicit dotted inner) =>
    if explicit then refuse s!"table {name} already exists"
    else .ok (put fields name (.table true dotted inner))
  | some e => refuse s!"key {name} should be a table, not a {e.kind}"

mutual

def datum : Entry → Datum
  | .value d => d
  | .table _ _ fields => .table true (data fields)
  | .tables earlier fields => .list (earlier ++ [.table true (data fields)])

-- The entries of a table as data.
def data : List (String × Entry) → List (Datum × Datum)
  | [] => []
  | (name, e) :: rest => (.text name, datum e) :: data rest

end

-- The head of one more table of a list.
def openItem (name : String) (fields : Fields) : Except Fault Fields :=
  match fields.lookup name with
  | none => .ok (put fields name (.tables [] []))
  | some (.tables earlier inner) =>
    .ok (put fields name (.tables (earlier ++ [.table true (data inner)]) []))
  | some e => refuse s!"key {e.kind} already exists as a {name},  but should be an array table"

-- Changes the fields of the table at a key that is known.
def within (change : Fields → Except Fault Fields) : List String → Fields → Except Fault Fields
  | [], fields => change fields
  | name :: rest, fields =>
    match fields.lookup name with
    | some e => do return put fields name (e.withFields (← within change rest e.fields))
    | none => .ok fields

mutual

-- Tables made by keys with several parts can get no further entries.
def sealEntry : Entry → Entry
  | .value d => .value d
  | .table explicit dotted fields => .table (explicit || dotted) dotted (sealAll fields)
  | .tables earlier fields => .tables earlier (sealAll fields)

def sealAll : List (String × Entry) → List (String × Entry)
  | [] => []
  | (name, e) :: rest => (name, sealEntry e) :: sealAll rest

end

end Fields

namespace Written

mutual

-- Keys inside of a value may not be defined twice either.
def check : Written → Except Fault Unit
  | .list items => checkItems items
  | .table entries => checkEntries [] entries
  | _ => .ok ()

def checkItems : List Written → Except Fault Unit
  | [] => .ok ()
  | item :: items => do
    check item
    checkItems items

def checkEntries (fields : Fields) : List (List String × Written) → Except Fault Unit
  | [] => .ok ()
  | (key, value) :: rest => do
    let fields ← Fields.define .null key fields
    check value
    checkEntries fields rest

end

mutual

def datum : Written → Except Fault Datum
  | .text s => .ok (.text s)
  | .bool b => .ok (.bool b)
  | .scalar s => s.denoted
  | .list items => do return .list (← data items)
  | .table entries => do return .table true (Fields.data (← fields [] entries))

def data : List Written → Except Fault (List Datum)
  | [] => .ok []
  | item :: items => do
    let first ← datum item
    return first :: (← data items)

def fields (read : Fields) : List (List String × Written) → Except Fault Fields
  | [] => .ok read
  | (key, value) :: rest => do
    let d ← datum value
    fields (← Fields.define d key read) rest

end

end Written

-- What was read so far, and the key of the table that entries belong to.
structure Tree where
  fields : Fields := []
  current : List String := []

namespace Tree

-- A new head ends the table before it.
def sealCurrent (t : Tree) : Except Fault Fields :=
  Fields.within (fun fields => .ok (Fields.sealAll fields)) t.current t.fields

def apply (t : Tree) : Statement → Except Fault Tree
  | .entry key value => do
    let define (d : Datum) := Fields.within (Fields.define d key) t.current t.fields
    let _ ← define .null
    value.check
    return { t with fields := ← define (← value.datum) }
  | .table key => do
    return ⟨← Fields.reach Fields.openTable key (← t.sealCurrent), key⟩
  | .item key => do
    return ⟨← Fields.reach Fields.openItem key (← t.sealCurrent), key⟩

end Tree

-- Reads line after line.
def readLines (first : Bool) (t : Tree) : Nat → List Char → Except Fault Tree
  | 0, _ => .ok t
  | steps + 1, cs => do
    let step : Read (Option Statement) := do
      if !first && !(← get).isEmpty then Read.lineBreak
      Read.line
    if cs.isEmpty then return t
    match step.run cs with
    | .error f _ => throw f
    | .ok statement rest =>
      let t ← match statement with
        | some s => t.apply s
        | none => pure t
      readLines false t steps rest

-- The entries of a text.
def contents (s : String) : Except Fault (List (Datum × Datum)) := do
  let t ← readLines true {} (s.length + 2) s.toList
  return Fields.data t.fields

end ScalarScript.Toml
