import ScalarScript.CommandLine.Setting
import ScalarScript.Text.Quoted
/-!
Flags on a command line. Long ones follow two dashes, short ones share a dash; switches need no
value. Flags and other words may be mixed up to a word of two dashes, after which there are only
words.
-/
namespace ScalarScript

-- The kind of a flag's value is that of its initial value.
structure Flag where
  name : String
  short : Option Char := none
  initial : SettingValue

namespace Flag

def isSwitch (f : Flag) : Bool :=
  match f.initial with
  | .switch _ => true
  | _ => false

def label (f : Flag) : String :=
  match f.short with
  | some c => s!"-{c}, --{f.name}"
  | none => s!"--{f.name}"

def parseValue (f : Flag) (s : String) : Except String SettingValue :=
  match f.initial with
  | .switch _ =>
    match SettingValue.parseSwitch? s with
    | some b => .ok (.switch b)
    | none => .error s!"strconv.ParseBool: parsing {Text.quote s}: invalid syntax"
  | .integer _ =>
    match Number.parseInteger s with
    | .ok n => .ok (.integer n)
    | .error fault => .error s!"strconv.ParseInt: parsing {Text.quote s}: {fault.text}"
  | _ => .ok (.text s)

def read (f : Flag) (s : String) : Except String SettingValue :=
  (f.parseValue s).mapError fun e =>
    s!"invalid argument {Text.quote s} for {Text.quote f.label} flag: {e}"

end Flag

-- What one word of a command line says about flags.
inductive FlagUse where
  -- flags with their values
  | complete (uses : List (Flag × String))
  -- the last flag takes the next word as its value, or there is an error
  | pending (uses : List (Flag × String)) (last : Flag) (missing : String)
  | wrong (message : String)

namespace FlagUse

def long (flags : List Flag) (word : String) : FlagUse :=
  let body := Text.withoutStart "--" word
  let (name, value?) := match Text.cut? '=' body with
    | some (name, value) => (name, some value)
    | none => (body, none)
  if name.isEmpty || Text.startsWith "-" name then .wrong s!"bad flag syntax: {word}"
  else match flags.find? (·.name == name), value? with
    | none, _ => .wrong s!"unknown flag: --{name}"
    | some f, some value => .complete [(f, value)]
    | some f, none =>
      if f.isSwitch then .complete [(f, "true")]
      else .pending [] f s!"flag needs an argument: {word}"

-- Short flags are single bytes, and that is how an unknown one is shown.
def firstByte (c : Char) : Char :=
  match (String.singleton c).toUTF8.toList with
  | b :: _ => Char.ofNat b.toNat
  | [] => c

-- Rows of short flags that begin like this are meant for others and are passed over.
def foreignRow : String := "test."

-- Short flags in a row. What follows one that takes a value is its value.
def shorts (flags : List Flag) (uses : List (Flag × String)) : List Char → FlagUse
  | [] => .complete uses
  | c :: rest =>
    let quoted := Text.quoteChar (firstByte c)
    let row := String.ofList (c :: rest)
    if Text.startsWith foreignRow row then .complete uses
    else match flags.find? (·.short == some c) with
    | none => .wrong s!"unknown shorthand flag: {quoted} in -{row}"
    | some f =>
      match rest with
      | '=' :: d :: value => .complete (uses ++ [(f, String.ofList (d :: value))])
      | rest =>
        if f.isSwitch then shorts flags (uses ++ [(f, "true")]) rest
        else if rest.isEmpty then .pending uses f s!"flag needs an argument: {quoted} in -{row}"
        else .complete (uses ++ [(f, String.ofList rest)])

end FlagUse

-- A command line taken apart.
structure Arguments where
  -- latest first
  given : List (String × SettingValue) := []
  words : List String := []

namespace Arguments

def has (a : Arguments) (name : String) : Bool := (a.given.lookup name).isSome

def set (a : Arguments) (use : Flag × String) : Except String Arguments := do
  return { a with given := (use.1.name, ← use.1.read use.2) :: a.given }

def setAll (a : Arguments) (uses : List (Flag × String)) : Except String Arguments :=
  uses.foldlM set a

def addWords (a : Arguments) (words : List String) : Arguments :=
  { a with words := a.words ++ words }

-- A single dash is a word.
def isFlagWord (word : String) : Bool := Text.startsWith "-" word && word ≠ "-"

def parseFrom (flags : List Flag) (a : Arguments) : List String → Except String Arguments
  | [] => .ok a
  | word :: rest =>
    if !isFlagWord word then parseFrom flags (a.addWords [word]) rest
    else if word = "--" then .ok (a.addWords rest)
    else
      let use := if Text.startsWith "--" word then FlagUse.long flags word
        else FlagUse.shorts flags [] (word.toList.drop 1)
      match use with
      | .wrong message => .error message
      | .complete uses => do parseFrom flags (← a.setAll uses) rest
      | .pending uses last missing => do
        let a ← a.setAll uses
        match rest with
        | [] => throw missing
        | value :: rest => parseFrom flags (← a.set (last, value)) rest

def parse (flags : List Flag) (args : List String) : Except String Arguments :=
  parseFrom flags {} args

end Arguments

end ScalarScript
