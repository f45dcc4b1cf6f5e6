import ScalarScript.Log
import ScalarScript.Peephole.Rule
/-!
Optimization: line markers go, and the rules are applied over and over until none applies.
-/
namespace ScalarScript

-- What an optimization did.
structure Savings where
  before : Nat
  after : Nat
  passes : Nat
  -- the rules applied and where, in order
  applied : List (Rule × Nat)
  deriving Repr

-- How often each rule was applied, for those that were.
def Savings.counts (s : Savings) : List (Rule × Nat) :=
  (Rule.all.map fun r => (r, s.applied.countP (·.1 == r))).filter (0 < ·.2)

namespace Peephole

structure State where
  flow : Flow
  -- latest first
  applied : List (Rule × Nat) := []

def replaceAt (code : Array Instruction) (place width : Nat) (others : List Instruction) :
    Array Instruction :=
  code.extract 0 place ++ others.toArray ++ code.extract (place + width) code.size

def tryRule (place : Nat) (s : State) (rule : Rule) : State :=
  match rule.replacement? s.flow place with
  | none => s
  | some others =>
    { flow := .of (replaceAt s.flow.code place rule.width others)
      applied := (rule, place) :: s.applied }

-- Tries every rule once at every place; the program may shrink on the way.
def passFrom : Nat → Nat → State → State
  | 0, _, s => s
  | steps + 1, place, s =>
    if place < s.flow.code.size then passFrom steps (place + 1) (Rule.all.foldl (tryRule place) s)
    else s

def pass (s : State) : State := passFrom s.flow.code.size 0 s

-- Repeats passes until one changes nothing, at most `limit` of them where that is positive. Every
-- rule makes the program shorter, which bounds their number anyway.
def passes (limit : Int) : Nat → Nat → State → Nat × State
  | 0, count, s => (count, s)
  | steps + 1, count, s =>
    if 0 < limit && limit ≤ count then (count, s)
    else
      let next := pass s
      if next.applied.length = s.applied.length then (count + 1, next)
      else passes limit steps (count + 1) next

end Peephole

def Savings.log (s : Savings) (stripped : Nat) : List LogRecord :=
  { message := "stripped debug lines", fields := [("removed", .int stripped)] } ::
  s.applied.map (fun (rule, place) =>
    { message := "peephole", fields := [("rule", .text rule.name), ("index", .int place)] }) ++
  [{ level := .info, message := "optimized program"
     fields := [("before", .int s.before), ("after", .int s.after), ("passes", .int s.passes)] }]

structure Optimization where
  program : Program
  savings : Savings
  log : List LogRecord

-- Optimizes a program that is being built.
def optimize (p : Program) (maxPasses : Int) : Except String Optimization :=
  if p.stage ≠ .building then .error s!"optimizer: program is {p.stage.name}, not building"
  else
    let code := p.code.filter (·.opcode ≠ .debugLine)
    let (count, final) := Peephole.passes maxPasses (code.size + 2) 0 { flow := .of code }
    let result : Program := { p with code := final.flow.code, stage := .optimized }
    let savings : Savings := ⟨p.codeCount, result.codeCount, count, final.applied.reverse⟩
    .ok ⟨result, savings, savings.log (p.size - code.size)⟩

end ScalarScript
