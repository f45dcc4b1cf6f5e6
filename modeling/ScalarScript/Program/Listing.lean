import ScalarScript.Program.Basic
import ScalarScript.Text.Paint
/-!
Listings: programs as text, one line per instruction between a heading and a closing line.
-/
namespace ScalarScript.Listing

open Text

-- The line of one instruction. An operation without a mnemonic cannot be listed.
def line (color linked : Bool) (index : Nat) (i : Instruction) : Except Misuse String :=
  let number := paint color .yellow (toString index)
  match i.opcode with
  | .debugLine => .ok (paint color .green (i.render false))
  | .label => .ok (number ++ "\t\t" ++ paint color .cyan (i.render false))
  | opcode =>
    match opcode.name? with
    | none => .error .nameless
    | some name =>
      let tail := String.ofList ((i.render linked).toList.drop name.length)
      let tail := if opcode.isBranch then paint color .cyan tail else tail
      .ok (number ++ "\t\t" ++ paint color .bold name ++ tail)

def heading (color : Bool) (p : Program) : String :=
  paint color .faint s!"; {p.stage.name} program: {p.codeCount} instructions"

def closing (color : Bool) (p : Program) : String :=
  paint color .faint s!"; {p.codeCount} instructions"

-- Pieces in the order in which they are written. A piece that cannot be made fails only when the
-- pieces before it have been written.
def pieces (color : Bool) (p : Program) : List (Except Misuse String) :=
  let linked := p.stage == .ready
  let lines := p.code.toList.zipIdx.map fun (i, n) => (line color linked n i).map (· ++ "\n")
  .ok (heading color p ++ "\n") :: lines ++ [Except.ok (closing color p ++ "\n")]

def render (color : Bool) (p : Program) : Except Misuse String :=
  (pieces color p).foldlM (fun text piece => do return text ++ (← piece)) ""

-- How writing ends on a device that takes a number of pieces and then fails.
inductive WriteResult where
  | written | failed | misuse (m : Misuse)
  deriving DecidableEq, Repr

def writeTo : Nat → List (Except Misuse String) → WriteResult
  | _, [] => .written
  | _, .error m :: _ => .misuse m
  | 0, .ok _ :: _ => .failed
  | accepted + 1, .ok _ :: rest => writeTo accepted rest

end ScalarScript.Listing
