import ScalarScript.Proofs.Symbolic.Effect
import ScalarScript.Proofs.Symbolic.Marks
import ScalarScript.Proofs.Typing.Frames
import ScalarScript.Proofs.Typing.Host
/-!
States that a checked program can be in. Along with a run goes a trail: the instances of bodies
whose calls have not ended, what was below them on the stack when they began, and the operands of
the last comparison.
-/
namespace ScalarScript

open Compile (eax ebx)
open Symbolic

variable {World : Type}

-- What is known of a run besides its state.
structure Trail where
  -- of the calls that have not ended, the innermost first
  lineages : List Lineage
  -- for each of them, what the stack held below its arguments
  bases : List (List (Option Value))
  -- the operands of the last comparison, unless something was tested since
  compared : Option (Value × Value)

namespace Trail

-- The running instance with another frame, in which nothing is allocated yet.
def framed (frame : Option Nat) : List Lineage → List Lineage
  | (x :: parents) :: rest => ({ x with frame, allocated := [] } :: parents) :: rest
  | lineages => lineages

-- The running instance with another variable allocated.
def allocate (index : Int) : List Lineage → List Lineage
  | (x :: parents) :: rest => ({ x with allocated := index :: x.allocated } :: parents) :: rest
  | lineages => lineages

-- A call of a function. It is linked to the instance of the body around the function that is
-- reached from the caller by following links.
def enter (f : Signature) : List Lineage → List Lineage
  | lineage :: rest =>
    (⟨f.chain, none, []⟩ :: lineage.dropWhile (·.chain ≠ f.chain.tail)) :: lineage :: rest
  | [] => []

def lineagesAfter (functions : Int → Option Signature) (i : Instruction) (c : Core World)
    (lineages : List Lineage) : List Lineage :=
  match i.opcode with
  | .call => (functions i.target).elim lineages (enter · lineages)
  | .ret => lineages.tail
  | .pushScope => framed (some ((c.scopes[i.depth.toNat]?.getD []).length)) lineages
  | .popScope => framed none lineages
  | .allocate _ =>
    match i.first with
    | .slot s => allocate s.index lineages
    | _ => lineages
  | _ => lineages

def basesAfter (functions : Int → Option Signature) (i : Instruction) (c : Core World)
    (bases : List (List (Option Value))) : List (List (Option Value)) :=
  match i.opcode with
  | .call => (functions i.target).elim bases fun f => c.stack.drop f.params.length :: bases
  | .ret => bases.tail
  | _ => bases

def comparedAfter (i : Instruction) (c : Core World) (compared : Option (Value × Value)) :
    Option (Value × Value) :=
  match i.opcode with
  | .compare =>
    match c.resolve i.first, c.resolve i.second with
    | .ok x, .ok y => some (x, y)
    | _, _ => none
  | .test => none
  | _ => compared

-- The trail after an instruction that is executed in the given core.
def after (functions : Int → Option Signature) (i : Instruction) (c : Core World) (g : Trail) :
    Trail where
  lineages := lineagesAfter functions i c g.lineages
  bases := basesAfter functions i c g.bases
  compared := comparedAfter i c g.compared

end Trail

-- Operands on the stack, by their types.
def Operands (Γ : Plan) (types : List Ty) (stack : List (Option Value)) : Prop :=
  List.Forall₂ (fun t slot => ∃ v, slot = some v ∧ Γ.Fits v t) types stack

-- Registers and flags are as the shape says.
structure Shape.Holds (Γ : Plan) (σ : Shape) (c : Core World)
    (compared : Option (Value × Value)) : Prop where
  eax : ∀ t ∈ σ.eax, Γ.Fits c.registers.eax t
  ebx : ∀ t ∈ σ.ebx, Γ.Fits c.registers.ebx t
  flags : σ.flags = some true → ∃ x y, compared = some (x, y) ∧ Γ.Fits x .double ∧
    Γ.Fits y .double ∧ c.flags = Core.compared x y

-- The function that the innermost body is.
def Chain.function? (chain : Chain) : Option Enclosing := chain.head?.bind Body.enclosing

-- A body that has variables, or is a function, has a frame while it runs.
def Lineage.Framed (lineage : Lineage) : Prop :=
  ∀ x ∈ lineage.head?, ∀ body ∈ x.chain.head?,
    body.enclosing.isSome = true ∨ body.layout ≠ [] → x.frame.isSome = true

def Lineage.Bare (lineage : Lineage) : Prop := ∀ x ∈ lineage.head?, x.frame = none

-- The variables that are ready were allocated in the instances of their bodies.
def Lineage.Knows (lineage : Lineage) (ready : Ready) : Prop :=
  ∀ s ∈ ready, ∀ x ∈ lineage, x.depth = s.depth → s.index ∈ x.allocated

namespace Lineage

variable {chain : Chain} {x : Instance} {parents : Lineage} {ready : Ready}

theorem Of.framed {frame : Option Nat} (of : Lineage.Of chain (x :: parents)) :
    Lineage.Of chain ({ x with frame, allocated := [] } :: parents) := by
  cases chain with
  | nil => exact of
  | cons body outer => exact of

theorem Of.allocate {index : Int} (of : Lineage.Of chain (x :: parents)) :
    Lineage.Of chain ({ x with allocated := index :: x.allocated } :: parents) := by
  cases chain with
  | nil => exact of
  | cons body outer => exact of

theorem Framed.allocate {index : Int} (framed : Lineage.Framed (x :: parents)) :
    Lineage.Framed ({ x with allocated := index :: x.allocated } :: parents) := by
  rintro _ ⟨rfl⟩ body first held
  exact framed x rfl body first held

-- The frame of the innermost body says nothing about variables further out.
theorem Knows.framed {frame : Option Nat} (knows : Lineage.Knows (x :: parents) ready)
    (of : Lineage.Of chain (x :: parents)) (outer : ∀ s ∈ ready, s.depth < chain.length) :
    Lineage.Knows ({ x with frame, allocated := [] } :: parents) ready := by
  intro s sure y member depth
  rcases List.mem_cons.mp member with rfl | further
  · have inner := outer s sure
    have own : x.depth = chain.length := of.depth_head
    have same : x.depth = s.depth := depth
    omega
  · exact knows s sure y (List.mem_cons_of_mem _ further) depth

theorem Knows.allocate {s : Symbol} (knows : Lineage.Knows (x :: parents) ready)
    (of : Lineage.Of chain (x :: parents)) (depth : s.depth = chain.length) :
    Lineage.Knows ({ x with allocated := s.index :: x.allocated } :: parents) (s :: ready) := by
  intro v sure y member same
  rcases List.mem_cons.mp member with rfl | further
  · rcases List.mem_cons.mp sure with rfl | before
    · exact List.mem_cons_self
    · exact List.mem_cons_of_mem _ (knows v before x List.mem_cons_self same)
  · rcases List.mem_cons.mp sure with rfl | before
    · have below := of.depth_lt_head y further
      omega
    · exact knows v before y (List.mem_cons_of_mem _ further) same

theorem Knows.mono {lineage : Lineage} {less : Ready} (knows : lineage.Knows ready)
    (fewer : less ⊆ ready) : lineage.Knows less :=
  fun s sure => knows s (fewer sure)

end Lineage

-- Up to where a call runs: a part of the program, what follows it, and what is known behind it.
structure Goal where
  segment : List Instruction
  tail : List Instruction
  final : Shape

-- Calls that wait for the call inside them, that of the function given.
inductive Waits (Γ : Plan) (goals : Nat → Goal) :
    Option Enclosing → List (List Instruction) → List Lineage → List (List (Option Value)) →
      List (Option Value) → Prop where
  | program : Waits Γ goals none [] [] [] []
  | call {σ : Shape} {f : Enclosing} {s : List Instruction} {returns : List (List Instruction)}
      {lineage : Lineage} {lineages : List Lineage} {bases : List (List (Option Value))}
      {own below : List (Option Value)}
      (inside : σ.inside = true) (deep : σ.chain.length ≤ Γ.outline.depths)
      (part : s <:+ (goals returns.length).segment)
      (later : Check Γ (goals returns.length).final (σ.holding f.returnType) s)
      (of : lineage.Of σ.chain) (framed : lineage.Framed) (knows : lineage.Knows σ.ready)
      (operands : Operands Γ σ.stack own)
      (rest : Waits Γ goals σ.chain.function? returns lineages bases below) :
      Waits Γ goals (some f) ((s ++ (goals returns.length).tail) :: returns) (lineage :: lineages)
        (below :: bases) (own ++ below)

-- The parts of a core that outlive an instruction on registers.
structure Memory (Γ : Plan) (registers : Nat → Bool) (lineages : List Lineage) (c : Core World) :
    Prop where
  linked : Linked lineages
  frames : FramesOf lineages c.scopes
  size : c.scopes.size = Γ.outline.depths + 1
  host : HostFrame Γ.outline.hosts c.scopes
  cells : CellsOk Γ.trusted Γ.outline.hosts registers c.cells

-- The running call: its own operands lie above what was there when it began.
structure Running (Γ : Plan) (goals : Nat → Goal) (chain : Chain) (inside : Bool) (ready : Ready)
    (types : List Ty) (returns : List (List Instruction)) (lineage : Lineage)
    (waiting : List Lineage) (outer : List (List (Option Value)))
    (own below : List (Option Value)) : Prop where
  of : Lineage.Of chain lineage
  framed : inside = true → lineage.Framed
  bare : inside = false → lineage.Bare
  knows : lineage.Knows ready
  operands : Operands Γ types own
  waits : Waits Γ goals chain.function? returns waiting outer below

-- The running call and those that wait for it share the stack between them.
def Calls (Γ : Plan) (goals : Nat → Goal) (m : Mark) (returns : List (List Instruction))
    (lineages : List Lineage) (bases : List (List (Option Value))) (stack : List (Option Value)) :
    Prop :=
  ∃ lineage waiting outer own below, lineages = lineage :: waiting ∧ bases = below :: outer ∧
    stack = own ++ below ∧
    Running Γ goals m.chain m.inside m.ready m.stack returns lineage waiting outer own below

-- A core that is as a shape says.
structure Sound (Γ : Plan) (registers : Nat → Bool) (goals : Nat → Goal)
    (returns : List (List Instruction)) (c : Core World) (g : Trail) (σ : Shape) : Prop where
  deep : σ.inside = true → σ.chain.length ≤ Γ.outline.depths
  holds : σ.Holds Γ c g.compared
  memory : Memory Γ registers g.lineages c
  calls : Calls Γ goals σ.toMark returns g.lineages g.bases c.stack

-- A state of a checked program, its shape, and the part of the code up to its goal.
structure WellTyped (Γ : Plan) (registers : Nat → Bool) (goals : Nat → Goal) (k : Config World)
    (g : Trail) (σ : Shape) (s : List Instruction) : Prop where
  rest : k.rest = s ++ (goals k.returns.length).tail
  part : s <:+ (goals k.returns.length).segment
  checked : Check Γ (goals k.returns.length).final σ s
  sound : Sound Γ registers goals k.returns k.core g σ

end ScalarScript
