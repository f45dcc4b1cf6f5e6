import ScalarScript.Compile.Expression
/-!
Code for statements, and for whole programs. Control flow becomes labels and jumps; the code of a
function stands where it is defined, behind a jump around it.

As with expressions, only `statement` refers to itself, and its argument bounds the nesting.
-/
namespace ScalarScript.Compile

def assignment (expr : Compile Ty) : Compile Unit := do
  let t ← token
  let name := t.literal
  match ← resolve? name with
  | none => failUndefined t.line name (.undefinedVariable name)
  | some symbol =>
    if symbol.isFunction then failAt t.line (.assignedFunction name)
    advance
    advance
    let exprLine ← line
    let type ← expr
    if !Ty.accepts false symbol.type type then
      failAt exprLine (.assigned type symbol.type name)
    emit (.move symbol.operand eax)

-- An assignment, or an expression computed for what it does.
def simple (expr : Compile Ty) : Compile Unit := do
  if (← token).kind = .identifier && (← get).following = .assign then assignment expr
  else discard expr

-- The names of a declaration, each with an optional initializer. A name is hidden until its
-- initializer is done, so that it can refer to an outer variable of the same name.
def declarators (expr : Compile Ty) (type : Scalar) : Nat → String → Nat → Compile Unit
  | 0, _, _ => fail .exhausted
  | steps + 1, name, nameLine => do
    let symbol ← onScope nameLine .declaration (·.reserve name type.ty)
    emit (.unary (.allocate type) symbol.operand)
    if ← accept .assign then
      let exprLine ← line
      let given ← expr
      if !Ty.accepts false type.ty given then
        failAt exprLine (.initializer type.ty name given)
      emit (.move symbol.operand eax)
    discard (onScope nameLine .declaration fun s => do return (symbol, ← s.define symbol))
    if ← accept .comma then
      let nextLine ← line
      let next ← expectName
      declarators expr type steps next nextLine

structure Param where
  name : String
  type : Scalar
  line : Nat

-- The parameters between the parentheses, the first in reach.
def parameters : Nat → Compile (List Param)
  | 0 => fail .exhausted
  | steps + 1 => do
    let t ← token
    match t.kind.scalar? with
    | none => fail (.expectedParameter t)
    | some type =>
      advance
      let nameLine ← line
      let name ← expectName
      let param : Param := ⟨name, type, nameLine⟩
      if ← accept .comma then return param :: (← parameters steps)
      else return [param]

-- The same where there may be none.
def parameterList (steps : Nat) : Compile (List Param) := do
  if (← token).kind = .rightParen then return [] else parameters steps

-- Declares and allocates the parameters.
def bindParams : List Param → Compile (List Operand)
  | [] => return []
  | p :: rest => do
    let symbol ← onScope p.line .declaration (·.declare p.name p.type.ty)
    emit (.unary (.allocate p.type) symbol.operand)
    return symbol.operand :: (← bindParams rest)

-- Statements up to the closing brace, which stays in reach.
def statements (statement : Compile Unit) (missing : CompileFault) : Nat → Compile Unit
  | 0 => fail .exhausted
  | steps + 1 => do
    match (← token).kind with
    | .rightBrace => return ()
    | .finish => fail missing
    | _ =>
      statement
      statements statement missing steps

-- Runs inside a function body: its own return label, and none of the loops around it.
def inFunction {α : Type} (f : Enclosing) (act : Compile α) : Compile α := do
  let outer ← get
  modify fun c => { c with enclosing := some f, loops := [] }
  let a ← act
  modify fun c => { c with enclosing := outer.enclosing, loops := outer.loops }
  return a

-- The code of a function from its entry to its end, in the scope of its own frame. Parameters are
-- popped last first. Yields the number of slots of the frame.
def functionBody (statement : Compile Unit) (steps : Nat) (params : List Param) (f : Enclosing)
    (skip : Int) : Compile Nat := do
  let depth := (← innermost).depth
  emit (.pushScope depth 0)
  let frame ← lastIndex
  let slots ← bindParams params
  slots.reverse.forM fun slot => emit (.pop slot)
  inFunction f do
    expect .leftBrace
    statements statement (.missingFunctionBrace f.name) steps
  emit (.move eax .null)
  emitLabel f.returnLabel
  emit (.popScope depth)
  emit (.plain .ret)
  emitLabel skip
  let size := (← get).scope.count
  amend frame (.pushScope depth size)
  return size

-- A function definition; the current token is the parenthesis after its name. The name is known
-- before the body, so that the function can call itself.
def function (statement : Compile Unit) (steps : Nat) (returnType : Scalar) (name : String)
    (nameLine : Nat) : Compile Unit := do
  advance
  let params ← parameterList steps
  expect .rightParen
  let skip ← freshLabel
  let entry ← freshLabel
  let returnLabel ← freshLabel
  discard (onScope nameLine .declaration
    (·.declareFunction name entry (params.map (·.type.ty)) returnType.ty))
  emitJump .jump skip
  emitLabel entry
  let table := (← innermost).child
  let size ← within table
    (functionBody statement steps params ⟨name, returnType.ty, returnLabel⟩ skip)
  advance
  report
    { message := "compiled function"
      fields := [("function", .text name), ("depth", .int table.depth), ("slots", .int size),
        ("params", .int params.length), ("entry", .int entry), ("return", .int returnLabel)] }

-- A declaration of variables, or of a function where one may stand. Tells whether it was one.
def declaration (statement : Compile Unit) (expr : Compile Ty) (steps : Nat)
    (allowFunction : Bool) (type : Scalar) : Compile Bool := do
  advance
  let nameLine ← line
  let name ← expectName
  if (← token).kind = .leftParen then
    if !allowFunction then fail (.functionElsewhere name)
    function statement steps type name nameLine
    return true
  else
    declarators expr type steps name nameLine
    return false

-- A condition between parentheses, tested before the closing one is passed.
def condition (expr : Compile Ty) : Compile Unit := do
  expect .leftParen
  let conditionLine ← line
  let type ← expr
  if !Ty.accepts true .bool type then failAt conditionLine (.condition type)
  emit (.unary .test eax)
  expect .rightParen

def conditional (statement : Compile Unit) (expr : Compile Ty) : Compile Unit := do
  advance
  condition expr
  let otherwise ← freshLabel
  emitJump (.jumpIf .equal) otherwise
  statement
  if (← token).kind ≠ .kwElse then emitLabel otherwise
  else
    advance
    let done ← freshLabel
    emitJump .jump done
    emitLabel otherwise
    statement
    emitLabel done

def loopBody (statement : Compile Unit) (done : Int) : Compile Unit := do
  modify fun c => { c with loops := done :: c.loops }
  statement
  modify fun c => { c with loops := c.loops.tail }

def whileLoop (statement : Compile Unit) (expr : Compile Ty) : Compile Unit := do
  advance
  let top ← freshLabel
  let done ← freshLabel
  emitLabel top
  condition expr
  emitJump (.jumpIf .equal) done
  loopBody statement done
  emitJump .jump top
  emitLabel done

-- Passes over the step clause of a `for`, up to the parenthesis that closes it.
def skipStep : Nat → Nat → Compile Unit
  | 0, _ => fail .exhausted
  | steps + 1, nesting => do
    match (← token).kind with
    | .finish => fail .unclosedStep
    | .leftParen => advance; skipStep steps (nesting + 1)
    | .rightParen =>
      if nesting = 0 then return ()
      advance
      skipStep steps (nesting - 1)
    | _ => advance; skipStep steps nesting

def forInit (statement : Compile Unit) (expr : Compile Ty) (steps : Nat) : Compile Unit := do
  let t ← token
  match t.kind.scalar? with
  | some type => discard (declaration statement expr steps false type)
  | none => if t.kind ≠ .semicolon then simple expr

def forCondition (expr : Compile Ty) (done : Int) : Compile Unit := do
  if (← token).kind ≠ .semicolon then
    let conditionLine ← line
    let type ← expr
    if !Ty.accepts true .bool type then failAt conditionLine (.condition type)
    emit (.unary .test eax)
    emitJump (.jumpIf .equal) done

def forStep (expr : Compile Ty) : Compile Unit := do
  if (← token).kind ≠ .rightParen then
    simple expr
    let t ← token
    if t.kind ≠ .rightParen then fail (.expectedStepEnd t)

-- The step clause is passed over first and compiled behind the body, by going back to it.
def forLoop (statement : Compile Unit) (expr : Compile Ty) (steps : Nat) : Compile Unit := do
  advance
  expect .leftParen
  within (← innermost).block do
    forInit statement expr steps
    expect .semicolon
    let top ← freshLabel
    let done ← freshLabel
    emitLabel top
    forCondition expr done
    expect .semicolon
    let step := (← get).ahead
    skipStep steps 0
    advance
    loopBody statement done
    let resume := (← get).ahead
    seek step
    forStep expr
    seek resume
    emitJump .jump top
    emitLabel done

def loopWhile (statement : Compile Unit) (expr : Compile Ty) : Compile Unit := do
  advance
  let top ← freshLabel
  let done ← freshLabel
  emitLabel top
  loopBody statement done
  expect .kwWhile
  condition expr
  emitJump (.jumpIf .notEqual) top
  expect .semicolon
  emitLabel done

def breakLoop : Compile Unit := do
  match (← get).loops with
  | [] => fail .breakOutside
  | done :: _ =>
    advance
    expect .semicolon
    emitJump .jump done

def returnValue (expr : Compile Ty) : Compile Unit := do
  match (← get).enclosing with
  | none => fail .returnOutside
  | some f =>
    advance
    if (← token).kind = .semicolon then emit (.move eax .null)
    else
      let exprLine ← line
      let type ← expr
      if !Ty.accepts false f.returnType type then
        failAt exprLine (.returned f.name f.returnType type)
    expect .semicolon
    emitJump .jump f.returnLabel

def exitProgram (expr : Compile Ty) : Compile Unit := do
  advance
  if (← token).kind = .semicolon then
    emit (.unary .exit .null)
    advance
  else
    let exprLine ← line
    let type ← expr
    match (← get).exitType with
    | some wanted => if !Ty.accepts false wanted type then failAt exprLine (.exited wanted type)
    | none => pure ()
    emit (.unary .exit eax)
    expect .semicolon

def block (statement : Compile Unit) (steps : Nat) : Compile Unit := do
  advance
  within (← innermost).block do
    statements statement .missingBrace steps
    advance

-- One statement, by its first token.
def statementBy (self : Compile Unit) (expr : Compile Ty) (steps : Nat) : Compile Unit := do
  let kind := (← token).kind
  match kind with
  | .leftBrace => block self steps
  | .kwIf => conditional self expr
  | .kwWhile => whileLoop self expr
  | .kwFor => forLoop self expr steps
  | .kwLoop => loopWhile self expr
  | .kwBreak => breakLoop
  | .kwReturn => returnValue expr
  | .kwExit => exitProgram expr
  | .semicolon => advance
  | .rightBrace => fail .unexpectedBrace
  | _ =>
    match kind.scalar? with
    | some type => if !(← declaration self expr steps true type) then expect .semicolon
    | none =>
      simple expr
      expect .semicolon

-- A statement nested at most that deeply.
def statement : Nat → Compile Unit
  | 0 => fail .exhausted
  | depth + 1 => statementBy (statement depth) (expression depth) depth

-- Statements up to the end of the source.
def topLevel (statement : Compile Unit) : Nat → Compile Unit
  | 0 => fail .exhausted
  | steps + 1 => do
    if (← token).kind ≠ .finish then
      statement
      topLevel statement steps

-- Host names take the slots of depth 0 in the order given.
def declareHost (d : Declaration) : Compile Unit :=
  discard (onScope 0 .binding fun s =>
    if d.type = .function then s.declareHostFunction d.name d.params d.returnType
    else s.declare d.name d.type)

-- The top level is a body of its own at depth 1, between a frame and a final exit. An empty frame
-- is left out. After an error the table of the top level stays in scope.
def program (tokens : List Token) (declarations : List Declaration) : Compile Unit := do
  declarations.forM declareHost
  place (.scopeDepth 0)
  place (.pushScope 1 0)
  let steps := tokens.length + 3
  enter (← innermost).child
  seek tokens
  topLevel (statement steps) steps
  emit (.unary .exit .null)
  let size := (← get).scope.count
  leave
  let depths := (← get).maxDepth + 1
  amend 0 (.scopeDepth depths)
  if 0 < size then amend 1 (.pushScope 1 size)
  else modify fun c =>
    { c with program := { c.program with code := c.program.code.eraseIdxIfInBounds 1 } }
  report
    { message := "compiled program"
      fields := [("scope_depth", .int depths), ("top_level_slots", .int size),
        ("instructions", .int (← get).program.size)] }

end ScalarScript.Compile

namespace ScalarScript

-- What a compilation leaves behind, whether it succeeded or not.
structure Compilation where
  error : Option CompileError
  -- partial after an error
  program : Program
  -- the table in use at the end
  scope : Scope
  maxDepth : Nat
  log : List LogRecord

-- Compiles tokens. After an error the table in use is that of the top level, if it was reached.
def compileTokens (tokens : List Token) (declarations : List Declaration) (exitType : Option Ty) :
    Compilation :=
  match Compile.program tokens declarations (Compiler.start tokens exitType) with
  | .ok _ c => ⟨none, c.program, c.scope, c.maxDepth, c.log.reverse⟩
  | .error e c => ⟨some e, c.program, c.scope, c.maxDepth, c.log.reverse⟩

end ScalarScript
