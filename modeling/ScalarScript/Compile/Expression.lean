import ScalarScript.Compile.State
import ScalarScript.Number.Numeral
/-!
Code for expressions. Every expression leaves its value in `eax` and yields its static type. A
binary operator keeps its left operand on the stack while the right one is computed, and combines
`eax` with `ebx`.

Each level of the grammar takes the next one as a parameter, and only `expression` refers to
itself: its argument bounds the nesting, and the number of tokens is always enough.
-/
namespace ScalarScript.Compile

def eax : Operand := .register .eax

def ebx : Operand := .register .ebx

-- Moves a constant into `eax`.
def loadValue (v : Value) : Compile Unit := emit (.move eax (.ofValue v))

-- The arguments of a call, each pushed once it is computed. Yields their number.
def arguments (self : Compile Ty) (name : String) (params : List Ty) : Nat → Nat → Compile Nat
  | 0, _ => fail .exhausted
  | steps + 1, count => do
    let argLine ← line
    let type ← self
    match params[count]? with
    | none => failAt argLine (.tooManyArguments name params.length)
    | some wanted =>
      if !Ty.accepts false wanted type then
        failAt argLine (.argument (count + 1) name wanted type)
      emit (.push eax)
      if ← accept .comma then arguments self name params steps (count + 1)
      else return count + 1

def call (self : Compile Ty) (steps : Nat) : Compile Ty := do
  let start ← token
  let name := start.literal
  match ← resolve? name with
  | none => failUndefined start.line name (.undefinedFunction name)
  | some symbol =>
    if !symbol.isFunction then fail (.notFunction name symbol.type)
    advance
    advance
    let wanted := symbol.params.length
    let count ← if (← token).kind = .rightParen then pure 0
      else arguments self name symbol.params steps 0
    expect .rightParen
    if count ≠ wanted then failAt start.line (.notEnoughArguments name wanted count)
    if symbol.isExternal then emit (.hostCall symbol.index name)
    else emit (.call symbol.label name)
    return symbol.returnType

def primary (self : Compile Ty) (steps : Nat) : Compile Ty := do
  let t ← token
  match t.kind with
  | .number =>
    match Number.parse? t.literal with
    | none => fail (.invalidNumber t.literal)
    | some x =>
      advance
      loadValue (.number x)
      return .double
  | .string =>
    advance
    loadValue (.text t.literal)
    return .string
  | .kwTrue | .kwFalse =>
    advance
    loadValue (.truth (t.kind = .kwTrue))
    return .bool
  | .kwNull =>
    advance
    loadValue .null
    return .null
  | .leftParen =>
    advance
    let type ← self
    expect .rightParen
    return type
  | .identifier =>
    if (← get).following = .leftParen then call self steps
    else match ← resolve? t.literal with
      | none => failUndefined t.line t.literal (.undefinedVariable t.literal)
      | some symbol =>
        if symbol.isFunction then fail (.functionAsValue t.literal)
        advance
        emit (.move eax symbol.operand)
        return symbol.type
  | _ => fail (.unexpected t)

def unary (primary : Compile Ty) : Nat → Compile Ty
  | 0 => fail .exhausted
  | steps + 1 => do
    let t ← token
    match t.kind with
    | .minus =>
      advance
      let type ← unary primary steps
      if !Ty.accepts true .double type then failAt t.line (.negated type)
      emit (.unary (.unary .negate) eax)
      return .double
    | .bang =>
      advance
      let type ← unary primary steps
      if !Ty.accepts true .bool type then failAt t.line (.inverted type)
      emit (.unary (.unary .not) eax)
      return .bool
    | _ => primary

-- The right operand of a binary operator, while the left one waits on the stack. Afterwards the
-- left one is in `eax` and the right one in `ebx`. Yields the right one's type and line.
def rightOperand (operand : Compile Ty) : Compile (Ty × Nat) := do
  emit (.push eax)
  let rightLine ← line
  let type ← operand
  emit (.move ebx eax)
  emit (.pop eax)
  return (type, rightLine)

-- Any number of numeric operators of one level, grouped to the left.
def arithmeticTail (ops : Kind → Option BinaryOp) (operand : Compile Ty) (leftLine : Nat) :
    Nat → Ty → Compile Ty
  | 0, _ => fail .exhausted
  | steps + 1, left => do
    let operator := (← token).kind
    match ops operator with
    | none => return left
    | some op =>
      advance
      let (right, rightLine) ← rightOperand operand
      if !Ty.accepts true .double left then failAt leftLine (.numericOperand operator left)
      if !Ty.accepts true .double right then failAt rightLine (.numericOperand operator right)
      emit (.binary (.binary op) eax ebx)
      arithmeticTail ops operand leftLine steps left

def arithmetic (ops : Kind → Option BinaryOp) (operand : Compile Ty) (steps : Nat) :
    Compile Ty := do
  let leftLine ← line
  arithmeticTail ops operand leftLine steps (← operand)

def powers : Kind → Option BinaryOp
  | .caret => some .pow
  | _ => none

def products : Kind → Option BinaryOp
  | .star => some .mul
  | .slash => some .div
  | .percent => some .mod
  | _ => none

-- Plus adds numbers or joins texts, as the left operand decides; minus subtracts numbers.
def sumOp (operator : Kind) (leftLine : Nat) (left : Ty) : Compile BinaryOp := do
  if operator = .plus then
    match left with
    | .double => return .add
    | .string => return .concat
    | _ => failAt leftLine (.plusOperand left)
  else if !Ty.accepts true .double left then failAt leftLine (.numericOperand operator left)
  else return .sub

def sumTail (operand : Compile Ty) (leftLine : Nat) : Nat → Ty → Compile Ty
  | 0, _ => fail .exhausted
  | steps + 1, left => do
    let operator := (← token).kind
    if operator = .plus || operator = .minus then
      advance
      let (right, rightLine) ← rightOperand operand
      let op ← sumOp operator leftLine left
      if !Ty.accepts true left right then
        failAt rightLine (.unequalOperands operator left right)
      emit (.binary (.binary op) eax ebx)
      sumTail operand leftLine steps left
    else return left

def sum (operand : Compile Ty) (steps : Nat) : Compile Ty := do
  let leftLine ← line
  sumTail operand leftLine steps (← operand)

def comparison? : Kind → Option Condition
  | .equal => some .equal
  | .notEqual => some .notEqual
  | .greater => some .above
  | .greaterEqual => some .aboveEqual
  | .less => some .below
  | .lessEqual => some .belowEqual
  | _ => none

-- Equality compares values of one type, a null with anything; an order needs numbers.
def checkComparison (operator : Kind) (leftLine : Nat) (left : Ty) (rightLine : Nat) (right : Ty) :
    Compile Unit := do
  if operator = .equal || operator = .notEqual then
    if !Ty.accepts false left right then failAt leftLine (.comparedTypes left operator right)
  else
    if !Ty.accepts true .double left then failAt leftLine (.numericOperand operator left)
    if !Ty.accepts true .double right then failAt rightLine (.numericOperand operator right)

def comparisonTail (operand : Compile Ty) (leftLine : Nat) : Nat → Ty → Compile Ty
  | 0, _ => fail .exhausted
  | steps + 1, left => do
    let operator := (← token).kind
    match comparison? operator with
    | none => return left
    | some condition =>
      advance
      let (right, rightLine) ← rightOperand operand
      checkComparison operator leftLine left rightLine right
      emit (.binary .compare eax ebx)
      emit (.unary (.setIf condition) eax)
      comparisonTail operand leftLine steps .bool

def comparison (operand : Compile Ty) (steps : Nat) : Compile Ty := do
  let leftLine ← line
  comparisonTail operand leftLine steps (← operand)

-- `&&` and `||` skip the right operand when the left one settles the outcome.
structure Logical where
  operator : Kind
  op : BinaryOp
  -- taken when the left operand settles it
  skip : Condition

def conjunctionRule : Logical := ⟨.and, .and, .equal⟩

def disjunctionRule : Logical := ⟨.or, .or, .notEqual⟩

def logicalTail (rule : Logical) (operand : Compile Ty) : Nat → Nat → Ty → Compile Ty
  | 0, _, _ => fail .exhausted
  | steps + 1, leftLine, left => do
    if (← token).kind = rule.operator then
      if !Ty.accepts true .bool left then failAt leftLine (.logicalOperand rule.operator left)
      let done ← freshLabel
      emit (.unary .test eax)
      emitJump (.jumpIf rule.skip) done
      emit (.push eax)
      advance
      let rightLine ← line
      let right ← operand
      if !Ty.accepts true .bool right then failAt rightLine (.logicalOperand rule.operator right)
      emit (.move ebx eax)
      emit (.pop eax)
      emit (.binary (.binary rule.op) eax ebx)
      emitLabel done
      logicalTail rule operand steps rightLine .bool
    else return left

def logical (rule : Logical) (operand : Compile Ty) (steps : Nat) : Compile Ty := do
  let leftLine ← line
  logicalTail rule operand steps leftLine (← operand)

-- The levels from the tightest to the loosest.
def operatorLevels (self : Compile Ty) (steps : Nat) : Compile Ty :=
  let unary := unary (primary self steps) steps
  let power := arithmetic powers unary steps
  let product := arithmetic products power steps
  let sum := sum product steps
  let comparison := comparison sum steps
  let conjunction := logical conjunctionRule comparison steps
  logical disjunctionRule conjunction steps

-- A choice between two expressions of one type, a null going with any.
def ternary (self : Compile Ty) (steps : Nat) : Compile Ty := do
  let conditionLine ← line
  let condition ← operatorLevels self steps
  if (← token).kind ≠ .question then return condition
  if !Ty.accepts true .bool condition then failAt conditionLine (.ternaryCondition condition)
  let otherwise ← freshLabel
  let done ← freshLabel
  emit (.unary .test eax)
  emitJump (.jumpIf .equal) otherwise
  advance
  let whenTrue ← self
  expect .colon
  emitJump .jump done
  emitLabel otherwise
  let falseLine ← line
  let whenFalse ← self
  emitLabel done
  if !Ty.accepts false whenTrue whenFalse then
    failAt falseLine (.ternaryBranches whenTrue whenFalse)
  return if whenTrue = .null then whenFalse else whenTrue

-- An expression nested at most that deeply.
def expression : Nat → Compile Ty
  | 0 => fail .exhausted
  | depth + 1 => ternary (expression depth) depth

end ScalarScript.Compile
