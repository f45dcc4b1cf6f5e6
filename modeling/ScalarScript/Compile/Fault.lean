import ScalarScript.Diagnostic.Code
import ScalarScript.Scope.Chain
import ScalarScript.Text.LowerCase
import ScalarScript.Token.Basic
/-!
What the compiler can object to.
-/
namespace ScalarScript

-- How messages name a kind of token that was expected.
def Kind.describe : Kind → String
  | .identifier => "identifier"
  | .number => "number"
  | .string => "string literal"
  | .finish => "end of input"
  | k =>
    match k.name.toList with
    | c :: _ => if c.isUpper then "keyword " ++ Text.lower k.name else "'" ++ k.name ++ "'"
    | [] => "'" ++ k.name ++ "'"

-- How messages name a token that was found.
def Token.describe (t : Token) : String :=
  match t.kind with
  | .finish => "end of input"
  | .string => "string " ++ Text.quote t.literal
  | .identifier | .number => Text.quote t.literal
  | _ => "'" ++ t.literal ++ "'"

inductive CompileFault where
  | expected (kind : Kind) (found : Token)
  | expectedParameter (found : Token)
  | expectedStepEnd (found : Token)
  | unexpected (found : Token)
  | unexpectedBrace
  | invalidNumber (literal : String)
  | functionElsewhere (name : String)
  | unclosedStep
  | missingBrace
  | missingFunctionBrace (name : String)
  | undefinedVariable (name : String)
  | undefinedFunction (name : String)
  | breakOutside
  | returnOutside
  | declaration (e : SymbolError)
  | binding (e : SymbolError)
  | functionAsValue (name : String)
  | notFunction (name : String) (type : Ty)
  | tooManyArguments (name : String) (wanted : Nat)
  | notEnoughArguments (name : String) (wanted given : Nat)
  | assignedFunction (name : String)
  | ternaryCondition (type : Ty)
  | ternaryBranches (whenTrue whenFalse : Ty)
  | logicalOperand (operator : Kind) (type : Ty)
  | comparedTypes (left : Ty) (operator : Kind) (right : Ty)
  | numericOperand (operator : Kind) (type : Ty)
  | plusOperand (type : Ty)
  | unequalOperands (operator : Kind) (left right : Ty)
  | negated (type : Ty)
  | inverted (type : Ty)
  | argument (position : Nat) (name : String) (wanted given : Ty)
  | initializer (wanted : Ty) (name : String) (given : Ty)
  | assigned (given wanted : Ty) (name : String)
  | condition (type : Ty)
  | returned (name : String) (wanted given : Ty)
  | exited (wanted given : Ty)
  -- The bound on the depth of recursion; it is larger than any source can need.
  | exhausted
  deriving DecidableEq, Repr

namespace CompileFault

def code : CompileFault → Code
  | expected .. | expectedParameter _ | expectedStepEnd _ | unexpected _ | unexpectedBrace
  | invalidNumber _ | functionElsewhere _ | unclosedStep => .unexpectedToken
  | missingBrace | missingFunctionBrace _ => .unclosedBlock
  | undefinedVariable _ => .undefinedVariable
  | undefinedFunction _ => .undefinedFunction
  | breakOutside => .invalidBreak
  | returnOutside => .invalidReturn
  | declaration _ | binding _ => .duplicateDeclaration
  | notFunction .. => .notFunction
  | tooManyArguments .. | notEnoughArguments .. => .argumentCount
  | assignedFunction _ => .invalidTarget
  | exhausted => .none
  | _ => .typeMismatch

def message : CompileFault → String
  | expected kind found => s!"expected {kind.describe}, found {found.describe}"
  | expectedParameter found => s!"expected parameter type, found {found.describe}"
  | expectedStepEnd found => s!"expected ')', found {found.describe}"
  | unexpected found => s!"unexpected {found.describe}"
  | unexpectedBrace => "unexpected '\x7d'"
  | invalidNumber literal => s!"invalid number {Text.quote literal}"
  | functionElsewhere name => s!"function {Text.quote name} cannot be defined here"
  | unclosedStep => "expected ')' to close for clause"
  | missingBrace => "missing closing brace"
  | missingFunctionBrace name => s!"missing closing brace for function {Text.quote name}"
  | undefinedVariable name => s!"undefined variable {Text.quote name}"
  | undefinedFunction name => s!"undefined function {Text.quote name}"
  | breakOutside => "break outside of a loop"
  | returnOutside => "return outside of a function"
  | declaration e => e.message
  | binding e => "binding " ++ e.message
  | functionAsValue name => s!"function {Text.quote name} cannot be used as a value"
  | notFunction name type => s!"{Text.quote name} is a {type.name}, not a function"
  | tooManyArguments name wanted => s!"too many arguments to {Text.quote name} (expected {wanted})"
  | notEnoughArguments name wanted given =>
    s!"not enough arguments to {Text.quote name} (expected {wanted}, got {given})"
  | assignedFunction name => s!"cannot assign to function {Text.quote name}"
  | ternaryCondition type => s!"ternary condition must be bool, got {type.name}"
  | ternaryBranches a b => s!"ternary branches disagree: {a.name} and {b.name}"
  | logicalOperand operator type =>
    s!"operator {operator.name} requires bool operands, got {type.name}"
  | comparedTypes a operator b => s!"cannot compare {a.name} {operator.name} {b.name}"
  | numericOperand operator type =>
    s!"operator {operator.name} requires double operands, got {type.name}"
  | plusOperand type => s!"operator + requires double or string operands, got {type.name}"
  | unequalOperands operator a b =>
    s!"operator {operator.name} requires matching operands, got {a.name} and {b.name}"
  | negated type => s!"unary - requires a double, got {type.name}"
  | inverted type => s!"operator ! requires a bool, got {type.name}"
  | argument position name wanted given =>
    s!"argument {position} of {Text.quote name} must be {wanted.name}, got {given.name}"
  | initializer wanted name given =>
    s!"cannot initialize {wanted.name} {Text.quote name} with {given.name}"
  | assigned given wanted name => s!"cannot assign {given.name} to {wanted.name} {Text.quote name}"
  | condition type => s!"condition must be bool, got {type.name}"
  | returned name wanted given =>
    s!"function {Text.quote name} returns {wanted.name}, not {given.name}"
  | exited wanted given => s!"exit type must be {wanted.name}, got {given.name}"
  | exhausted => "source is nested too deeply"

end CompileFault

end ScalarScript
