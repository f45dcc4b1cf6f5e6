/-!
Error codes and their short descriptions. The digit after the letter tells the phase.
-/
namespace ScalarScript

structure Code where
  text : String
  deriving DecidableEq, Repr

namespace Code

-- No code at all.
def none : Code := ⟨""⟩

def unknownSymbol : Code := ⟨"E1001"⟩
def unterminatedString : Code := ⟨"E1002"⟩
def invalidNumber : Code := ⟨"E1008"⟩
def invalidEscape : Code := ⟨"E1010"⟩
def incompleteOperator : Code := ⟨"E1011"⟩
def unterminatedComment : Code := ⟨"E1012"⟩
def undefinedVariable : Code := ⟨"E2001"⟩
def undefinedFunction : Code := ⟨"E2002"⟩
def invalidBreak : Code := ⟨"E2003"⟩
def invalidReturn : Code := ⟨"E2005"⟩
def duplicateDeclaration : Code := ⟨"E2006"⟩
def unexpectedToken : Code := ⟨"E2011"⟩
def typeMismatch : Code := ⟨"E2012"⟩
def notFunction : Code := ⟨"E2013"⟩
def argumentCount : Code := ⟨"E2014"⟩
def invalidTarget : Code := ⟨"E2015"⟩
def unclosedBlock : Code := ⟨"E2016"⟩
def typeError : Code := ⟨"E3001"⟩
def nullOperand : Code := ⟨"E3005"⟩
def callOverflow : Code := ⟨"E3006"⟩
def invalidOperation : Code := ⟨"E3007"⟩
def instructionLimit : Code := ⟨"E3008"⟩
def cancelled : Code := ⟨"E3009"⟩
def hostFailure : Code := ⟨"E3010"⟩
def constantAssignment : Code := ⟨"E3011"⟩
def stackUnderflow : Code := ⟨"E3012"⟩
def duplicateLabel : Code := ⟨"E4001"⟩
def undefinedLabel : Code := ⟨"E4002"⟩

def descriptions : List (Code × String) :=
  [(unknownSymbol, "unknown symbol"),
   (unterminatedString, "unterminated string literal"),
   (invalidNumber, "invalid number literal"),
   (invalidEscape, "invalid escape sequence"),
   (incompleteOperator, "incomplete operator"),
   (unterminatedComment, "unterminated block comment"),
   (undefinedVariable, "undefined variable"),
   (undefinedFunction, "undefined function"),
   (invalidBreak, "invalid break statement"),
   (invalidReturn, "invalid return statement"),
   (duplicateDeclaration, "duplicate declaration"),
   (unexpectedToken, "unexpected token"),
   (typeMismatch, "type mismatch"),
   (notFunction, "not a function"),
   (argumentCount, "wrong argument count"),
   (invalidTarget, "invalid assignment target"),
   (unclosedBlock, "unclosed block"),
   (typeError, "type error"),
   (nullOperand, "null operand"),
   (callOverflow, "call stack overflow"),
   (invalidOperation, "invalid operation"),
   (instructionLimit, "instruction limit exceeded"),
   (cancelled, "execution cancelled"),
   (hostFailure, "external function failed"),
   (constantAssignment, "assignment to constant"),
   (stackUnderflow, "stack underflow"),
   (duplicateLabel, "duplicate label"),
   (undefinedLabel, "undefined label")]

def description (c : Code) : String := (descriptions.lookup c).getD "unknown error"

-- The phase that raises the error, read off the second byte of the code.
def category (c : Code) : String :=
  match c.text.toList with
  | a :: d :: _ =>
    if 128 ≤ a.toNat then "unknown"
    else match d with
      | '1' => "lexical"
      | '2' => "compile"
      | '3' => "runtime"
      | '4' => "link"
      | _ => "unknown"
  | _ => "unknown"

end Code

end ScalarScript
