/-!
Records of what the phases of a run report about themselves.
-/
namespace ScalarScript

inductive LogLevel where
  | debug | info | warn
  deriving DecidableEq, Repr

def LogLevel.name : LogLevel → String
  | .debug => "debug"
  | .info => "info"
  | .warn => "warn"

inductive LogValue where
  | int (n : Int)
  | text (s : String)
  deriving DecidableEq, Repr

structure LogRecord where
  level : LogLevel := .debug
  message : String
  fields : List (String × LogValue)
  deriving DecidableEq, Repr

end ScalarScript
