/-!
Observers: they watch a run and may stop it, and have a state of their own.
-/
namespace ScalarScript

inductive StepMode where
  | all | none | sampled | onLine
  deriving DecidableEq, Repr

structure ObserverConfig where
  mode : StepMode := .all
  -- the number of instructions between two steps that are sampled
  interval : Int := 1000
  calls : Bool := true
  returns : Bool := true
  deriving DecidableEq, Repr

-- A sampling interval is at least one.
def ObserverConfig.normalize (c : ObserverConfig) : ObserverConfig :=
  if c.mode = .sampled && c.interval ≤ 0 then { c with interval := 1 } else c

structure StepEvent where
  address : Int
  code : Nat
  mnemonic : String
  instruction : String
  line : Int
  stackDepth : Nat
  frameDepth : Nat
  deriving DecidableEq, Repr

structure CallEvent where
  function : String
  external : Bool
  line : Int
  frameDepth : Nat
  deriving DecidableEq, Repr

structure ReturnEvent where
  function : String
  line : Int
  frameDepth : Nat
  deriving DecidableEq, Repr

inductive Verdict where
  | proceed | halt
  | crash (message : String)
  deriving DecidableEq, Repr

structure Observer (Watch : Type) where
  config : ObserverConfig
  onStep : Watch → StepEvent → Watch × Verdict
  onCall : Watch → CallEvent → Watch × Verdict
  onReturn : Watch → ReturnEvent → Watch × Verdict

end ScalarScript
