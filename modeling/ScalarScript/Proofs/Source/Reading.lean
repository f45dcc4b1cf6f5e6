import ScalarScript.Proofs.Source.Grammar
import ScalarScript.Proofs.Source.Names
/-!
The grammar of statements. A tree of statements is read from the words up to some rest, in a scope
that its declarations extend; an `else` belongs to the nearest `if`, and the step of a `for` sees
the names of the body that stands behind it.
-/
namespace ScalarScript

-- The place of statements: the loops around them, the function, and what an exit must yield.
structure Setting where
  -- where `break` goes, innermost loop first
  loops : List Int
  enclosing : Option Enclosing
  exitType : Option Ty

-- An expression whose operators get operands of their types.
structure ReadsValue (scope : Scope) (words : List Token) (e : Expr) (rest : List Token) :
    Prop where
  parses : Parses scope .choice words e rest
  typed : e.Typed

-- A condition between parentheses.
inductive ReadsTest (scope : Scope) : List Token → Expr → List Token → Prop where
  | parens {t u : Token} {e : Expr} {words rest : List Token} (opened : t.kind = .leftParen)
      (reads : ReadsValue scope words e (u :: rest)) (closed : u.kind = .rightParen)
      (boolean : e.type = .bool) : ReadsTest scope (t :: words) e rest

-- An assignment, or an expression computed for what it does.
inductive ReadsSimple (scope : Scope) : List Token → Stmt → List Token → Prop where
  | assign {t u : Token} {s : Symbol} {e : Expr} {words rest : List Token}
      (named : t.kind = .identifier) (assigns : u.kind = .assign)
      (found : scope.resolve? t.literal = some s) (plain : s.isFunction = false)
      (reads : ReadsValue scope words e rest) (accepted : Ty.accepts false s.type e.type = true) :
      ReadsSimple scope (t :: u :: words) (.assign s e) rest
  | expr {e : Expr} {words rest : List Token} (reads : ReadsValue scope words e rest) :
      ReadsSimple scope words (.expr e) rest

-- A name that is declared. It is hidden from its own initializer.
inductive ReadsName (scope : Scope) (type : Scalar) :
    List Token → Stmt → Symbol → List Token → Prop where
  | plain {t : Token} {rest : List Token} (named : t.kind = .identifier) :
      ReadsName scope type (t :: rest) (.declare type (scope.fresh t.literal type) none)
        (scope.fresh t.literal type) rest
  | filled {t u : Token} {e : Expr} {words rest : List Token} (named : t.kind = .identifier)
      (assigns : u.kind = .assign) (reads : ReadsValue (scope.claimed 1) words e rest)
      (accepted : Ty.accepts false type.ty e.type = true) :
      ReadsName scope type (t :: u :: words) (.declare type (scope.fresh t.literal type) (some e))
        (scope.fresh t.literal type) rest

-- Names of one type, with commas between them.
inductive ReadsNames (type : Scalar) :
    Scope → List Token → Stmt → Scope → List Token → Prop where
  | last {scope : Scope} {a : Stmt} {s : Symbol} {words rest : List Token}
      (reads : ReadsName scope type words a s rest) :
      ReadsNames type scope words a ((scope.claimed 1).adding [s]) rest
  | more {scope after : Scope} {a b : Stmt} {s : Symbol} {t : Token}
      {words middle rest : List Token} (reads : ReadsName scope type words a s (t :: middle))
      (comma : t.kind = .comma)
      (others : ReadsNames type ((scope.claimed 1).adding [s]) middle b after rest) :
      ReadsNames type scope words (.seq a b) after rest

-- The parameters of a function, up to the closing parenthesis.
inductive ReadsParams : List Token → List Compile.Param → List Token → Prop where
  | none {t : Token} {rest : List Token} (closed : t.kind = .rightParen) :
      ReadsParams (t :: rest) [] rest
  | last {t n u : Token} {type : Scalar} {rest : List Token} (typed : t.kind.scalar? = some type)
      (named : n.kind = .identifier) (closed : u.kind = .rightParen) :
      ReadsParams (t :: n :: u :: rest) [⟨n.literal, type, n.line⟩] rest
  | more {t n u : Token} {type : Scalar} {params : List Compile.Param} {words rest : List Token}
      (typed : t.kind.scalar? = some type) (named : n.kind = .identifier) (comma : u.kind = .comma)
      (others : ReadsParams words params rest) :
      ReadsParams (t :: n :: u :: words) (⟨n.literal, type, n.line⟩ :: params) rest

-- What stands before the first semicolon of a `for`.
inductive ReadsInit (scope : Scope) : List Token → Stmt → Scope → List Token → Prop where
  | none {words : List Token} : ReadsInit scope words .skip scope words
  | simple {a : Stmt} {words rest : List Token} (reads : ReadsSimple scope words a rest) :
      ReadsInit scope words a scope rest
  | names {t : Token} {type : Scalar} {a : Stmt} {after : Scope} {words rest : List Token}
      (typed : t.kind.scalar? = some type) (reads : ReadsNames type scope words a after rest) :
      ReadsInit scope (t :: words) a after rest

-- The condition of a `for`, which may be left out.
inductive ReadsGuard (scope : Scope) : List Token → Option Expr → List Token → Prop where
  | none {words : List Token} : ReadsGuard scope words none words
  | test {e : Expr} {words rest : List Token} (reads : ReadsValue scope words e rest)
      (boolean : e.type = .bool) : ReadsGuard scope words (some e) rest

inductive ReadsStep (scope : Scope) : List Token → Stmt → List Token → Prop where
  | none {words : List Token} : ReadsStep scope words .skip words
  | simple {a : Stmt} {words rest : List Token} (reads : ReadsSimple scope words a rest) :
      ReadsStep scope words a rest

-- The value of a `return` or an `exit`, which may be left out.
inductive ReadsResult (scope : Scope) (wanted : Option Ty) :
    List Token → Option Expr → List Token → Prop where
  | none {t : Token} {rest : List Token} (ended : t.kind = .semicolon) :
      ReadsResult scope wanted (t :: rest) none rest
  | value {t : Token} {e : Expr} {words rest : List Token}
      (reads : ReadsValue scope words e (t :: rest))
      (accepted : ∀ type ∈ wanted, Ty.accepts false type e.type = true)
      (ended : t.kind = .semicolon) : ReadsResult scope wanted words (some e) rest

-- One statement, or as many as there are.
inductive Phrase where
  | one | many
  deriving DecidableEq, Repr

-- The scope in the body of a function, around which the other one lies.
def Routine.scope (r : Routine) (outer : Scope) : Scope :=
  (Scope.claimed r.params.length ({ depth := r.depth } :: outer)).adding r.symbols

-- A tree that the words up to some rest stand for, and the scope behind it.
inductive Reads : Phrase → Setting → Scope → List Token → Stmt → Scope → List Token → Prop where
  | done {S : Setting} {scope : Scope} {words : List Token} :
      Reads .many S scope words .skip scope words
  | next {S : Setting} {scope middle after : Scope} {a b : Stmt} {words between rest : List Token}
      (first : Reads .one S scope words a middle between)
      (others : Reads .many S middle between b after rest) :
      Reads .many S scope words (.seq a b) after rest
  | empty {S : Setting} {scope : Scope} {t : Token} {rest : List Token}
      (ended : t.kind = .semicolon) : Reads .one S scope (t :: rest) .skip scope rest
  | block {S : Setting} {scope inner : Scope} {t u : Token} {a : Stmt} {words rest : List Token}
      (opened : t.kind = .leftBrace)
      (reads : Reads .many S (scope.top.block :: scope) words a inner (u :: rest))
      (closed : u.kind = .rightBrace) :
      Reads .one S scope (t :: words) (.block a) inner.tail rest
  | ifThen {S : Setting} {scope after : Scope} {t : Token} {e : Expr} {a : Stmt} {otherwise : Int}
      {words middle rest : List Token} (asks : t.kind = .kwIf)
      (test : ReadsTest scope words e middle) (whenTrue : Reads .one S scope middle a after rest)
      (alone : ∀ u ∈ rest.head?, u.kind ≠ .kwElse) :
      Reads .one S scope (t :: words) (.ifThen e a otherwise) after rest
  | ifElse {S : Setting} {scope between after : Scope} {t u : Token} {e : Expr} {a b : Stmt}
      {otherwise done : Int} {words first second rest : List Token} (asks : t.kind = .kwIf)
      (test : ReadsTest scope words e first)
      (whenTrue : Reads .one S scope first a between (u :: second)) (divides : u.kind = .kwElse)
      (whenFalse : Reads .one S between second b after rest) :
      Reads .one S scope (t :: words) (.ifElse e a b otherwise done) after rest
  | whileLoop {S : Setting} {scope after : Scope} {t : Token} {e : Expr} {a : Stmt}
      {top done : Int} {words middle rest : List Token} (starts : t.kind = .kwWhile)
      (test : ReadsTest scope words e middle)
      (body : Reads .one { S with loops := done :: S.loops } scope middle a after rest) :
      Reads .one S scope (t :: words) (.whileLoop e a top done) after rest
  | forLoop {S : Setting} {scope between after : Scope} {t u v w x : Token} {init a step : Stmt}
      {e : Option Expr} {top done : Int} {first second third fourth rest : List Token}
      (starts : t.kind = .kwFor) (opened : u.kind = .leftParen)
      (before : ReadsInit (scope.top.block :: scope) first init between (v :: second))
      (one : v.kind = .semicolon) (test : ReadsGuard between second e (w :: third))
      (two : w.kind = .semicolon) (onward : ReadsStep after third step (x :: fourth))
      (closed : x.kind = .rightParen)
      (body : Reads .one { S with loops := done :: S.loops } between fourth a after rest) :
      Reads .one S scope (t :: u :: first) (.forLoop init e a step top done) after.tail rest
  | loopWhile {S : Setting} {scope after : Scope} {t u v : Token} {a : Stmt} {e : Expr}
      {top done : Int} {words middle rest : List Token} (starts : t.kind = .kwLoop)
      (body : Reads .one { S with loops := done :: S.loops } scope words a after (u :: middle))
      (again : u.kind = .kwWhile) (test : ReadsTest after middle e (v :: rest))
      (ended : v.kind = .semicolon) :
      Reads .one S scope (t :: words) (.loopWhile a e top done) after rest
  | leave {S : Setting} {scope : Scope} {t u : Token} {done : Int} {outer : List Int}
      {rest : List Token} (leaves : t.kind = .kwBreak) (inside : S.loops = done :: outer)
      (ended : u.kind = .semicolon) : Reads .one S scope (t :: u :: rest) (.leave done) scope rest
  | yield {S : Setting} {scope : Scope} {t : Token} {f : Enclosing} {e : Option Expr}
      {words rest : List Token} (returns : t.kind = .kwReturn) (inside : S.enclosing = some f)
      (reads : ReadsResult scope (some f.returnType) words e rest) :
      Reads .one S scope (t :: words) (.yield e f.returnLabel) scope rest
  | exit {S : Setting} {scope : Scope} {t : Token} {e : Option Expr} {words rest : List Token}
      (exits : t.kind = .kwExit) (reads : ReadsResult scope S.exitType words e rest) :
      Reads .one S scope (t :: words) (.exit e) scope rest
  | declare {S : Setting} {scope after : Scope} {t u : Token} {type : Scalar} {a : Stmt}
      {words rest : List Token} (typed : t.kind.scalar? = some type)
      (reads : ReadsNames type scope words a after (u :: rest)) (ended : u.kind = .semicolon) :
      Reads .one S scope (t :: words) a after rest
  | function {S : Setting} {scope inner : Scope} {t n o b u : Token} {r : Routine} {body : Stmt}
      {words middle rest : List Token} (typed : t.kind.scalar? = some r.returnType)
      (named : n.kind = .identifier) (name : r.name = n.literal)
      (depth : r.depth = scope.top.depth + 1) (opened : o.kind = .leftParen)
      (params : ReadsParams words r.params (b :: middle)) (begins : b.kind = .leftBrace)
      (reads : Reads .many ⟨[], some r.enclosing, S.exitType⟩ (r.scope (scope.adding [r.symbol]))
        middle body inner (u :: rest))
      (ends : u.kind = .rightBrace) :
      Reads .one S scope (t :: n :: o :: words) (.function r body) (scope.adding [r.symbol]) rest
  | simple {S : Setting} {scope : Scope} {t : Token} {a : Stmt} {words rest : List Token}
      (reads : ReadsSimple scope words a (t :: rest)) (ended : t.kind = .semicolon) :
      Reads .one S scope words a scope rest

-- What stands in a block claims slots of the frame around it.
theorem Scope.tail_adding_claimed_block (t : Table) (scope : Scope) (n : Nat)
    (extra : List Symbol) :
    List.tail ((Scope.claimed n (t.block :: scope)).adding extra) = scope.claimed n := rfl

theorem ReadsSimple.count_eq {scope : Scope} {words rest : List Token} {a : Stmt}
    (reads : ReadsSimple scope words a rest) : a.count = 0 := by
  cases reads <;> rfl

theorem ReadsStep.count_eq {scope : Scope} {words rest : List Token} {a : Stmt}
    (reads : ReadsStep scope words a rest) : a.count = 0 := by
  cases reads with
  | none => rfl
  | simple reads => exact reads.count_eq

theorem ReadsName.count_eq {scope : Scope} {type : Scalar} {words rest : List Token} {a : Stmt}
    {s : Symbol} (reads : ReadsName scope type words a s rest) : a.count = 1 := by
  cases reads <;> rfl

theorem ReadsNames.scope_eq {type : Scalar} {scope after : Scope} {words rest : List Token}
    {a : Stmt} (reads : ReadsNames type scope words a after rest) :
    ∃ extra, after = (scope.claimed a.count).adding extra := by
  induction reads with
  | last reads => exact ⟨_, by rw [reads.count_eq]⟩
  | more reads _ _ others =>
    obtain ⟨extra, rfl⟩ := others
    exact ⟨_, by rw [Stmt.count, reads.count_eq, Scope.claimed_adding, Scope.claimed_claimed,
      Scope.adding_adding]⟩

theorem ReadsInit.scope_eq {scope after : Scope} {words rest : List Token} {a : Stmt}
    (reads : ReadsInit scope words a after rest) :
    ∃ extra, after = (scope.claimed a.count).adding extra := by
  cases reads with
  | none => exact ⟨[], by simp [Stmt.count]⟩
  | simple reads => exact ⟨[], by simp [reads.count_eq]⟩
  | names _ reads => exact reads.scope_eq

-- Statements claim the slots that they count, and add names to the innermost table at most.
theorem Reads.scope_eq {phrase : Phrase} {S : Setting} {scope after : Scope}
    {words rest : List Token} {t : Stmt} (reads : Reads phrase S scope words t after rest) :
    ∃ extra, after = (scope.claimed t.count).adding extra := by
  induction reads with
  | done | empty | leave | yield | exit => exact ⟨[], by simp [Stmt.count]⟩
  | next _ _ first others =>
    obtain ⟨extra, rfl⟩ := first
    obtain ⟨more, rfl⟩ := others
    exact ⟨_, by rw [Stmt.count, Scope.claimed_adding, Scope.claimed_claimed, Scope.adding_adding]⟩
  | block _ _ _ inner =>
    obtain ⟨extra, rfl⟩ := inner
    exact ⟨[], by rw [Scope.tail_adding_claimed_block, Scope.adding_nil, Stmt.count]⟩
  | ifThen _ _ _ _ inner => exact inner
  | ifElse _ _ _ _ _ first second =>
    obtain ⟨extra, rfl⟩ := first
    obtain ⟨more, rfl⟩ := second
    exact ⟨_, by rw [Stmt.count, Scope.claimed_adding, Scope.claimed_claimed, Scope.adding_adding]⟩
  | whileLoop _ _ _ inner => exact inner
  | forLoop _ _ before _ _ _ onward _ _ inner =>
    obtain ⟨extra, rfl⟩ := before.scope_eq
    obtain ⟨more, rfl⟩ := inner
    refine ⟨[], ?_⟩
    rw [Scope.claimed_adding, Scope.claimed_claimed, Scope.adding_adding,
      Scope.tail_adding_claimed_block, Scope.adding_nil, Stmt.count, onward.count_eq, Nat.add_zero]
  | loopWhile _ _ _ _ _ inner => exact inner
  | declare _ reads _ => exact reads.scope_eq
  | function => exact ⟨_, congrArg _ (Scope.claimed_zero _).symm⟩
  | simple reads _ => exact ⟨[], by simp [reads.count_eq]⟩

end ScalarScript
