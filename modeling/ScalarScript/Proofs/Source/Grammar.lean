import ScalarScript.Proofs.Source.Tree
/-!
The grammar of expressions: a ladder of levels, from names and literals up to choices. Operators of
one level group to the left, choices nest to the right, and every level is made of the one below.
-/
namespace ScalarScript

inductive Level where
  | primary | unary | power | product | sum | comparison | conjunction | disjunction | choice
  deriving DecidableEq, Repr

namespace Level

-- The next tighter level.
def below : Level → Option Level
  | primary => none
  | unary => some primary
  | power => some unary
  | product => some power
  | sum => some product
  | comparison => some sum
  | conjunction => some comparison
  | disjunction => some conjunction
  | choice => some disjunction

-- What an operator of the level makes of two operands.
inductive Joins : Level → Kind → Expr → Expr → Expr → Prop where
  | power {k : Kind} {op : BinaryOp} {a b : Expr} (known : Compile.powers k = some op) :
      Joins power k a b (.binary op a b)
  | product {k : Kind} {op : BinaryOp} {a b : Expr} (known : Compile.products k = some op) :
      Joins product k a b (.binary op a b)
  | add {a b : Expr} (numeric : a.type = .double) : Joins sum .plus a b (.binary .add a b)
  | concat {a b : Expr} (textual : a.type = .string) : Joins sum .plus a b (.binary .concat a b)
  | sub {a b : Expr} : Joins sum .minus a b (.binary .sub a b)
  | comparison {k : Kind} {c : Condition} {a b : Expr} (known : Compile.comparison? k = some c) :
      Joins comparison k a b (.compare c a b)
  | conjunction {a b : Expr} {done : Int} : Joins conjunction .and a b (.logical .and a b done)
  | disjunction {a b : Expr} {done : Int} : Joins disjunction .or a b (.logical .or a b done)

end Level

mutual

-- A tree that the words up to some rest stand for, where names mean what the scope says.
inductive Parses (scope : Scope) : Level → List Token → Expr → List Token → Prop where
  | number {t : Token} {x : Float} {rest : List Token} (kind : t.kind = .number)
      (read : Number.parse? t.literal = some x) :
      Parses scope .primary (t :: rest) (.constant (.number x)) rest
  | string {t : Token} {rest : List Token} (kind : t.kind = .string) :
      Parses scope .primary (t :: rest) (.constant (.text t.literal)) rest
  | truth {t : Token} {rest : List Token} (kind : t.kind = .kwTrue ∨ t.kind = .kwFalse) :
      Parses scope .primary (t :: rest) (.constant (.truth (t.kind = .kwTrue))) rest
  | null {t : Token} {rest : List Token} (kind : t.kind = .kwNull) :
      Parses scope .primary (t :: rest) (.constant .null) rest
  | parens {t u : Token} {e : Expr} {words rest : List Token} (opened : t.kind = .leftParen)
      (inner : Parses scope .choice words e (u :: rest)) (closed : u.kind = .rightParen) :
      Parses scope .primary (t :: words) e rest
  | var {t : Token} {s : Symbol} {rest : List Token} (kind : t.kind = .identifier)
      (alone : ∀ u ∈ rest.head?, u.kind ≠ .leftParen)
      (found : scope.resolve? t.literal = some s) :
      Parses scope .primary (t :: rest) (.var s) rest
  | callNone {t u v : Token} {s : Symbol} {rest : List Token} (kind : t.kind = .identifier)
      (opened : u.kind = .leftParen) (found : scope.resolve? t.literal = some s)
      (closed : v.kind = .rightParen) :
      Parses scope .primary (t :: u :: v :: rest) (.call s .nil) rest
  | call {t u v : Token} {s : Symbol} {args : Args} {words rest : List Token}
      (kind : t.kind = .identifier) (opened : u.kind = .leftParen)
      (found : scope.resolve? t.literal = some s) (given : ParsesArgs scope words args (v :: rest))
      (closed : v.kind = .rightParen) : Parses scope .primary (t :: u :: words) (.call s args) rest
  | negate {t : Token} {e : Expr} {words rest : List Token} (kind : t.kind = .minus)
      (inner : Parses scope .unary words e rest) :
      Parses scope .unary (t :: words) (.unary .negate e) rest
  | not {t : Token} {e : Expr} {words rest : List Token} (kind : t.kind = .bang)
      (inner : Parses scope .unary words e rest) :
      Parses scope .unary (t :: words) (.unary .not e) rest
  | lift {level lower : Level} {e : Expr} {words rest : List Token}
      (below : level.below = some lower) (inner : Parses scope lower words e rest) :
      Parses scope level words e rest
  | join {level lower : Level} {t : Token} {a b e : Expr} {words middle rest : List Token}
      (below : level.below = some lower) (left : Parses scope level words a (t :: middle))
      (joins : level.Joins t.kind a b e) (right : Parses scope lower middle b rest) :
      Parses scope level words e rest
  | choose {t u : Token} {c a b : Expr} {otherwise done : Int}
      {words first second rest : List Token}
      (condition : Parses scope .disjunction words c (t :: first)) (asks : t.kind = .question)
      (whenTrue : Parses scope .choice first a (u :: second)) (divides : u.kind = .colon)
      (whenFalse : Parses scope .choice second b rest) :
      Parses scope .choice words (.choose c a b otherwise done) rest

-- At least one argument, and commas between them.
inductive ParsesArgs (scope : Scope) : List Token → Args → List Token → Prop where
  | last {e : Expr} {words rest : List Token} (given : Parses scope .choice words e rest) :
      ParsesArgs scope words (.cons e .nil) rest
  | more {t : Token} {e : Expr} {args : Args} {words middle rest : List Token}
      (given : Parses scope .choice words e (t :: middle)) (comma : t.kind = .comma)
      (others : ParsesArgs scope middle args rest) : ParsesArgs scope words (.cons e args) rest

end

-- A symbol that some name means.
def Visible (scope : Scope) (s : Symbol) : Prop := ∃ name, scope.resolve? name = some s

theorem Level.Joins.all {level : Level} {k : Kind} {a b e : Expr} {p : Symbol → Prop}
    (joins : level.Joins k a b e) (left : a.All p) (right : b.All p) : e.All p := by
  cases joins <;> exact ⟨left, right⟩

mutual

-- Every symbol of a tree is meant by a name in scope.
theorem Parses.visible {scope : Scope} : {level : Level} → {words rest : List Token} → {e : Expr} →
    Parses scope level words e rest → e.All (Visible scope)
  | _, _, _, _, .number _ _ => trivial
  | _, _, _, _, .string _ => trivial
  | _, _, _, _, .truth _ => trivial
  | _, _, _, _, .null _ => trivial
  | _, _, _, _, .parens _ inner _ => inner.visible
  | _, _, _, _, .var _ _ found => ⟨_, found⟩
  | _, _, _, _, .callNone _ _ found _ => ⟨⟨_, found⟩, trivial⟩
  | _, _, _, _, .call _ _ found given _ => ⟨⟨_, found⟩, given.visible⟩
  | _, _, _, _, .negate _ inner => inner.visible
  | _, _, _, _, .not _ inner => inner.visible
  | _, _, _, _, .lift _ inner => inner.visible
  | _, _, _, _, .join _ left joins right => joins.all left.visible right.visible
  | _, _, _, _, .choose condition _ whenTrue _ whenFalse =>
    ⟨condition.visible, whenTrue.visible, whenFalse.visible⟩

theorem ParsesArgs.visible {scope : Scope} : {words rest : List Token} → {args : Args} →
    ParsesArgs scope words args rest → args.All (Visible scope)
  | _, _, _, .last given => ⟨given.visible, trivial⟩
  | _, _, _, .more given _ others => ⟨given.visible, others.visible⟩

end

end ScalarScript
