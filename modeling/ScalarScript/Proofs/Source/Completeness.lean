import ScalarScript.Proofs.Source.Ladder
import ScalarScript.Proofs.Source.Reading
/-!
Compiling an expression accepts every expression of the grammar whose operators get operands of
their types, and stops behind the last word that can continue it. With the converse, which yields a
tree for every success, the compiler is a parser and a type checker at once.
-/
namespace ScalarScript

open Stateful Compile

-- Operators of one level and their right operands, in the order in which they stand behind a tree.
inductive Spine (scope : Scope) (level lower : Level) :
    Expr → List Token → Expr → List Token → Prop where
  | done {e : Expr} {rest : List Token} : Spine scope level lower e rest e rest
  | more {t : Token} {a b e whole : Expr} {middle between rest : List Token}
      (joins : level.Joins t.kind a b e) (right : Parses scope lower middle b between)
      (others : Spine scope level lower e between whole rest) :
      Spine scope level lower a (t :: middle) whole rest

namespace Spine

variable {scope : Scope} {level lower : Level} {a b e whole : Expr}
  {words middle rest : List Token} {t : Token}

theorem snoc (spine : Spine scope level lower a words b (t :: middle))
    (joins : level.Joins t.kind b e whole) (right : Parses scope lower middle e rest) :
    Spine scope level lower a words whole rest := by
  generalize reached : t :: middle = tail at spine
  induction spine with
  | done =>
    subst reached
    exact .more joins right .done
  | more first second _ ih => exact .more first second (ih joins reached)

theorem typed (spine : Spine scope level lower a words whole rest) (given : whole.Typed) :
    a.Typed := by
  induction spine with
  | done => exact given
  | more joins _ _ ih => exact (joins.typed (ih given)).1

theorem stops (spine : Spine scope level lower a words whole rest) (ends : level.Stops rest)
    (tighter : lower.rank < level.rank) : lower.Stops words := by
  cases spine with
  | done => exact ends.mono (by omega)
  | more joins _ _ => exact .cons joins.continued tighter

end Spine

-- An expression of a level of binary operators starts with one of the level below.
theorem Parses.spine {scope : Scope} {level lower : Level} (below : level.below = some lower)
    (infixed : level ≠ .unary ∧ level ≠ .choice) : {words rest : List Token} → {e : Expr} →
    Parses scope level words e rest →
    ∃ a middle, Parses scope lower words a middle ∧ Spine scope level lower a middle e rest
  | _, _, _, .number _ _ | _, _, _, .string _ | _, _, _, .truth _ | _, _, _, .null _
  | _, _, _, .parens _ _ _ | _, _, _, .var _ _ _ | _, _, _, .callNone _ _ _ _
  | _, _, _, .call _ _ _ _ _ => nomatch below
  | _, _, _, .negate _ _ | _, _, _, .not _ _ => absurd rfl infixed.1
  | _, _, _, .choose _ _ _ _ _ => absurd rfl infixed.2
  | _, _, _, .lift here inner => by
    obtain rfl := Option.some.inj (here.symm.trans below)
    exact ⟨_, _, inner, .done⟩
  | _, _, _, .join here left joins right => by
    obtain rfl := Option.some.inj (here.symm.trans below)
    obtain ⟨a, middle, first, spine⟩ := left.spine below infixed
    exact ⟨a, middle, first, spine.snoc joins right⟩

mutual

-- An expression has at least one word.
theorem Parses.shorter {scope : Scope} : {level : Level} → {words rest : List Token} → {e : Expr} →
    Parses scope level words e rest → rest.length < words.length
  | _, _, _, _, .number _ _ | _, _, _, _, .string _ | _, _, _, _, .truth _ | _, _, _, _, .null _
  | _, _, _, _, .var _ _ _ => Nat.lt_succ_self _
  | _, _, _, _, .parens _ inner _ => by
    have := inner.shorter
    simp only [List.length_cons] at *
    omega
  | _, _, _, _, .callNone _ _ _ _ => by
    simp only [List.length_cons]
    omega
  | _, _, _, _, .call _ _ _ given _ => by
    have := given.shorter
    simp only [List.length_cons] at *
    omega
  | _, _, _, _, .negate _ inner | _, _, _, _, .not _ inner => by
    have := inner.shorter
    simp only [List.length_cons]
    omega
  | _, _, _, _, .lift _ inner => inner.shorter
  | _, _, _, _, .join _ left _ right => by
    have := left.shorter
    have := right.shorter
    simp only [List.length_cons] at *
    omega
  | _, _, _, _, .choose condition _ whenTrue _ whenFalse => by
    have := condition.shorter
    have := whenTrue.shorter
    have := whenFalse.shorter
    simp only [List.length_cons] at *
    omega

theorem ParsesArgs.shorter {scope : Scope} : {words rest : List Token} → {args : Args} →
    ParsesArgs scope words args rest → rest.length < words.length
  | _, _, _, .last given => given.shorter
  | _, _, _, .more given _ others => by
    have := given.shorter
    have := others.shorter
    simp only [List.length_cons] at *
    omega

end

-- The first word tells an expression from the end of a call without arguments.
theorem Parses.opens {scope : Scope} : {level : Level} → {words rest : List Token} → {e : Expr} →
    Parses scope level words e rest → ∃ t tail, words = t :: tail ∧ t.kind ≠ .rightParen
  | _, _, _, _, .number kind _ | _, _, _, _, .string kind | _, _, _, _, .null kind
  | _, _, _, _, .parens kind _ _ | _, _, _, _, .var kind _ _ | _, _, _, _, .callNone kind _ _ _
  | _, _, _, _, .call kind _ _ _ _ | _, _, _, _, .negate kind _ | _, _, _, _, .not kind _ =>
    ⟨_, _, rfl, by rw [kind]; decide⟩
  | _, _, _, _, .truth kind => ⟨_, _, rfl, by rcases kind with kind | kind <;> rw [kind] <;> decide⟩
  | _, _, _, _, .lift _ inner => inner.opens
  | _, _, _, _, .join _ left _ _ => left.opens
  | _, _, _, _, .choose condition _ _ _ _ => condition.opens

theorem ParsesArgs.opens {scope : Scope} {words rest : List Token} {args : Args}
    (given : ParsesArgs scope words args rest) :
    ∃ t tail, words = t :: tail ∧ t.kind ≠ .rightParen := by
  cases given with
  | last first => exact first.opens
  | more first _ _ => exact first.opens

namespace Compiler

-- The word after the current one, if there is one.
theorem following_of_words {c : Compiler} {t : Token} {rest : List Token} (settled : c.Settled)
    (words : c.words = t :: rest) : c.following = (rest.head?.map (·.kind)).getD .finish := by
  rw [following_eq, ← (of_words_cons settled words).2]
  have next := c.settled_advanced
  generalize c.advanced = d at next
  unfold current Compiler.words
  cases ahead : d.ahead with
  | nil => rfl
  | cons u tail =>
    have real : u.kind ≠ .lineMark := next u (by simp [ahead])
    simp [real]

end Compiler

-- The words up to some rest were read, and no name was declared.
structure Consumes (c : Compiler) (rest : List Token) (d : Compiler) : Prop where
  words : d.words = rest
  settled : d.Settled
  scope : d.scope = c.scope
  suffix : d.ahead <:+ c.ahead

namespace Consumes

variable {c d e : Compiler} {rest middle : List Token}

theorem refl (settled : c.Settled) : Consumes c c.words c :=
  ⟨rfl, settled, rfl, List.suffix_rfl⟩

theorem trans (first : Consumes c middle d) (second : Consumes d rest e) : Consumes c rest e :=
  ⟨second.words, second.settled, second.scope.trans first.scope,
    second.suffix.trans first.suffix⟩

theorem advanced {t : Token} (settled : c.Settled) (words : c.words = t :: rest) :
    Consumes c rest c.advanced := by
  refine ⟨(Compiler.of_words_cons settled words).2, c.settled_advanced, c.advanced_scope, ?_⟩
  rw [Compiler.advanced, Compiler.settle_ahead]
  exact (List.dropWhile_suffix _).trans (List.tail_suffix _)

theorem emitted (reaches : Consumes c rest d) (i : Instruction) : Consumes c rest (d.emitted i) :=
  ⟨by rw [Compiler.words_emitted, reaches.words], reaches.settled.emitted i,
    by rw [Compiler.emitted_scope, reaches.scope], by
      rw [Compiler.emitted_ahead]
      exact reaches.suffix⟩

theorem push (reaches : Consumes c rest d) (i : Instruction) : Consumes c rest (d.push i) :=
  ⟨reaches.words, reaches.settled, reaches.scope, reaches.suffix⟩

theorem labelled (reaches : Consumes c rest d) : Consumes c rest d.labelled :=
  ⟨reaches.words, reaches.settled, reaches.scope, reaches.suffix⟩

-- One more word.
theorem step {t : Token} (reaches : Consumes c (t :: rest) d) : Consumes c rest d.advanced :=
  reaches.trans (.advanced reaches.settled reaches.words)

theorem current {t : Token} (reaches : Consumes c (t :: rest) d) : d.current = t :=
  (Compiler.of_words_cons reaches.settled reaches.words).1

end Consumes

-- An action that compiles every expression of a level with at most so many words ahead.
def Complete (n : Nat) (level : Level) (x : Compile Ty) : Prop :=
  ∀ ⦃c : Compiler⦄ ⦃e : Expr⦄ ⦃rest : List Token⦄, c.Settled → c.words.length ≤ n →
    Parses c.scope level c.words e rest → level.Stops rest → e.Typed →
    ∃ d, x c = .ok e.type d ∧ Consumes c rest d

theorem Complete.mono {n m : Nat} {level : Level} {x : Compile Ty} (complete : Complete n level x)
    (fewer : m ≤ n) : Complete m level x :=
  fun _ _ _ settled few => complete settled (few.trans fewer)

namespace Compile

-- The right operand of an operator of the level above.
theorem rightOperand_complete {n : Nat} {lower : Level} {x : Compile Ty}
    (complete : Complete n lower x) {c : Compiler} {t : Token} {middle rest : List Token} {b : Expr}
    (settled : c.Settled) (words : c.words = t :: middle) (few : middle.length ≤ n)
    (right : Parses c.scope lower middle b rest) (stops : lower.Stops rest) (typed : b.Typed) :
    ∃ line d, rightOperand x c.advanced = .ok (b.type, line) d ∧ Consumes c rest d := by
  have pushed : Consumes c middle (c.advanced.emitted (.push eax)) :=
    (Consumes.advanced settled words).emitted _
  obtain ⟨d, ran, reaches⟩ := complete pushed.settled (by rw [pushed.words]; exact few)
    (by rw [pushed.words, pushed.scope]; exact right) stops typed
  refine ⟨(c.advanced.emitted (.push eax)).current.line, _, ?_,
    ((pushed.trans reaches).emitted (.move ebx eax)).emitted (.pop eax)⟩
  rw [rightOperand, bind_of_ok (emit_apply _ _), bind_of_ok (line_apply _), bind_of_ok ran]
  rfl

-- A loop that compiles the operators of one level and their right operands, while there are any.
structure Tail (n : Nat) (level lower : Level) (loop : Nat → Nat → Ty → Compile Ty) : Prop where
  stops : ∀ (steps line : Nat) {left : Ty} {c : Compiler},
    Level.continued c.current.kind ≠ some level → loop (steps + 1) line left c = .ok left c
  joins : ∀ (steps line : Nat) {c : Compiler} {t : Token} {a b e : Expr}
    {middle rest : List Token}, c.Settled → c.words = t :: middle → middle.length ≤ n →
    level.Joins t.kind a b e → Parses c.scope lower middle b rest → lower.Stops rest → e.Typed →
    ∃ next d, Consumes c rest d ∧ loop (steps + 1) line a.type c = loop steps next e.type d

namespace Tail

variable {n : Nat} {level lower : Level} {loop : Nat → Nat → Ty → Compile Ty}

theorem complete (tail : Tail n level lower loop) (tighter : lower.rank < level.rank)
    (steps line : Nat) {c : Compiler} {a e : Expr} {rest : List Token} (settled : c.Settled)
    (spine : Spine c.scope level lower a c.words e rest) (stops : level.Stops rest)
    (typed : e.Typed) (few : c.words.length ≤ n + 1) (enough : c.words.length < steps) :
    ∃ d, loop steps line a.type c = .ok e.type d ∧ Consumes c rest d := by
  generalize ahead : c.words = words at spine few enough
  generalize names : c.scope = scope at spine
  induction spine generalizing c steps line with
  | done =>
    obtain ⟨steps, rfl⟩ : ∃ k, steps = k + 1 := ⟨steps - 1, by omega⟩
    subst ahead
    refine ⟨c, tail.stops steps line ?_, .refl settled⟩
    intro continues
    exact lt_irrefl _ (Compiler.current_of_stops settled stops continues)
  | more joins right others ih =>
    obtain ⟨steps, rfl⟩ : ∃ k, steps = k + 1 := ⟨steps - 1, by omega⟩
    have shorter := right.shorter
    simp only [List.length_cons] at few enough
    subst names
    obtain ⟨next, d, reaches, onward⟩ := tail.joins steps line settled ahead (by omega)
      joins right (others.stops stops tighter) (others.typed typed)
    obtain ⟨f, ran, later⟩ := ih steps next reaches.settled stops typed reaches.words (by omega)
      (by omega) reaches.scope
    exact ⟨f, onward.trans ran, reaches.trans later⟩

-- The first operand, and the loop behind it.
theorem level_complete (tail : Tail n level lower loop) (below : level.below = some lower)
    (infixed : level ≠ .unary ∧ level ≠ .choice) {operand : Compile Ty}
    (complete : Complete (n + 1) lower operand) {steps : Nat} (enough : n + 1 < steps) :
    Complete (n + 1) level (do
      let leftLine ← line
      loop steps leftLine (← operand)) := by
  intro c e rest settled few parses stops typed
  have tighter := Level.rank_below below
  obtain ⟨a, middle, first, spine⟩ := parses.spine below infixed
  obtain ⟨d, ran, reaches⟩ := complete settled few first (spine.stops stops tighter)
    (spine.typed typed)
  have shorter := first.shorter
  rw [← reaches.words, ← reaches.scope] at spine
  obtain ⟨f, onward, later⟩ := tail.complete tighter steps c.current.line reaches.settled
    spine stops typed (by rw [reaches.words]; omega) (by rw [reaches.words]; omega)
  refine ⟨f, ?_, reaches.trans later⟩
  rw [bind_of_ok (line_apply c), bind_of_ok ran]
  exact onward

end Tail

theorem arithmetic_tail {n : Nat} {level lower : Level} {ops : Kind → Option BinaryOp}
    {operand : Compile Ty} (complete : Complete n lower operand)
    (joined : ∀ {k a b e}, level.Joins k a b e →
      ∃ op, ops k = some op ∧ op.operandType = .double ∧ e = .binary op a b)
    (known : ∀ {k}, ops k ≠ none → Level.continued k = some level) :
    Tail n level lower fun steps line => arithmeticTail ops operand line steps where
  stops := by
    intro steps line left c elsewhere
    rw [arithmeticTail, bind_of_ok (token_apply c)]
    have none : ops c.current.kind = none := by
      by_contra given
      exact elsewhere (known given)
    rw [none]
    rfl
  joins := by
    intro steps line c t a b e middle rest settled words few joins right stops typed
    obtain ⟨op, here, double, rfl⟩ := joined joins
    obtain ⟨_, second, left, other⟩ := typed
    obtain ⟨rightLine, d, ran, reaches⟩ :=
      rightOperand_complete complete settled words few right stops second
    refine ⟨line, _, reaches.emitted (.binary (.binary op) eax ebx), ?_⟩
    rw [arithmeticTail, bind_of_ok (token_apply c), (Compiler.of_words_cons settled words).1, here]
    simp only [bind_of_ok (advance_apply c), bind_of_ok ran, left, other, double,
      Ty.accepts_self, Bool.not_true, Bool.false_eq_true, if_false, bind_of_ok (emit_apply _ _),
      Expr.type]

theorem sum_tail {n : Nat} {operand : Compile Ty} (complete : Complete n .product operand) :
    Tail n .sum .product fun steps line => sumTail operand line steps where
  stops := by
    intro steps line left c elsewhere
    rw [sumTail, bind_of_ok (token_apply c), if_neg]
    · rfl
    · simp only [Bool.or_eq_true, decide_eq_true_eq]
      rintro (plus | minus)
      · exact elsewhere (by rw [plus]; rfl)
      · exact elsewhere (by rw [minus]; rfl)
  joins := by
    intro steps line c t a b e middle rest settled words few joins right stops typed
    obtain ⟨rightLine, d, ran, reaches⟩ :=
      rightOperand_complete complete settled words few right stops (joins.typed typed).2
    have here := (Compiler.of_words_cons settled words).1
    have either : (t.kind = .plus || t.kind = .minus) = true := by
      generalize t.kind = k at joins
      cases joins <;> rfl
    obtain ⟨op, rfl, chosen⟩ :
        ∃ op, e = .binary op a b ∧ sumOp t.kind line a.type d = .ok op d := by
      generalize t.kind = k at joins
      cases joins with
      | add numeric => exact ⟨.add, rfl, by rw [numeric]; rfl⟩
      | concat textual => exact ⟨.concat, rfl, by rw [textual]; rfl⟩
      | sub => exact ⟨.sub, rfl, by rw [typed.2.2.1]; rfl⟩
    obtain ⟨_, _, left, other⟩ := typed
    refine ⟨line, _, reaches.emitted (.binary (.binary op) eax ebx), ?_⟩
    rw [sumTail, bind_of_ok (token_apply c), here, if_pos either]
    simp only [bind_of_ok (advance_apply c), bind_of_ok ran, bind_of_ok chosen]
    rw [left, other, Ty.accepts_self]
    rfl

-- A comparison passes operands of the types that it asks for.
theorem checkComparison_of_types {operator : Kind} {condition : Condition} {left right : Ty}
    (leftLine rightLine : Nat) (c : Compiler) (known : comparison? operator = some condition)
    (types : if condition = .equal ∨ condition = .notEqual then Ty.accepts false left right = true
      else left = .double ∧ right = .double) :
    checkComparison operator leftLine left rightLine right c = .ok ⟨⟩ c := by
  have shape : (operator = .equal ∨ operator = .notEqual) ↔
      (condition = .equal ∨ condition = .notEqual) := by
    cases operator <;> simp [comparison?] at known <;> subst known <;> simp
  unfold checkComparison
  simp only [Bool.or_eq_true, decide_eq_true_eq, shape]
  split at types
  · rename_i equality
    rw [if_pos equality, types]
    rfl
  · rename_i order
    obtain ⟨rfl, rfl⟩ := types
    rw [if_neg order]
    rfl

theorem comparison_tail {n : Nat} {operand : Compile Ty} (complete : Complete n .sum operand) :
    Tail n .comparison .sum fun steps line => comparisonTail operand line steps where
  stops := by
    intro steps line left c elsewhere
    rw [comparisonTail, bind_of_ok (token_apply c)]
    have none : comparison? c.current.kind = none := by
      generalize c.current.kind = k at elsewhere
      cases k <;> first | rfl | exact absurd rfl elsewhere
    rw [none]
    rfl
  joins := by
    intro steps line c t a b e middle rest settled words few joins right stops typed
    obtain ⟨rightLine, d, ran, reaches⟩ :=
      rightOperand_complete complete settled words few right stops (joins.typed typed).2
    have here := (Compiler.of_words_cons settled words).1
    obtain ⟨condition, known, rfl⟩ :
        ∃ condition, comparison? t.kind = some condition ∧ e = .compare condition a b := by
      generalize t.kind = k at joins
      cases joins with
      | comparison known => exact ⟨_, known, rfl⟩
    have checked := checkComparison_of_types line rightLine d known typed.2.2
    refine ⟨line, _, (reaches.emitted (.binary .compare eax ebx)).emitted
      (.unary (.setIf condition) eax), ?_⟩
    rw [comparisonTail, bind_of_ok (token_apply c), here, known]
    simp only [bind_of_ok (advance_apply c), bind_of_ok ran, bind_of_ok checked,
      bind_of_ok (emit_apply _ _)]
    rfl

theorem logical_tail {n : Nat} {level lower : Level} {connective : Connective}
    {operand : Compile Ty} (complete : Complete n lower operand)
    (joined : ∀ {k a b e}, level.Joins k a b e →
      k = connective.rule.operator ∧ ∃ done, e = .logical connective a b done)
    (known : Level.continued connective.rule.operator = some level) :
    Tail n level lower (logicalTail connective.rule operand) where
  stops := by
    intro steps line left c elsewhere
    rw [logicalTail, bind_of_ok (token_apply c), if_neg]
    · rfl
    · intro same
      exact elsewhere (same ▸ known)
  joins := by
    intro steps line c t a b e middle rest settled words few joins right stops typed
    obtain ⟨here, done, rfl⟩ := joined joins
    obtain ⟨_, second, left, other⟩ := typed
    have first := (Compiler.of_words_cons settled words).1
    have pushed : Consumes c c.words (((c.labelled.emitted (.unary .test eax)).push
        (.branch (.jumpIf connective.rule.skip) c.free)).emitted (.push eax)) :=
      (((Consumes.refl settled).labelled.emitted _).push _).emitted _
    obtain ⟨u, tested⟩ : ∃ u, ((c.labelled.emitted (.unary .test eax)).push
        (.branch (.jumpIf connective.rule.skip) c.free)).emitted (.push eax) = u := ⟨_, rfl⟩
    rw [words, tested] at pushed
    obtain ⟨d, ran, reaches⟩ := complete pushed.step.settled (by rw [pushed.step.words]; exact few)
      (by rw [pushed.step.words, pushed.step.scope]; exact right) stops second
    have combined := (((pushed.step.trans reaches).emitted (.move ebx eax)).emitted
      (.pop eax)).emitted (.binary (.binary connective.rule.op) eax ebx)
    refine ⟨u.advanced.current.line, _, combined.push (.label c.free), ?_⟩
    rw [logicalTail, bind_of_ok (token_apply c), first, if_pos here, left, Ty.accepts_self]
    simp only [Bool.not_true, Bool.false_eq_true, if_false, bind_of_ok (freshLabel_apply _),
      bind_of_ok (emit_apply _ _),
      bind_of_ok (emitJump_apply _ _ _), tested, bind_of_ok (advance_apply _),
      bind_of_ok (line_apply _), bind_of_ok ran, other, Ty.accepts_self,
      bind_of_ok (emitLabel_apply _ _)]
    rfl

theorem unary_complete {n : Nat} {x : Compile Ty} (complete : Complete n .primary x) {steps : Nat}
    (enough : n < steps) : Complete n .unary (unary x steps) := by
  induction n generalizing steps with
  | zero =>
    intro c e rest settled few parses
    have := parses.shorter
    omega
  | succ n ih =>
    obtain ⟨steps, rfl⟩ : ∃ k, steps = k + 1 := ⟨steps - 1, by omega⟩
    have fewer : Complete n .unary (unary x steps) := ih (complete.mono (by omega)) (by omega)
    -- the operand of an operator in front
    have behind : ∀ ⦃c : Compiler⦄ ⦃t : Token⦄ ⦃e : Expr⦄ ⦃words rest : List Token⦄,
        c.Settled → c.words.length ≤ n + 1 → c.words = t :: words →
        Parses c.scope .unary words e rest → Level.Stops .unary rest → e.Typed →
        ∃ d, unary x steps c.advanced = .ok e.type d ∧ Consumes c rest d := by
      intro c t e words rest settled few ahead inner stops typed
      have taken := Consumes.advanced settled ahead
      obtain ⟨d, ran, reaches⟩ := fewer taken.settled
        (by simp only [ahead, List.length_cons] at few; rw [taken.words]; omega)
        (by rw [taken.words, taken.scope]; exact inner) stops typed
      exact ⟨d, ran, taken.trans reaches⟩
    intro c e rest settled few parses stops typed
    generalize ahead : c.words = words at parses
    cases parses with
    | negate kind inner =>
      obtain ⟨d, ran, reaches⟩ := behind settled few ahead inner stops typed.1
      refine ⟨_, ?_, reaches.emitted (.unary (.unary .negate) eax)⟩
      have here := (Compiler.of_words_cons settled ahead).1
      simp only [unary, bind_of_ok (token_apply c), here, kind, bind_of_ok (advance_apply c),
        bind_of_ok ran, typed.2]
      rfl
    | not kind inner =>
      obtain ⟨d, ran, reaches⟩ := behind settled few ahead inner stops typed.1
      refine ⟨_, ?_, reaches.emitted (.unary (.unary .not) eax)⟩
      have here := (Compiler.of_words_cons settled ahead).1
      simp only [unary, bind_of_ok (token_apply c), here, kind, bind_of_ok (advance_apply c),
        bind_of_ok ran, typed.2]
      rfl
    | lift below inner =>
      cases below
      obtain ⟨minus, bang⟩ : c.current.kind ≠ .minus ∧ c.current.kind ≠ .bang := by
        generalize primary : Level.primary = level at inner
        cases inner with
        | number kind _ | string kind | null kind | parens kind _ _ | var kind _ _
        | callNone kind _ _ _ | call kind _ _ _ _ =>
          rw [(Compiler.of_words_cons settled ahead).1, kind]
          exact ⟨by decide, by decide⟩
        | truth kind =>
          rw [(Compiler.of_words_cons settled ahead).1]
          rcases kind with kind | kind <;> rw [kind] <;> exact ⟨by decide, by decide⟩
        | lift below _ | join below _ _ _ => subst primary; cases below
        | negate | not | choose => cases primary
      obtain ⟨d, ran, reaches⟩ := complete settled few (by rw [ahead]; exact inner)
        (stops.mono (by decide)) typed
      refine ⟨d, ?_, reaches⟩
      rw [← ran, unary, bind_of_ok (token_apply c)]
      generalize c.current.kind = kind at minus bang
      cases kind with
      | minus => exact absurd rfl minus
      | bang => exact absurd rfl bang
      | _ => rfl
    | join below _ joins _ => cases joins

-- The arguments of a call, up to its closing parenthesis.
theorem arguments_complete {n : Nat} {self : Compile Ty} (complete : Complete n .choice self)
    (name : String) {params : List Ty} {steps count : Nat} {c : Compiler} {args : Args} {t : Token}
    {rest : List Token} (settled : c.Settled) (few : c.words.length ≤ n)
    (given : ParsesArgs c.scope c.words args (t :: rest)) (closed : t.kind = .rightParen)
    (typed : args.Typed)
    (accepts : List.Forall₂ (fun wanted given => Ty.accepts false wanted given = true)
      (params.drop count) args.types) (enough : c.words.length < steps) :
    ∃ d, arguments self name params steps count c = .ok (count + args.types.length) d ∧
      Consumes c (t :: rest) d := by
  induction steps generalizing c args count with
  | zero => omega
  | succ steps ih =>
    -- an argument is computed, checked and pushed
    have single : ∀ {e : Expr} {others : List Ty} {next : Token} {middle : List Token},
        Parses c.scope .choice c.words e (next :: middle) →
        Level.continued next.kind = none → e.Typed →
        List.Forall₂ (fun wanted given => Ty.accepts false wanted given = true)
          (params.drop count) (e.type :: others) →
        List.Forall₂ (fun wanted given => Ty.accepts false wanted given = true)
          (params.drop (count + 1)) others ∧
        ∃ d, d.current = next ∧ Consumes c (next :: middle) d ∧
          arguments self name params (steps + 1) count c = (do
            if ← accept .comma then arguments self name params steps (count + 1)
            else return count + 1 : Compile Nat) d := by
      intro e others next middle first ends typed accepts
      obtain ⟨d, ran, reaches⟩ := complete settled few first (.of_none ends) typed
      cases position : params[count]? with
      | none =>
        rw [List.drop_eq_nil_of_le (List.getElem?_eq_none_iff.mp position)] at accepts
        cases accepts
      | some wanted =>
        obtain ⟨bound, rfl⟩ := List.getElem?_eq_some_iff.mp position
        rw [List.drop_eq_getElem_cons bound] at accepts
        cases accepts with
        | cons accepted later =>
          refine ⟨later, d.emitted (.push eax), (reaches.emitted _).current, reaches.emitted _, ?_⟩
          rw [arguments, bind_of_ok (line_apply c), bind_of_ok ran, position]
          simp only [accepted, Bool.not_true, Bool.false_eq_true, if_false,
            bind_of_ok (emit_apply _ _)]
    generalize ahead : c.words = words at given
    cases given with
    | @last e _ _ first =>
      rw [← ahead] at first
      obtain ⟨none, d, here, reaches, ran⟩ := single first (by rw [closed]; rfl) typed.1 accepts
      refine ⟨d, ?_, reaches⟩
      have stay : accept .comma d = .ok false d :=
        accept_eq_ok_iff.mpr (.inr ⟨by rw [here, closed]; decide, rfl, rfl⟩)
      rw [ran, bind_of_ok stay]
      rfl
    | @more comma e args _ middle _ first kind others =>
      have shorter := first.shorter
      rw [← ahead] at first shorter
      obtain ⟨later, d, here, reaches, ran⟩ := single first (by rw [kind]; rfl) typed.1 accepts
      have pass : accept .comma d = .ok true d.advanced :=
        accept_eq_ok_iff.mpr (.inl ⟨by rw [here, kind], rfl, rfl⟩)
      have taken := reaches.step
      simp only [List.length_cons] at shorter
      obtain ⟨f, onward, last⟩ := ih taken.settled (by rw [taken.words]; omega)
        (by rw [taken.words, taken.scope]; exact others) typed.2 later
        (by rw [taken.words]; omega)
      refine ⟨f, ?_, taken.trans last⟩
      rw [ran, bind_of_ok pass]
      simp only [if_true, onward, Args.types, List.length_cons]
      congr 1
      omega

-- The closing parenthesis of a call with as many arguments as there are parameters.
theorem finishCall_complete {s : Symbol} {name : String} {l count : Nat} {d : Compiler}
    (named : s.name = name) (closed : d.current.kind = .rightParen)
    (enough : count = s.params.length) :
    (do
      expect .rightParen
      if count ≠ s.params.length then
        failAt l (.notEnoughArguments name s.params.length count)
      if s.isExternal then emit (.hostCall s.index name)
      else emit (.call s.label name)
      return s.returnType : Compile Ty) d =
      .ok s.returnType (d.advanced.emitted s.callInstruction) := by
  have close : expect .rightParen d = .ok ⟨⟩ d.advanced := expect_eq_ok_iff.mpr ⟨closed, rfl⟩
  simp only [bind_of_ok close, enough, ne_eq, not_true_eq_false, if_false]
  unfold Symbol.callInstruction
  rw [named]
  split <;> rfl

theorem call_complete {n : Nat} {self : Compile Ty} (complete : Complete n .choice self)
    {steps : Nat} {c : Compiler} {s : Symbol} {t u v : Token} {args : Args}
    {middle rest : List Token} (settled : c.Settled) (few : c.words.length ≤ n + 1)
    (enough : n < steps) (ahead : c.words = t :: u :: middle)
    (found : c.scope.resolve? t.literal = some s) (closed : v.kind = .rightParen)
    (given : (args = .nil ∧ middle = v :: rest) ∨ ParsesArgs c.scope middle args (v :: rest))
    (typed : (Expr.call s args).Typed) :
    ∃ d, call self steps c = .ok s.returnType d ∧ Consumes c rest d := by
  obtain ⟨function, typedArgs, accepts⟩ := typed
  have entered := (Consumes.advanced settled ahead).step
  have here := (Compiler.of_words_cons settled ahead).1
  have named := Scope.resolve?_name found
  simp only [ahead, List.length_cons] at few
  have opened : ∀ {r : EStateM.Result CompileError Compiler Ty},
      (do
        let count ← if (← token).kind = .rightParen then pure 0
          else arguments self t.literal s.params steps 0
        expect .rightParen
        if count ≠ s.params.length then
          failAt t.line (.notEnoughArguments t.literal s.params.length count)
        if s.isExternal then emit (.hostCall s.index t.literal)
        else emit (.call s.label t.literal)
        return s.returnType : Compile Ty) c.advanced.advanced = r → call self steps c = r := by
    rintro _ rfl
    rw [call, bind_of_ok (token_apply c), here, bind_of_ok (resolve?_apply _ c), found]
    simp only [function, Bool.not_true, Bool.false_eq_true, if_false,
      bind_of_ok (advance_apply _)]
  rcases given with ⟨rfl, rfl⟩ | given
  · have none : 0 = s.params.length := by
      cases params : s.params with
      | nil => rfl
      | cons _ _ =>
        rw [params] at accepts
        cases accepts
    have atClose : c.advanced.advanced.current.kind = .rightParen := by
      rw [entered.current, closed]
    refine ⟨_, opened ?_, entered.step.emitted s.callInstruction⟩
    rw [bind_of_ok (token_apply _), if_pos atClose]
    exact finishCall_complete named atClose none
  · have started : c.advanced.advanced.current.kind ≠ .rightParen := by
      obtain ⟨w, tail, rfl, other⟩ := given.opens
      rwa [entered.current]
    have fromFirst : List.Forall₂ (fun wanted given => Ty.accepts false wanted given = true)
        (s.params.drop 0) args.types := accepts
    obtain ⟨d, ran, reaches⟩ := arguments_complete complete t.literal entered.settled
      (by rw [entered.words]; omega) (by rw [entered.words, entered.scope]; exact given) closed
      typedArgs fromFirst (show _ < steps by rw [entered.words]; omega)
    have read := entered.trans reaches
    have counted : 0 + args.types.length = s.params.length := by
      rw [Nat.zero_add, ← accepts.length_eq]
    refine ⟨_, opened ?_, read.step.emitted s.callInstruction⟩
    rw [bind_of_ok (token_apply _), if_neg started, bind_of_ok ran]
    exact finishCall_complete named (by rw [read.current, closed]) counted

theorem primary_complete {n : Nat} {self : Compile Ty} (complete : Complete n .choice self)
    {steps : Nat} (enough : n < steps) : Complete (n + 1) .primary (primary self steps) := by
  intro c e rest settled few parses stops typed
  generalize ahead : c.words = words at parses
  generalize level : Level.primary = tight at parses
  cases parses with
  | @number t x _ kind read =>
    have here := (Compiler.of_words_cons settled ahead).1
    refine ⟨_, ?_, (Consumes.advanced settled ahead).emitted (.move eax (.ofValue (.number x)))⟩
    rw [primary, bind_of_ok (token_apply c), here, kind]
    simp only [read]
    rfl
  | @string t _ kind =>
    have here := (Compiler.of_words_cons settled ahead).1
    refine ⟨_, ?_,
      (Consumes.advanced settled ahead).emitted (.move eax (.ofValue (.text t.literal)))⟩
    rw [primary, bind_of_ok (token_apply c), here, kind]
    rfl
  | @truth t _ kind =>
    have here := (Compiler.of_words_cons settled ahead).1
    refine ⟨_, ?_, (Consumes.advanced settled ahead).emitted
      (.move eax (.ofValue (.truth (t.kind = .kwTrue))))⟩
    rw [primary, bind_of_ok (token_apply c), here]
    rcases kind with kind | kind <;> rw [kind] <;> rfl
  | @null t _ kind =>
    have here := (Compiler.of_words_cons settled ahead).1
    refine ⟨_, ?_, (Consumes.advanced settled ahead).emitted (.move eax (.ofValue .null))⟩
    rw [primary, bind_of_ok (token_apply c), here, kind]
    rfl
  | @parens t u e inside _ kind inner closed =>
    have here := (Compiler.of_words_cons settled ahead).1
    have entered := Consumes.advanced settled ahead
    simp only [ahead, List.length_cons] at few
    obtain ⟨d, ran, reaches⟩ := complete entered.settled (by rw [entered.words]; omega)
      (by rw [entered.words, entered.scope]; exact inner) (.of_none (by rw [closed]; rfl)) typed
    have read := entered.trans reaches
    have close : expect .rightParen d = .ok ⟨⟩ d.advanced :=
      expect_eq_ok_iff.mpr ⟨by rw [read.current, closed], rfl⟩
    refine ⟨_, ?_, read.step⟩
    rw [primary, bind_of_ok (token_apply c), here, kind]
    simp only [bind_of_ok (advance_apply c), bind_of_ok ran, bind_of_ok close, pure_apply]
  | @var t s _ kind alone found =>
    have here := (Compiler.of_words_cons settled ahead).1
    have single : c.following ≠ .leftParen := by
      rw [Compiler.following_of_words settled ahead]
      cases rest with
      | nil => decide
      | cons u _ => exact alone u rfl
    have plain : s.isFunction = false := typed
    refine ⟨_, ?_, (Consumes.advanced settled ahead).emitted (.move eax s.operand)⟩
    rw [primary, bind_of_ok (token_apply c), here, kind]
    simp only [bind_of_ok (get_apply c), if_neg single, bind_of_ok (resolve?_apply _ c), found,
      plain, Bool.false_eq_true, if_false, bind_of_ok (advance_apply c),
      bind_of_ok (emit_apply _ _), pure_apply, Expr.type]
  | @callNone t u v s _ kind opened found closed =>
    have here := (Compiler.of_words_cons settled ahead).1
    have paren : c.following = .leftParen := by
      rw [Compiler.following_of_words settled ahead]
      exact opened
    obtain ⟨d, ran, reaches⟩ := call_complete complete settled few enough ahead found closed
      (.inl ⟨rfl, rfl⟩) typed
    refine ⟨d, ?_, reaches⟩
    rw [primary, bind_of_ok (token_apply c), here, kind]
    simp only [bind_of_ok (get_apply c), if_pos paren]
    exact ran
  | @call t u v s args inside _ kind opened found given closed =>
    have here := (Compiler.of_words_cons settled ahead).1
    have paren : c.following = .leftParen := by
      rw [Compiler.following_of_words settled ahead]
      exact opened
    obtain ⟨d, ran, reaches⟩ := call_complete complete settled few enough ahead found closed
      (.inr given) typed
    refine ⟨d, ?_, reaches⟩
    rw [primary, bind_of_ok (token_apply c), here, kind]
    simp only [bind_of_ok (get_apply c), if_pos paren]
    exact ran
  | lift below _ | join below _ _ _ =>
    subst level
    cases below
  | negate | not | choose => cases level

theorem powers_joined {k : Kind} {a b e : Expr} (joins : Level.Joins .power k a b e) :
    ∃ op, powers k = some op ∧ op.operandType = .double ∧ e = .binary op a b := by
  cases joins with
  | power known => exact ⟨_, known, (powers_numeric known).2, rfl⟩

theorem products_joined {k : Kind} {a b e : Expr} (joins : Level.Joins .product k a b e) :
    ∃ op, products k = some op ∧ op.operandType = .double ∧ e = .binary op a b := by
  cases joins with
  | product known => exact ⟨_, known, (products_numeric known).2, rfl⟩

theorem continued_of_powers {k : Kind} (known : powers k ≠ none) :
    Level.continued k = some .power := by
  cases k <;> first | rfl | exact absurd rfl known

theorem continued_of_products {k : Kind} (known : products k ≠ none) :
    Level.continued k = some .product := by
  cases k <;> first | rfl | exact absurd rfl known

theorem arithmetic_complete {n : Nat} {level lower : Level} {ops : Kind → Option BinaryOp}
    {operand : Compile Ty} (below : level.below = some lower)
    (infixed : level ≠ .unary ∧ level ≠ .choice) (complete : Complete (n + 1) lower operand)
    (joined : ∀ {k a b e}, level.Joins k a b e →
      ∃ op, ops k = some op ∧ op.operandType = .double ∧ e = .binary op a b)
    (known : ∀ {k}, ops k ≠ none → Level.continued k = some level) {steps : Nat}
    (enough : n + 1 < steps) : Complete (n + 1) level (arithmetic ops operand steps) :=
  (arithmetic_tail (complete.mono (Nat.le_succ n)) joined known).level_complete below infixed
    complete enough

theorem sum_complete {n : Nat} {operand : Compile Ty} (complete : Complete (n + 1) .product operand)
    {steps : Nat} (enough : n + 1 < steps) : Complete (n + 1) .sum (sum operand steps) :=
  (sum_tail (complete.mono (Nat.le_succ n))).level_complete rfl (by decide) complete enough

theorem comparison_complete {n : Nat} {operand : Compile Ty}
    (complete : Complete (n + 1) .sum operand) {steps : Nat} (enough : n + 1 < steps) :
    Complete (n + 1) .comparison (comparison operand steps) :=
  (comparison_tail (complete.mono (Nat.le_succ n))).level_complete rfl (by decide) complete enough

theorem logical_complete {n : Nat} {level lower : Level} {connective : Connective}
    {operand : Compile Ty} (below : level.below = some lower)
    (infixed : level ≠ .unary ∧ level ≠ .choice) (complete : Complete (n + 1) lower operand)
    (joined : ∀ {k a b e}, level.Joins k a b e →
      k = connective.rule.operator ∧ ∃ done, e = .logical connective a b done)
    (known : Level.continued connective.rule.operator = some level) {steps : Nat}
    (enough : n + 1 < steps) : Complete (n + 1) level (logical connective.rule operand steps) :=
  (logical_tail (complete.mono (Nat.le_succ n)) joined known).level_complete below infixed
    complete enough

theorem conjunctions_joined {k : Kind} {a b e : Expr} (joins : Level.Joins .conjunction k a b e) :
    k = Connective.and.rule.operator ∧ ∃ done, e = .logical .and a b done := by
  cases joins
  exact ⟨rfl, _, rfl⟩

theorem disjunctions_joined {k : Kind} {a b e : Expr} (joins : Level.Joins .disjunction k a b e) :
    k = Connective.or.rule.operator ∧ ∃ done, e = .logical .or a b done := by
  cases joins
  exact ⟨rfl, _, rfl⟩

theorem operatorLevels_complete {n : Nat} {self : Compile Ty} (complete : Complete n .choice self)
    {steps : Nat} (enough : n + 1 < steps) :
    Complete (n + 1) .disjunction (operatorLevels self steps) := by
  have unary : Complete (n + 1) .unary _ :=
    unary_complete (primary_complete complete (show n < steps by omega)) enough
  have power : Complete (n + 1) .power _ :=
    arithmetic_complete rfl (by decide) unary powers_joined continued_of_powers enough
  have product : Complete (n + 1) .product _ :=
    arithmetic_complete rfl (by decide) power products_joined continued_of_products enough
  have comparison := comparison_complete (sum_complete product enough) enough
  have conjunction : Complete (n + 1) .conjunction (logical Connective.and.rule _ steps) :=
    logical_complete rfl (by decide) comparison conjunctions_joined rfl enough
  exact logical_complete rfl (by decide) conjunction disjunctions_joined rfl enough

theorem ternary_complete {n : Nat} {self : Compile Ty} (complete : Complete n .choice self)
    {steps : Nat} (enough : n + 1 < steps) : Complete (n + 1) .choice (ternary self steps) := by
  intro c e rest settled few parses stops typed
  have operators := operatorLevels_complete complete enough
  generalize ahead : c.words = words at parses
  cases parses with
  | lift below inner =>
    cases below
    obtain ⟨d, ran, reaches⟩ := operators settled few (by rw [ahead]; exact inner)
      (stops.mono (by decide)) typed
    refine ⟨d, ?_, reaches⟩
    have plain : d.current.kind ≠ .question := by
      intro asks
      have ends : Level.Stops .choice d.words := by rwa [reaches.words]
      have continues : Level.continued d.current.kind = some .choice := by
        rw [asks]
        rfl
      exact lt_irrefl _ (Compiler.current_of_stops reaches.settled ends continues)
    rw [ternary, bind_of_ok (line_apply c), bind_of_ok ran, bind_of_ok (token_apply d),
      if_pos plain]
    rfl
  | @choose t u condition a b _ _ _ first second _ asked asks whenTrue divides whenFalse =>
    obtain ⟨conditionTyped, trueTyped, falseTyped, boolean, accepted⟩ := typed
    have left := asked.shorter
    have middle := whenTrue.shorter
    obtain ⟨d, ran, reaches⟩ := operators settled few (by rw [ahead]; exact asked)
      (.cons (by rw [asks]; rfl) (by decide)) conditionTyped
    rw [← ahead] at left
    simp only [List.length_cons] at left middle
    have here := reaches.current
    -- behind the jump over the first arm
    have asking : Consumes c (t :: first) ((d.labelled.labelled.emitted (.unary .test eax)).push
        (.branch (.jumpIf .equal) d.free)) := (reaches.labelled.labelled.emitted _).push _
    obtain ⟨v, tested⟩ : ∃ v, (d.labelled.labelled.emitted (.unary .test eax)).push
        (.branch (.jumpIf .equal) d.free) = v := ⟨_, rfl⟩
    rw [tested] at asking
    have entered := asking.step
    obtain ⟨f, ranTrue, reachesTrue⟩ := complete entered.settled (by rw [entered.words]; omega)
      (by rw [entered.words, entered.scope]; exact whenTrue) (.of_none (by rw [divides]; rfl))
      trueTyped
    have dividing := entered.trans reachesTrue
    have divide : expect .colon f = .ok ⟨⟩ f.advanced :=
      expect_eq_ok_iff.mpr ⟨by rw [dividing.current, divides], rfl⟩
    have beyond : Consumes c second ((f.advanced.push (.branch .jump d.labelled.free)).push
        (.label d.free)) := (dividing.step.push _).push _
    obtain ⟨w, jumped⟩ : ∃ w, (f.advanced.push (.branch .jump d.labelled.free)).push
        (.label d.free) = w := ⟨_, rfl⟩
    rw [jumped] at beyond
    obtain ⟨g, ranFalse, reachesFalse⟩ := complete beyond.settled (by rw [beyond.words]; omega)
      (by rw [beyond.words, beyond.scope]; exact whenFalse) stops falseTyped
    refine ⟨_, ?_, (beyond.trans reachesFalse).push (.label d.labelled.free)⟩
    rw [ternary, bind_of_ok (line_apply c), bind_of_ok ran, bind_of_ok (token_apply d),
      if_neg (by rw [here, asks]; decide), boolean, Ty.accepts_self]
    simp only [Bool.not_true, Bool.false_eq_true, if_false, bind_of_ok (freshLabel_apply _),
      bind_of_ok (emit_apply _ _), bind_of_ok (emitJump_apply _ _ _), tested,
      bind_of_ok (advance_apply _), bind_of_ok ranTrue, bind_of_ok divide,
      bind_of_ok (emitLabel_apply _ _), jumped, bind_of_ok (line_apply _), bind_of_ok ranFalse,
      accepted, pure_apply, Expr.type]
  | join below _ joins _ => cases joins

theorem expression_complete {n depth : Nat} (enough : n + 2 ≤ depth) :
    Complete n .choice (expression depth) := by
  induction n generalizing depth with
  | zero =>
    intro c e rest settled few parses
    have := parses.shorter
    omega
  | succ n ih =>
    obtain ⟨depth, rfl⟩ : ∃ k, depth = k + 1 := ⟨depth - 1, by omega⟩
    exact ternary_complete (ih (by omega)) (by omega)

-- The compiler of expressions is a parser and a type checker. What it accepts is an expression of
-- the grammar whose operators get operands of their types, and it stops at the first word that
-- cannot continue it; every such expression is accepted. Line marks on the way do not matter.
theorem expression_exact {c : Compiler} {depth : Nat} (settled : c.Settled)
    (enough : c.words.length + 2 ≤ depth) :
    (∀ ⦃type : Ty⦄ ⦃d : Compiler⦄, expression depth c = .ok type d →
      Consumes c d.words d ∧
        ∃ e, ReadsValue c.scope c.words e d.words ∧ Ended d.words ∧ e.type = type) ∧
    ∀ ⦃e : Expr⦄ ⦃rest : List Token⦄, ReadsValue c.scope c.words e rest → Ended rest →
      ∃ d, expression depth c = .ok e.type d ∧ Consumes c rest d := by
  have complete : ∀ ⦃e : Expr⦄ ⦃rest : List Token⦄, ReadsValue c.scope c.words e rest →
      Ended rest → ∃ d, expression depth c = .ok e.type d ∧ Consumes c rest d := by
    intro e rest reads ended
    exact expression_complete enough settled le_rfl reads.parses (Level.stops_choice.mpr ended)
      reads.typed
  refine ⟨?_, complete⟩
  intro type d ran
  obtain ⟨e, elaborates, rfl⟩ := expression_ok depth ran
  obtain ⟨_, stops⟩ := expression_halts depth settled ran
  have reads : ReadsValue c.scope c.words e d.words :=
    ⟨(elaborates.parses settled).2, elaborates.typed⟩
  have ended := Level.stops_choice.mp stops
  obtain ⟨f, again, reaches⟩ := complete reads ended
  cases ran.symm.trans again
  exact ⟨reaches, e, reads, ended, rfl⟩

-- A comparison over two lines, in a scope with one variable.
def spread : Compiler where
  ahead := [⟨.identifier, "x", 1⟩, ⟨.lineMark, "x", 1⟩, ⟨.equal, "==", 2⟩, ⟨.kwNull, "null", 2⟩,
    ⟨.semicolon, ";", 2⟩]
  lines := [(1, "x")]
  lastLine := 2
  scope := [{ symbols := [⟨"x", .double, 1, 0, -1, [], .null⟩], depth := 1, slots := 1 }]

theorem expression_exact_spread :
    spread.Settled ∧ spread.words.length + 2 ≤ 6 ∧
      ∃ d, expression 6 spread = .ok .bool d ∧ Consumes spread [⟨.semicolon, ";", 2⟩] d := by
  have settled : spread.Settled := by
    rintro t ⟨⟩
    decide
  have enough : spread.words.length + 2 ≤ 6 := by decide
  have named : Parses spread.scope .primary spread.words
      (.var ⟨"x", .double, 1, 0, -1, [], .null⟩)
      [⟨.equal, "==", 2⟩, ⟨.kwNull, "null", 2⟩, ⟨.semicolon, ";", 2⟩] :=
    .var rfl (by rintro t ⟨⟩; decide) (by decide)
  have null : Parses spread.scope .primary [⟨.kwNull, "null", 2⟩, ⟨.semicolon, ";", 2⟩]
      (.constant .null) [⟨.semicolon, ";", 2⟩] := .null rfl
  have left : Parses spread.scope .comparison spread.words _ _ :=
    .lift rfl (.lift rfl (.lift rfl (.lift rfl (.lift rfl named))))
  have right : Parses spread.scope .sum _ (.constant .null) _ :=
    .lift rfl (.lift rfl (.lift rfl (.lift rfl null)))
  have parses : Parses spread.scope .choice spread.words (.compare .equal _ (.constant .null)) _ :=
    .lift rfl (.lift rfl (.lift rfl (.join rfl left (.comparison rfl) right)))
  have typed : Expr.Typed
      (.compare .equal (.var ⟨"x", .double, 1, 0, -1, [], .null⟩) (.constant .null)) :=
    ⟨rfl, fun _ => rfl, by decide⟩
  have ended : Ended [⟨.semicolon, ";", 2⟩] := by
    rintro t ⟨⟩
    rfl
  exact ⟨settled, enough, (expression_exact settled enough).2 ⟨parses, typed⟩ ended⟩

end Compile

end ScalarScript
