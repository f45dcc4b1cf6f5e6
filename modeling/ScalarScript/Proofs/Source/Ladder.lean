import ScalarScript.Proofs.Source.Expression
/-!
Where an expression ends. A word behind an expression continues it at one level of the ladder, if at
all; every level reads on until what follows continues a looser level only.
-/
namespace ScalarScript

open Stateful Compile

namespace Level

-- How loosely a level binds.
def rank : Level → Nat
  | primary => 0
  | unary => 1
  | power => 2
  | product => 3
  | sum => 4
  | comparison => 5
  | conjunction => 6
  | disjunction => 7
  | choice => 8

-- The level that a word continues behind an expression.
def continued : Kind → Option Level
  | .caret => some power
  | .star | .slash | .percent => some product
  | .plus | .minus => some sum
  | .equal | .notEqual | .greater | .greaterEqual | .less | .lessEqual => some comparison
  | .and => some conjunction
  | .or => some disjunction
  | .question => some choice
  | _ => none

-- What follows continues an expression at a looser level only, if at all.
def Stops (level : Level) (rest : List Token) : Prop :=
  ∀ t ∈ rest.head?, ∀ other ∈ continued t.kind, level.rank < other.rank

theorem rank_below {level lower : Level} (below : level.below = some lower) :
    lower.rank < level.rank := by
  cases level <;> simp only [Level.below, reduceCtorEq, Option.some.injEq] at below <;>
    subst below <;> decide

theorem Stops.mono {level lower : Level} {rest : List Token} (stops : level.Stops rest)
    (tighter : lower.rank ≤ level.rank) : lower.Stops rest := by
  intro t first other continues
  have := stops t first other continues
  omega

theorem Stops.cons {level other : Level} {t : Token} {rest : List Token}
    (continues : continued t.kind = some other) (looser : level.rank < other.rank) :
    level.Stops (t :: rest) := by
  intro u first next after
  obtain rfl : t = u := by simpa using first
  rw [continues] at after
  obtain rfl : other = next := by simpa using after
  exact looser

theorem Stops.of_none {level : Level} {t : Token} {rest : List Token}
    (ends : continued t.kind = none) : level.Stops (t :: rest) := by
  intro u first next after
  obtain rfl : t = u := by simpa using first
  simp [ends] at after

theorem Joins.continued {level : Level} {k : Kind} {a b e : Expr} (joins : level.Joins k a b e) :
    Level.continued k = some level := by
  cases joins with
  | power known => cases k <;> simp_all [powers, Level.continued]
  | product known => cases k <;> simp_all [products, Level.continued]
  | comparison known => cases k <;> simp_all [comparison?, Level.continued]
  | add | concat | sub | conjunction | disjunction => rfl

-- Where the whole gets operands of its types, so do both of its parts.
theorem Joins.typed {level : Level} {k : Kind} {a b e : Expr} (joins : level.Joins k a b e)
    (given : e.Typed) : a.Typed ∧ b.Typed := by
  cases joins <;> exact ⟨given.1, given.2.1⟩

end Level

-- Nothing that follows continues an expression.
def Ended (rest : List Token) : Prop := ∀ t ∈ rest.head?, Level.continued t.kind = none

theorem Level.stops_choice {rest : List Token} : Level.Stops .choice rest ↔ Ended rest := by
  constructor
  · intro stops t first
    cases continues : Level.continued t.kind with
    | none => rfl
    | some other =>
      have := stops t first other continues
      cases other <;> simp [Level.rank] at this
  · intro ended t first other continues
    simp [ended t first] at continues

namespace Compiler

theorem of_words_cons {c : Compiler} {t : Token} {rest : List Token} (settled : c.Settled)
    (words : c.words = t :: rest) : c.current = t ∧ c.advanced.words = rest := by
  have here : c.current = t := current_eq_of_mem settled (by simp [words])
  refine ⟨here, ?_⟩
  rw [words_advanced]
  cases ahead : c.ahead with
  | nil => simp [Compiler.words, ahead] at words
  | cons u tail =>
    have real : u.kind ≠ .lineMark := settled u (by simp [ahead])
    simp only [Compiler.words, ahead, ne_eq, decide_not, List.filter_cons, real, decide_false,
      Bool.not_false, if_true, List.cons.injEq] at words
    simpa using words.2

theorem current_of_stops {c : Compiler} {level : Level} (settled : c.Settled)
    (stops : level.Stops c.words) {other : Level}
    (continues : Level.continued c.current.kind = some other) : level.rank < other.rank := by
  cases words : c.words with
  | nil =>
    have none : c.current.kind = .finish := by
      unfold Compiler.words at words
      unfold current
      cases ahead : c.ahead with
      | nil => rfl
      | cons u tail =>
        have real : u.kind ≠ .lineMark := settled u (by simp [ahead])
        simp [ahead, real] at words
    simp [none, Level.continued] at continues
  | cons t rest =>
    obtain ⟨rfl, _⟩ := of_words_cons settled words
    exact stops _ (by simp [words]) other continues

end Compiler

-- An action that reads on as long as the next word continues the level.
def Halts (level : Level) (x : Compile Ty) : Prop :=
  ∀ ⦃c d : Compiler⦄ ⦃type : Ty⦄, c.Settled → x c = .ok type d → d.Settled ∧ level.Stops d.words

theorem Level.stops_unary (rest : List Token) : Level.Stops .unary rest := by
  intro t _ other continues
  revert continues
  cases t.kind <;> rintro ⟨⟩ <;> decide

theorem Faithful.halts {x : Compile Ty} (faithful : Faithful .unary x) : Halts .unary x := by
  intro c d type settled ran
  obtain ⟨e, elaborates, _⟩ := faithful ran
  exact ⟨(elaborates.parses settled).1, Level.stops_unary _⟩

-- What follows continues no level up to one, where it continues none up to the one below and is not
-- an operator of the level itself.
theorem Compiler.stops_of_below {c : Compiler} {level lower : Level}
    (below : level.below = some lower) (settled : c.Settled) (stops : lower.Stops c.words)
    (other : Level.continued c.current.kind ≠ some level) : level.Stops c.words := by
  intro t first next continues
  rw [Compiler.current_eq_of_mem settled first] at other
  have different : next ≠ level := by
    rintro rfl
    exact other continues
  have looser := stops t first next continues
  cases level <;> cases below <;> cases next <;> simp_all [Level.rank]

namespace Compile

-- A loop over the operators of a level, each with one more operand.
structure Loops (level : Level) (operand : Compile Ty) (loop : Nat → Nat → Ty → Compile Ty) :
    Prop where
  bound : ∀ {line : Nat} {left type : Ty} {c d : Compiler}, loop 0 line left c ≠ .ok type d
  turn : ∀ {steps line : Nat} {left type : Ty} {c d : Compiler},
    loop (steps + 1) line left c = .ok type d →
    (d = c ∧ Level.continued c.current.kind ≠ some level) ∨
    ∃ u v w right next before, u.Settled ∧ operand u = .ok right v ∧ w.ahead = v.ahead ∧
      loop steps next before w = .ok type d

namespace Loops

variable {level lower : Level} {operand : Compile Ty} {loop : Nat → Nat → Ty → Compile Ty}

theorem halts_from (loops : Loops level operand loop) (below : level.below = some lower)
    (halts : Halts lower operand) {steps line : Nat} {left type : Ty} {c d : Compiler}
    (settled : c.Settled) (stops : lower.Stops c.words)
    (ran : loop steps line left c = .ok type d) : d.Settled ∧ level.Stops d.words := by
  induction steps generalizing line left c with
  | zero => exact absurd ran loops.bound
  | succ steps ih =>
    rcases loops.turn ran with
      ⟨rfl, other⟩ | ⟨u, v, w, right, next, before, start, inner, kept, ran⟩
    · exact ⟨settled, Compiler.stops_of_below below settled stops other⟩
    · obtain ⟨later, ends⟩ := halts start inner
      refine ih ?_ ?_ ran
      · unfold Compiler.Settled
        rw [kept]
        exact later
      · rw [Compiler.words, kept]
        exact ends

theorem halts (loops : Loops level operand loop) (below : level.below = some lower)
    (halts : Halts lower operand) (steps : Nat) : Halts level (do
      let leftLine ← line
      loop steps leftLine (← operand)) := by
  intro c d type settled ran
  obtain ⟨left, u, first, ran⟩ := bind_eq_ok_iff.mp (bind_of_ok (line_apply c) ▸ ran)
  obtain ⟨later, ends⟩ := halts settled first
  exact loops.halts_from below halts later ends ran

end Loops

theorem arithmetic_loops {level : Level} {ops : Kind → Option BinaryOp} {operand : Compile Ty}
    (known : ∀ {k}, Level.continued k = some level → ops k ≠ none) :
    Loops level operand fun steps line => arithmeticTail ops operand line steps where
  bound := fail_ne_ok _ _ _ _
  turn := by
    intro steps line left type c d ran
    simp only [arithmeticTail, bind_eq_ok_iff, token_apply, EStateM.Result.ok.injEq, ↓existsAndEq,
      true_and] at ran
    cases operator : ops c.current.kind with
    | none =>
      simp only [operator, pure_apply, EStateM.Result.ok.injEq] at ran
      exact .inl ⟨ran.2.symm, fun continues => known continues operator⟩
    | some op =>
      simp only [operator, bind_eq_ok_iff, advance_apply, refuseAt_eq_ok_iff, emit_apply,
        EStateM.Result.ok.injEq, ↓existsAndEq, true_and, exists_const, Prod.exists] at ran
      obtain ⟨right, rightLine, v, right, _, _, ran⟩ := ran
      obtain ⟨u, inner, rfl⟩ := rightOperand_ok right
      exact .inr ⟨_, u, _, _, _, _, c.settled_advanced.emitted _, inner, by simp, ran⟩

theorem sumOp_state {operator : Kind} {l : Nat} {left : Ty} {op : BinaryOp} {c d : Compiler}
    (ran : sumOp operator l left c = .ok op d) : d = c := by
  unfold sumOp at ran
  split at ran
  · cases left <;> first | (cases ran; rfl) | exact absurd ran (failAt_ne_ok _ _ _ _ _)
  · split at ran
    · exact absurd ran (failAt_ne_ok _ _ _ _ _)
    · cases ran
      rfl

theorem sum_loops {operand : Compile Ty} :
    Loops .sum operand fun steps line => sumTail operand line steps where
  bound := fail_ne_ok _ _ _ _
  turn := by
    intro steps line left type c d ran
    simp only [sumTail, bind_eq_ok_iff, token_apply, EStateM.Result.ok.injEq, ↓existsAndEq,
      true_and, Bool.or_eq_true, decide_eq_true_eq] at ran
    split at ran
    · simp only [bind_eq_ok_iff, advance_apply, refuseAt_eq_ok_iff, emit_apply,
        EStateM.Result.ok.injEq, ↓existsAndEq, true_and, exists_const, Prod.exists] at ran
      obtain ⟨right, rightLine, v, right, op, w, chosen, _, ran⟩ := ran
      obtain ⟨u, inner, rfl⟩ := rightOperand_ok right
      obtain rfl := sumOp_state chosen
      exact .inr ⟨_, u, _, _, _, _, c.settled_advanced.emitted _, inner, by simp, ran⟩
    · rename_i neither
      simp only [pure_apply, EStateM.Result.ok.injEq] at ran
      refine .inl ⟨ran.2.symm, fun continues => neither ?_⟩
      revert continues
      cases c.current.kind <;> simp [Level.continued]

theorem comparison_loops {operand : Compile Ty} :
    Loops .comparison operand fun steps line => comparisonTail operand line steps where
  bound := fail_ne_ok _ _ _ _
  turn := by
    intro steps line left type c d ran
    simp only [comparisonTail, bind_eq_ok_iff, token_apply, EStateM.Result.ok.injEq, ↓existsAndEq,
      true_and] at ran
    cases operator : comparison? c.current.kind with
    | none =>
      simp only [operator, pure_apply, EStateM.Result.ok.injEq] at ran
      refine .inl ⟨ran.2.symm, fun continues => ?_⟩
      revert operator continues
      cases c.current.kind <;> simp [Level.continued, comparison?]
    | some condition =>
      simp only [operator, bind_eq_ok_iff, advance_apply, emit_apply, EStateM.Result.ok.injEq,
        ↓existsAndEq, true_and, exists_const, Prod.exists] at ran
      obtain ⟨right, rightLine, v, right, _, w, checked, ran⟩ := ran
      obtain ⟨u, inner, rfl⟩ := rightOperand_ok right
      obtain ⟨rfl, _⟩ := checkComparison_ok operator checked
      exact .inr ⟨_, u, _, _, _, _, c.settled_advanced.emitted _, inner, by simp, ran⟩

theorem logical_loops {level : Level} {rule : Logical} {operand : Compile Ty}
    (known : ∀ {k}, Level.continued k = some level → k = rule.operator) :
    Loops level operand (logicalTail rule operand) where
  bound := fail_ne_ok _ _ _ _
  turn := by
    intro steps line left type c d ran
    simp only [logicalTail, bind_eq_ok_iff, token_apply, EStateM.Result.ok.injEq, ↓existsAndEq,
      true_and] at ran
    split at ran
    · simp only [bind_eq_ok_iff, refuseAt_eq_ok_iff, freshLabel_apply, emit_apply, emitJump_apply,
        emitLabel_apply, advance_apply, line_apply, EStateM.Result.ok.injEq, ↓existsAndEq,
        true_and, exists_const] at ran
      obtain ⟨_, right, u, inner, _, ran⟩ := ran
      exact .inr ⟨_, u, _, _, _, _, Compiler.settled_advanced _, inner, by simp, ran⟩
    · rename_i elsewhere
      simp only [pure_apply, EStateM.Result.ok.injEq] at ran
      exact .inl ⟨ran.2.symm, fun continues => elsewhere (known continues)⟩

theorem operatorLevels_halts {self : Compile Ty} (faithful : Faithful .choice self) (steps : Nat) :
    Halts .disjunction (operatorLevels self steps) := by
  have unary := (unary_ok (primary_ok faithful steps) steps).halts
  have powered : ∀ {k}, Level.continued k = some .power → powers k ≠ none := by
    intro k
    cases k <;> simp [Level.continued, powers]
  have produced : ∀ {k}, Level.continued k = some .product → products k ≠ none := by
    intro k
    cases k <;> simp [Level.continued, products]
  have power : Halts .power (arithmetic powers _ steps) :=
    (arithmetic_loops powered).halts rfl unary steps
  have product : Halts .product (arithmetic products _ steps) :=
    (arithmetic_loops produced).halts rfl power steps
  have sum : Halts .sum (sum _ steps) := sum_loops.halts rfl product steps
  have comparison : Halts .comparison (comparison _ steps) := comparison_loops.halts rfl sum steps
  have conjoined : ∀ {k},
      Level.continued k = some .conjunction → k = conjunctionRule.operator := by
    intro k
    cases k <;> simp [Level.continued, conjunctionRule]
  have disjoined : ∀ {k},
      Level.continued k = some .disjunction → k = disjunctionRule.operator := by
    intro k
    cases k <;> simp [Level.continued, disjunctionRule]
  have conjunction : Halts .conjunction (logical conjunctionRule _ steps) :=
    (logical_loops conjoined).halts rfl comparison steps
  exact (logical_loops disjoined).halts rfl conjunction steps

theorem ternary_halts {self : Compile Ty} (faithful : Faithful .choice self)
    (halts : Halts .choice self) (steps : Nat) : Halts .choice (ternary self steps) := by
  intro c d type settled ran
  simp only [ternary, bind_eq_ok_iff, line_apply, token_apply, EStateM.Result.ok.injEq,
    ↓existsAndEq, true_and] at ran
  obtain ⟨conditionType, u, first, ran⟩ := ran
  obtain ⟨later, ends⟩ := operatorLevels_halts faithful steps settled first
  split at ran
  · rename_i plain
    simp only [pure_apply, EStateM.Result.ok.injEq] at ran
    obtain ⟨rfl, rfl⟩ := ran
    refine ⟨later, Compiler.stops_of_below rfl later ends fun continues => plain ?_⟩
    revert continues
    cases u.current.kind <;> simp [Level.continued]
  · simp only [bind_eq_ok_iff, refuseAt_eq_ok_iff, freshLabel_apply, emit_apply, emitJump_apply,
      emitLabel_apply, advance_apply, expect_eq_ok_iff, line_apply, pure_apply,
      EStateM.Result.ok.injEq, ↓existsAndEq, true_and, and_true, exists_const] at ran
    obtain ⟨_, whenTrue, v, _, _, whenFalse, w, third, _, _, rfl⟩ := ran
    obtain ⟨last, ended⟩ := halts ((v.settled_advanced.push _).push _) third
    exact ⟨last.push _, ended⟩

-- An expression that compiles ends where no word continues it.
theorem expression_halts (depth : Nat) : Halts .choice (expression depth) := by
  induction depth with
  | zero =>
    intro c d type _ ran
    exact absurd ran (fail_ne_ok _ _ _ _)
  | succ depth ih => exact ternary_halts (expression_ok depth) ih depth

end Compile

end ScalarScript
