import ScalarScript.Proofs.Source.Course
/-!
The clauses of a source: its statements, and the parts of statements that are compiled by themselves,
which are conditions and what stands in the parentheses of a `for`. The compiler comes to each of
them in turn; before and behind it, it only makes the moves that it is made of.
-/
namespace ScalarScript

open Stateful Compile

-- What survives every move, wherever the compiler goes back to.
structure Roaming (P : List Int → Compiler → Prop) : Prop extends Lasting P where
  roam : ∀ {G c} (tokens : List Token), P G c → P G (c.settle tokens)

namespace Compiler

-- Whether a list of statements goes on.
def More (c : Compiler) : Prop := c.current.kind ≠ .rightBrace ∧ c.current.kind ≠ .finish

instance (c : Compiler) : Decidable c.More := inferInstanceAs (Decidable (_ ∧ _))

-- In front of the condition, or the body, of a loop that starts with its label.
def looping (c : Compiler) : Compiler := c.advanced.labelled.labelled.push (.label c.free)

-- In the body of a loop that ends at a label, and behind the body.
def around (c : Compiler) (done : Int) : Compiler := { c with loops := done :: c.loops }

def beyond (c : Compiler) : Compiler := { c with loops := c.loops.tail }

-- A statement with no statement inside, and code of its own that does more than jump.
def Brief (c : Compiler) : Prop :=
  match c.current.kind.scalar? with
  | some _ => c.advanced.advanced.current.kind ≠ .leftParen
  | none => c.current.kind ∉
      [.leftBrace, .kwIf, .kwWhile, .kwFor, .kwLoop, .kwBreak, .semicolon, .rightBrace, .finish]

end Compiler

namespace Compile

-- The body of a function in front of its statements.
def bodyHead (params : List Param) (f : Enclosing) : Compile Unit := do
  emit (.pushScope (← innermost).depth 0)
  let slots ← bindParams params
  slots.reverse.forM fun slot => emit (.pop slot)
  modify (·.entering f)
  expect .leftBrace

-- The same for the whole definition.
def functionHead (steps : Nat) (type : Scalar) : Compile Unit := do
  advance
  let nameLine ← line
  let name ← expectName
  expect .leftParen
  let params ← parameterList steps
  expect .rightParen
  let skip ← freshLabel
  let entry ← freshLabel
  let result ← freshLabel
  discard (onScope nameLine .declaration
    (·.declareFunction name entry (params.map (·.type.ty)) type.ty))
  emitJump .jump skip
  emitLabel entry
  enter (← innermost).child
  bodyHead params ⟨name, type.ty, result⟩

-- The statements of a list that starts at the first state.
inductive Listed (depth : Nat) : Compiler → Compiler → Prop where
  | first {c : Compiler} (more : c.More) : Listed depth c c
  | later {c m d : Compiler} (more : c.More) (ran : statement depth c = .ok () m)
      (rest : Listed depth m d) : Listed depth c d

-- A statement, and one directly inside it.
inductive Inner (depth : Nat) (c : Compiler) : Compiler → Prop where
  | block {d : Compiler} (opened : c.current.kind = .leftBrace)
      (listed : Listed depth (c.advanced.inside c.scope.top.block) d) : Inner depth c d
  | functionBody {type : Scalar} {m d : Compiler} (typed : c.current.kind.scalar? = some type)
      (head : functionHead depth type c = .ok () m) (listed : Listed depth m d) : Inner depth c d
  | whenTrue {m : Compiler} (asks : c.current.kind = .kwIf)
      (test : condition (expression depth) c.advanced = .ok () m) :
      Inner depth c (m.labelled.push (.branch (.jumpIf .equal) m.free))
  | whenFalse {m n : Compiler} (asks : c.current.kind = .kwIf)
      (test : condition (expression depth) c.advanced = .ok () m)
      (ran : statement depth (m.labelled.push (.branch (.jumpIf .equal) m.free)) = .ok () n)
      (divides : n.current.kind = .kwElse) :
      Inner depth c ((n.advanced.labelled.push (.branch .jump n.free)).push (.label m.free))
  | whileBody {m : Compiler} (starts : c.current.kind = .kwWhile)
      (test : condition (expression depth) c.looping = .ok () m) :
      Inner depth c ((m.push (.branch (.jumpIf .equal) (c.free + 1 : Nat))).around
        (c.free + 1 : Nat))
  | loopBody (starts : c.current.kind = .kwLoop) :
      Inner depth c (c.looping.around (c.free + 1 : Nat))
  | forBody {top done : Int} {m n : Compiler} (starts : c.current.kind = .kwFor)
      (head : forHead (statement depth) (expression depth) depth
        (c.advanced.advanced.inside c.scope.top.block) = .ok (top, done) m)
      (skipped : skipStep depth 0 m = .ok () n) : Inner depth c (n.advanced.around done)

-- A clause of a statement, with no statement inside, and where the compiler takes it up. A part of
-- a `for` ends with the token behind it.
inductive Clause : Nat → Compiler → Compile Unit → Compiler → Prop where
  | inner {depth : Nat} {c d m : Compiler} {x : Compile Unit} (inner : Inner depth c d)
      (clause : Clause depth d x m) : Clause (depth + 1) c x m
  | whole {depth : Nat} {c : Compiler} (brief : c.Brief) :
      Clause (depth + 1) c (statement (depth + 1)) c
  | ifCondition {depth : Nat} {c : Compiler} (asks : c.current.kind = .kwIf) :
      Clause (depth + 1) c (condition (expression depth)) c.advanced
  | whileCondition {depth : Nat} {c : Compiler} (starts : c.current.kind = .kwWhile) :
      Clause (depth + 1) c (condition (expression depth)) c.looping
  | loopCondition {depth : Nat} {c m : Compiler} (starts : c.current.kind = .kwLoop)
      (ran : statement depth (c.looping.around (c.free + 1 : Nat)) = .ok () m) :
      Clause (depth + 1) c (condition (expression depth)) m.beyond.advanced
  | forInit {depth : Nat} {c : Compiler} (starts : c.current.kind = .kwFor) :
      Clause (depth + 1) c
        (do forInit (statement depth) (expression depth) depth; expect .semicolon)
        (c.advanced.advanced.inside c.scope.top.block)
  | forCondition {depth : Nat} {c m : Compiler} (starts : c.current.kind = .kwFor)
      (ran : (do forInit (statement depth) (expression depth) depth; expect .semicolon)
        (c.advanced.advanced.inside c.scope.top.block) = .ok () m) :
      Clause (depth + 1) c
        (do forCondition (expression depth) (m.free + 1 : Nat); expect .semicolon)
        (m.labelled.labelled.push (.label m.free))
  | forStep {depth : Nat} {c m n p : Compiler} {top done : Int} (starts : c.current.kind = .kwFor)
      (head : forHead (statement depth) (expression depth) depth
        (c.advanced.advanced.inside c.scope.top.block) = .ok (top, done) m)
      (skipped : skipStep depth 0 m = .ok () n)
      (ran : statement depth (n.advanced.around done) = .ok () p) :
      Clause (depth + 1) c (do forStep (expression depth); expect .rightParen)
        (p.beyond.settle m.ahead)

end Compile

-- From the one state to the other, with some labels at hand before and others behind, every
-- property survives, and code is only added.
def Carries (L K : List Int) (c d : Compiler) : Prop :=
  ∀ ⦃P : List Int → Compiler → Prop⦄ ⦃G : List Int⦄, Roaming P → P (L ++ G) c →
    P (K ++ G) d ∧ c.faces <+: d.faces

namespace Carries

variable {L K J : List Int} {c d e : Compiler} {l : Int}

theorem refl (L : List Int) (c : Compiler) : Carries L L c c :=
  fun _ _ _ holds => ⟨holds, List.prefix_rfl⟩

theorem trans (first : Carries L K c d) (second : Carries K J d e) : Carries L J c e := by
  intro P G up holds
  obtain ⟨middle, grown⟩ := first up holds
  obtain ⟨after, more⟩ := second up middle
  exact ⟨after, grown.trans more⟩

-- Labels that are at hand elsewhere stay so.
theorem frame (carries : Carries L K c d) (J : List Int) : Carries (L ++ J) (K ++ J) c d := by
  intro P G up holds
  rw [List.append_assoc] at holds ⊢
  exact carries up holds

theorem weaken (carries : Carries L K c d) (fewer : J ⊆ K) : Carries L J c d := by
  intro P G up holds
  obtain ⟨after, grown⟩ := carries up holds
  refine ⟨up.weaken ?_ after, grown⟩
  exact List.append_subset.mpr ⟨List.subset_append_of_subset_left _ fewer,
    List.subset_append_right _ _⟩

theorem known (carries : Carries L K c d) : Carries L (d.known ++ K) c d := by
  intro P G up holds
  obtain ⟨after, grown⟩ := carries up holds
  refine ⟨?_, grown⟩
  rw [List.append_assoc]
  exact up.gather after

-- An action goes on from there, with the same labels at hand.
theorem act {α : Type} {x : Compile α} {a : α} {J : List Int} (carries : Carries L K c d)
    (keeps : ∀ {P}, Roaming P → Upholds P J x) (given : J ⊆ K) (ran : x d = .ok a e) :
    Carries L K c e := by
  refine carries.trans fun P G up holds => keeps up ?_ holds ran
  exact List.subset_append_of_subset_left _ given

theorem settle (carries : Carries L K c d) (tokens : List Token) :
    Carries L K c (d.settle tokens) :=
  carries.trans fun _ _ up holds => ⟨up.roam tokens holds, by rw [Compiler.faces_settle]⟩

theorem advance (carries : Carries L K c d) : Carries L K c d.advanced := carries.settle _

theorem fresh (carries : Carries L K c d) : Carries L ((d.free : Int) :: K) c d.labelled :=
  carries.trans fun _ _ up holds => ⟨up.fresh holds, List.prefix_rfl⟩

theorem push {i : Instruction} (carries : Carries L K c d)
    (keeps : ∀ {P G}, Roaming P → P (K ++ G) d → P (K ++ G) (d.push i)) :
    Carries L K c (d.push i) :=
  carries.trans fun _ _ up holds => ⟨keeps up holds, _, (d.faces_push _).symm⟩

theorem label (carries : Carries L K c d) (member : l ∈ K) : Carries L K c (d.push (.label l)) :=
  carries.push fun up holds => up.label (List.mem_append_left _ member) holds

theorem jump (carries : Carries L K c d) (member : l ∈ K) :
    Carries L K c (d.push (.branch .jump l)) :=
  carries.push fun up holds => up.jump (.inl rfl) (List.mem_append_left _ member) holds

theorem jumpIf (carries : Carries L K c d) (condition : Condition) (member : l ∈ K) :
    Carries L K c (d.push (.branch (.jumpIf condition) l)) :=
  carries.push fun up holds => up.jump (.inr ⟨_, rfl⟩) (List.mem_append_left _ member) holds

theorem emit {i : Instruction} (carries : Carries L K c d) (active : i.opcode.isMark = false)
    (plain : i.opcode.isBranch = false) : Carries L K c (d.emitted i) :=
  carries.trans fun _ _ up holds => ⟨up.emit active (by simp [plain]) holds, d.faces_emitted i⟩

theorem inside (carries : Carries L K c d) (table : Table) (bare : table.symbols = []) :
    Carries L K c (d.inside table) :=
  carries.trans fun _ _ up holds => ⟨up.toUpheld.inside bare holds, List.prefix_rfl⟩

theorem outside (carries : Carries L K c d) : Carries L K c d.outside :=
  carries.trans fun _ _ up holds => ⟨up.toUpheld.outside holds, List.prefix_rfl⟩

theorem around (carries : Carries L K c d) (member : l ∈ K) : Carries L K c (d.around l) := by
  refine carries.trans fun P G up holds => ⟨?_, List.prefix_rfl⟩
  refine up.lend (c := d) d.scope (l :: d.loops) d.enclosing (fun label leads => ?_) holds
  rw [Compiler.mem_known] at leads
  rcases leads with loop | others
  · rcases List.mem_cons.mp loop with rfl | outer
    · exact .inr (List.mem_append_left _ member)
    · exact .inl (Compiler.mem_known.mpr (.inl outer))
  · exact .inl (Compiler.mem_known.mpr (.inr others))

theorem beyond (carries : Carries L K c d) : Carries L K c d.beyond := by
  refine carries.trans fun P G up holds => ⟨?_, List.prefix_rfl⟩
  refine up.lend (c := d) d.scope d.loops.tail d.enclosing (fun label leads => ?_) holds
  rw [Compiler.mem_known] at leads
  exact .inl (Compiler.mem_known.mpr (leads.imp_left List.mem_of_mem_tail))

theorem entering {f : Enclosing} (carries : Carries L K c d) (member : f.returnLabel ∈ K) :
    Carries L K c (d.entering f) := by
  refine carries.trans fun P G up holds => ⟨?_, List.prefix_rfl⟩
  refine up.lend (c := d) d.scope [] (some f) (fun label leads => ?_) holds
  rw [Compiler.mem_known] at leads
  rcases leads with loop | ⟨_, ⟨⟩, rfl⟩ | entry
  · cases loop
  · exact .inr (List.mem_append_left _ member)
  · exact .inl (Compiler.mem_known.mpr (.inr (.inr entry)))

theorem returning (carries : Carries L K c d) (known : e.known ⊆ K) :
    Carries L K c (d.returning e) := by
  refine carries.trans fun P G up holds => ⟨?_, List.prefix_rfl⟩
  refine up.lend (c := d) d.scope e.loops e.enclosing (fun label leads => ?_) holds
  rw [Compiler.mem_known] at leads
  rcases leads with loop | ending | entry
  · exact .inr (List.mem_append_left _ (known (Compiler.mem_known.mpr (.inl loop))))
  · exact .inr (List.mem_append_left _ (known (Compiler.mem_known.mpr (.inr (.inl ending)))))
  · exact .inl (Compiler.mem_known.mpr (.inr (.inr entry)))

theorem amend {index : Nat} {depth size : Int} (carries : Carries L K c d)
    (same : d.faces[index]? = some (Instruction.pushScope depth size).face) :
    Carries L K c (d.amended index (.pushScope depth size)) :=
  carries.trans fun _ _ up holds => ⟨up.amend same holds, by rw [faces_amended same]⟩

-- Code is added.
theorem grows (carries : Carries L K c d) : c.faces <+: d.faces :=
  (carries (P := fun _ _ => True) (G := [])
    { weaken := fun _ _ => trivial, gather := fun _ => trivial, advance := fun _ => trivial
      emit := fun _ _ _ => trivial, label := fun _ _ => trivial, jump := fun _ _ _ => trivial
      fresh := fun _ => trivial, rescope := fun _ _ _ _ _ => trivial
      lend := fun _ _ _ _ _ => trivial, detour := fun _ _ => trivial
      amend := fun _ _ => trivial, roam := fun _ _ => trivial } trivial).2

end Carries

-- A run that comes to another one on its way, and goes on behind it.
def Surrounds (c d m n : Compiler) : Prop := ∃ L, Carries [] L c m ∧ Carries L [] n d

theorem Surrounds.refl (c d : Compiler) : Surrounds c d c d := ⟨[], .refl _ _, .refl _ _⟩

theorem Surrounds.trans {c d m n p q : Compiler} (outer : Surrounds c d m n)
    (inner : Surrounds m n p q) : Surrounds c d p q := by
  obtain ⟨L, before, after⟩ := outer
  obtain ⟨K, first, last⟩ := inner
  exact ⟨K ++ L, before.trans (first.frame L), (last.frame L).trans after⟩

namespace Compile

section

variable {statement : Compile Unit} {expr : Compile Ty} {steps : Nat} {c d : Compiler} {u : Unit}

theorem block_run (ran : block statement steps c = .ok u d) :
    ∃ m, statements statement .missingBrace steps (c.advanced.inside c.scope.top.block) = .ok () m ∧
      d = m.advanced.outside := by
  simp only [block, bind_eq_ok_iff, advance_apply, innermost_apply, within_eq_ok_iff,
    EStateM.Result.ok.injEq, ↓existsAndEq, true_and, and_true, exists_const,
    Compiler.advanced_scope] at ran
  obtain ⟨_, m, inner, rfl⟩ := ran
  exact ⟨m, inner, rfl⟩

-- An `if`, up to the statement behind its condition, and on from there.
theorem conditional_run (ran : conditional statement expr c = .ok u d) :
    ∃ m n, condition expr c.advanced = .ok () m ∧
      statement (m.labelled.push (.branch (.jumpIf .equal) m.free)) = .ok () n ∧
      ((n.current.kind ≠ .kwElse ∧ d = n.push (.label m.free)) ∨
        (n.current.kind = .kwElse ∧ ∃ p,
          statement ((n.advanced.labelled.push (.branch .jump n.free)).push (.label m.free)) =
            .ok () p ∧ d = p.push (.label n.free))) := by
  simp only [conditional, bind_eq_ok_iff, advance_apply, freshLabel_apply, emitJump_apply,
    token_apply, EStateM.Result.ok.injEq, ↓existsAndEq, true_and, exists_const] at ran
  obtain ⟨_, m, test, _, n, first, ran⟩ := ran
  refine ⟨m, n, test, first, ?_⟩
  split at ran
  · rename_i alone
    cases ran
    exact .inl ⟨alone, rfl⟩
  · rename_i divides
    rw [not_not] at divides
    simp only [bind_eq_ok_iff, advance_apply, freshLabel_apply, emitJump_apply, emitLabel_apply,
      EStateM.Result.ok.injEq, ↓existsAndEq, true_and, exists_const, Compiler.free_advanced] at ran
    obtain ⟨_, p, second, rfl⟩ := ran
    exact .inr ⟨divides, p, second, rfl⟩

-- The head of a `for` up to its condition, and on from there.
theorem forHead_run {top done : Int} (ran : forHead statement expr steps c = .ok (top, done) d) :
    ∃ m, (do forInit statement expr steps; expect .semicolon) c = .ok () m ∧
      top = m.free ∧ done = (m.free + 1 : Nat) ∧
      (do forCondition expr done; expect .semicolon)
        (m.labelled.labelled.push (.label m.free)) = .ok () d := by
  simp only [forHead, bind_eq_ok_iff, freshLabel_apply, emitLabel_apply, pure_apply,
    EStateM.Result.ok.injEq, Prod.mk.injEq, ↓existsAndEq, true_and, and_true,
    Compiler.free_labelled] at ran ⊢
  obtain ⟨_, n, init, _, m, one, _, _, o, test, _, two, rfl, rfl⟩ := ran
  exact ⟨m, ⟨_, n, init, one⟩, rfl, rfl, _, o, test, two⟩

theorem forStep_closed (ran : forStep expr c = .ok u d) : d.current.kind = .rightParen := by
  simp only [forStep, bind_eq_ok_iff (x := token), token_apply, EStateM.Result.ok.injEq,
    ↓existsAndEq, true_and] at ran
  split at ran
  · obtain ⟨_, m, _, ran⟩ := bind_eq_ok_iff.mp ran
    simp only [bind_eq_ok_iff (x := token), token_apply, EStateM.Result.ok.injEq, ↓existsAndEq,
      true_and] at ran
    split at ran
    · exact absurd ran (fail_ne_ok _ _ _ _)
    · rename_i closed
      cases ran
      exact not_not.mp closed
  · rename_i closed
    cases ran
    exact not_not.mp closed

theorem loopBody_run {done : Int} (ran : loopBody statement done c = .ok u d) :
    ∃ m, statement (c.around done) = .ok () m ∧ d = m.beyond := by
  simp only [loopBody, bind_eq_ok_iff, modify_apply, EStateM.Result.ok.injEq, ↓existsAndEq,
    true_and, exists_const] at ran
  obtain ⟨_, m, inner, rfl⟩ := ran
  exact ⟨m, inner, rfl⟩

theorem whileLoop_run (ran : whileLoop statement expr c = .ok u d) :
    ∃ m n, condition expr c.looping = .ok () m ∧
      statement ((m.push (.branch (.jumpIf .equal) (c.free + 1 : Nat))).around
        (c.free + 1 : Nat)) = .ok () n ∧
      d = (n.beyond.push (.branch .jump c.free)).push (.label (c.free + 1 : Nat)) := by
  simp only [whileLoop, bind_eq_ok_iff, advance_apply, freshLabel_apply, emitJump_apply,
    emitLabel_apply, EStateM.Result.ok.injEq, ↓existsAndEq, true_and, exists_const,
    Compiler.free_labelled, Compiler.free_advanced] at ran
  obtain ⟨_, m, test, _, _, body, rfl⟩ := ran
  obtain ⟨n, inner, rfl⟩ := loopBody_run body
  exact ⟨m, n, test, inner, rfl⟩

theorem loopWhile_run (ran : loopWhile statement expr c = .ok u d) :
    ∃ m n, statement (c.looping.around (c.free + 1 : Nat)) = .ok () m ∧
      condition expr m.beyond.advanced = .ok () n ∧
      d = (n.push (.branch (.jumpIf .notEqual) c.free)).advanced.push
        (.label (c.free + 1 : Nat)) := by
  simp only [loopWhile, bind_eq_ok_iff, advance_apply, freshLabel_apply, emitJump_apply,
    emitLabel_apply, expect_eq_ok_iff, EStateM.Result.ok.injEq, ↓existsAndEq, true_and, and_true,
    exists_const, Compiler.free_labelled, Compiler.free_advanced] at ran
  obtain ⟨_, _, body, again, _, n, test, ended, rfl⟩ := ran
  obtain ⟨m, inner, rfl⟩ := loopBody_run body
  exact ⟨m, n, inner, test, rfl⟩

end

section

variable {depth : Nat} {c d e : Compiler} {u : Unit}

theorem upholds_statement {P : List Int → Compiler → Prop} (up : Roaming P) :
    Upholds P [] (statement depth) := statement_upholds up.toLasting depth

theorem upholds_condition {P : List Int → Compiler → Prop} (up : Roaming P) :
    Upholds P [] (condition (expression depth)) :=
  condition_upholds up.toUpheld (expression_upholds up.toUpheld depth)

theorem statements_more {self : Compile Unit} {missing : CompileFault} {steps : Nat}
    (more : c.More) (ran : statements self missing steps c = .ok () d) :
    ∃ rest m, self c = .ok () m ∧ statements self missing rest m = .ok () d := by
  cases steps with
  | zero => exact absurd ran (fail_ne_ok _ _ _ _)
  | succ steps =>
    simp only [statements, bind_eq_ok_iff (x := token), token_apply, EStateM.Result.ok.injEq,
      ↓existsAndEq, true_and] at ran
    generalize here : c.current.kind = kind at ran
    split at ran
    · exact absurd here more.1
    · exact absurd here more.2
    · obtain ⟨_, m, first, rest⟩ := bind_eq_ok_iff.mp ran
      exact ⟨steps, m, first, rest⟩

theorem topLevel_more {self : Compile Unit} {steps : Nat} (more : c.More)
    (ran : topLevel self steps c = .ok () d) :
    ∃ rest m, self c = .ok () m ∧ topLevel self rest m = .ok () d := by
  cases steps with
  | zero => exact absurd ran (fail_ne_ok _ _ _ _)
  | succ steps =>
    simp only [topLevel, bind_eq_ok_iff (x := token), token_apply, EStateM.Result.ok.injEq,
      ↓existsAndEq, true_and, if_pos more.2, ne_eq] at ran
    obtain ⟨_, m, first, rest⟩ := bind_eq_ok_iff.mp ran
    exact ⟨steps, m, first, rest⟩

-- Whatever compiles a list of statements comes to each of them.
theorem Listed.surrounds {row : Nat → Compile Unit} {steps : Nat}
    (goes : ∀ {steps c d}, c.More → row steps c = .ok () d →
      ∃ rest m, statement depth c = .ok () m ∧ row rest m = .ok () d)
    (keeps : ∀ {P}, Roaming P → ∀ steps, Upholds P [] (row steps)) (listed : Listed depth c e)
    (ran : row steps c = .ok () d) : ∃ k, statement depth e = .ok () k ∧ Surrounds c d e k := by
  induction listed generalizing steps with
  | first more =>
    obtain ⟨rest, k, first, others⟩ := goes more ran
    exact ⟨k, first, [], .refl _ _, (Carries.refl _ k).act (fun up => keeps up rest) (by simp) others⟩
  | later more first _ ih =>
    obtain ⟨rest, m, same, others⟩ := goes more ran
    cases first.symm.trans same
    obtain ⟨k, there, L, before, after⟩ := ih others
    have start := (Carries.refl [] _).act upholds_statement (List.Subset.refl _) first
    exact ⟨k, there, L, start.trans before, after⟩

theorem Listed.statements {missing : CompileFault} {steps : Nat} (listed : Listed depth c e)
    (ran : statements (statement depth) missing steps c = .ok () d) :
    ∃ k, statement depth e = .ok () k ∧ Surrounds c d e k :=
  listed.surrounds statements_more
    (fun up steps => statements_upholds (upholds_statement up) missing steps) ran

theorem Listed.topLevel {steps : Nat} (listed : Listed depth c e)
    (ran : topLevel (statement depth) steps c = .ok () d) :
    ∃ k, statement depth e = .ok () k ∧ Surrounds c d e k :=
  listed.surrounds topLevel_more (fun up steps => topLevel_upholds (upholds_statement up) steps) ran

theorem carries_looping (c : Compiler) :
    Carries [] [((c.free + 1 : Nat) : Int), c.free] c c.looping := by
  have labels := (Carries.refl [] c).advance.fresh.fresh
  rw [Compiler.free_labelled, Compiler.free_advanced] at labels
  exact labels.label (by simp)

-- From behind the first statement of an `if` to its end.
theorem carries_branchEnd {m n : Compiler}
    (ends : (n.current.kind ≠ .kwElse ∧ d = n.push (.label m.free)) ∨
      (n.current.kind = .kwElse ∧ ∃ p, statement depth
        ((n.advanced.labelled.push (.branch .jump n.free)).push (.label m.free)) = .ok () p ∧
        d = p.push (.label n.free))) : Carries [(m.free : Int)] [] n d := by
  obtain ⟨_, rfl⟩ | ⟨_, p, second, rfl⟩ := ends
  · exact ((Carries.refl _ n).label List.mem_cons_self).weaken (List.nil_subset _)
  · have between := ((Carries.refl [(m.free : Int)] n).advance.fresh.jump
      List.mem_cons_self).label (l := m.free) (by simp)
    rw [Compiler.free_advanced] at between
    exact ((between.act upholds_statement (List.nil_subset _) second).label
      List.mem_cons_self).weaken (List.nil_subset _)

-- From behind the body of a `while` to its end.
theorem carries_whileEnd (c n : Compiler) : Carries [((c.free + 1 : Nat) : Int), c.free] [] n
    ((n.beyond.push (.branch .jump c.free)).push (.label (c.free + 1 : Nat))) :=
  (((Carries.refl _ n).beyond.jump (by simp)).label (by simp)).weaken (List.nil_subset _)

-- From behind the condition of a `loop` to its end.
theorem carries_loopEnd (c n : Compiler) : Carries [((c.free + 1 : Nat) : Int), c.free] [] n
    ((n.push (.branch (.jumpIf .notEqual) c.free)).advanced.push (.label (c.free + 1 : Nat))) :=
  (((Carries.refl [((c.free + 1 : Nat) : Int), c.free] n).jumpIf _ (by simp)).advance.label
    (by simp)).weaken (List.nil_subset _)

-- Up to the condition of a `for`.
theorem carries_forStart {m : Compiler}
    (ran : (do forInit (statement depth) (expression depth) depth; expect .semicolon)
      (c.advanced.advanced.inside c.scope.top.block) = .ok () m) :
    Carries [] [((m.free + 1 : Nat) : Int), m.free] c (m.labelled.labelled.push (.label m.free)) := by
  obtain ⟨_, n, init, one⟩ := bind_eq_ok_iff.mp ran
  obtain ⟨_, rfl⟩ := expect_eq_ok_iff.mp one
  have begun := ((Carries.refl [] c).advance.advance.inside c.scope.top.block rfl).act
    (fun up => forInit_upholds up.toUpheld (expression_upholds up.toUpheld depth) depth)
    (List.nil_subset _) init
  have labels := begun.advance.fresh.fresh
  rw [Compiler.free_labelled] at labels
  exact labels.label (by simp)

-- Its condition.
theorem carries_forTest {m n : Compiler} {top done : Int}
    (ran : (do forCondition (expression depth) done; expect .semicolon) m = .ok () n) :
    Carries [done, top] [done, top] m n := by
  obtain ⟨_, p, test, two⟩ := bind_eq_ok_iff.mp ran
  obtain ⟨_, rfl⟩ := expect_eq_ok_iff.mp two
  exact ((Carries.refl _ m).act (fun up => forCondition_upholds up.toUpheld
    (expression_upholds up.toUpheld depth) done) (by simp) test).advance

-- From its head to its body, and on to its step.
theorem carries_forSkip {m n : Compiler} (top : Int) {done : Int}
    (skipped : skipStep depth 0 m = .ok () n) :
    Carries [done, top] [done, top] m (n.advanced.around done) :=
  ((Carries.refl _ m).act (fun up => skipStep_upholds up.toUpheld depth 0) (List.nil_subset _)
    skipped).advance.around List.mem_cons_self

theorem carries_forBody {n p : Compiler} {top done : Int} (tokens : List Token)
    (ran : statement depth n = .ok () p) :
    Carries [done, top] [done, top] n (p.beyond.settle tokens) :=
  ((Carries.refl _ n).act upholds_statement (List.nil_subset _) ran).beyond.settle tokens

-- From its step to its end.
theorem ForRun.carries {self : Compile Unit} {expr : Compile Ty} {steps : Nat} {top done : Int}
    {m n p q : Compiler} (run : ForRun self expr steps c top done m n p q d) :
    Carries [done, top] [] q d := by
  rw [run.ends]
  exact ((((Carries.refl _ q).settle p.ahead).jump (by simp)).label (by simp)).outside.weaken
    (List.nil_subset _)

theorem carries_forStep {p q : Compiler} {top done : Int}
    (ran : forStep (expression depth) p = .ok () q) : Carries [done, top] [done, top] p q :=
  (Carries.refl _ p).act (fun up => forStep_upholds up.toUpheld
    (expression_upholds up.toUpheld depth)) (List.nil_subset _) ran

-- A statement that begins with a type is a declaration.
theorem statement_declares {type : Scalar} (typed : c.current.kind.scalar? = some type)
    (ran : statement (depth + 1) c = .ok () d) :
    ∃ b m, declaration (statement depth) (expression depth) depth true type c = .ok b m ∧
      (if !b then expect .semicolon else pure () : Compile Unit) m = .ok () d := by
  rw [statement, statementBy, bind_eq_ok_iff] at ran
  obtain ⟨_, _, ⟨⟩, ran⟩ := ran
  generalize c.current.kind = kind at typed ran
  cases kind
  case typeDouble | typeBool | typeString =>
    cases typed
    obtain ⟨b, m, declared, ends⟩ := bind_eq_ok_iff.mp ran
    exact ⟨b, m, declared, ends⟩
  all_goals cases typed

-- The body of a function, up to its statements and behind them.
theorem functionBody_surrounds {params : List Param} {f : Enclosing} {skip : Int} {m : Compiler}
    {size : Nat} (head : bodyHead params f c = .ok () m)
    (ran : functionBody (statement depth) depth params f skip c = .ok size d) :
    ∃ L missing n, statements (statement depth) missing depth m = .ok () n ∧
      Carries [f.returnLabel, skip] L c m ∧ Carries L [] n d := by
  obtain ⟨e, inside, rfl⟩ := functionBody_run ran
  simp only [bodyHead, bind_eq_ok_iff (x := innermost), innermost_apply,
    bind_eq_ok_iff (x := emit _), emit_apply, bind_eq_ok_iff (x := bindParams _),
    bind_eq_ok_iff (x := List.forM _ _), bind_eq_ok_iff (x := modify _), modify_apply,
    expect_eq_ok_iff, EStateM.Result.ok.injEq, ↓existsAndEq, true_and, exists_const] at head
  obtain ⟨slots, p, bound, _, q, popped, braced, rfl⟩ := head
  simp only [functionInside, bind_eq_ok_iff, inFunction_eq_ok_iff, expect_eq_ok_iff, emit_apply,
    emitLabel_apply, EStateM.Result.ok.injEq, ↓existsAndEq, true_and, and_true,
    exists_const] at inside
  obtain ⟨_, _, again, _, _, more, _, n, ⟨_, inner⟩, built⟩ := inside
  cases bound.symm.trans again
  cases popped.symm.trans more
  generalize framed : c.emitted (.pushScope c.scope.top.depth 0) = u at *
  have before := ((((Carries.refl [f.returnLabel, skip] u).act
    (fun up => bindParams_upholds up.toUpheld _) (List.nil_subset _) bound).act
    (fun up => forM_pop_upholds up.toUpheld _) (List.nil_subset _) popped).known.entering
    (f := f) (by simp)).advance
  have through := before.act (fun up => statements_upholds (upholds_statement up) _ _)
    (List.nil_subset _) inner
  have after := (((((Carries.refl (q.known ++ [f.returnLabel, skip]) n).returning (e := q)
    (List.subset_append_left _ _)).emit (i := .move eax .null) rfl rfl).label (l := f.returnLabel)
    (by simp)).emit (i := .popScope c.scope.top.depth) rfl rfl).emit (i := .plain .ret) rfl rfl
    |>.label (l := skip) (by simp)
  rw [built] at after
  -- the frame is still where it was put
  have frame : e.faces[u.program.size - 1]? =
      some (Instruction.pushScope c.scope.top.depth e.scope.count).face := by
    obtain ⟨new, same⟩ := (through.trans after).grows
    have last := c.faces_emitted_last (.pushScope c.scope.top.depth 0)
    rw [framed] at last
    rw [← same, List.getElem?_append_left (List.getElem?_eq_some_iff.mp last).1]
    exact last
  have start := (Carries.refl [f.returnLabel, skip] c).emit (i := .pushScope c.scope.top.depth 0)
    rfl rfl
  rw [framed] at start
  exact ⟨_, _, n, inner, start.trans before, (after.amend frame).weaken (List.nil_subset _)⟩

-- A definition of a function, up to its statements and behind them.
theorem functionHead_surrounds {type : Scalar} {m : Compiler}
    (typed : c.current.kind.scalar? = some type) (head : functionHead depth type c = .ok () m)
    (ran : statement (depth + 1) c = .ok () d) :
    ∃ missing n, statements (statement depth) missing depth m = .ok () n ∧
      Surrounds c d m n := by
  obtain ⟨b, w, declared, ends⟩ := statement_declares typed ran
  simp only [functionHead, bind_eq_ok_iff (x := advance), advance_apply, bind_eq_ok_iff (x := line),
    line_apply, bind_eq_ok_iff (x := expectName), bind_eq_ok_iff (x := expect _), expect_eq_ok_iff,
    bind_eq_ok_iff (x := parameterList _), bind_eq_ok_iff (x := freshLabel), freshLabel_apply,
    bind_eq_ok_iff (x := discard _), bind_eq_ok_iff (x := emitJump _ _), emitJump_apply,
    bind_eq_ok_iff (x := emitLabel _), emitLabel_apply, bind_eq_ok_iff (x := innermost),
    innermost_apply, bind_eq_ok_iff (x := enter _), enter_apply, EStateM.Result.ok.injEq,
    ↓existsAndEq, true_and, and_true, exists_const] at head
  obtain ⟨name, _, read, opened, params, n, listed, closed, _, o, entry, body⟩ := head
  obtain ⟨_, rfl, rfl⟩ := expectName_eq_ok read
  obtain ⟨_, ⟨rfl, _, _, inner⟩ | ⟨_, other, _⟩⟩ := declaration_eq_ok declared
  · cases ends
    simp only [function, bind_eq_ok_iff (x := advance), advance_apply,
      bind_eq_ok_iff (x := parameterList _), bind_eq_ok_iff (x := expect _), expect_eq_ok_iff,
      bind_eq_ok_iff (x := freshLabel), freshLabel_apply, bind_eq_ok_iff (x := discard _),
      bind_eq_ok_iff (x := emitJump _ _), emitJump_apply, bind_eq_ok_iff (x := emitLabel _),
      emitLabel_apply, bind_eq_ok_iff (x := innermost), innermost_apply,
      bind_eq_ok_iff (x := within _ _), within_eq_ok_iff, EStateM.Result.ok.injEq, ↓existsAndEq,
      true_and, and_true, exists_const] at inner
    obtain ⟨_, _, again, _, _, _, declares, size, w, inside, reported⟩ := inner
    cases listed.symm.trans again
    cases entry.symm.trans declares
    obtain ⟨L, missing, k, statements, before, after⟩ := functionBody_surrounds body inside
    have labels := (((Carries.refl [] c).advance.advance.advance.act
      (fun up => parameterList_upholds up.toUpheld depth) (List.nil_subset _)
      listed).advance).fresh.fresh.fresh
    have start := (((labels.act (fun up => declaresFunction_upholds up.toLasting
      (L := [(n.advanced.labelled.free : Int)]) List.mem_cons_self) (by simp) entry).jump
      (l := n.advanced.free) (by simp)).label (l := n.advanced.labelled.free) (by simp)).weaken
      (J := [(n.advanced.labelled.labelled.free : Int), n.advanced.free]) (by simp)
    have final := after.outside.advance.act (fun up => Upholds.report up.toUpheld _)
      (List.nil_subset _) reported
    exact ⟨missing, k, statements, L, (start.inside _ (by rfl)).trans before, final⟩
  · exact absurd opened other

-- A statement comes to every statement inside it.
theorem Inner.surrounds (inner : Inner depth c e) (ran : statement (depth + 1) c = .ok () d) :
    ∃ k, statement depth e = .ok () k ∧ Surrounds c d e k := by
  have here := ran
  rw [statement, statementBy, bind_eq_ok_iff] at here
  obtain ⟨_, _, ⟨⟩, here⟩ := here
  cases inner with
  | block opened listed =>
    simp only [opened] at here
    obtain ⟨m, inside, rfl⟩ := block_run here
    obtain ⟨k, there, around⟩ := listed.statements inside
    have start := (Carries.refl [] c).advance.inside c.scope.top.block rfl
    exact ⟨k, there, .trans ⟨[], start, (Carries.refl [] m).advance.outside⟩ around⟩
  | functionBody typed head listed =>
    obtain ⟨missing, n, inside, outer⟩ := functionHead_surrounds typed head ran
    obtain ⟨k, there, around⟩ := listed.statements inside
    exact ⟨k, there, outer.trans around⟩
  | @whenTrue m asks test =>
    simp only [asks] at here
    obtain ⟨_, n, tested, first, ends⟩ := conditional_run here
    cases test.symm.trans tested
    have before := ((Carries.refl [] c).advance.act upholds_condition (List.Subset.refl _)
      test).fresh.jumpIf .equal List.mem_cons_self
    exact ⟨n, first, _, before, carries_branchEnd ends⟩
  | @whenFalse m n asks test ran₁ divides =>
    simp only [asks] at here
    obtain ⟨_, _, tested, first, ends⟩ := conditional_run here
    cases test.symm.trans tested
    cases ran₁.symm.trans first
    obtain ⟨alone, _⟩ | ⟨_, p, second, rfl⟩ := ends
    · exact absurd divides alone
    have before := ((Carries.refl [] c).advance.act upholds_condition (List.Subset.refl _)
      test).fresh.jumpIf .equal List.mem_cons_self
    have between := ((before.act upholds_statement (List.nil_subset _) first).advance.fresh.jump
      List.mem_cons_self).label (l := m.free) (by simp)
    rw [Compiler.free_advanced] at between
    exact ⟨p, second, _, between,
      ((Carries.refl _ p).label (by simp)).weaken (List.nil_subset _)⟩
  | @whileBody m starts test =>
    simp only [starts] at here
    obtain ⟨_, n, tested, body, rfl⟩ := whileLoop_run here
    cases test.symm.trans tested
    have before := (((carries_looping c).act upholds_condition (List.nil_subset _) test).jumpIf
      .equal List.mem_cons_self).around List.mem_cons_self
    exact ⟨n, body, _, before, carries_whileEnd c n⟩
  | loopBody starts =>
    simp only [starts] at here
    obtain ⟨m, n, body, test, rfl⟩ := loopWhile_run here
    have before := (carries_looping c).around List.mem_cons_self
    have between := (Carries.refl [((c.free + 1 : Nat) : Int), c.free] m).beyond.advance.act
      upholds_condition (List.nil_subset _) test
    exact ⟨m, body, _, before, between.trans (carries_loopEnd c n)⟩
  | @forBody top done m n starts head skipped =>
    simp only [starts] at here
    obtain ⟨_, _, _, _, p, q, run⟩ := forLoop_run here
    cases head.symm.trans run.head
    cases skipped.symm.trans run.skipped
    obtain ⟨k, body, rfl⟩ := loopBody_run run.body
    obtain ⟨a, init, rfl, rfl, test⟩ := forHead_run head
    have before := ((carries_forStart init).trans (carries_forTest test)).trans
      (carries_forSkip _ skipped)
    have after := (((Carries.refl _ k).beyond.settle m.ahead).trans (carries_forStep run.step)).trans
      run.carries
    exact ⟨k, body, _, before, after⟩

-- And so to every clause of it. The closing parenthesis behind the step of a `for` has been passed
-- before, and the compiler does not stay behind it.
theorem Clause.surrounds {x : Compile Unit} {m : Compiler} (clause : Clause depth c x m)
    (ran : statement depth c = .ok () d) :
    ∃ n k, x m = .ok () n ∧ (n = k ∨ n = k.advanced) ∧ Surrounds c d m k := by
  induction clause generalizing d with
  | inner inner _ ih =>
    obtain ⟨k, there, around⟩ := inner.surrounds ran
    obtain ⟨n, p, done, stays, within⟩ := ih there
    exact ⟨n, p, done, stays, around.trans within⟩
  | whole _ => exact ⟨d, d, ran, .inl rfl, .refl _ _⟩
  | @ifCondition depth c asks =>
    rw [statement, statementBy, bind_eq_ok_iff] at ran
    obtain ⟨_, _, ⟨⟩, ran⟩ := ran
    simp only [asks] at ran
    obtain ⟨m, n, test, first, ends⟩ := conditional_run ran
    have between := ((Carries.refl [] m).fresh.jumpIf .equal
      List.mem_cons_self).act upholds_statement (List.nil_subset _) first
    exact ⟨m, m, test, .inl rfl, [], (Carries.refl [] c).advance,
      between.trans (carries_branchEnd ends)⟩
  | @whileCondition depth c starts =>
    rw [statement, statementBy, bind_eq_ok_iff] at ran
    obtain ⟨_, _, ⟨⟩, ran⟩ := ran
    simp only [starts] at ran
    obtain ⟨m, n, test, body, rfl⟩ := whileLoop_run ran
    have between := (((Carries.refl [((c.free + 1 : Nat) : Int), c.free] m).jumpIf
      .equal List.mem_cons_self).around List.mem_cons_self).act upholds_statement
      (List.nil_subset _) body
    exact ⟨m, m, test, .inl rfl, _, carries_looping c, between.trans (carries_whileEnd c n)⟩
  | @loopCondition depth c m starts ran₁ =>
    rw [statement, statementBy, bind_eq_ok_iff] at ran
    obtain ⟨_, _, ⟨⟩, ran⟩ := ran
    simp only [starts] at ran
    obtain ⟨_, n, body, test, rfl⟩ := loopWhile_run ran
    cases ran₁.symm.trans body
    have before := (((carries_looping c).around List.mem_cons_self).act upholds_statement
      (List.nil_subset _) body).beyond.advance
    exact ⟨n, n, test, .inl rfl, _, before, carries_loopEnd c n⟩
  | @forInit depth c starts =>
    rw [statement, statementBy, bind_eq_ok_iff] at ran
    obtain ⟨_, _, ⟨⟩, ran⟩ := ran
    simp only [starts] at ran
    obtain ⟨_, _, m, n, p, q, run⟩ := forLoop_run ran
    obtain ⟨a, init, rfl, rfl, test⟩ := forHead_run run.head
    obtain ⟨k, body, rfl⟩ := loopBody_run run.body
    have start := (Carries.refl [] c).advance.advance.inside c.scope.top.block rfl
    have labels := (Carries.refl [] a).fresh.fresh
    rw [Compiler.free_labelled] at labels
    have after := ((((labels.label (l := a.free) (by simp)).trans (carries_forTest test)).trans
      (carries_forSkip _ run.skipped)).trans (carries_forBody m.ahead body)).trans
      (carries_forStep run.step)
    exact ⟨a, a, init, .inl rfl, [], start, after.trans run.carries⟩
  | @forCondition depth c a starts init =>
    rw [statement, statementBy, bind_eq_ok_iff] at ran
    obtain ⟨_, _, ⟨⟩, ran⟩ := ran
    simp only [starts] at ran
    obtain ⟨_, _, m, n, p, q, run⟩ := forLoop_run ran
    obtain ⟨_, again, rfl, rfl, test⟩ := forHead_run run.head
    cases init.symm.trans again
    obtain ⟨k, body, rfl⟩ := loopBody_run run.body
    have after := ((carries_forSkip a.free run.skipped).trans
      (carries_forBody m.ahead body)).trans (carries_forStep run.step)
    exact ⟨m, m, test, .inl rfl, _, carries_forStart init, after.trans run.carries⟩
  | @forStep depth c m n p top done starts head skipped ran₁ =>
    rw [statement, statementBy, bind_eq_ok_iff] at ran
    obtain ⟨_, _, ⟨⟩, ran⟩ := ran
    simp only [starts] at ran
    obtain ⟨_, _, _, _, _, q, run⟩ := forLoop_run ran
    cases head.symm.trans run.head
    cases skipped.symm.trans run.skipped
    obtain ⟨_, body, rfl⟩ := loopBody_run run.body
    cases ran₁.symm.trans body
    obtain ⟨a, init, rfl, rfl, test⟩ := forHead_run head
    have before := (((carries_forStart init).trans (carries_forTest test)).trans
      (carries_forSkip _ skipped)).trans (carries_forBody m.ahead body)
    refine ⟨q.advanced, q, ?_, .inr rfl, _, before, run.carries⟩
    exact bind_eq_ok_iff.mpr ⟨_, q, run.step, expect_eq_ok_iff.mpr
      ⟨forStep_closed run.step, rfl⟩⟩

end

end Compile

end ScalarScript
