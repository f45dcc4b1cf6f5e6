import ScalarScript.Proofs.Lines.Place
import ScalarScript.Proofs.Typing.Accepted
/-!
The line that a runtime error reports. Where a clause begins its line, an error in its code tells a
line of the clause, whatever way the run has come, and so it is with the clauses that follow it on the
line. Other clauses are told the line of whatever marker was passed last, which may be far from them.
-/
namespace ScalarScript

open Stateful Compile

variable {World Watch : Type}

theorem address_faces (code : List Instruction) :
    Link.address code = ((code.map Instruction.face).filter (·.1 ≠ .label)).length := by
  induction code with
  | nil => rfl
  | cons i code ih =>
    by_cases label : i.opcode = .label
    · simp [Link.address_cons_label label, ih, Instruction.face, label]
    · simp [Link.address_cons_other label, ih, Instruction.face, label]

-- An error in the region's code that is raised by no mark tells one of the region's lines.
theorem Region.reports {code before inner after y z : List Instruction} {marker i : Instruction}
    {own : Int → Prop} {m : Machine World Watch} {context : Context}
    {around : Surroundings World Watch} {fuel : Nat} {e : RuntimeError}
    {final : RunState World Watch} (region : Region code before marker inner after own)
    (runs : Runs m code) (ran : m.runFrom fuel (Machine.start around context) =
      some (.error e, final)) (parts : marker :: inner = y ++ i :: z)
    (active : i.opcode.isMark = false) (there : e.address = Link.address (before ++ y)) :
    own e.line := by
  refine region.error runs Region.start ran ?_
  cases y with
  | nil =>
    obtain ⟨rfl, _⟩ := List.cons.inj parts
    rw [region.leads] at active
    cases active
  | cons j y =>
    obtain ⟨rfl, inside⟩ := List.cons.inj parts
    have other : i.opcode ≠ .label := by
      intro label
      rw [label] at active
      cases active
    rw [there, Region.Past, region.address_marker, inside]
    rw [List.append_eq, Link.address_append, Link.address_cons_other other]
    omega

-- Clauses of an accepted source that follow one another, the first of which begins its line: they
-- have passed some tokens and stand somewhere in the code, and an error that an instruction there
-- raises tells a line of the tokens. Where all of them stand on one line, that is its line.
theorem Accepted.errors_on_succession {bindings : List (Binding World)} {source exitName : String}
    {bound : Bound World} {exitType : Option Ty} {p : Program} {m : Machine World Watch}
    {tokens : List Token} {c d : Compiler}
    (accepted : Accepted bindings source exitName bound exitType p) (loads : m.Loads bound p)
    (read : tokenize source = .ok tokens)
    (clauses : Succession tokens bound.declarations exitType c d) (begins : c.BeginsLine) :
    ∃ passed before own after, c.ahead = passed ++ d.ahead ∧
      Spot c d p.code.toList before own after ∧
      ∀ (first final : RunState World Watch) (fuel : Nat) (e : RuntimeError), bound.Starts first →
        m.runFrom fuel first = some (.error e, final) →
        ∀ y (i : Instruction) z, own = y ++ i :: z → i.opcode.isMark = false →
          e.address = Link.address (before ++ y) → OnLine passed e.line := by
  obtain ⟨_, again, fine, same⟩ := accepted.compiled
  cases read.symm.trans again
  unfold compileTokens at fine same
  cases ran : Compile.program tokens bound.declarations (Compiler.start tokens exitType) with
  | error e u =>
    rw [ran] at fine
    cases fine
  | ok u d' =>
    rw [ran] at same
    subst same
    obtain ⟨passed, before, own, after, ahead, spot, region⟩ := clauses.region begins ran
    have stage : d'.program.stage = .building := by
      obtain ⟨_, _, _, _, _, _, stage, _⟩ := Compile.program_ok ran
      exact stage
    have runs := loads.runs stage accepted.resolved
    refine ⟨passed, before, own, after, ahead, spot, ?_⟩
    rintro _ final fuel e ⟨world, watch, context, rfl⟩ failed y i z parts active there
    cases own with
    | nil => simp at parts
    | cons marker inner => exact (region marker inner rfl).reports runs failed parts active there

-- A clause that begins its line, of an accepted source: it has passed some tokens and stands
-- somewhere in the code, and an error that an instruction there raises tells a line of the tokens.
theorem Accepted.errors_on_line {bindings : List (Binding World)} {source exitName : String}
    {bound : Bound World} {exitType : Option Ty} {p : Program} {m : Machine World Watch}
    {tokens : List Token} {c d : Compiler}
    (accepted : Accepted bindings source exitName bound exitType p) (loads : m.Loads bound p)
    (read : tokenize source = .ok tokens)
    (clause : IsClause tokens bound.declarations exitType c d) (begins : c.BeginsLine) :
    ∃ passed before own after, c.ahead = passed ++ d.ahead ∧
      Spot c d p.code.toList before own after ∧
      ∀ (first final : RunState World Watch) (fuel : Nat) (e : RuntimeError), bound.Starts first →
        m.runFrom fuel first = some (.error e, final) →
        ∀ y (i : Instruction) z, own = y ++ i :: z → i.opcode.isMark = false →
          e.address = Link.address (before ++ y) → OnLine passed e.line :=
  accepted.errors_on_succession loads read (.clause clause) begins

namespace Compile

-- Where an action leaves the compiler, and whether it gives a value there.
def after {α : Type} (x : Compile α) (c : Compiler) : Compiler :=
  match x c with
  | .ok _ d | .error _ d => d

def gives {α : Type} [DecidableEq α] (x : Compile α) (a : α) (c : Compiler) : Bool :=
  match x c with
  | .ok b _ => b = a
  | .error _ _ => false

theorem eq_ok_of_gives {α : Type} [DecidableEq α] {x : Compile α} {a : α} {c : Compiler}
    (given : gives x a c = true) : x c = .ok a (after x c) := by
  unfold gives at given
  unfold after
  split at given
  · rename_i b d ran
    obtain rfl : b = a := by simpa using given
    rw [ran]
  · cases given

end Compile

-- A source whose last statement fails, on a line of its own.
namespace Failing

def source : String := "double n;\nexit n + 1;"

def tokens : List Token := (tokenize source).toOption.getD []

-- In front of the first statement, in front of the second, and behind it.
def first : Compiler := after (opening tokens []) (Compiler.start tokens none)

def second : Compiler := after (statement (tokens.length + 3)) first

def last : Compiler := after (statement (tokens.length + 3)) second

-- The way of the compiler through the statements, computed at once.
theorem computed :
    gives (opening tokens []) () (Compiler.start tokens none) = true ∧ first.More ∧
      gives (statement (tokens.length + 3)) () first = true ∧ second.More ∧
      second.current.kind = .kwExit ∧ gives (statement (tokens.length + 3)) () second = true ∧
      second.current ∈ second.ahead.head? ∧ second.pending = some second.current.line := by
  decide +kernel

theorem clause : IsClause tokens [] none second last := by
  obtain ⟨opening, more, passed, rest, exits, ran, -⟩ := computed
  refine ⟨first, second, _, eq_ok_of_gives opening, ?_, .whole ?_, eq_ok_of_gives ran⟩
  · exact .later more (eq_ok_of_gives passed) (.first rest)
  · unfold Compiler.Brief
    rw [exits]
    change Kind.kwExit ∉ _
    decide

theorem begins : second.BeginsLine := by
  obtain ⟨-, -, -, -, -, -, here, waits⟩ := computed
  exact ⟨_, here, waits⟩

-- The address and the line of the error.
def site : Option (Int × Int) :=
  match (Hostless.machine source).runFrom 20 Hostless.first with
  | some (.error e, _) => some (e.address, e.line)
  | _ => none

-- The source is accepted, and its sum fails: the seventh instruction of the last statement, with
-- four in front of the statement, and among them the one that makes the frame of the top level.
theorem fails :
    (tokenize source).isOk = true ∧
      (compileTokens tokens Hostless.bound.declarations none).error.isNone = true ∧
      (link (Hostless.program source)).isOk = true ∧ site = some (10, 2) ∧
      second.faces.length = 4 ∧ (last.faces.drop 4).length = 8 ∧
      (last.faces.drop 4)[6]? = some (Opcode.binary .add, 0, 0) ∧
      10 = (((second.faces ++ (last.faces.drop 4).take 6).filter (·.1 ≠ .label)).length : Int) ∧
      ¬ second.faces.eraseIdx 1 <+:
        (Hostless.program source).code.toList.map Instruction.face := by
  decide +kernel

theorem front_of_spot {before own after : List Instruction}
    (spot : Spot second last (Hostless.program source).code.toList before own after) :
    before.map Instruction.face = second.faces := by
  refine spot.front.resolve_right fun erased => ?_
  have parts : second.faces.eraseIdx 1 <+:
      (Hostless.program source).code.toList.map Instruction.face := by
    rw [← erased, spot.split, List.append_assoc, List.map_append]
    exact List.prefix_append _ _
  obtain ⟨-, -, -, -, -, -, -, -, framed⟩ := fails
  exact framed parts

end Failing

theorem Accepted.errors_on_line_sum : ∃ (e : RuntimeError) (final : RunState Unit Unit),
    (Hostless.machine Failing.source).runFrom 20 Hostless.first = some (.error e, final) ∧
      ∃ passed, Failing.second.ahead = passed ++ Failing.last.ahead ∧ OnLine passed e.line := by
  obtain ⟨read, fine, links, failed, four, eight, sum, place, -⟩ := Failing.fails
  obtain ⟨passed, before, own, after, ahead, spot, errors⟩ := Accepted.errors_on_line
    (Hostless.accepted read fine) (Hostless.loads links) (tokenize_of_isOk read) Failing.clause
    Failing.begins
  unfold Failing.site at failed
  split at failed
  · rename_i e final ran
    obtain ⟨address, _⟩ := Prod.mk.inj (Option.some.inj failed)
    refine ⟨e, final, ran, passed, ahead, ?_⟩
    have faces : own.map Instruction.face = Failing.last.faces.drop 4 := by
      rw [← spot.own, List.drop_left' four]
    have long : own.length = 8 := by
      rw [← List.length_map, faces, eight]
    have sixth : (own.map Instruction.face)[6]? = some (Opcode.binary .add, 0, 0) := by
      rw [faces, sum]
    rw [List.getElem?_map, List.getElem?_eq_getElem (by omega)] at sixth
    have opcode : own[6].opcode = .binary .add := congrArg Prod.fst (Option.some.inj sixth)
    refine errors _ final 20 e Hostless.starts ran (own.take 6) own[6] (own.drop 7) (by simp) ?_ ?_
    · rw [opcode]
      rfl
    · rw [address, address_faces, List.map_append, Failing.front_of_spot spot, List.map_take, faces]
      exact place
  · cases failed

-- A source with two statements on one line. The second has no marker of its own.
namespace Joined

def source : String := "double n; exit n + 1;"

def tokens : List Token := (tokenize source).toOption.getD []

def first : Compiler := after (opening tokens []) (Compiler.start tokens none)

def second : Compiler := after (statement (tokens.length + 3)) first

def last : Compiler := after (statement (tokens.length + 3)) second

-- The way of the compiler through the statements, computed at once. Only the first one waits for
-- a marker.
theorem computed :
    gives (opening tokens []) () (Compiler.start tokens none) = true ∧ first.More ∧
      first.current.kind.scalar? = some .double ∧
      first.advanced.advanced.current.kind ≠ .leftParen ∧
      gives (statement (tokens.length + 3)) () first = true ∧ second.More ∧
      second.current.kind = .kwExit ∧ gives (statement (tokens.length + 3)) () second = true ∧
      first.faces ≠ second.faces ∧ first.current ∈ first.ahead.head? ∧
      first.pending = some first.current.line ∧ second.pending = none := by
  decide +kernel

theorem clauses : Succession tokens [] none first last := by
  obtain ⟨opening, more, typed, declares, passed, rest, exits, ran, some, -⟩ := computed
  refine .further (.clause ⟨first, first, _, eq_ok_of_gives opening, .first more, .whole ?_,
    eq_ok_of_gives passed⟩) some .none ⟨first, second, _, eq_ok_of_gives opening,
      .later more (eq_ok_of_gives passed) (.first rest), .whole ?_, eq_ok_of_gives ran⟩
  · unfold Compiler.Brief
    rw [typed]
    exact declares
  · unfold Compiler.Brief
    rw [exits]
    change Kind.kwExit ∉ _
    decide

theorem begins : first.BeginsLine ∧ ¬ second.BeginsLine := by
  obtain ⟨-, -, -, -, -, -, -, -, -, here, waits, none⟩ := computed
  refine ⟨⟨_, here, waits⟩, ?_⟩
  rintro ⟨t, _, waits⟩
  rw [none] at waits
  cases waits

end Joined

-- A source whose `for` fails in its step, which stands on the line of the `for`.
namespace Overtaken

def source : String := "double n;\nfor (double i = 0; i < 1; i = n + 1)\n  i = 0;\nexit 1;"

def tokens : List Token := (tokenize source).toOption.getD []

def depth : Nat := tokens.length + 2

def first : Compiler := after (opening tokens []) (Compiler.start tokens none)

def loop : Compiler := after (statement (depth + 1)) first

def opened : Compiler := loop.advanced.advanced.inside loop.scope.top.block

-- Behind the condition, in front of the body, and behind it.
def tested : Compiler := after (forHead (statement depth) (expression depth) depth) opened

def skipped : Compiler := after (skipStep depth 0) tested

def passedBody : Compiler := after (statement depth) (skipped.advanced.around 1)

-- In front of the step, and behind it.
def step : Compiler := passedBody.beyond.settle tested.ahead

def last : Compiler := after (do forStep (expression depth); expect .rightParen) step

-- The way of the compiler to the step, computed at once.
theorem computed :
    gives (opening tokens []) () (Compiler.start tokens none) = true ∧ first.More ∧
      gives (statement (depth + 1)) () first = true ∧ loop.More ∧ loop.current.kind = .kwFor ∧
      gives (forHead (statement depth) (expression depth) depth) (0, 1) opened = true ∧
      gives (skipStep depth 0) () tested = true ∧
      gives (statement depth) () (skipped.advanced.around 1) = true ∧
      gives (do forStep (expression depth); expect .rightParen) () step = true := by
  decide +kernel

theorem clause : IsClause tokens [] none step last := by
  obtain ⟨opening, more, passed, rest, starts, head, skip, body, ran⟩ := computed
  refine ⟨first, loop, _, eq_ok_of_gives opening, ?_, ?_, eq_ok_of_gives ran⟩
  · exact .later more (eq_ok_of_gives passed) (.first rest)
  · exact .forStep starts (eq_ok_of_gives head) (eq_ok_of_gives skip) (eq_ok_of_gives body)

-- The code of the step, in the middle of the program.
def code : List Instruction := (Hostless.program source).code.toList

def own : List Instruction := (code.drop 21).take 8

theorem split : code = code.take 21 ++ own ++ code.drop 29 := by
  rw [own, show 29 = 21 + 8 from rfl, ← List.drop_drop, List.append_assoc, List.take_append_drop,
    List.take_append_drop]

-- The address and the line of the error.
def site : Option (Int × Int) :=
  match (Hostless.machine source).runFrom 40 Hostless.first with
  | some (.error e, _) => some (e.address, e.line)
  | _ => none

-- The source is accepted, and the sum of the step fails: its seventh instruction, on another line
-- than the tokens of the step.
theorem fails :
    (tokenize source).isOk = true ∧
      (compileTokens tokens Hostless.bound.declarations none).error.isNone = true ∧
      (link (Hostless.program source)).isOk = true ∧ site = some (26, 4) ∧
      (∃ long : 6 < own.length, (own.get ⟨6, long⟩).opcode.isMark = false) ∧
      26 = (Link.address (code.take 21 ++ own.take 6) : Int) ∧
      step.ahead = step.ahead.take 7 ++ last.ahead ∧ ¬ OnLine (step.ahead.take 7) 4 ∧
      (code.take 21).map Instruction.face = step.faces ∧
      step.faces ++ own.map Instruction.face = last.faces := by
  decide +kernel

theorem spot : Spot step last code (code.take 21) own (code.drop 29) := by
  obtain ⟨-, -, -, -, -, -, -, -, front, behind⟩ := fails
  exact ⟨split, .inl front, behind⟩

end Overtaken

-- The marker in front of the step is that of the line behind the loop.
theorem step_on_other_line :
    Accepted [] Overtaken.source "" Hostless.bound none (Hostless.program Overtaken.source) ∧
      (Hostless.machine Overtaken.source).Loads Hostless.bound
        (Hostless.program Overtaken.source) ∧
      Hostless.bound.Starts Hostless.first ∧ tokenize Overtaken.source = .ok Overtaken.tokens ∧
      IsClause Overtaken.tokens [] none Overtaken.step Overtaken.last ∧
      ∃ (passed : List Token) (before own after y z : List Instruction) (i : Instruction)
        (e : RuntimeError) (final : RunState Unit Unit),
        Overtaken.step.ahead = passed ++ Overtaken.last.ahead ∧
          Spot Overtaken.step Overtaken.last (Hostless.program Overtaken.source).code.toList
            before own after ∧
          own = y ++ i :: z ∧ i.opcode.isMark = false ∧
          (Hostless.machine Overtaken.source).runFrom 40 Hostless.first =
            some (.error e, final) ∧
          e.address = Link.address (before ++ y) ∧ ¬ OnLine passed e.line := by
  obtain ⟨read, fine, links, failed, ⟨long, active⟩, place, ahead, apart, -⟩ := Overtaken.fails
  refine ⟨Hostless.accepted read fine, Hostless.loads links, Hostless.starts, tokenize_of_isOk read,
    Overtaken.clause, ?_⟩
  unfold Overtaken.site at failed
  split at failed
  · rename_i e final ran
    obtain ⟨address, line⟩ := Prod.mk.inj (Option.some.inj failed)
    refine ⟨Overtaken.step.ahead.take 7, _, Overtaken.own, _, Overtaken.own.take 6,
      Overtaken.own.drop 7, Overtaken.own.get ⟨6, long⟩, e, final, ahead, Overtaken.spot, by simp,
      active, ran, address.trans place, ?_⟩
    rw [line]
    exact apart
  · cases failed

end ScalarScript
