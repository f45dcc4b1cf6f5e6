import ScalarScript.Proofs.Lines.Labels
import ScalarScript.Proofs.Lines.Region
import Mathlib.Data.List.InsertIdx
/-!
Where the code of a clause stands in the program, and what it begins with. Where the clause begins
its line, that is the marker of the line, and no branch from elsewhere leads behind it.
-/
namespace ScalarScript

open Stateful Compile

theorem labelsOf_faces (code : List Instruction) :
    labelsOf code = ((code.map Instruction.face).filter (·.1 = .label)).map (·.2.1) := by
  rw [labelsOf, List.filter_map, List.map_map]
  rfl

-- A clause whose first token waits for the marker of its line.
def Compiler.BeginsLine (c : Compiler) : Prop :=
  ∃ t ∈ c.ahead.head?, c.pending = some t.line

-- From the one state to the other, the markers put in are those of lines that were passed.
def Retains (c d : Compiler) : Prop :=
  ∀ ⦃tokens : List Token⦄ ⦃size : Nat⦄,
    (∃ past, Marking tokens size past c) → ∃ past, Marking tokens size past d

theorem Sustains.retains {c d : Compiler} (sustains : Sustains c d) : Retains c d :=
  fun tokens size => sustains (upheld_marking tokens size)

theorem Retains.advance (c : Compiler) : Retains c c.advanced := (Sustains.advance c).retains

-- The same, up to a last token, behind which there may be a jump.
def Closes (c d : Compiler) : Prop :=
  ∃ p, Retains c p ∧ (d = p.advanced ∨ ∃ l, d = p.advanced.push (.branch .jump l))

theorem Written.ends {c d : Compiler} (written : Written c d) : Closes c d :=
  written.closes.imp fun _ closes => closes.imp_left Sustains.retains

theorem Closes.retains {c d : Compiler} (closes : Closes c d) : Retains c d := by
  obtain ⟨p, onward, rfl | ⟨l, rfl⟩⟩ := closes
  · exact fun _ _ held => Retains.advance p (onward held)
  · exact fun _ _ held => (Sustains.jump l _).retains (Retains.advance p (onward held))

-- What was passed, and what was put in, from where a line begins.
structure Marked (c d : Compiler) (passed : List Token) (new : List (Opcode × Int × Int)) :
    Prop where
  ahead : c.ahead = passed ++ d.ahead
  lines : ∀ f ∈ new, f.1 = .debugLine → OnLine passed f.2.2
  leads : ∀ f ∈ new.head?, f.1 = .debugLine

-- Code that has nothing but markers, or does not begin with a label or a jump, does not begin so
-- in front of its markers either.
theorem not_silent_first {i : Instruction} {rest : List Instruction}
    (loud : strip (i :: rest) = [] ∨ Loud (strip (i :: rest))) : i.opcode.silent = false := by
  rw [← Bool.not_eq_true]
  intro silent
  rw [strip_cons_other (Opcode.ne_debugLine_of_silent silent)] at loud
  rcases loud with none | ⟨j, others, same, active⟩
  · cases none
  · obtain ⟨rfl, _⟩ := List.cons.inj same
    rw [silent] at active
    cases active

theorem Closes.marked {c d : Compiler} {new : List (Opcode × Int × Int)} (closes : Closes c d)
    (settled : c.Settled) (begins : c.BeginsLine) (added : c.faces ++ new = d.faces)
    (first : ∀ f ∈ new.head?, f.1.silent = false) : ∃ passed, Marked c d passed new := by
  obtain ⟨t, head, waits⟩ := begins
  obtain ⟨rest, here⟩ := List.head?_eq_some_iff.mp head
  obtain ⟨p, onward, ends⟩ := closes
  obtain ⟨past, marking⟩ := onward ⟨[], .start settled here waits⟩
  obtain ⟨ahead, tail, faces, quiet⟩ : d.ahead = p.advanced.ahead ∧
      ∃ tail, d.faces = p.faces ++ tail ∧ ∀ f ∈ tail, f.1.silent = true := by
    rcases ends with rfl | ⟨l, rfl⟩
    · exact ⟨rfl, [], by simp, by simp⟩
    · exact ⟨rfl, _, (Compiler.faces_push _ _).trans (by rw [Compiler.faces_advanced]),
        List.forall_mem_singleton.mpr rfl⟩
  have own : new = p.faces.drop c.faces.length ++ tail := by
    rw [← List.drop_append_of_le_length marking.grown, ← faces, ← added, List.drop_left]
  refine ⟨Marking.passed past p, ?_, ?_, ?_⟩
  · rw [ahead]
    exact marking.tokens_passed
  · intro f member marks
    rw [own] at member
    rcases List.mem_append.mp member with inner | last
    · exact (marking.markers _ inner marks).mono (List.subset_append_left _ _)
    · exact absurd marks (Opcode.ne_debugLine_of_silent (quiet _ last))
  · intro f head
    have active := first f head
    obtain ⟨others, rfl⟩ := List.head?_eq_some_iff.mp head
    rcases marking.opens with ⟨_, silent⟩ | ⟨a, g, b, same, silent, marks⟩
    · have member : f ∈ p.faces.drop c.faces.length ++ tail := own ▸ List.mem_cons_self
      have calm := List.forall_mem_append.mpr ⟨silent, quiet⟩ f member
      exact absurd (calm.symm.trans active) (by decide)
    · rw [same, List.append_assoc] at own
      cases a with
      | nil =>
        obtain ⟨rfl, _⟩ := List.cons.inj own
        exact marks
      | cons h a =>
        obtain ⟨rfl, _⟩ := List.cons.inj own
        exact absurd ((silent _ List.mem_cons_self).symm.trans active) (by decide)

namespace Compile

theorem Clause.written {depth : Nat} {c m n : Compiler} {x : Compile Unit}
    (clause : Clause depth c x m) (settled : m.Settled) (ran : x m = .ok () n) : Written m n := by
  induction clause with
  | inner _ _ ih => exact ih settled ran
  | whole brief => exact written_statement settled brief ran
  | ifCondition _ | whileCondition _ | loopCondition _ _ => exact written_condition settled ran
  | forInit _ => exact written_forInit settled ran
  | forCondition _ _ => exact written_forCondition settled ran
  | forStep _ _ _ _ => exact written_forStep settled ran

-- Up to the first token: the names of the host, and the front of the code.
def opening (tokens : List Token) (declarations : List Declaration) : Compile Unit := do
  declarations.forM declareHost
  place (.scopeDepth 0)
  place (.pushScope 1 0)
  enter (← innermost).child
  seek tokens

-- Where the statements of a source begin, no label has been given out.
structure Opened (c : Compiler) : Prop where
  settled : c.Settled
  faces : c.faces = [(Instruction.scopeDepth 0).face, (Instruction.pushScope 1 0).face]
  known : c.known = []

theorem opening_ok {tokens : List Token} {declarations : List Declaration} {exitType : Option Ty}
    {first : Compiler}
    (ran : opening tokens declarations (Compiler.start tokens exitType) = .ok () first) :
    Opened first := by
  simp only [opening, bind_eq_ok_iff, place_apply, innermost_apply, enter_apply, seek_apply,
    EStateM.Result.ok.injEq, ↓existsAndEq, true_and, exists_const] at ran
  obtain ⟨_, c, declared, rfl⟩ := ran
  have bare : ({} : Table).symbols = hostSymbols [] := rfl
  obtain ⟨hosts, rfl, outermost, listed⟩ := declareHosts_ok rfl rfl rfl rfl bare declared
  refine ⟨Compiler.settled_settle _ _, by rw [Compiler.faces_settle]; rfl, ?_⟩
  rw [Compiler.known_settle]
  change Scope.entries [hosts.child, hosts] = []
  have outer : ∀ s ∈ hosts.symbols, s.entries = [] := by
    intro s declared
    rw [Symbol.entries, Symbol.isExternal,
      ((Table.Hosts.of_symbols outermost listed).known s declared).1]
    simp
  simpa [Scope.entries, Table.child] using outer

-- Code with the empty frame of the top level, or without it.
def kept (framed : Bool) (faces : List (Opcode × Int × Int)) : List (Opcode × Int × Int) :=
  if framed then faces else faces.eraseIdx 1

theorem kept_append {a : List (Opcode × Int × Int)} (framed : Bool) (long : 1 < a.length)
    (b : List (Opcode × Int × Int)) : kept framed (a ++ b) = kept framed a ++ b := by
  cases framed
  · exact List.eraseIdx_append_of_lt_length long b
  · rfl

theorem kept_subset (framed : Bool) (a : List (Opcode × Int × Int)) : kept framed a ⊆ a := by
  cases framed
  · exact List.eraseIdx_subset ..
  · exact List.Subset.refl a

-- A whole compilation, up to the first statement and behind the last one. The numbers in front are
-- put in at the end, and an empty frame goes.
structure Completed (tokens : List Token) (declarations : List Declaration) (exitType : Option Ty)
    (framed : Bool) (first last d : Compiler) : Prop where
  opened : opening tokens declarations (Compiler.start tokens exitType) = .ok () first
  ran : topLevel (statement (tokens.length + 3)) (tokens.length + 3) first = .ok () last
  faces : d.faces = kept framed (last.emitted (.unary .exit .null)).faces

theorem program_run {tokens : List Token} {declarations : List Declaration} {exitType : Option Ty}
    {d : Compiler} {u : Unit}
    (ran : program tokens declarations (Compiler.start tokens exitType) = .ok u d) :
    ∃ framed first last, Completed tokens declarations exitType framed first last d := by
  have phases : program tokens declarations = (do
      opening tokens declarations
      topLevel (statement (tokens.length + 3)) (tokens.length + 3)
      emit (.unary .exit .null)
      let size := (← get).scope.count
      leave
      let depths := (← get).maxDepth + 1
      amend 0 (.scopeDepth depths)
      if 0 < size then amend 1 (.pushScope 1 size)
      else modify fun c =>
        { c with program := { c.program with code := c.program.code.eraseIdxIfInBounds 1 } }
      report
        { message := "compiled program"
          fields := [("scope_depth", .int depths), ("top_level_slots", .int size),
            ("instructions", .int (← get).program.size)] }) := by
    simp only [program, opening, bind_assoc]
  rw [phases] at ran
  simp only [bind_eq_ok_iff (x := opening _ _), bind_eq_ok_iff (x := topLevel _ _),
    bind_eq_ok_iff (x := emit _), emit_apply, bind_eq_ok_iff (x := get), get_apply,
    bind_eq_ok_iff (x := leave), leave_apply, bind_eq_ok_iff (x := amend _ _), amend_apply,
    EStateM.Result.ok.injEq, ↓existsAndEq, true_and, and_true, exists_const] at ran
  obtain ⟨⟨⟩, first, opened, ⟨⟩, last, inner, ran⟩ := ran
  suffices ends : ∃ framed, d.faces = kept framed (last.emitted (.unary .exit .null)).faces from
    ends.elim fun framed faces => ⟨framed, first, last, opened, inner, faces⟩
  have start := (opening_ok opened).faces
  have through := (Carries.refl [] first).act
    (fun up => topLevel_upholds (upholds_statement up) _) (List.Subset.refl _) inner
  have grown := through.grows.trans (last.faces_emitted (.unary .exit .null))
  generalize last.emitted (.unary .exit .null) = e at ran grown ⊢
  have front (index : Nat) (f : Opcode × Int × Int) (here : first.faces[index]? = some f) :
      e.faces[index]? = some f := by
    obtain ⟨more, same⟩ := grown
    rw [← same, List.getElem?_append_left (List.getElem?_eq_some_iff.mp here).1]
    exact here
  have numbered (n : Int) : (e.outside.amended 0 (.scopeDepth n)).faces = e.faces :=
    faces_amended (front 0 _ (by rw [start]; rfl))
  split at ran
  · simp only [bind_eq_ok_iff, amend_apply, get_apply, report, modify_apply,
      EStateM.Result.ok.injEq, ↓existsAndEq, true_and, exists_const] at ran
    subst ran
    refine ⟨true, (faces_amended ?_).trans (numbered _)⟩
    rw [numbered]
    exact front 1 _ (by rw [start]; rfl)
  · simp only [bind_eq_ok_iff, get_apply, report, modify_apply, EStateM.Result.ok.injEq,
      ↓existsAndEq, true_and, exists_const] at ran
    subst ran
    refine ⟨false, ?_⟩
    rw [kept, ← numbered (e.outside.maxDepth + 1)]
    simp [Compiler.faces, List.eraseIdx_map]

-- A clause of a source, where the compiler takes it up and where it leaves it.
def IsClause (tokens : List Token) (declarations : List Declaration) (exitType : Option Ty)
    (c d : Compiler) : Prop :=
  ∃ first s x, opening tokens declarations (Compiler.start tokens exitType) = .ok () first ∧
    Listed (tokens.length + 3) first s ∧ Clause (tokens.length + 3) s x c ∧ x c = .ok () d

-- The part of some code that a clause was compiled to. The empty frame of the top level is left out
-- of the code.
structure Spot (c d : Compiler) (code before own after : List Instruction) : Prop where
  split : code = before ++ own ++ after
  front : before.map Instruction.face = c.faces ∨ before.map Instruction.face = c.faces.eraseIdx 1
  own : c.faces ++ own.map Instruction.face = d.faces

-- Where what was put in between two states stands in the code. It begins with neither a label nor a
-- jump, and only its own branches lead to its labels.
structure Seated (framed : Bool) (c d : Compiler) (code before own after : List Instruction) :
    Prop where
  split : code = before ++ own ++ after
  long : 1 < c.faces.length
  front : before.map Instruction.face = kept framed c.faces
  added : c.faces ++ own.map Instruction.face = d.faces
  first : ∀ f ∈ (own.map Instruction.face).head?, f.1.silent = false
  closed : ∀ i ∈ before ++ after, i.opcode.isBranch = true → i.target ∉ labelsOf own

-- What comes between two clauses that follow one another: tokens that give no code of their own,
-- other names, and jumps.
inductive Between : Compiler → Compiler → Prop where
  | none {c : Compiler} : Between c c
  | advance {c d : Compiler} (between : Between c d) : Between c d.advanced
  | fresh {c d : Compiler} (between : Between c d) : Between c d.labelled
  | names {c d : Compiler} (between : Between c d) (scope : Scope) (loops : List Int)
      (enclosing : Option Enclosing) : Between c { d with scope, loops, enclosing }
  | jump {c d : Compiler} {o : Opcode} (between : Between c d)
      (is : o = .jump ∨ ∃ condition, o = .jumpIf condition) (l : Int) :
      Between c (d.push (.branch o l))

namespace Between

variable {c d : Compiler}

theorem retains (between : Between c d) : Retains c d := by
  intro tokens size held
  induction between with
  | none => exact held
  | advance _ ih => exact Retains.advance _ ih
  | fresh _ ih | names _ _ _ _ ih => exact ih.imp fun _ held => { held with }
  | jump _ is _ ih =>
    exact ih.imp fun _ held => held.silent (by obtain rfl | ⟨_, rfl⟩ := is <;> rfl)

theorem jumps (between : Between c d) :
    ∃ new, d.faces = c.faces ++ new ∧ ∀ f ∈ new, f.1 ≠ .label := by
  induction between with
  | none => exact ⟨[], by simp, by simp⟩
  | advance _ ih => simpa using ih
  | fresh _ ih | names _ _ _ _ ih => exact ih
  | @jump d o _ is l ih =>
    obtain ⟨new, same, others⟩ := ih
    refine ⟨new ++ [(Instruction.branch o l).face], by rw [Compiler.faces_push, same]; simp, ?_⟩
    refine List.forall_mem_append.mpr ⟨others, List.forall_mem_singleton.mpr ?_⟩
    obtain rfl | ⟨_, rfl⟩ := is <;> exact nofun

end Between

-- Clauses that follow one another, with no label between them: the run comes to the first from
-- anywhere, and to each of the others from the one in front of it alone.
inductive Succession (tokens : List Token) (declarations : List Declaration) (exitType : Option Ty) :
    Compiler → Compiler → Prop where
  | clause {c d : Compiler} (clause : IsClause tokens declarations exitType c d) :
      Succession tokens declarations exitType c d
  | further {c d e f : Compiler} (clauses : Succession tokens declarations exitType c d)
      (some : c.faces ≠ d.faces) (between : Between d e)
      (clause : IsClause tokens declarations exitType e f) : Succession tokens declarations exitType c f

namespace Seated

variable {framed : Bool} {c d e f : Compiler} {code before own after before' own' after' :
  List Instruction}

theorem spot (stands : Seated framed c d code before own after) : Spot c d code before own after where
  split := stands.split
  front := by
    rw [stands.front]
    cases framed
    · exact .inr rfl
    · exact .inl rfl
  own := stands.added

-- Two stretches of which the one follows the other, with no label between them.
theorem join {new : List (Opcode × Int × Int)} (one : Seated framed c d code before own after)
    (two : Seated framed e f code before' own' after') (some : c.faces ≠ d.faces)
    (added : e.faces = d.faces ++ new) (others : ∀ f ∈ new, f.1 ≠ .label) :
    ∃ all rest, Seated framed c f code before all rest := by
  have front : before'.map Instruction.face = (before ++ own).map Instruction.face ++ new := by
    rw [two.front, added, ← one.added, List.append_assoc, kept_append framed one.long, ← one.front,
      List.map_append, List.append_assoc]
  obtain ⟨a, between, rfl, same, jumps⟩ := List.map_eq_append_iff.mp front
  have length : a.length = (before ++ own).length := by
    simpa using congrArg List.length same
  have parts : a ++ (between ++ own' ++ after') = before ++ own ++ after := by
    rw [← one.split, two.split]
    simp
  obtain ⟨rfl, rfl⟩ := List.append_inj parts length
  have unlabelled : labelsOf between = [] := by
    rw [labelsOf_faces, jumps]
    simpa using others
  refine ⟨own ++ between ++ own', after', by rw [two.split]; simp, one.long, one.front, ?_, ?_, ?_⟩
  · rw [← two.added, added, ← one.added, List.map_append, List.map_append, jumps]
    simp
  · cases own with
    | nil => exact absurd (by simpa using one.added) some
    | cons i own => exact one.first
  · intro i member branch inside
    rw [labelsOf_append, labelsOf_append, unlabelled, List.append_nil] at inside
    rcases List.mem_append.mp inside with first | second
    · refine one.closed i ?_ branch first
      rcases List.mem_append.mp member with ahead | behind
      · exact List.mem_append_left _ ahead
      · exact List.mem_append_right _ (List.mem_append_right _ behind)
    · refine two.closed i ?_ branch second
      rcases List.mem_append.mp member with ahead | behind
      · exact List.mem_append_left _ (List.mem_append_left _ (List.mem_append_left _ ahead))
      · exact List.mem_append_right _ behind

end Seated

section

variable {tokens : List Token} {declarations : List Declaration} {exitType : Option Ty}
  {c d e : Compiler} {u : Unit}

-- Around a clause, and behind it, no label is at hand that was given out in it.
theorem spares_behind {L : List Int} {k : Compiler} (given : GivenOut L c)
    (known : d.known ⊆ c.known) (stays : d = k ∨ d = k.advanced) :
    Spares c.free d.free d.faces.length L k := by
  have same : k.known = d.known ∧ k.free = d.free ∧ k.faces = d.faces := by
    rcases stays with rfl | rfl <;> simp
  obtain ⟨names, labels, faces⟩ := same
  refine ⟨fun l member => .inl (given.1 l ?_), (by simp [labels]), by rw [faces], by simp [faces]⟩
  rw [names] at member
  exact List.append_subset.mpr ⟨List.subset_append_of_subset_left _ known,
    List.subset_append_right _ _⟩ member

-- Every clause was written somewhere in the code.
theorem Completed.stands {framed : Bool} {first last : Compiler}
    (whole : Completed tokens declarations exitType framed first last e)
    (clause : IsClause tokens declarations exitType c d) :
    c.Settled ∧ Written c d ∧ ∃ before own after,
      Seated framed c d e.program.code.toList before own after := by
  obtain ⟨_, s, x, opened, listed, clause, goes⟩ := clause
  cases opened.symm.trans whole.opened
  have start := opening_ok opened
  obtain ⟨_, there, outer⟩ := listed.topLevel whole.ran
  obtain ⟨_, k, done, stays, within⟩ := clause.surrounds there
  cases goes.symm.trans done
  obtain ⟨L, before, after⟩ := outer.trans within
  have settled : c.Settled := (before (G := []) roaming_settled start.settled).1
  have written := clause.written settled goes
  refine ⟨settled, written, ?_⟩
  obtain ⟨_, emits, numbered, loud⟩ := written.code
  obtain ⟨new, added, rfl, _⟩ := emits.added
  rw [labelsOf_strip] at numbered
  -- in front of the clause, and behind it
  have given : GivenOut (L ++ []) c := by
    refine (before roaming_givenOut ⟨by simp [start.known], Nat.zero_le _, ?_⟩).1
    rw [start.faces]
    simp [Instruction.face, Instruction.scopeDepth, Instruction.pushScope, Opcode.isBranch]
  have known := written.onward (upheld_known c.known) (List.Subset.refl _)
  obtain ⟨spares, grown⟩ := after (roaming_spares _ _ _) (spares_behind given known stays)
  have exits := (roaming_spares c.free d.free d.faces.length).emit (i := .unary .exit .null) rfl
    (by rintro ⟨⟩) spares
  -- the code in three parts
  have own : c.faces ++ new.map Instruction.face = d.faces := by
    rw [Compiler.faces, Compiler.faces, added, List.map_append]
  have long : 1 < c.faces.length := by
    have begun := before.grows.length_le
    rw [start.faces] at begun
    exact begun
  obtain ⟨rest, all⟩ : d.faces <+: (last.emitted (.unary .exit .null)).faces := by
    have same : k.faces = d.faces := by rcases stays with rfl | rfl <;> simp
    rw [← same]
    exact grown.trans (last.faces_emitted _)
  have leads := exits.2.2.2
  rw [← all, List.drop_left] at leads
  have parts : e.program.code.toList.map Instruction.face =
      kept framed c.faces ++ new.map Instruction.face ++ rest := by
    rw [List.append_assoc, ← kept_append framed long, ← List.append_assoc, own, all]
    exact whole.faces
  obtain ⟨front', after', split, left, behind⟩ := List.map_eq_append_iff.mp parts
  obtain ⟨before', own', rfl, one, two⟩ := List.map_eq_append_iff.mp left
  refine ⟨before', own', after', split, long, one, by rw [two]; exact own, ?_, ?_⟩
  · rw [two]
    intro f head
    cases new with
    | nil => cases head
    | cons i new =>
      cases head
      exact not_silent_first loud
  · intro i member branch inside
    rw [labelsOf_faces, two, ← labelsOf_faces] at inside
    have range := numbered.range _ inside
    rcases List.mem_append.mp member with ahead | rear
    · have below := given.2.2 i.face (kept_subset framed _ (one ▸ List.mem_map_of_mem ahead)) branch
      exact absurd below (not_lt.mpr range.1)
    · rcases leads i.face (behind ▸ List.mem_map_of_mem rear) branch with below | above
      · exact absurd below (not_lt.mpr range.1)
      · exact absurd range.2 (not_lt.mpr above)

-- And so was everything between the front of one and the end of another that follows it.
theorem Succession.stands {framed : Bool} {first last : Compiler}
    (clauses : Succession tokens declarations exitType c d)
    (whole : Completed tokens declarations exitType framed first last e) :
    c.Settled ∧ Closes c d ∧ ∃ before own after,
      Seated framed c d e.program.code.toList before own after := by
  induction clauses with
  | clause clause =>
    obtain ⟨settled, written, stands⟩ := whole.stands clause
    exact ⟨settled, written.ends, stands⟩
  | further _ some between clause ih =>
    obtain ⟨settled, closes, before, own, after, one⟩ := ih
    obtain ⟨_, written, _, _, _, two⟩ := whole.stands clause
    obtain ⟨new, added, others⟩ := between.jumps
    obtain ⟨p, onward, ends⟩ := written.ends
    refine ⟨settled, ⟨p, fun _ _ held => onward (between.retains (closes.retains held)), ends⟩,
      before, one.join two some added others⟩

-- Where clauses that follow one another begin their line, their code is a region with their lines.
theorem Succession.region (clauses : Succession tokens declarations exitType c d) (begins : c.BeginsLine)
    (ran : program tokens declarations (Compiler.start tokens exitType) = .ok u e) :
    ∃ passed before own after, c.ahead = passed ++ d.ahead ∧
      Spot c d e.program.code.toList before own after ∧
      ∀ marker inner, own = marker :: inner →
        Region e.program.code.toList before marker inner after (OnLine passed) := by
  obtain ⟨framed, first, last, whole⟩ := program_run ran
  obtain ⟨settled, closes, before, own, after, stands⟩ := clauses.stands whole
  obtain ⟨passed, marked⟩ := closes.marked settled begins stands.added stands.first
  refine ⟨passed, before, own, after, marked.ahead, stands.spot, ?_⟩
  rintro marker inner rfl
  have leads : marker.opcode = .debugLine := marked.leads _ rfl
  refine ⟨stands.split, leads, ?_, ?_⟩
  · intro i member marks
    exact marked.lines i.face (List.mem_map_of_mem member) marks
  · intro i member branch inside
    refine stands.closed i member branch ?_
    rwa [labelsOf_cons_other (by rw [leads]; rintro ⟨⟩)]

end

end Compile

end ScalarScript
