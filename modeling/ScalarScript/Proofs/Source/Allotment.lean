import ScalarScript.Proofs.Source.Placement
import ScalarScript.Proofs.Source.Sight
/-!
The slots of frames. Every variable of a body has one of its own in the frame of that body, the
parameters first and the others in the order of their declarations, and there are no more. Functions
take none.
-/
namespace ScalarScript

open Compile (eax ebx)

def allocationsAt (depth : Nat) (code : List Instruction) : List Slot :=
  (code.filterMap Instruction.allocated?).filter (·.depth = (depth : Int))

-- What makes frames of a depth.
def framesAt (depth : Nat) (code : List Instruction) : List Instruction :=
  code.filter fun i => i.opcode = .pushScope ∧ i.depth = depth

namespace Stmt

-- The variables declared, in order; those of inner functions belong to them.
def vars : Stmt → List Symbol
  | seq a b | ifElse _ a b _ _ => a.vars ++ b.vars
  | forLoop a _ b c _ _ => a.vars ++ b.vars ++ c.vars
  | declare _ s _ => [s]
  | block a | ifThen _ a _ | whileLoop _ a _ _ | loopWhile a _ _ _ => a.vars
  | _ => []

-- The functions defined and their bodies, those inside them included.
def bodies : Stmt → List (Routine × Stmt)
  | seq a b | ifElse _ a b _ _ => a.bodies ++ b.bodies
  | forLoop a _ b c _ _ => a.bodies ++ b.bodies ++ c.bodies
  | block a | ifThen _ a _ | whileLoop _ a _ _ | loopWhile a _ _ _ => a.bodies
  | function r body => (r, body) :: body.bodies
  | _ => []

end Stmt

-- The frame of a body, given its variables and its code, functions in it included. These make
-- frames and allocate at greater depths only.
structure Allotted (depth size : Nat) (vars : List Symbol) (code : List Instruction) : Prop where
  -- the top level goes without a frame of no slots
  frame : framesAt depth code = if depth = 1 ∧ size = 0 then [] else [.pushScope depth size]
  indices : vars.map (·.index) = (List.range size).map Nat.cast
  allocated : allocationsAt depth code = vars.map Symbol.place
  operands : ∀ i ∈ code, ∀ a : Slot, .slot a ∈ i.operands → a.depth = depth →
    0 ≤ a.index ∧ a.index < size

@[simp] theorem allocationsAt_append (depth : Nat) (a b : List Instruction) :
    allocationsAt depth (a ++ b) = allocationsAt depth a ++ allocationsAt depth b := by
  simp [allocationsAt]

theorem allocationsAt_eq_nil {depth : Nat} {code : List Instruction}
    (others : ∀ i ∈ code, ∀ a : Slot, i.allocated? = some a → a.depth ≠ depth) :
    allocationsAt depth code = [] := by
  refine List.filter_eq_nil_iff.mpr fun a member => ?_
  obtain ⟨i, inside, allocated⟩ := List.mem_filterMap.mp member
  simpa using others i inside a allocated

@[simp] theorem framesAt_append (depth : Nat) (a b : List Instruction) :
    framesAt depth (a ++ b) = framesAt depth a ++ framesAt depth b := List.filter_append a b

theorem allocationsAt_append_left {depth : Nat} {a : List Instruction}
    (none : allocationsAt depth a = []) (b : List Instruction) :
    allocationsAt depth (a ++ b) = allocationsAt depth b := by
  rw [allocationsAt_append, none, List.nil_append]

theorem allocationsAt_append_right {depth : Nat} {b : List Instruction}
    (none : allocationsAt depth b = []) (a : List Instruction) :
    allocationsAt depth (a ++ b) = allocationsAt depth a := by
  rw [allocationsAt_append, none, List.append_nil]

theorem framesAt_eq_nil {depth : Nat} {code : List Instruction}
    (others : ∀ i ∈ code, i.opcode = .pushScope → i.depth ≠ depth) : framesAt depth code = [] := by
  refine List.filter_eq_nil_iff.mpr fun i member => ?_
  simpa using others i member

section

variable {o : Outline} {chain : Chain} {ready : Ready}

theorem Routine.allocationsAt_receive (r : Routine) :
    allocationsAt r.depth r.receive = r.symbols.reverse.map Symbol.place := by
  have pops : ((r.params.zipIdx.map fun q =>
      Instruction.pop (r.slot q.2 q.1)).reverse).filterMap Instruction.allocated? = [] := by
    refine List.filterMap_eq_nil_iff.mpr fun i made => ?_
    obtain ⟨_, _, rfl⟩ := List.mem_map.mp (List.mem_reverse.mp made)
    rfl
  have allocates : (r.params.zipIdx.map fun q => Instruction.unary (.allocate q.1.type)
      (r.slot q.2 q.1)).filterMap Instruction.allocated? = r.symbols.reverse.map Symbol.place := by
    rw [symbols, List.reverse_reverse, List.filterMap_map, List.map_map, ← List.filterMap_eq_map]
    rfl
  rw [allocationsAt, receive, List.filterMap_append, pops, allocates, List.append_nil]
  refine List.filter_eq_self.mpr fun a member => ?_
  obtain ⟨s, known, rfl⟩ := List.mem_map.mp member
  obtain ⟨_, _, _, rfl⟩ := mem_symbols.mp (List.mem_reverse.mp known)
  exact decide_eq_true rfl

-- A body allocates the slots of its variables, in order.
theorem Stmt.Ok.allocationsAt_code {t : Stmt} {loops : List Int}
    (ok : t.Ok o chain ready loops) :
    allocationsAt chain.length t.code = t.vars.map Symbol.place := by
  have expr {ready : Ready} {e : Expr} (ok : e.Ok o chain ready) :
      allocationsAt chain.length e.code = [] :=
    allocationsAt_eq_nil fun i member a allocated => by
      rw [ok.allocated?_code i member] at allocated
      cases allocated
  have guard {ready : Ready} {e : Option Expr} {otherwise : Int}
      (ok : ∀ test ∈ e, test.Ok o chain ready) :
      allocationsAt chain.length (guard e otherwise) = [] := by
    cases e with
    | none => rfl
    | some e =>
      rw [Stmt.guard, allocationsAt_append, expr (ok e rfl)]
      rfl
  induction t generalizing ready loops with
  | skip | leave done => rfl
  | seq a b first second =>
    rw [code_seq, allocationsAt_append, first ok.1, second ok.2, vars, List.map_append]
  | block a ih => exact ih ok
  | expr e => exact expr ok
  | assign s e =>
    rw [code, allocationsAt_append, expr ok.1]
    rfl
  | declare type s init =>
    obtain ⟨depth, _, _, _, given⟩ := ok
    have own : allocationsAt chain.length [.unary (.allocate type) s.operand] = [s.place] := by
      refine List.filter_cons_of_pos (decide_eq_true ?_)
      exact Int.ofNat_inj.mpr depth
    cases init with
    | none => exact own
    | some e =>
      rw [code, ← List.singleton_append, List.append_assoc, allocationsAt_append, own,
        allocationsAt_append, expr (given e rfl).1]
      rfl
  | function r body ih =>
    obtain ⟨depth, within, _, _, inner⟩ := ok
    have region := function_inFrames depth within (inner.inFrames (depth.ge.trans within))
    rw [code_function, allocationsAt_append_left rfl]
    refine allocationsAt_eq_nil fun i member a allocated => ?_
    have further := (region i member).allocated a allocated
    rw [List.length_cons] at further
    omega
  | ifThen e a otherwise ih =>
    obtain ⟨test, _, inner⟩ := ok
    rw [code, allocationsAt_append_right (b := [.label otherwise]) rfl,
      allocationsAt_append_left (guard (e := some e) (by simpa using test)), ih inner, vars]
  | ifElse e a b otherwise done first second =>
    obtain ⟨test, _, one, two⟩ := ok
    rw [code, allocationsAt_append_right (b := [.label done]) rfl, allocationsAt_append,
      allocationsAt_append_right (b := [.branch .jump done, .label otherwise]) rfl,
      allocationsAt_append_left (guard (e := some e) (by simpa using test)), first one, second two,
      vars, List.map_append]
  | whileLoop e a top done ih =>
    obtain ⟨test, _, inner⟩ := ok
    rw [code, allocationsAt_append_right (b := [.branch .jump top, .label done]) rfl,
      allocationsAt_append_left (a := .label top :: Stmt.guard (some e) done)
        (guard (e := some e) (by simpa using test)), ih inner, vars]
  | forLoop init e a step top done initIh ih stepIh =>
    obtain ⟨one, test, two, three⟩ := ok
    have tested : allocationsAt chain.length (Stmt.guard e done) = [] :=
      guard fun e given => (test e given).1
    rw [code, allocationsAt_append_right (b := [.branch .jump top, .label done]) rfl,
      allocationsAt_append, allocationsAt_append,
      allocationsAt_append_right (b := .label top :: Stmt.guard e done) tested, initIh one, ih two,
      stepIh three, vars, List.map_append, List.map_append]
  | loopWhile a e top done ih =>
    obtain ⟨inner, _, test, _⟩ := ok
    rw [code, allocationsAt_append_right
        (b := [.unary .test eax, .branch (.jumpIf .notEqual) top, .label done]) rfl,
      allocationsAt_append_right (expr test), ← List.singleton_append,
      allocationsAt_append_left (a := [.label top]) rfl, ih inner, vars]
  | yield e result =>
    obtain ⟨_, _, _, _, _, given⟩ := ok
    cases e with
    | none => rfl
    | some e =>
      rw [code, allocationsAt_append_right (b := [.branch .jump result]) rfl, expr (given e rfl).1]
      rfl
  | exit e =>
    cases e with
    | none => rfl
    | some e =>
      rw [code, allocationsAt_append_right (b := [.unary .exit eax]) rfl, expr (ok e rfl).1]
      rfl

end

-- Variables with the slots of a frame from some slot on, one after the other.
theorem indices_append {a b : List Symbol} {first m n : Nat}
    (one : a.map (·.index) = (List.range' first m).map Nat.cast)
    (two : b.map (·.index) = (List.range' (first + m) n).map Nat.cast) :
    (a ++ b).map (·.index) = (List.range' first (m + n)).map Nat.cast := by
  rw [List.map_append, one, two, ← List.map_append, List.range'_append_1]

section

variable {scope after : Scope} {words rest : List Token}

-- What stands behind statements gets the slots behind theirs.
theorem Scope.Framed.onward {extra : List Symbol} {n : Nat} (framed : scope.Framed) :
    ((scope.claimed n).adding extra).Framed ∧
      ((scope.claimed n).adding extra).count = scope.count + n :=
  ⟨(framed.claimed n).adding extra, by rw [count_adding, count_claimed framed]⟩

theorem ReadsSimple.vars_eq {a : Stmt} (reads : ReadsSimple scope words a rest) :
    a.vars = [] ∧ a.bodies = [] := by
  cases reads <;> exact ⟨rfl, rfl⟩

theorem ReadsStep.vars_eq {a : Stmt} (reads : ReadsStep scope words a rest) :
    a.vars = [] ∧ a.bodies = [] := by
  cases reads with
  | none => exact ⟨rfl, rfl⟩
  | simple reads => exact reads.vars_eq

theorem ReadsName.indices {type : Scalar} {a : Stmt} {s : Symbol}
    (reads : ReadsName scope type words a s rest) :
    a.vars.map (·.index) = (List.range' scope.count 1).map Nat.cast ∧ a.bodies = [] := by
  cases reads <;> exact ⟨rfl, rfl⟩

theorem ReadsNames.indices {type : Scalar} {a : Stmt}
    (reads : ReadsNames type scope words a after rest) (framed : scope.Framed) :
    a.vars.map (·.index) = (List.range' scope.count a.count).map Nat.cast ∧ a.bodies = [] := by
  induction reads with
  | last reads =>
    rw [reads.count_eq]
    exact reads.indices
  | more reads _ _ ih =>
    obtain ⟨later, next⟩ := Scope.Framed.onward framed
    obtain ⟨others, none⟩ := ih later
    rw [next] at others
    rw [Stmt.count, Stmt.bodies, reads.count_eq, reads.indices.2, none]
    exact ⟨indices_append reads.indices.1 others, rfl⟩

theorem ReadsInit.indices {a : Stmt} (reads : ReadsInit scope words a after rest)
    (framed : scope.Framed) :
    a.vars.map (·.index) = (List.range' scope.count a.count).map Nat.cast ∧ a.bodies = [] := by
  cases reads with
  | none => exact ⟨rfl, rfl⟩
  | simple reads =>
    obtain ⟨vars, bodies⟩ := reads.vars_eq
    rw [vars, reads.count_eq]
    exact ⟨rfl, bodies⟩
  | names _ reads => exact reads.indices framed

-- The variables of a body, and of the functions in it, have the slots that are there for them.
theorem Reads.indices {phrase : Phrase} {S : Setting} {t : Stmt}
    (reads : Reads phrase S scope words t after rest) (framed : scope.Framed) :
    t.vars.map (·.index) = (List.range' scope.count t.count).map Nat.cast ∧
      ∀ d ∈ t.bodies,
        d.2.vars.map (·.index) = (List.range' d.1.params.length d.2.count).map Nat.cast := by
  induction reads with
  | done | empty | leave | yield | exit => exact ⟨rfl, List.forall_mem_nil _⟩
  | next first _ ih othersIh =>
    obtain ⟨here, inner⟩ := ih framed
    obtain ⟨extra, rfl⟩ := first.scope_eq
    obtain ⟨later, next⟩ := Scope.Framed.onward framed
    obtain ⟨others, more⟩ := othersIh later
    rw [next] at others
    exact ⟨indices_append here others, List.forall_mem_append.mpr ⟨inner, more⟩⟩
  | block _ _ _ ih =>
    obtain ⟨t, member, plain⟩ := framed
    exact ih ⟨t, List.mem_cons_of_mem _ member, plain⟩
  | ifThen _ _ _ _ ih => exact ih framed
  | ifElse _ _ first _ _ ih othersIh =>
    obtain ⟨here, inner⟩ := ih framed
    obtain ⟨extra, rfl⟩ := first.scope_eq
    obtain ⟨later, next⟩ := Scope.Framed.onward framed
    obtain ⟨others, more⟩ := othersIh later
    rw [next] at others
    exact ⟨indices_append here others, List.forall_mem_append.mpr ⟨inner, more⟩⟩
  | whileLoop _ _ _ ih => exact ih framed
  | @forLoop S scope between after t u v w x init a step e top done first second third fourth rest
      _ _ before _ _ _ onward _ _ ih =>
    obtain ⟨t, member, plain⟩ := framed
    have inside : Scope.Framed (scope.top.block :: scope) :=
      ⟨t, List.mem_cons_of_mem _ member, plain⟩
    obtain ⟨here, none⟩ := before.indices inside
    obtain ⟨extra, rfl⟩ := before.scope_eq
    obtain ⟨later, next⟩ := Scope.Framed.onward inside
    obtain ⟨others, more⟩ := ih later
    rw [next] at others
    obtain ⟨noVars, noBodies⟩ := onward.vars_eq
    rw [Stmt.vars, Stmt.bodies, Stmt.count, noVars, noBodies, none, onward.count_eq,
      List.append_nil, List.append_nil, List.nil_append, Nat.add_zero]
    exact ⟨indices_append here others, more⟩
  | loopWhile _ _ _ _ _ ih => exact ih framed
  | declare _ reads _ =>
    obtain ⟨here, none⟩ := reads.indices framed
    exact ⟨here, by simp [none]⟩
  | @function S scope inner t n p b u r body words middle rest _ _ _ _ _ _ _ _ _ ih =>
    have bare : Scope.Framed ({ depth := r.depth } :: scope.adding [r.symbol]) :=
      ⟨_, List.mem_cons_self, rfl⟩
    obtain ⟨inside, count⟩ : (r.scope (scope.adding [r.symbol])).Framed ∧
        (r.scope (scope.adding [r.symbol])).count = 0 + r.params.length := Scope.Framed.onward bare
    obtain ⟨here, more⟩ := ih inside
    rw [count, Nat.zero_add] at here
    exact ⟨rfl, List.forall_mem_cons.mpr ⟨here, more⟩⟩
  | simple reads _ =>
    obtain ⟨vars, bodies⟩ := reads.vars_eq
    rw [vars, reads.count_eq, bodies]
    exact ⟨rfl, List.forall_mem_nil _⟩

end

section

variable {o : Outline} {chain : Chain} {ready : Ready} {loops : List Int} {t body : Stmt}
  {r : Routine}

-- Every function stands somewhere in the code, in order there.
theorem Stmt.Ok.of_mem_bodies {d : Routine × Stmt} (ok : t.Ok o chain ready loops)
    (inner : chain ≠ []) (member : d ∈ t.bodies) :
    (function d.1 d.2).code <:+: t.code ∧
      ∃ outer before, outer ≠ [] ∧ (function d.1 d.2).Ok o outer before [] := by
  induction t generalizing chain ready loops with
  | skip | expr | assign | declare | leave | yield | exit => cases member
  | seq a b first second =>
    rcases List.mem_append.mp member with one | two
    · obtain ⟨inside, placed⟩ := first ok.1 inner one
      exact ⟨inside.trans ⟨[], b.code, by simp [code]⟩, placed⟩
    · obtain ⟨inside, placed⟩ := second ok.2 inner two
      exact ⟨inside.trans ⟨a.code, [], by simp [code]⟩, placed⟩
  | block a ih => exact ih ok inner member
  | function r body ih =>
    rcases List.mem_cons.mp member with rfl | further
    · exact ⟨List.infix_rfl, chain, ready, inner, ok⟩
    · obtain ⟨inside, placed⟩ := ih ok.2.2.2.2 (List.cons_ne_nil _ _) further
      exact ⟨inside.trans ⟨_, conclude r, by rw [code]⟩, placed⟩
  | ifThen e a otherwise ih =>
    obtain ⟨inside, placed⟩ := ih ok.2.2 inner member
    exact ⟨inside.trans ⟨guard (some e) otherwise, [.label otherwise], by rw [code]⟩, placed⟩
  | ifElse e a b otherwise done first second =>
    rcases List.mem_append.mp member with one | two
    · obtain ⟨inside, placed⟩ := first ok.2.2.1 inner one
      refine ⟨inside.trans ⟨guard (some e) otherwise,
        [Instruction.branch .jump done, .label otherwise] ++ b.code ++ [Instruction.label done],
        ?_⟩, placed⟩
      simp [code]
    · obtain ⟨inside, placed⟩ := second ok.2.2.2 inner two
      exact ⟨inside.trans ⟨_, [.label done], by rw [code]⟩, placed⟩
  | whileLoop e a top done ih =>
    obtain ⟨inside, placed⟩ := ih ok.2.2 inner member
    exact ⟨inside.trans ⟨_, [.branch .jump top, .label done], by rw [code]⟩, placed⟩
  | forLoop init e a step top done initIh ih stepIh =>
    rcases List.mem_append.mp member with front | last
    · rcases List.mem_append.mp front with one | two
      · obtain ⟨inside, placed⟩ := initIh ok.1 inner one
        refine ⟨inside.trans ⟨[], Instruction.label top :: guard e done ++ a.code ++
          step.code ++ [Instruction.branch .jump top, .label done], ?_⟩, placed⟩
        simp [code]
      · obtain ⟨inside, placed⟩ := ih ok.2.2.1 inner two
        refine ⟨inside.trans ⟨init.code ++ .label top :: guard e done, step.code ++
          [Instruction.branch .jump top, .label done], ?_⟩, placed⟩
        simp [code]
    · obtain ⟨inside, placed⟩ := stepIh ok.2.2.2 inner last
      exact ⟨inside.trans ⟨_, [.branch .jump top, .label done], by rw [code]⟩, placed⟩
  | loopWhile a e top done ih =>
    obtain ⟨inside, placed⟩ := ih ok.1 inner member
    refine ⟨inside.trans ⟨[.label top], e.code ++
      [Instruction.unary .test eax, .branch (.jumpIf .notEqual) top, .label done], ?_⟩, placed⟩
    simp [code]

theorem Routine.indices_symbols (r : Routine) :
    r.symbols.reverse.map (·.index) = (List.range' 0 r.params.length).map Nat.cast := by
  refine List.ext_getElem (by simp [symbols]) fun index _ _ => ?_
  simp [symbols, Routine.variable]

-- The frame of a function.
theorem Stmt.Ok.allotted_function (ok : (function r body).Ok o chain ready loops)
    (inner : chain ≠ [])
    (indices : body.vars.map (·.index) = (List.range' r.params.length body.count).map Nat.cast) :
    Allotted r.depth (r.params.length + body.count) (r.symbols.reverse ++ body.vars)
      (function r body).code := by
  obtain ⟨depth, within, _, _, ok⟩ := ok
  have height : r.depth = List.length (r.frame body :: chain) := depth
  have region := function_inFrames depth within (ok.inFrames (height.ge.trans within))
  have deeper : r.depth ≠ 1 := by
    have := List.length_pos_iff.mpr inner
    omega
  rw [code_function]
  refine ⟨?_, ?_, ?_, ?_⟩
  · have others : framesAt r.depth (r.receive ++ body.code ++ conclude r) = [] :=
      framesAt_eq_nil fun i member opcode => by
        have further := ((region i member).frame opcode).1
        rw [← height] at further
        omega
    rw [framesAt_append, others, if_neg (fun bare => deeper bare.1), List.append_nil]
    simp [framesAt, Instruction.branch, Instruction.label, Instruction.pushScope]
  · rw [List.range_eq_range']
    exact indices_append r.indices_symbols (by rw [Nat.zero_add]; exact indices)
  · have own := ok.allocationsAt_code
    rw [← height] at own
    rw [allocationsAt_append_left rfl, allocationsAt_append_right (b := conclude r) rfl,
      allocationsAt_append, r.allocationsAt_receive, own, List.map_append]
  · intro i member a used own
    rcases List.mem_append.mp member with front | later
    · simp only [List.mem_cons, List.not_mem_nil, or_false] at front
      rcases front with rfl | rfl | rfl <;> cases used
    · have present := ((region i later).operands a used).2 r.depth own height.le (r.frame body)
        (by rw [height, Chain.outer_length]; rfl)
      have size : (r.frame body).layout.length = r.params.length + body.count := by
        simp [Routine.frame, Routine.locals, length_slots]
      rwa [size] at present

-- Nothing in a program is deeper than its deepest body.
theorem Stmt.Ok.program_inFrames (ok : t.Ok o [t.frame] ready loops) (deep : 1 ≤ o.depths)
    (depths : Nat) : Each (fun i => (i.opcode = .pushScope → i.depth ≤ o.depths) ∧
      ∀ a, .slot a ∈ i.operands → a.InFrames o [t.frame]) (t.program depths) := by
  refine .append (.append (.cons ⟨by rintro ⟨⟩, by rintro _ ⟨⟩⟩ ?_) fun i member => ?_)
    (.cons ⟨by rintro ⟨⟩, fun a used => ?_⟩ .nil)
  · split
    · exact .nil
    · exact .cons ⟨fun _ => Int.ofNat_le.mpr deep, by rintro _ ⟨⟩⟩ .nil
  · have inFrames := ok.inFrames (show List.length [t.frame] ≤ o.depths from deep) i member
    exact ⟨fun opcode => (inFrames.frame opcode).2, inFrames.operands⟩
  · cases List.mem_singleton.mp (show .slot a ∈ [Operand.null] from used)

-- The frame of a program.
theorem Stmt.Ok.allotted_program (ok : t.Ok o [t.frame] ready loops) (deep : 1 ≤ o.depths)
    (indices : t.vars.map (·.index) = (List.range' 0 t.count).map Nat.cast) (depths : Nat) :
    Allotted 1 t.count t.vars (t.program depths) := by
  have inner : framesAt 1 t.code = [] := framesAt_eq_nil fun i member opcode => by
    have further := (ok.inFrames (show List.length [t.frame] ≤ o.depths from deep) i member).frame
      opcode
    simp only [List.length_singleton] at further
    omega
  refine ⟨?_, ?_, ?_, ?_⟩
  · rw [program, framesAt_append, framesAt_append, inner]
    split <;> simp_all [framesAt, Instruction.scopeDepth, Instruction.pushScope, Instruction.unary]
  · rw [List.range_eq_range']
    exact indices
  · rw [program, allocationsAt_append_right (b := [.unary .exit .null]) rfl,
      allocationsAt_append_left (by split <;> rfl)]
    exact ok.allocationsAt_code
  · intro i member a used own
    have inFrames := (ok.program_inFrames deep depths i member).2 a used
    have present := inFrames.2 1 own le_rfl t.frame rfl
    rwa [show t.frame.layout.length = t.count from t.length_slots] at present

end

-- What is known of the slots and the names of a source, and of the code without line markers.
structure Allots (tokens : List Token) (declarations : List Declaration) (exitType : Option Ty)
    (code : List Instruction) (t : Stmt) (depths : Nat) : Prop where
  code : code = t.program depths
  reads : ∃ (hosts : Table) (after : Scope) (rest : List Token),
    hosts.symbols = hostSymbols declarations ∧ (∀ u ∈ rest.head?, u.kind = .finish) ∧
    Reads .many ⟨[], none, exitType⟩ [{ depth := 1 }, hosts] (Compile.sourceWords tokens) t after
      rest
  top : Allotted 1 t.count t.vars (t.program depths)
  functions : ∀ d ∈ t.bodies, (Stmt.function d.1 d.2).code <:+: t.code ∧
    Allotted d.1.depth (d.1.params.length + d.2.count) (d.1.symbols.reverse ++ d.2.vars)
      (Stmt.function d.1 d.2).code
  -- the operand of the first instruction exceeds all depths
  depths : ∀ i ∈ t.program depths, (i.opcode = .pushScope → i.depth < depths) ∧
    ∀ a : Slot, .slot a ∈ i.operands → a.depth < depths
  names : t.Resolved [[], hostSymbols declarations]

-- In whatever compiles, variables of a body never share a slot, and names mean what they should.
theorem compileTokens_allots {tokens : List Token} {declarations : List Declaration}
    {exitType : Option Ty} (fine : (compileTokens tokens declarations exitType).error = none) :
    ∃ t depths, Allots tokens declarations exitType
      (strip (compileTokens tokens declarations exitType).program.code.toList) t depths := by
  unfold compileTokens at fine ⊢
  cases ran : Compile.program tokens declarations (Compiler.start tokens exitType) with
  | error e c => simp [ran] at fine
  | ok u c =>
    obtain ⟨t, hosts, after, rest, code, _, _, deep, unique, routines, known, ends, reads,
      listed⟩ := Compile.program_ok ran
    have ok := reads.program_ok known unique routines
    have framed : Scope.Framed [{ depth := 1 }, hosts] := ⟨_, List.mem_cons_self, rfl⟩
    obtain ⟨indices, inner⟩ := reads.indices framed
    refine ⟨t, c.maxDepth + 1, code, ⟨hosts, after, rest, listed, ends, reads⟩,
      ok.allotted_program deep indices _, ?_, ?_, ?_⟩
    · intro d member
      obtain ⟨inside, outer, before, around, placed⟩ :=
        ok.of_mem_bodies (List.cons_ne_nil _ _) member
      exact ⟨inside, placed.allotted_function around (inner d member)⟩
    · intro i member
      obtain ⟨frame, operands⟩ := ok.program_inFrames deep _ i member
      exact ⟨fun opcode => Int.lt_add_one_of_le (frame opcode),
        fun a used => Int.lt_add_one_of_le (operands a used).1⟩
    · have resolved := (reads.resolved known.grounded).1
      rwa [show Scope.sight [{ depth := 1 }, hosts] = [[], hostSymbols declarations] from
        congrArg (fun symbols => [[], symbols]) listed] at resolved

-- Blocks, a loop and a function whose variables hide each other.
namespace Shadowing

def source : String :=
  "double x = 1; { double x = x + 1; x = 2; } " ++
    "double f(double x) { for (double i = 0; i < x; i = i + 1) double x = i; return x; } exit f(x);"

def tokens : List Token := (tokenize source).toOption.getD []

theorem allots : (compileTokens tokens [] none).error = none ∧ ∃ t depths,
    Allots tokens [] none (strip (compileTokens tokens [] none).program.code.toList) t depths := by
  have fine : (compileTokens tokens [] none).error = none :=
    Option.isNone_iff_eq_none.mp (by decide +kernel)
  exact ⟨fine, compileTokens_allots fine⟩

end Shadowing

end ScalarScript
