import ScalarScript.Proofs.Source.Resolution
import ScalarScript.Proofs.Typing.Run
/-!
Sources that compile, and machines that run what they compile to. The tree of the program is there,
and every state that a run reaches has a shape.
-/
namespace ScalarScript

open Linked (At)

variable {World Watch : Type}

-- The tree that tokens stand for, and the program that is its code.
structure Compiled (tokens : List Token) (declarations : List Declaration) (exitType : Option Ty)
    (p : Program) (t : Stmt) (depths : Nat) : Prop where
  code : strip p.code.toList = t.program (depths + 1)
  stage : p.stage = .building
  deep : 1 ≤ depths
  unique : (labelsOf t.code).Nodup
  ok : t.Ok (t.outline declarations exitType depths) [t.frame] [] []
  reads : ∃ (hosts : Table) (after : Scope) (rest : List Token), hosts.Hosts declarations ∧
    (∀ u ∈ rest.head?, u.kind = .finish) ∧
    Reads .many ⟨[], none, exitType⟩ [{ depth := 1 }, hosts] (Compile.sourceWords tokens) t after rest

-- A source text that compiles under valid bindings, and the program that it compiles to.
structure Accepted (bindings : List (Binding World)) (source exitName : String)
    (bound : Bound World) (exitType : Option Ty) (p : Program) : Prop where
  resolved : Binding.resolve bindings = .ok bound
  exits : Script.exitType? exitName = .ok exitType
  compiled : ∃ tokens, tokenize source = .ok tokens ∧
    (compileTokens tokens bound.declarations exitType).error = none ∧
    (compileTokens tokens bound.declarations exitType).program = p

-- A machine for a program, linked as it is.
structure Machine.Loads (m : Machine World Watch) (bound : Bound World) (p : Program) : Prop where
  linked : ∃ q log, link p = .ok (q, log) ∧ m.code = q.code
  externals : m.externals = bound.externals.toArray

-- The first state of a run with the cells of the bindings.
def Bound.Starts (bound : Bound World) (first : RunState World Watch) : Prop :=
  ∃ world watch context, first = Machine.start ⟨bound.cells.toArray, world, watch, []⟩ context

theorem Script.exitType_plain {name : String} {exitType : Option Ty}
    (exits : Script.exitType? name = .ok exitType) : ∀ t ∈ exitType, t ≠ .null := by
  unfold Script.exitType? at exits
  split at exits
  · cases exits
    simp
  · split at exits
    · rename_i t named
      cases exits
      rintro _ ⟨rfl⟩
      exact Ty.ne_null_of_isScalar (Ty.isScalar_of_declarable named)
    · cases exits

-- Where labels are distinct, every function is found by its entry.
theorem Stmt.outline_functions {t : Stmt} {hosts : List Declaration} {exitType : Option Ty}
    {depths : Nat} (unique : (labelsOf t.code).Nodup) :
    ∀ f ∈ t.functions [t.frame] [], (t.outline hosts exitType depths).functions f.1 = some f.2 := by
  intro f member
  refine lookup_of_mem ?_ member
  have keys := (t.starts_sublist [t.frame] []).map Prod.fst
  rw [List.map_map, t.map_fst_marks] at keys
  exact unique.sublist keys

-- Every name of a whole program leads somewhere.
theorem Reads.program_ok {t : Stmt} {declarations : List Declaration} {exitType : Option Ty}
    {depths : Nat} {hosts : Table} {after : Scope} {words rest : List Token}
    (reads : Reads .many ⟨[], none, exitType⟩ [{ depth := 1 }, hosts] words t after rest)
    (known : hosts.Hosts declarations) (unique : (labelsOf t.code).Nodup)
    (routines : ∀ r ∈ t.routines, r.depth ≤ depths) :
    t.Ok (t.outline declarations exitType depths) [t.frame] [] [] := by
  have placed : Placed (t.outline declarations exitType depths) [t.frame] []
      ⟨[], none, exitType⟩ [{ depth := 1 }, hosts] t.slots (t.functions [t.frame] [])
      (t.passed false) := by
    refine ⟨?_, ⟨_, List.mem_cons_self, rfl⟩, rfl, by simp,
      ⟨t.frame, [], [], [], rfl, rfl, by simp [Stmt.frame], rfl⟩, Stmt.outline_functions unique,
      List.Subset.refl _, rfl⟩
    refine Scope.fits_fresh ?_ rfl
    intro table member s declared
    obtain rfl := List.mem_singleton.mp member
    obtain ⟨outermost, host⟩ := known.known s declared
    rw [Symbol.Fits, if_pos outermost]
    exact host
  exact (reads.ok (fun _ => rfl) placed routines).1

-- What compiles is the code of a tree.
theorem compileTokens_tree {tokens : List Token} {declarations : List Declaration}
    {exitType : Option Ty} (fine : (compileTokens tokens declarations exitType).error = none) :
    ∃ t depths, Compiled tokens declarations exitType
      (compileTokens tokens declarations exitType).program t depths := by
  unfold compileTokens at fine ⊢
  cases ran : Compile.program tokens declarations (Compiler.start tokens exitType) with
  | error e c => simp [ran] at fine
  | ok u c =>
    obtain ⟨t, hosts, after, rest, code, _, stage, deep, unique, routines, known, ends, reads, _⟩ :=
      Compile.program_ok ran
    exact ⟨t, c.maxDepth, code, stage, deep, unique, reads.program_ok known unique routines, hosts,
      after, rest, known, ends, reads⟩

section

variable {bindings : List (Binding World)} {source exitName : String} {bound : Bound World}
  {exitType : Option Ty} {p : Program} {m : Machine World Watch}

-- The tree of an accepted source.
theorem Accepted.tree (accepted : Accepted bindings source exitName bound exitType p) :
    ∃ tokens t depths, tokenize source = .ok tokens ∧
      Compiled tokens bound.declarations exitType p t depths := by
  obtain ⟨tokens, read, fine, same⟩ := accepted.compiled
  obtain ⟨t, depths, compiled⟩ := compileTokens_tree fine
  exact ⟨tokens, t, depths, read, same ▸ compiled⟩

-- A machine that loads a program runs its linked form.
theorem Machine.Loads.runs_of_unlinked (loads : m.Loads bound p) (unlinked : p.stage ≠ .ready)
    (resolved : Binding.resolve bindings = .ok bound) : Runs m p.code.toList := by
  obtain ⟨q, log, linked, same⟩ := loads.linked
  obtain ⟨unique, defined, rfl, _⟩ := (link_eq_ok_iff unlinked).mp linked
  refine ⟨unique, defined, same, ?_⟩
  intro ext member
  rw [loads.externals] at member
  exact (Binding.resolve_ok resolved).arity ext (by simpa using member)

theorem Machine.Loads.runs (loads : m.Loads bound p) (stage : p.stage = .building)
    (resolved : Binding.resolve bindings = .ok bound) : Runs m p.code.toList :=
  loads.runs_of_unlinked (by simp [stage]) resolved

theorem Accepted.hosted {tokens : List Token} {t : Stmt} {depths : Nat} {trusted : Prop}
    (accepted : Accepted bindings source exitName bound exitType p)
    (compiled : Compiled tokens bound.declarations exitType p t depths) (loads : m.Loads bound p)
    (behaves : trusted → Behaves bound.declarations m.externals (registersOf bound.cells)) :
    Hosted m p.code.toList t bound.declarations exitType depths (registersOf bound.cells)
      trusted := by
  have aligned := Binding.resolve_ok accepted.resolved
  refine ⟨loads.runs compiled.stage accepted.resolved, compiled.code, compiled.deep,
    ⟨aligned.plain, Script.exitType_plain accepted.exits⟩, compiled.ok, ?_, behaves⟩
  rw [loads.externals]
  exact aligned.offers

theorem Accepted.situated {t : Stmt} {depths : Nat} {trusted : Prop}
    {first : RunState World Watch} (accepted : Accepted bindings source exitName bound exitType p)
    (hosted : Hosted m p.code.toList t bound.declarations exitType depths (registersOf bound.cells)
      trusted) (starts : bound.Starts first) :
    Situated p.code.toList t bound.declarations exitType depths (registersOf bound.cells) trusted
      first t.trail := by
  obtain ⟨world, watch, context, rfl⟩ := starts
  have aligned := Binding.resolve_ok accepted.resolved
  refine ⟨_, Linked.at_start _ _ _, .inl ?_⟩
  exact ⟨hosted.split, rfl, rfl, rfl, rfl, aligned.hostFrame world watch context, aligned.cellsOk⟩

end

-- A text that can be read, with its tokens.
theorem tokenize_of_isOk {source : String} (read : (tokenize source).isOk = true) :
    tokenize source = .ok ((tokenize source).toOption.getD []) := by
  cases tokens : tokenize source with
  | ok tokens => rfl
  | error e =>
    rw [tokens] at read
    cases read

-- Whether a source is accepted can be computed.
theorem Accepted.of_checks {bindings : List (Binding World)} {source : String}
    {bound : Bound World} (resolved : Binding.resolve bindings = .ok bound)
    (read : (tokenize source).isOk = true)
    (fine : (compileTokens ((tokenize source).toOption.getD []) bound.declarations
      none).error.isNone = true) :
    Accepted bindings source "" bound none
      (compileTokens ((tokenize source).toOption.getD []) bound.declarations none).program :=
  ⟨resolved, rfl, (tokenize source).toOption.getD [], tokenize_of_isOk read,
    Option.isNone_iff_eq_none.mp fine, rfl⟩

theorem Machine.Loads.of_linkable {m : Machine World Watch} {bound : Bound World} {p : Program}
    (links : (link p).isOk = true)
    (code : m.code = ((link p).toOption.map (·.1.code)).getD #[])
    (externals : m.externals = bound.externals.toArray) : m.Loads bound p := by
  refine ⟨?_, externals⟩
  cases done : link p with
  | error e =>
    rw [done] at links
    cases links
  | ok linked =>
    rw [done] at code
    exact ⟨linked.1, linked.2, rfl, code⟩

-- A small program that calls its host and a function of its own.
namespace Sample

def source : String := "double f(double n) { return n + limit; } exit f(rate()) < limit;"

def rate : HostFunction Unit := fun world _ =>
  { world, popped := 0, result := .value (some (.number 1)) }

def limit : Cell := { content := .number 2 }

def bindings : List (Binding Unit) :=
  [.variable "limit" (some limit), .function "rate" "double" [] (some rate)]

def bound : Bound Unit where
  declarations := [{ name := "limit", type := .double },
    { name := "rate", type := .function, params := [], returnType := .double }]
  externals := [{ name := "limit" }, { name := "rate", function := some rate, returnType := .double }]
  cells := [some limit, none]

def program : Program :=
  (compileTokens ((tokenize source).toOption.getD []) bound.declarations none).program

def machine : Machine Unit Unit where
  code := ((link program).toOption.map (·.1.code)).getD #[]
  externals := bound.externals.toArray

def first : RunState Unit Unit := Machine.start ⟨bound.cells.toArray, (), (), []⟩ .background

-- The source compiles, and the program links.
theorem computed :
    (tokenize source).isOk = true ∧
      (compileTokens ((tokenize source).toOption.getD []) bound.declarations none).error.isNone =
        true ∧
      (link program).isOk = true := by
  decide +kernel

theorem accepted : Accepted bindings source "" bound none program :=
  Accepted.of_checks (by rfl) computed.1 computed.2.1

theorem loads : machine.Loads bound program :=
  .of_linkable computed.2.2 (by simp only [machine]) rfl

theorem starts : bound.Starts first := ⟨(), (), .background, rfl⟩

-- The state that a run comes to.
def after (steps : Nat) : RunState Unit Unit :=
  match Exec.drive (Exec.step machine) steps first with
  | .ok none s => s
  | _ => first

theorem reaches_after (steps : Nat) : Reaches machine first (after steps) := by
  unfold after
  split
  · exact .of_drive ‹_›
  · exact .refl

-- The function is about to read its parameter, and then the host's variable with an operand pending.
theorem within_call :
    ((after 9).address = 6 ∧ (after 9).calls.length = 1) ∧
      (after 11).address = 8 ∧ (after 11).calls.length = 1 ∧ (after 11).stack.length = 1 := by
  decide +kernel

end Sample

-- Sources to which a host binds nothing.
namespace Hostless

def bound : Bound Unit where
  declarations := []
  externals := []
  cells := []

def program (source : String) : Program :=
  (compileTokens ((tokenize source).toOption.getD []) bound.declarations none).program

def machine (source : String) : Machine Unit Unit where
  code := ((link (program source)).toOption.map (·.1.code)).getD #[]

def first : RunState Unit Unit := Machine.start ⟨#[], (), (), []⟩ .background

theorem accepted {source : String} (read : (tokenize source).isOk = true)
    (fine : (compileTokens ((tokenize source).toOption.getD []) bound.declarations
      none).error.isNone = true) : Accepted [] source "" bound none (program source) :=
  .of_checks rfl read fine

theorem loads {source : String} (links : (link (program source)).isOk = true) :
    (machine source).Loads bound (program source) :=
  .of_linkable links (by simp only [machine]) rfl

theorem starts : bound.Starts first := ⟨(), (), .background, rfl⟩

end Hostless

end ScalarScript
