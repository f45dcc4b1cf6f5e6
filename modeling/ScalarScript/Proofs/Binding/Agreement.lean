import ScalarScript.Proofs.Binding.Calls
import ScalarScript.Proofs.Machine.Raised
/-!
The compiler and the machine agree about the host. A list of bindings that can be resolved declares
all its names, and wherever the code refers to the host, the machine has what the source means.
-/
namespace ScalarScript

open Linked (At)

variable {World Watch : Type}

section Declare

open Compile Stateful

theorem Table.declares_eq_false {t : Table} {name : String} (unused : ∀ s ∈ t.symbols, s.name ≠ name) :
    t.declares name = false := by
  simpa [Table.declares, Table.get?] using unused

theorem Scope.define_top {t : Table} {s : Symbol} (unused : t.declares s.name = false)
    (outer : Scope) :
    Scope.define (t :: outer) s = .ok ({ t with symbols := s :: t.symbols } :: outer) := by
  simp [Scope.define, Table.define, unused, bind, Except.bind, pure, Except.pure]

theorem Scope.claim_top {t : Table} {outer : Scope} (plain : t.isBlock = false) :
    Scope.claim (t :: outer) = (t.slots, { t with slots := t.slots + 1 } :: outer) := by
  simp [Scope.claim, plain]

theorem Scope.declareHostFunction_total {t : Table} {outer : Scope} {name : String} (params : List Ty)
    (returnType : Ty) (outermost : t.depth = 0) (plain : t.isBlock = false)
    (unused : t.declares name = false) :
    ∃ s scope, Scope.declareHostFunction (t :: outer) name params returnType = .ok (s, scope) := by
  have define (s : Symbol) (named : s.name = name) :=
    Scope.define_top (t := { t with slots := t.slots + 1 }) (s := s) (named ▸ unused) outer
  rw [Scope.declareHostFunction, if_neg (by simp [Scope.top, outermost]),
    if_neg (by simp [Scope.top, unused]), Scope.claim_top plain]
  dsimp only
  rw [define _ rfl]
  exact ⟨_, _, rfl⟩

theorem Scope.declare_total {t : Table} {outer : Scope} {name : String} {type : Ty}
    (plain : t.isBlock = false) (unused : t.declares name = false) (scalar : type.isScalar = true) :
    ∃ s scope, Scope.declare (t :: outer) name type = .ok (s, scope) := by
  have define (s : Symbol) (named : s.name = name) :=
    Scope.define_top (t := { t with slots := t.slots + 1 }) (s := s) (named ▸ unused) outer
  unfold Scope.declare Scope.reserve
  simp only [Scope.top, List.headD_cons, scalar, unused, Scope.claim_top plain, Bool.not_true,
    Bool.false_eq_true, if_false, bind, Except.bind]
  rw [define _ rfl]
  exact ⟨_, _, rfl⟩

-- A name that is new, with a type that can be declared, is declared.
theorem declareHost_total {h : Declaration} {t : Table} {c : Compiler} (scope : c.scope = [t])
    (outermost : t.depth = 0) (plain : t.isBlock = false) (unused : ∀ s ∈ t.symbols, s.name ≠ h.name)
    (declarable : h.type = .function ∨ h.type.isScalar = true) :
    ∃ d, declareHost h c = .ok ⟨⟩ d := by
  have free := Table.declares_eq_false unused
  have declares : ∃ s scope, (if h.type = .function then
      Scope.declareHostFunction c.scope h.name h.params h.returnType
      else Scope.declare c.scope h.name h.type) = .ok (s, scope) := by
    rw [scope]
    split
    · exact Scope.declareHostFunction_total _ _ outermost plain free
    · exact Scope.declare_total plain free (declarable.resolve_left ‹_›)
  obtain ⟨s, scope, declared⟩ := declares
  refine ⟨{ c with scope }, discard_eq_ok_iff.mpr ⟨s, onScope_eq_ok_iff.mpr ⟨scope, ?_, rfl⟩⟩⟩
  exact declared

-- So are any number of them, if they are distinct.
theorem declareHosts_total {rest : List Declaration} {t : Table} {c : Compiler} (scope : c.scope = [t])
    (outermost : t.depth = 0) (plain : t.isBlock = false) (distinct : (rest.map (·.name)).Nodup)
    (unused : ∀ h ∈ rest, ∀ s ∈ t.symbols, s.name ≠ h.name)
    (declarable : ∀ h ∈ rest, h.type = .function ∨ h.type.isScalar = true) :
    ∃ d, rest.forM declareHost c = .ok ⟨⟩ d := by
  induction rest generalizing t c with
  | nil => exact ⟨c, rfl⟩
  | cons h rest ih =>
    obtain ⟨new, others⟩ := List.forall_mem_cons.mp unused
    obtain ⟨first, more⟩ := List.forall_mem_cons.mp declarable
    obtain ⟨own, distinct⟩ := List.nodup_cons.mp distinct
    obtain ⟨m, declared⟩ := declareHost_total scope outermost plain new first
    have after := declareHost_ok (by rw [scope]; exact outermost) declared
    let t₁ : Table := { t with slots := t.slots + 1, symbols := h.symbol t.slots :: t.symbols }
    have next : m.scope = [t₁] := by
      simp [after, scope, Scope.claimed, Scope.adding, Scope.count, plain, t₁]
    have fresh : ∀ other ∈ rest, ∀ s ∈ t₁.symbols, s.name ≠ other.name := fun other member =>
      List.forall_mem_cons.mpr ⟨fun same => own (List.mem_map.mpr ⟨other, member, ?_⟩),
        others other member⟩
    · obtain ⟨d, ran⟩ := ih next outermost plain distinct fresh more
      refine ⟨d, ?_⟩
      simp only [List.forM_eq_forM, List.forM_cons, bind_eq_ok_iff]
      exact ⟨_, m, declared, ran⟩
    · rw [← same, Declaration.symbol]
      split <;> rfl

-- What resolved bindings declare is declared, in order.
theorem Binding.Resolves.declares {bindings : List (Binding World)} {bound : Bound World}
    (resolves : Resolves [] bindings bound) (tokens : List Token) (exitType : Option Ty) :
    ∃ t : Table, bound.declarations.forM declareHost (Compiler.start tokens exitType) =
      .ok ⟨⟩ { Compiler.start tokens exitType with scope := [t] } ∧
      t.symbols = hostSymbols bound.declarations := by
  obtain ⟨distinct, plain⟩ := resolves.names
  obtain ⟨c, ran⟩ := declareHosts_total (c := Compiler.start tokens exitType) rfl rfl rfl distinct
    (fun _ _ => List.forall_mem_nil _) fun h member => (plain h member).2
  have bare : ({} : Table).symbols = hostSymbols [] := rfl
  obtain ⟨t, rfl, _, listed⟩ := declareHosts_ok rfl rfl rfl rfl bare ran
  exact ⟨t, ran, listed⟩

end Declare

-- What the machine finds where code refers to the host, for the calls of a tree.
structure Bound.Serves (bound : Bound World) (t : Stmt) (code : List Instruction) : Prop where
  -- a call of the tree, behind the code that pushes its arguments one by one
  calls : ∀ before (i : Instruction) after, code = before ++ i :: after → i.opcode = .hostCall →
    ∃ (s : Symbol) (args : Args) (front : List Instruction) (index : Nat) (ext : External World)
      (f : HostFunction World), (s, args) ∈ t.calls ∧ strip before = front ++ args.code ∧
      i = .hostCall index s.name ∧ bound.externals[index]? = some ext ∧ ext.name = s.name ∧
      ext.function = some f ∧ ext.arity = args.types.length ∧
      ext.returnType = (Expr.call s args).type
  slots : ∀ i ∈ code, ∀ a : Slot, .slot a ∈ i.operands → a.depth = 0 →
    ∃ (index : Nat) (ext : External World) (cell : Cell), a.index = index ∧
      bound.externals[index]? = some ext ∧ ext.name = a.name ∧ ext.function = none ∧
      bound.cells[index]? = some (some cell) ∧ cell.content.type = a.type

theorem mem_hostSymbols {hosts : List Declaration} {s : Symbol} (known : s ∈ hostSymbols hosts) :
    ∃ (index : Nat) (d : Declaration), hosts[index]? = some d ∧ s = d.symbol index := by
  obtain ⟨⟨d, index⟩, member, rfl⟩ := List.mem_map.mp (List.mem_reverse.mp known)
  exact ⟨index, d, List.mem_zipIdx_iff_getElem?.mp member, rfl⟩

section Resolves

variable {bindings : List (Binding World)} {bound : Bound World} {s : Symbol}

-- The slot of a function that the host has declared.
theorem Binding.Resolves.function_at (resolves : Resolves [] bindings bound)
    (known : s ∈ hostSymbols bound.declarations) (function : s.isFunction = true) :
    ∃ (index : Nat) (ext : External World) (f : HostFunction World), s.index = index ∧
      bound.externals[index]? = some ext ∧ ext.name = s.name ∧ ext.function = some f ∧
      ext.arity = s.params.length ∧ ext.returnType = s.returnType := by
  obtain ⟨index, d, found, rfl⟩ := mem_hostSymbols known
  rcases resolves.at_index index with ⟨_, none, _⟩ | ⟨b, d', ext, _, declared, slot, _, gives⟩
  · rw [none] at found
    cases found
  · obtain rfl := Option.some.inj (found.symm.trans declared)
    cases gives with
    | function returns takes =>
      exact ⟨index, _, _, rfl, slot, rfl, rfl, congrArg Nat.cast takes.length_eq, rfl⟩
    | @holder name c scalar =>
      have type : c.content.type ≠ .function := fun function => by
        rw [function] at scalar
        cases scalar
      rw [Declaration.symbol, if_neg type] at function
      exact absurd (by simpa [Symbol.isFunction] using function) type

-- The slot and the cell of a variable.
theorem Binding.Resolves.variable_at (resolves : Resolves [] bindings bound)
    (known : s ∈ hostSymbols bound.declarations) (plain : s.isFunction = false) :
    ∃ (index : Nat) (ext : External World) (cell : Cell), s.index = index ∧
      bound.externals[index]? = some ext ∧ ext.name = s.name ∧ ext.function = none ∧
      bound.cells[index]? = some (some cell) ∧ cell.content.type = s.type := by
  obtain ⟨index, d, found, rfl⟩ := mem_hostSymbols known
  rcases resolves.at_index index with ⟨_, none, _⟩ | ⟨b, d', ext, _, declared, slot, cell, gives⟩
  · rw [none] at found
    cases found
  · obtain rfl := Option.some.inj (found.symm.trans declared)
    cases gives with
    | function returns takes => cases plain
    | @holder name c scalar =>
      have type : c.content.type ≠ .function := fun function => by
        rw [function] at scalar
        cases scalar
      rw [Declaration.symbol, if_neg type]
      exact ⟨index, _, c, rfl, slot, rfl, rfl, cell, rfl⟩

theorem Binding.Resolves.serves {t : Stmt} {code : List Instruction}
    (resolves : Resolves [] bindings bound)
    (refers : Refers bound.declarations t.calls (strip code)) : bound.Serves t code where
  calls before i after split host := by
    have marked : i.opcode ≠ .debugLine := by simp [host]
    have stripped : strip code = strip before ++ i :: strip after := by
      rw [split, strip_append, strip_cons_other marked]
    obtain ⟨s, args, called⟩ := refers.calls _ i _ stripped host
    obtain ⟨front, behind⟩ := called.behind
    obtain ⟨index, ext, f, place, slot, name, function, arity, returns⟩ :=
      resolves.function_at called.known called.function
    refine ⟨s, args, front, index, ext, f, called.made, behind, ?_, slot, name, function, ?_, returns⟩
    · rw [← place]
      exact called.instruction
    · rw [arity, called.accepted.length_eq]
  slots i member a used outer := by
    have marked : i.opcode ≠ .debugLine := fun is => by
      rw [Instruction.operands, is] at used
      cases used
    have inside : i ∈ strip code := List.mem_filter.mpr ⟨member, by simpa using marked⟩
    obtain ⟨s, known, plain, rfl⟩ := refers.slots i inside a used outer
    exact resolves.variable_at known plain

end Resolves

section Run

variable {bindings : List (Binding World)} {source exitName : String} {bound : Bound World}
  {exitType : Option Ty} {p : Program} {m : Machine World Watch} {t : Stmt}

-- Every call of a host function has one to call.
theorem Bound.Serves.function? (serves : bound.Serves t p.code.toList)
    (externals : m.externals = bound.externals.toArray) {i : Instruction}
    (member : i ∈ p.code.toList) (host : i.opcode = .hostCall) :
    ∃ ext f, External.function? m.externals i.target = some (ext, f) := by
  obtain ⟨before, after, split⟩ := List.append_of_mem member
  obtain ⟨s, args, front, index, ext, f, _, _, rfl, slot, _, function, _⟩ :=
    serves.calls before i after split host
  refine ⟨ext, f, ?_⟩
  simp [External.function?, Instruction.hostCall, externals, slot, function]

theorem answer_ne_notHostFunction {ext : External World} {reply : HostReply World} {slot : Int} :
    ext.answer reply ≠ .error (.notHostFunction slot) := by
  intro failed
  unfold External.answer at failed
  split at failed
  · cases failed
  · cases failed
  · split at failed <;> cases failed

-- Only where there is no function for a call.
theorem notHostFunction_of_deed {externals : Array (External World)} {i : Instruction}
    {c core : Core World} {slot : Int} {made : List HostCall}
    (done : deed externals i c = .stop (.error (.notHostFunction slot)) core made) :
    i.opcode = .hostCall ∧ External.function? externals i.target = none := by
  unfold deed at done
  split at done
  · cases done
  · cases done
  · obtain ⟨failed, _⟩ := Deed.stop.inj done
    exact (c.raises_resolve i.first _ failed).elim
  · cases done
  · split at done <;> cases done
  · cases done
  · cases done
  · rename_i opcode
    refine ⟨opcode, ?_⟩
    unfold hostDeed at done
    split at done
    · assumption
    · rename_i ext f found
      split at done
      · cases done
      · dsimp only at done
        cases answered : ext.answer (f c.world (c.request ext.arity.toNat)) with
        | error fault =>
          rw [answered] at done
          cases done
          exact absurd answered answer_ne_notHostFunction
        | ok v =>
          cases checked : ext.checkResult v with
          | ok w => simp [answered, Except.bind, checked] at done
          | error fault =>
            simp only [answered, Except.bind, checked] at done
            cases done
            exact (raises_checkResult ext v _ checked).elim
  · cases effect : c.effect i with
    | ok after => simp [effect] at done
    | error f =>
      simp only [effect] at done
      cases done
      exact (c.raises_effect i _ effect).elim

-- No run of a program whose calls are served ends for want of a function.
theorem Bound.Serves.ne_notHostFunction {s u first : RunState World Watch} {e : RuntimeError}
    (serves : bound.Serves t p.code.toList) (runs : Runs m p.code.toList)
    (externals : m.externals = bound.externals.toArray) (starts : bound.Starts first)
    (reached : Reaches m first s) (failed : Exec.step m s = .error e u) :
    ∃ (w : RunState World Watch) (f : RuntimeFault),
      e = w.error f ∧ ∀ slot, f ≠ .notHostFunction slot := by
  obtain ⟨world, watch, context, rfl⟩ := starts
  obtain ⟨k, _, _, here⟩ := (Linked.at_start _ _ _).follow runs reached
  have followed := Linked.step_followed runs here
  rw [failed] at followed
  cases followed with
  | @imposed f _ w _ cause =>
    refine ⟨w, f, rfl, fun slot same => ?_⟩
    rw [same] at cause
    exact cause
  | @fault f _ w l path stopped i executed first =>
    refine ⟨w, f, rfl, ?_⟩
    rintro slot rfl
    obtain ⟨j, rest, remains, done⟩ := Symbolic.deed_of_move (by rintro ⟨⟩) stopped
    rw [remains] at first
    cases first
    obtain ⟨opcode, absent⟩ := notHostFunction_of_deed done
    have member : i ∈ p.code.toList := List.mem_of_mem_filter (List.mem_of_getElem? executed)
    obtain ⟨ext, function, found⟩ := serves.function? externals member opcode
    exact absurd (found.symm.trans absent) (by simp)

end Run

-- What a program and its machine may rely on.
structure Bound.Agrees (bound : Bound World) (Watch : Type) (bindings : List (Binding World)) :
    Prop where
  -- a declaration and a slot for every binding, in its place
  places : ∀ index : Nat,
    (bindings[index]? = none ∧ bound.declarations[index]? = none ∧ bound.externals[index]? = none ∧
        bound.cells[index]? = none) ∨
      ∃ b d ext, bindings[index]? = some b ∧ bound.declarations[index]? = some d ∧
        bound.externals[index]? = some ext ∧ bound.cells[index]? = some b.cell? ∧ b.Gives d ext
  declares : ∀ (tokens : List Token) (exitType : Option Ty), ∃ t : Table,
    bound.declarations.forM Compile.declareHost (Compiler.start tokens exitType) =
      .ok ⟨⟩ { Compiler.start tokens exitType with scope := [t] } ∧
      t.symbols = hostSymbols bound.declarations
  compiled : ∀ source exitName exitType p, Accepted bindings source exitName bound exitType p →
    ∃ tokens t depths, tokenize source = .ok tokens ∧
      Compiled tokens bound.declarations exitType p t depths ∧ bound.Serves t p.code.toList
  run : ∀ source exitName exitType p (m : Machine World Watch) (first s u : RunState World Watch) e,
    Accepted bindings source exitName bound exitType p → m.Loads bound p → bound.Starts first →
      Reaches m first s → Exec.step m s = .error e u →
      ∃ (w : RunState World Watch) (f : RuntimeFault), e = w.error f ∧
        ∀ slot, f ≠ .notHostFunction slot

theorem Accepted.serves {bindings : List (Binding World)} {source exitName : String}
    {bound : Bound World} {exitType : Option Ty} {p : Program}
    (accepted : Accepted bindings source exitName bound exitType p) :
    ∃ tokens t depths, tokenize source = .ok tokens ∧
      Compiled tokens bound.declarations exitType p t depths ∧ bound.Serves t p.code.toList := by
  obtain ⟨tokens, read, fine, rfl⟩ := accepted.compiled
  obtain ⟨t, depths, compiled, refers⟩ := compileTokens_refers fine
  rw [← compiled.code] at refers
  exact ⟨tokens, t, depths, read, compiled,
    (Binding.resolve_eq_ok_iff.mp accepted.resolved).serves refers⟩

-- Bindings can be resolved where each of them fits behind the others, and then the compiler and the
-- machine agree about them.
theorem Binding.resolve_agrees (bindings : List (Binding World)) :
    ((∃ bound, resolve bindings = .ok bound) ↔
        ∀ before (b : Binding World) after, bindings = before ++ b :: after → b.Fits before) ∧
      ∀ bound, resolve bindings = .ok bound → bound.Agrees Watch bindings := by
  refine ⟨?_, fun bound resolved => ?_⟩
  · simp only [resolve_eq_ok_iff, exists_resolves_iff, List.not_mem_nil, not_false_eq_true, and_true]
  · have resolves := resolve_eq_ok_iff.mp resolved
    refine ⟨resolves.at_index, resolves.declares, fun _ _ _ _ accepted => accepted.serves, ?_⟩
    intro source exitName exitType p m first s u e accepted loads starts reached failed
    obtain ⟨_, t, _, _, compiled, serves⟩ := accepted.serves
    exact serves.ne_notHostFunction (loads.runs compiled.stage resolved) loads.externals starts
      reached failed

-- A variable and a function, and a program that uses both.
theorem Sample.agrees : Binding.resolve bindings = .ok bound ∧ bound.Agrees Unit bindings ∧
    ∃ tokens t depths, tokenize source = .ok tokens ∧
      Compiled tokens bound.declarations none program t depths ∧
      bound.Serves t program.code.toList := by
  have agrees : bound.Agrees Unit bindings := (Binding.resolve_agrees bindings).2 bound rfl
  exact ⟨rfl, agrees, agrees.compiled _ _ _ _ accepted⟩

end ScalarScript
