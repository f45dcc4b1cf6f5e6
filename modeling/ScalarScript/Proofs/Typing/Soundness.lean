import ScalarScript.Proofs.Typing.Accepted
import ScalarScript.Proofs.Typing.Through
/-!
Types are kept. Whatever state a run of an accepted source reaches: expressions leave values of
their types, slots and the host's variables hold values of theirs, and nothing complains about types.
-/
namespace ScalarScript

open Symbolic
open Linked (At Passes)

variable {World Watch : Type}

section

variable {m : Machine World Watch} {code : List Instruction} {t : Stmt} {hosts : List Declaration}
  {exitType : Option Ty} {depths : Nat} {registers : Nat → Bool} {trusted : Prop}
  {s : RunState World Watch} {g : Trail}

theorem Traced.situated {first : RunState World Watch}
    (hosted : Hosted m code t hosts exitType depths registers trusted)
    (start : Situated code t hosts exitType depths registers trusted first t.trail)
    (traced : Traced m (t.outline hosts exitType depths).functions code first t.trail s g) :
    Situated code t hosts exitType depths registers trusted s g := by
  induction traced with
  | start => exact start
  | step before stepped ih =>
    have next := ih.step hosted
    rw [stepped] at next
    cases next with
    | next there _ => exact there

-- What is kept of the memory in every state, the first one included.
theorem Situated.memory (situated : Situated code t hosts exitType depths registers trusted s g) :
    Linked g.lineages ∧ FramesOf g.lineages s.scopes ∧ HostFrame hosts s.scopes ∧
      CellsOk trusted hosts registers s.cells := by
  obtain ⟨k, here, shaped⟩ := situated
  rw [here.core]
  rcases shaped with fresh | ⟨σ, part, typed⟩
  · refine ⟨by rw [fresh.trail]; simp [Stmt.trail, Linked], ?_, fresh.host, fresh.cells⟩
    intro depth inner fs present
    rw [Array.getElem?_eq_none (by rw [fresh.size]; exact inner)] at present
    cases present
  · have memory := typed.sound.memory
    exact ⟨memory.linked, memory.frames, memory.host, memory.cells⟩

theorem instructionAt_end {pre : List Instruction} {address : Int}
    (place : address = Link.address pre) : instructionAt pre address = none := by
  rw [instructionAt, place, Int.toNat_natCast, List.getElem?_eq_none_iff, Link.address,
    List.countP_eq_length_filter]

-- The instruction at which the machine stands, checked from the shape that the state has.
theorem Situated.instruction {i : Instruction}
    (situated : Situated code t hosts exitType depths registers trusted s g)
    (executed : instructionAt code s.address = some i) (active : i.opcode ≠ .debugLine) :
    i = .scopeDepth (depths + 1) ∨ ∃ k σ rest, At code s k ∧
      WellTyped (t.plan hosts exitType depths trusted) registers (fun _ => t.goal) k g σ (i :: rest) := by
  obtain ⟨k, here, shaped⟩ := situated
  obtain ⟨l, pre, rest, path, there, split, place, remains, notLabel⟩ := here.settle
  cases rest with
  | nil =>
    rw [split, List.append_nil, instructionAt_end place] at executed
    cases executed
  | cons j rest =>
    rw [instructionAt_eq split place (notLabel j rfl)] at executed
    cases executed
    rw [strip_cons_other active] at remains
    rcases shaped with fresh | ⟨σ, part, typed⟩
    · rw [fresh.settled path, fresh.rest] at remains
      exact .inl (List.cons.inj remains).1.symm
    · obtain ⟨σ, part, typed⟩ := typed.settled path
      have whole : i :: strip rest = part := by
        rw [← remains, typed.rest]
        exact List.append_nil part
      rw [← whole] at typed
      exact .inr ⟨l, σ, strip rest, there, typed⟩

end

-- What holds of a state that a run reaches, given the trail up to there.
structure TypesKept (m : Machine World Watch) (code : List Instruction) (t : Stmt)
    (hosts : List Declaration) (exitType : Option Ty) (depths : Nat) (s : RunState World Watch)
    (g : Trail) : Prop where
  -- behind the code of an expression, `eax` holds a value of its type
  values : ∀ pre mid post e, t.Occurs depths code pre mid post e → s.address = Link.address pre →
    ∀ u, Through m (Link.address pre) (Link.address (pre ++ mid)) s.calls.length s u →
      u.registers.eax.Fits e.type
  -- the frames of every depth are those of the calls that have not ended, and every slot of them is
  -- empty or holds a value of the type it was declared with
  slots : FramesOf g.lineages s.scopes
  -- the host's variables read as values of their types
  externals : ∀ (i : Nat) d, hosts[i]? = some d → d.type ≠ .function →
    ∃ c, s.cells[i]? = some (some c) ∧ c.content.Fits d.type
  -- what asks for an order reads the flags of a comparison of numbers
  ordered : ∀ i c, instructionAt code s.address = some i → i.opcode = .setIf c →
    c.isOrder = true → ∃ x y, g.compared = some (x, y) ∧ x.Fits .double ∧ y.Fits .double ∧
      s.flags = Core.compared x y
  faults : ∀ e u, Exec.step m s = .error e u → e.code ≠ .typeError
  exits : ∀ v u, Exec.step m s = .ok (some v) u → ∀ wanted ∈ exitType, v.Fits wanted

theorem RuntimeFault.Possible.code_ne {Γ : Plan} {f : RuntimeFault} (possible : f.Possible Γ)
    (trust : Γ.trusted) : f.code ≠ .typeError := by
  cases f with
  | operandDepth | scopeDepth | noSlot | noFrame | emptyStack | emptyCalls | missingArguments
  | blankPlace => exact possible.elim
  | unallocated o => simp [code, Code.invalidOperation, Code.typeError]
  | _ => exact possible trust

section

variable {m : Machine World Watch} {code : List Instruction} {t : Stmt} {hosts : List Declaration}
  {exitType : Option Ty} {depths : Nat} {registers : Nat → Bool} {trusted : Prop}
  {s : RunState World Watch} {g : Trail}

theorem Situated.ordered {i : Instruction} {c : Condition}
    (situated : Situated code t hosts exitType depths registers trusted s g)
    (executed : instructionAt code s.address = some i) (opcode : i.opcode = .setIf c)
    (order : c.isOrder = true) :
    ∃ x y, g.compared = some (x, y) ∧ (trusted → x.Fits .double) ∧ (trusted → y.Fits .double) ∧
      s.flags = Core.compared x y := by
  rcases situated.instruction executed (by simp [opcode]) with rfl | ⟨k, σ, rest, here, typed⟩
  · cases opcode
  have flags : s.flags = k.core.flags := congrArg Core.flags here.core
  rw [flags]
  cases typed.checked with
  | setIf given asked later =>
    cases opcode
    refine typed.sound.holds.flags ?_
    rw [given, asked order]
  | _ => cases opcode

theorem Situated.typesKept (hosted : Hosted m code t hosts exitType depths registers trusted)
    (situated : Situated code t hosts exitType depths registers trusted s g) (trust : trusted) :
    TypesKept m code t hosts exitType depths s g := by
  obtain ⟨_, frames, _, cells⟩ := situated.memory
  have step := situated.step hosted
  refine ⟨?_, frames, ?_, ?_, ?_, ?_⟩
  · intro pre mid post e occurs place u through
    exact situated.value hosted occurs place through trust
  · intro i d declared held
    obtain ⟨c, present, ok⟩ := cells i d declared held
    exact ⟨c, present, ok.fits trust⟩
  · intro i c executed opcode order
    obtain ⟨x, y, compared, left, right, flags⟩ := situated.ordered executed opcode order
    exact ⟨x, y, compared, left trust, right trust, flags⟩
  · intro e u failed
    rw [failed] at step
    cases step with
    | fault possible => exact possible.code_ne trust
  · intro v u ended
    rw [ended] at step
    cases step with
    | exit fits => exact fits trust

-- How a whole run ends.
theorem Situated.run {fuel : Nat} {outcome : Except RuntimeError Value}
    {final : RunState World Watch} (hosted : Hosted m code t hosts exitType depths registers trusted)
    (situated : Situated code t hosts exitType depths registers trusted s g) (trust : trusted)
    (ran : m.runFrom fuel s = some (outcome, final)) :
    (∀ e, outcome = .error e → e.code ≠ .typeError) ∧
      ∀ v, outcome = .ok v → ∀ wanted ∈ exitType, v.Fits wanted := by
  induction fuel generalizing s g with
  | zero => cases ran
  | succ fuel ih =>
    have kept := situated.typesKept hosted trust
    have next := situated.step hosted
    unfold Machine.runFrom at ran
    cases stepped : Exec.step m s with
    | error e u =>
      rw [stepped] at ran
      cases ran
      refine ⟨?_, (by simp)⟩
      rintro _ ⟨rfl⟩
      exact kept.faults _ _ stepped
    | ok result u =>
      rw [stepped] at ran next
      cases next with
      | next there _ => exact ih there ran
      | exit fits =>
        cases ran
        refine ⟨(by simp), ?_⟩
        rintro _ ⟨rfl⟩
        exact fits trust

end

-- Static types are sound: every reachable state keeps them, and so does the end of every run.
theorem Accepted.types_kept {bindings : List (Binding World)} {source exitName : String}
    {bound : Bound World} {exitType : Option Ty} {p : Program} {m : Machine World Watch}
    (accepted : Accepted bindings source exitName bound exitType p) (loads : m.Loads bound p)
    (behaves : Behaves bound.declarations m.externals (registersOf bound.cells)) :
    ∃ (t : Stmt) (depths : Nat), strip p.code.toList = t.program (depths + 1) ∧
      t.Ok (t.outline bound.declarations exitType depths) [t.frame] [] [] ∧
      ∀ first : RunState World Watch, bound.Starts first →
        (∀ s g, Traced m (t.outline bound.declarations exitType depths).functions p.code.toList
            first t.trail s g →
          TypesKept m p.code.toList t bound.declarations exitType depths s g) ∧
        ∀ fuel outcome final, m.runFrom fuel first = some (outcome, final) →
          (∀ e, outcome = .error e → e.code ≠ .typeError) ∧
            ∀ v, outcome = .ok v → ∀ wanted ∈ exitType, v.Fits wanted := by
  obtain ⟨tokens, t, depths, _, compiled⟩ := accepted.tree
  have hosted := accepted.hosted compiled loads fun _ : True => behaves
  refine ⟨t, depths, hosted.tree, hosted.ok, ?_⟩
  intro first starts
  have start := accepted.situated hosted starts
  refine ⟨?_, ?_⟩
  · intro s g traced
    exact (traced.situated hosted start).typesKept hosted trivial
  · intro fuel outcome final ran
    exact start.run hosted trivial ran

theorem Sample.behaves : Behaves Sample.bound.declarations Sample.machine.externals
    (registersOf Sample.bound.cells) := by
  have only : ∀ slot ext f, External.function? Sample.machine.externals slot = some (ext, f) →
      ext.returnType = .double ∧ f = Sample.rate := by
    intro slot ext f found
    unfold External.function? at found
    split at found
    · cases found
    · obtain ⟨n, place⟩ : ∃ n, slot.toNat = n := ⟨_, rfl⟩
      rw [place] at found
      match n with
      | 0 => cases found
      | 1 =>
        cases found
        exact ⟨rfl, rfl⟩
      | n + 2 => cases found
  refine ⟨?_, ?_⟩
  · intro slot ext f found world request v _ result
    obtain ⟨typed, rfl⟩ := only slot ext f found
    cases result
    exact .inr typed.symm
  · intro slot ext f found world request _ p stored
    obtain ⟨_, rfl⟩ := only slot ext f found
    cases stored

theorem Sample.keeps_types : ∃ (t : Stmt) (depths : Nat),
    TypesKept Sample.machine Sample.program.code.toList t Sample.bound.declarations none depths
      Sample.first t.trail ∧
    ∀ e final, Sample.machine.runFrom 100 Sample.first = some (.error e, final) →
      e.code ≠ .typeError := by
  obtain ⟨t, depths, _, _, runs⟩ :=
    Accepted.types_kept Sample.accepted Sample.loads Sample.behaves
  obtain ⟨kept, ends⟩ := runs Sample.first Sample.starts
  exact ⟨t, depths, kept _ _ .start, fun e final ran => (ends 100 _ final ran).1 e rfl⟩

end ScalarScript
