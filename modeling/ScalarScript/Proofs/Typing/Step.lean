import ScalarScript.Proofs.Typing.Access
/-!
What each instruction of a checked program does to a core that is as its shape says: the core is as
the next shape says, or there is a fault that a checked program can come to.
-/
namespace ScalarScript

open Compile (eax ebx)
open Symbolic

variable {World : Type}

-- The core meets a condition, unless there was a fault.
inductive Unless (Γ : Plan) (p : Core World → Prop) : Except RuntimeFault (Core World) → Prop where
  | ok {c : Core World} (meets : p c) : Unless Γ p (.ok c)
  | fault {f : RuntimeFault} (possible : f.Possible Γ) : Unless Γ p (.error f)

section

variable {Γ : Plan} {registers : Nat → Bool} {goals : Nat → Goal}
  {returns : List (List Instruction)} {c : Core World} {g : Trail} {σ : Shape}

theorem Memory.of_eq {lineages : List Lineage} {d : Core World}
    (memory : Memory Γ registers lineages c) (scopes : d.scopes = c.scopes)
    (cells : d.cells = c.cells) : Memory Γ registers lineages d := by
  refine ⟨memory.linked, ?_, ?_, ?_, ?_⟩
  · rw [scopes]
    exact memory.frames
  · rw [scopes]
    exact memory.size
  · rw [scopes]
    exact memory.host
  · rw [cells]
    exact memory.cells

-- The running call is inside its body.
theorem Sound.running (sound : Sound Γ registers goals returns c g σ) (inside : σ.inside = true) :
    ∃ lineage lineages, g.lineages = lineage :: lineages ∧ Lineage.Of σ.chain lineage ∧
      lineage.Framed ∧ lineage.Knows σ.ready ∧ Memory Γ registers (lineage :: lineages) c := by
  obtain ⟨lineage, lineages, _, _, _, same, _, _, running⟩ := sound.calls
  exact ⟨lineage, lineages, same, running.of, running.framed inside, running.knows,
    same ▸ sound.memory⟩

-- A variable of a script or of the host, from inside a body.
theorem Sound.located {s : Symbol} (sound : Sound Γ registers goals returns c g σ)
    (inside : σ.inside = true) (plain : s.isFunction = false)
    (fits : s.Fits Γ.outline σ.chain σ.ready) :
    Located Γ registers g.lineages c s (c.locate s.operand) := by
  obtain ⟨lineage, lineages, same, of, framed, knows, memory⟩ := sound.running inside
  rw [same]
  exact memory.located of framed knows (sound.deep inside) plain fits

theorem Calls.push {m : Mark} {lineages : List Lineage} {bases : List (List (Option Value))}
    {stack : List (Option Value)} {t : Ty} {v : Value}
    (calls : Calls Γ goals m returns lineages bases stack) (fits : Γ.Fits v t) :
    Calls Γ goals { m with stack := t :: m.stack } returns lineages bases (some v :: stack) := by
  obtain ⟨lineage, waiting, outer, own, below, same, based, rfl, running⟩ := calls
  exact ⟨lineage, waiting, outer, some v :: own, below, same, based, rfl,
    { running with operands := .cons ⟨v, rfl, fits⟩ running.operands }⟩

theorem Operands.split {given types : List Ty} {stack : List (Option Value)}
    (operands : Operands Γ (given ++ types) stack) :
    ∃ taken rest, stack = taken ++ rest ∧ Operands Γ given taken ∧ Operands Γ types rest := by
  induction given generalizing stack with
  | nil => exact ⟨[], stack, rfl, .nil, operands⟩
  | cons t given ih =>
    cases operands with
    | cons first others =>
      obtain ⟨taken, rest, rfl, front, back⟩ := ih others
      exact ⟨_ :: taken, rest, rfl, .cons first front, back⟩

-- Operands that are taken off the stack.
theorem Calls.take {m : Mark} {lineages : List Lineage} {bases : List (List (Option Value))}
    {stack : List (Option Value)} {given types : List Ty}
    (calls : Calls Γ goals m returns lineages bases stack) (split : m.stack = given ++ types) :
    ∃ taken rest, stack = taken ++ rest ∧ Operands Γ given taken ∧
      Calls Γ goals { m with stack := types } returns lineages bases rest := by
  obtain ⟨lineage, waiting, outer, own, below, same, based, rfl, running⟩ := calls
  have operands := running.operands
  rw [split] at operands
  obtain ⟨taken, rest, rfl, first, second⟩ := operands.split
  exact ⟨taken, rest ++ below, by rw [List.append_assoc], first,
    lineage, waiting, outer, rest, below, same, based, rfl, { running with operands := second }⟩

theorem Calls.pop {m : Mark} {lineages : List Lineage} {bases : List (List (Option Value))}
    {stack : List (Option Value)} {t : Ty} {types : List Ty}
    (calls : Calls Γ goals m returns lineages bases stack) (top : m.stack = t :: types) :
    ∃ v rest, stack = some v :: rest ∧ Γ.Fits v t ∧
      Calls Γ goals { m with stack := types } returns lineages bases rest := by
  have split : m.stack = [t] ++ types := top
  obtain ⟨taken, rest, rfl, operands, later⟩ := calls.take split
  cases operands with
  | cons first others =>
    obtain ⟨v, rfl, fits⟩ := first
    cases others
    exact ⟨v, rest, rfl, fits, later⟩

-- A value that only goes to `eax`.
theorem Sound.setEax {v : Value} {t : Ty} (sound : Sound Γ registers goals returns c g σ)
    (fits : Γ.Fits v t) :
    Sound Γ registers goals returns (c.setRegister .eax v) g (σ.holding t) := by
  refine ⟨sound.deep, ⟨?_, (by rintro _ ⟨⟩), (by rintro ⟨⟩)⟩, sound.memory.of_eq rfl rfl, sound.calls⟩
  rintro _ ⟨rfl⟩
  exact fits

theorem Source.resolve {o : Operand} {t : Ty} {v : Value}
    (sound : Sound Γ registers goals returns c g σ) (inside : σ.inside = true)
    (source : Source Γ.outline σ.chain σ.ready o t) (done : c.resolve o = .ok v) : Γ.Fits v t := by
  cases source with
  | constant w plain =>
    intro _
    cases w <;> cases done
    · exact .inl rfl
    · exact .inr rfl
    · exact .inr rfl
    · exact .inr rfl
  | var s plain fits => exact (sound.located inside plain fits).resolve done

theorem Source.fault {o : Operand} {t : Ty} {f : RuntimeFault}
    (sound : Sound Γ registers goals returns c g σ) (inside : σ.inside = true)
    (source : Source Γ.outline σ.chain σ.ready o t) (failed : c.resolve o = .error f) :
    f.Possible Γ := by
  cases source with
  | constant w plain =>
    cases w <;> cases failed
  | var s plain fits =>
    have located := sound.located inside plain fits
    unfold Core.resolve at failed
    cases place : c.locate s.operand with
    | ok p => simp [place, Except.map] at failed
    | error e =>
      rw [place] at located failed
      cases failed
      exact located.fault

namespace Sound

theorem load {o : Operand} {t : Ty} (sound : Sound Γ registers goals returns c g σ)
    (inside : σ.inside = true) (source : Source Γ.outline σ.chain σ.ready o t) :
    Unless Γ (Sound Γ registers goals returns · g (σ.holding t)) (c.effect (.move eax o)) := by
  rw [Core.effect_load]
  cases resolved : c.resolve o with
  | ok v => exact .ok (sound.setEax (source.resolve sound inside resolved))
  | error f => exact .fault (source.fault sound inside resolved)

-- A variable gets a value.
theorem assign {s : Symbol} {v : Value} {m : Mark} {stack : List (Option Value)}
    (sound : Sound Γ registers goals returns c g σ) (inside : σ.inside = true)
    (plain : s.isFunction = false) (fits : s.Fits Γ.outline σ.chain σ.ready)
    (typed : Γ.Fits v s.type) (calls : Calls Γ goals m returns g.lineages g.bases stack)
    (same : m.chain = σ.chain) (kept : ∀ t ∈ m.eax, Γ.Fits c.registers.eax t) :
    Unless Γ (Sound Γ registers goals returns · g { m with })
      ((c.locate s.operand).bind fun p => Core.assign { c with stack } p v) := by
  have located := sound.located inside plain fits
  cases place : c.locate s.operand with
  | error f =>
    rw [place] at located
    exact .fault located.fault
  | ok p =>
    have moved : Located Γ registers g.lineages { c with stack } s (.ok p) := by
      rw [place] at located
      cases located with
      | slot inner first known allocated same top held fits =>
        exact .slot inner first known allocated same top held fits
      | host declared same plain present ok => exact .host declared same plain present ok
    change Unless Γ _ (Core.assign { c with stack } p v)
    have memory : Memory Γ registers g.lineages { c with stack } := sound.memory.of_eq rfl rfl
    cases done : Core.assign { c with stack } p v with
    | error f => exact .fault (moved.assign_fault typed done)
    | ok d =>
      obtain ⟨after, sameRegisters, _, sameStack⟩ := memory.assign moved typed done
      refine .ok ⟨fun _ => same ▸ sound.deep inside, ⟨?_, (by rintro _ ⟨⟩), (by rintro ⟨⟩)⟩, after, ?_⟩
      · rw [sameRegisters]
        exact kept
      · rw [sameStack]
        exact calls

theorem store {s : Symbol} {t : Ty} (sound : Sound Γ registers goals returns c g σ)
    (inside : σ.inside = true) (plain : s.isFunction = false) (fits : s.Fits Γ.outline σ.chain σ.ready)
    (given : σ.eax = some t) (into : t.Into s.type) :
    Unless Γ (Sound Γ registers goals returns · g (σ.holding t)) (c.effect (.move s.operand eax)) := by
  have typed := sound.holds.eax t given
  refine sound.assign (m := { σ.toMark with eax := some t }) inside plain fits (typed.into into)
    sound.calls rfl ?_
  rintro _ ⟨rfl⟩
  exact typed

theorem push {t : Ty} (sound : Sound Γ registers goals returns c g σ) (given : σ.eax = some t) :
    Unless Γ (Sound Γ registers goals returns · g
      { σ with stack := t :: σ.stack, eax := none, ebx := none, flags := none })
      (c.effect (.push eax)) :=
  .ok ⟨sound.deep, ⟨(by rintro _ ⟨⟩), (by rintro _ ⟨⟩), (by rintro ⟨⟩)⟩, sound.memory.of_eq rfl rfl,
    Calls.push (m := { σ.toMark with eax := none }) sound.calls (sound.holds.eax t given)⟩

theorem keep {t : Ty} (sound : Sound Γ registers goals returns c g σ) (given : σ.eax = some t) :
    Unless Γ (Sound Γ registers goals returns · g
      { σ with eax := none, ebx := some t, flags := none }) (c.effect (.move ebx eax)) := by
  refine .ok ⟨sound.deep, ⟨(by rintro _ ⟨⟩), ?_, (by rintro ⟨⟩)⟩, sound.memory.of_eq rfl rfl, sound.calls⟩
  rintro _ ⟨rfl⟩
  exact sound.holds.eax t given

theorem pop {t : Ty} {stack : List Ty} (sound : Sound Γ registers goals returns c g σ)
    (given : σ.stack = t :: stack) :
    Unless Γ (Sound Γ registers goals returns · g
      { σ with stack, eax := some t, flags := none }) (c.effect (.pop eax)) := by
  obtain ⟨v, rest, top, fits, calls⟩ := sound.calls.pop given
  rw [Core.effect_pop c top]
  refine .ok ⟨sound.deep, ⟨?_, sound.holds.ebx, (by rintro ⟨⟩)⟩, sound.memory.of_eq rfl rfl, calls⟩
  rintro _ ⟨rfl⟩
  exact fits

theorem binary {op : BinaryOp} (sound : Sound Γ registers goals returns c g σ)
    (left : σ.eax = some op.operandType) (right : σ.ebx = some op.operandType) :
    Unless Γ (Sound Γ registers goals returns · g (σ.holding op.operandType))
      (c.effect (.binary (.binary op) eax ebx)) := by
  rw [Core.effect_binary]
  cases done : op.apply c.registers.eax c.registers.ebx with
  | ok v => exact .ok (sound.setEax fun _ => BinaryOp.apply_fits done)
  | error f =>
    exact .fault (RuntimeFault.possible_value fun trust => BinaryOp.apply_fault
      (sound.holds.eax _ left trust) (sound.holds.ebx _ right trust) done)

theorem unary {op : UnaryOp} (sound : Sound Γ registers goals returns c g σ)
    (given : σ.eax = some op.resultType) :
    Unless Γ (Sound Γ registers goals returns · g (σ.holding op.resultType))
      (c.effect (.unary (.unary op) eax)) := by
  rw [Core.effect_unary]
  cases done : op.apply c.registers.eax with
  | ok v => exact .ok (sound.setEax fun _ => UnaryOp.apply_fits done)
  | error f =>
    exact .fault (RuntimeFault.possible_value fun trust => UnaryOp.apply_fault
      (sound.holds.eax _ given trust) done)

theorem compare {t u : Ty} {ordered : Bool} (sound : Sound Γ registers goals returns c g σ)
    (left : σ.eax = some t) (right : σ.ebx = some u)
    (numbers : ordered = true → t = .double ∧ u = .double) :
    Unless Γ (Sound Γ registers goals returns ·
      ⟨g.lineages, g.bases, some (c.registers.eax, c.registers.ebx)⟩
      { σ with eax := none, ebx := none, flags := some ordered })
      (c.effect (.binary .compare eax ebx)) := by
  refine .ok ⟨sound.deep, ⟨(by rintro _ ⟨⟩), (by rintro _ ⟨⟩), ?_⟩, sound.memory.of_eq rfl rfl, sound.calls⟩
  rintro ⟨rfl⟩
  obtain ⟨rfl, rfl⟩ := numbers rfl
  exact ⟨_, _, rfl, sound.holds.eax _ left, sound.holds.ebx _ right, rfl⟩

theorem setIf (sound : Sound Γ registers goals returns c g σ) (condition : Condition) :
    Unless Γ (Sound Γ registers goals returns · g (σ.holding .bool))
      (c.effect (.unary (.setIf condition) eax)) :=
  .ok (sound.setEax fun _ => .inr rfl)

theorem test (sound : Sound Γ registers goals returns c g σ) (given : σ.eax = some .bool) :
    Unless Γ (Sound Γ registers goals returns · ⟨g.lineages, g.bases, none⟩
      { σ with ebx := none, flags := some false }) (c.effect (.unary .test eax)) := by
  rw [Core.effect_test]
  cases done : c.registers.eax.condition with
  | ok truth =>
    exact .ok ⟨sound.deep, ⟨sound.holds.eax, (by rintro _ ⟨⟩), (by rintro ⟨⟩)⟩,
      sound.memory.of_eq rfl rfl, sound.calls⟩
  | error f =>
    exact .fault (RuntimeFault.possible_value fun trust => Value.condition_fault
      (sound.holds.eax _ given trust) done)

-- From here on the variable is ready.
theorem allocate {s : Symbol} {t : Scalar} (sound : Sound Γ registers goals returns c g σ)
    (inside : σ.inside = true) (typed : s.type = t.ty) (depth : s.depth = σ.chain.length)
    (inner : s.depth ≠ 0) (inLayout : s.InLayout σ.chain) :
    Unless Γ (Sound Γ registers goals returns ·
      ⟨Trail.allocate s.index g.lineages, g.bases, g.compared⟩
      { σ with ready := s :: σ.ready, ebx := none, flags := none })
      (c.effect (.unary (.allocate t) s.operand)) := by
  obtain ⟨lineage, waiting, outer, own, below, same, based, stack, running⟩ := sound.calls
  obtain ⟨d, done, after, sameRegisters, _, sameStack⟩ :=
    (same ▸ sound.memory : Memory Γ registers (lineage :: waiting) c).allocate running.of
      (running.framed inside) (sound.deep inside) inner depth inLayout typed
  rw [Core.effect_allocate, done]
  refine .ok ⟨sound.deep, ⟨?_, (by rintro _ ⟨⟩), (by rintro ⟨⟩)⟩, same ▸ after, ?_⟩
  · rw [sameRegisters]
    exact sound.holds.eax
  · rw [sameStack, same]
    cases lineage with
    | nil => exact absurd running.of.length_eq (by rw [← depth]; exact Ne.symm inner)
    | cons x parents =>
      exact ⟨_, waiting, outer, own, below, rfl, based, stack, running.of.allocate,
        fun _ => (running.framed inside).allocate, fun out => absurd (inside.symm.trans out) (by simp),
        running.knows.allocate running.of depth, running.operands, running.waits⟩

theorem receive {s : Symbol} {t : Ty} {stack : List Ty}
    (sound : Sound Γ registers goals returns c g σ) (inside : σ.inside = true)
    (plain : s.isFunction = false) (fits : s.Fits Γ.outline σ.chain σ.ready) (given : σ.stack = t :: stack)
    (into : t.Into s.type) :
    Unless Γ (Sound Γ registers goals returns · g { σ with stack, ebx := none, flags := none })
      (c.effect (.pop s.operand)) := by
  obtain ⟨v, rest, top, typed, calls⟩ := sound.calls.pop given
  rw [Core.effect_receive c top]
  exact sound.assign (m := { σ.toMark with stack }) inside plain fits (typed.into into) calls rfl
    sound.holds.eax

-- The innermost body gets its frame.
theorem pushScope {body : Body} {parents : Chain} (sound : Sound Γ registers goals returns c g σ)
    (outside : σ.inside = false) (chain : σ.chain = body :: parents)
    (deep : σ.chain.length ≤ Γ.outline.depths) (around : ∀ s ∈ σ.ready, s.depth < σ.chain.length) :
    Unless Γ (Sound Γ registers goals returns ·
      ⟨Trail.framed (some (c.scopes[σ.chain.length]?.getD []).length) g.lineages, g.bases, g.compared⟩
      { σ with inside := true, ebx := none, flags := none })
      (c.effect (.pushScope σ.chain.length body.layout.length)) := by
  obtain ⟨lineage, waiting, outer, own, below, same, based, stack, running⟩ := sound.calls
  have memory := same ▸ sound.memory
  have of := running.of
  cases lineage with
  | nil => exact (chain ▸ of : Lineage.Of (body :: parents) []).elim
  | cons x links =>
    have own' := (chain ▸ of : Lineage.Of (body :: parents) (x :: links)).1
    have depth : x.depth = σ.chain.length := by rw [Instance.depth, own', chain]
    have layout : x.layout = body.layout := by rw [Instance.layout, own']; rfl
    have none : x.frame = none := running.bare outside x rfl
    have bound : σ.chain.length < c.scopes.size := by
      rw [memory.size]
      omega
    have inner : σ.chain.length ≠ 0 := by simp [chain]
    have present := Array.getElem?_eq_getElem bound
    have there : c.scopes[x.depth]? = some c.scopes[σ.chain.length] := by rw [depth, present]
    have frames : FramesOf (({ x with frame := some _, allocated := [] } :: links) :: waiting) _ :=
      ((FramesOf.cons_bare none).mp memory.frames).push there (by omega)
    have fits : ¬ (((σ.chain.length : Int) ≤ 0 || (c.scopes.size : Int) ≤ σ.chain.length) = true) := by
      simp only [Bool.or_eq_true, decide_eq_true_eq]
      omega
    rw [Core.effect_pushScope, Core.pushScope, if_neg fits]
    split
    · refine .fault ?_
      simp [RuntimeFault.Possible, RuntimeFault.code, Code.invalidOperation, Code.typeError]
    · refine .ok ⟨fun _ => deep, ⟨sound.holds.eax, (by rintro _ ⟨⟩), (by rintro ⟨⟩)⟩, ?_, ?_⟩
      · rw [same, present]
        refine ⟨memory.linked, ?_, ?_, ?_, memory.cells⟩
        · rw [depth, layout] at frames
          simp only [Int.toNat_natCast]
          exact frames
        · simpa using memory.size
        · obtain ⟨frame, top, shared⟩ := memory.host
          refine ⟨frame, ?_, shared⟩
          simp only [Int.toNat_natCast, Array.getElem?_modify, inner, if_false, top]
      · rw [same]
        refine ⟨_, waiting, outer, own, below, rfl, based, stack, of.framed, ?_, by simp,
          running.knows.framed of around, running.operands, running.waits⟩
        rintro _ _ ⟨rfl⟩ _ _ _
        rfl

-- The frame of a function goes.
theorem popScope {body : Body} {f : Enclosing} (sound : Sound Γ registers goals returns c g σ)
    (inside : σ.inside = true) (head : σ.chain.head? = some body)
    (function : body.enclosing = some f) :
    Unless Γ (Sound Γ registers goals returns · ⟨Trail.framed none g.lineages, g.bases, g.compared⟩
      { σ with inside := false, ready := [], ebx := none, flags := none })
      (c.effect (.popScope σ.chain.length)) := by
  obtain ⟨lineage, waiting, outer, own, below, same, based, stack, running⟩ := sound.calls
  have memory := same ▸ sound.memory
  have of := running.of
  obtain ⟨parents, chain⟩ := List.head?_eq_some_iff.mp head
  cases lineage with
  | nil => exact (chain ▸ of : Lineage.Of (body :: parents) []).elim
  | cons x links =>
    have own' := (chain ▸ of : Lineage.Of (body :: parents) (x :: links)).1
    have depth : x.depth = σ.chain.length := by rw [Instance.depth, own', chain]
    have inner : σ.chain.length ≠ 0 := by simp [chain]
    have bound : σ.chain.length < c.scopes.size := by
      rw [memory.size]
      exact Nat.lt_succ_of_le (sound.deep inside)
    have some : x.frame.isSome = true :=
      running.framed inside x rfl body (by rw [own']; rfl) (.inl (by rw [function]; rfl))
    have frames := memory.frames.pop some
    obtain ⟨frame, fs, top, _⟩ := memory.frames.top (Nat.pos_of_ne_zero (depth ▸ inner))
      (depth ▸ bound) (by rw [atDepth_cons, if_pos ⟨rfl, some⟩]; rfl)
    have present : (c.frame? σ.chain.length).isNone = false := by
      rw [depth] at top
      simp [Core.frame?, top]
    have fits : ¬ (((σ.chain.length : Int) ≤ 0 || (c.scopes.size : Int) ≤ σ.chain.length ||
        (c.frame? (σ.chain.length : Int).toNat).isNone) = true) := by
      simp only [Int.toNat_natCast, present, Bool.or_false, Bool.or_eq_true, decide_eq_true_eq]
      omega
    rw [Core.effect_popScope, Core.popScope, if_neg fits]
    refine .ok ⟨(by simp), ⟨sound.holds.eax, (by rintro _ ⟨⟩), (by rintro ⟨⟩)⟩, ?_, ?_⟩
    · rw [same]
      refine ⟨memory.linked, ?_, ?_, ?_, memory.cells⟩
      · rw [depth] at frames
        simp only [Int.toNat_natCast]
        exact frames
      · simpa using memory.size
      · obtain ⟨frame, top, shared⟩ := memory.host
        refine ⟨frame, ?_, shared⟩
        simp only [Int.toNat_natCast, Array.getElem?_modify, inner, if_false, top]
    · rw [same]
      refine ⟨_, waiting, outer, own, below, rfl, based, stack, of.framed, by simp, ?_, by
        simp [Lineage.Knows], running.operands, running.waits⟩
      rintro _ _ ⟨rfl⟩
      rfl

end Sound

-- A host function that is called gives a value of its type, unless it fails by itself.
inductive Deed.Unless (Γ : Plan) (p : Core World → Prop) : Deed World → Prop where
  | proceed {c : Core World} {made : List HostCall} (meets : p c) :
      Deed.Unless Γ p (.proceed c made)
  | fault {f : RuntimeFault} {c : Core World} {made : List HostCall} (possible : f.Possible Γ) :
      Deed.Unless Γ p (.stop (.error f) c made)

theorem External.answer_fault {ext : External World} {reply : HostReply World} {f : RuntimeFault}
    (failed : ext.answer reply = .error f) : f.Possible Γ := by
  unfold External.answer at failed
  split at failed
  · cases failed
    simp [RuntimeFault.Possible, RuntimeFault.code, Code.hostFailure, Code.typeError]
  · cases failed
    simp [RuntimeFault.Possible, RuntimeFault.code, Code.hostFailure, Code.typeError]
  · split at failed
    · cases failed
      simp [RuntimeFault.Possible, RuntimeFault.code, Code.stackUnderflow, Code.typeError]
    · cases failed

-- What a host function answers is what it gave, and a null where it gave nothing.
theorem External.answer_ok {ext : External World} {reply : HostReply World} {v : Value}
    (done : ext.answer reply = .ok v) : v = .null ∨ reply.result = .value (some v) := by
  unfold External.answer at done
  split at done
  · cases done
  · cases done
  · rename_i given result
    split at done
    · cases done
    · cases done
      cases given with
      | none => exact .inl rfl
      | some w => exact .inr result

-- Results are checked against the declared type, whatever the host does.
theorem External.checkResult_ok {ext : External World} {v w : Value}
    (scalar : ext.returnType.isScalar = true) (done : ext.checkResult v = .ok w) :
    w.Fits ext.returnType := by
  unfold External.checkResult at done
  split at done
  · cases done
  · rename_i fine
    cases done
    simp only [scalar, Bool.and_true, Bool.and_eq_true, Bool.not_eq_true', decide_eq_true_eq,
      not_and, ne_eq, not_not] at fine
    cases none : v.isNull with
    | true => exact .inl none
    | false => exact .inr (fine none)

theorem External.checkResult_fault {ext : External World} {v : Value} {f : RuntimeFault}
    (failed : ext.checkResult v = .error f) :
    ¬ v.Fits ext.returnType ∧ f = .wrongReturn ext.name v.type ext.returnType := by
  unfold External.checkResult at failed
  split at failed
  · rename_i wrong
    cases failed
    simp only [Bool.and_eq_true, Bool.not_eq_true', decide_eq_true_eq] at wrong
    refine ⟨?_, rfl⟩
    rintro (none | typed)
    · rw [wrong.1.1] at none
      cases none
    · exact wrong.2 typed
  · cases failed

theorem Sound.hostCall {env : Environment World} {s : Symbol} {given stack : List Ty}
    (sound : Sound Γ registers goals returns c g σ) (outer : s.depth = 0)
    (function : s.isFunction = true) (fits : s.Fits Γ.outline σ.chain σ.ready)
    (arguments : σ.stack = given ++ stack) (into : List.Forall₂ Ty.Into given s.params.reverse)
    (offers : Offers Γ.outline.hosts env.externals)
    (behaves : Γ.trusted → Behaves Γ.outline.hosts env.externals registers) :
    Deed.Unless Γ (Sound Γ registers goals returns · g ({ σ with stack }.holding s.returnType))
      (hostDeed env.externals s.index c) := by
  rw [Symbol.Fits, if_pos outer] at fits
  obtain ⟨i, d, index, declared, type, more⟩ := fits
  obtain ⟨params, returnType⟩ := more function
  have isFunction : d.type = .function := by simpa [type, Symbol.isFunction] using function
  obtain ⟨ext, f, found, arity, returns, scalar⟩ := offers i d declared isFunction
  obtain ⟨taken, rest, whole, operands, calls⟩ := sound.calls.take arguments
  have length : (taken.length : Int) = ext.arity := by
    have first : taken.length = given.length := operands.length_eq.symm
    rw [first, into.length_eq, arity, params, List.length_reverse]
  have enough : ¬ (c.stack.length : Int) < ext.arity := by
    rw [whole, List.length_append, ← length]
    omega
  have count : ext.arity.toNat = taken.length := by omega
  simp only [hostDeed, index, found, if_neg enough]
  have kept (trust : Γ.trusted) :
      CellsOk True Γ.outline.hosts registers (c.request ext.arity.toNat).cells :=
    sound.memory.cells.trusting trust
  generalize c.request ext.arity.toNat = asked at kept ⊢
  cases answer : ext.answer (f c.world asked) with
  | error fault => exact .fault (External.answer_fault answer)
  | ok v =>
    simp only [Except.bind]
    cases checked : ext.checkResult v with
    | error fault =>
      obtain ⟨wrong, rfl⟩ := External.checkResult_fault checked
      refine .fault fun trust => absurd ?_ wrong
      rcases External.answer_ok answer with rfl | result
      · exact .inl rfl
      · exact (behaves trust).result i ext f found c.world asked v (kept trust) result
    | ok w =>
      refine .proceed ⟨sound.deep, ⟨?_, (by rintro _ ⟨⟩), (by rintro ⟨⟩)⟩, ?_, ?_⟩
      · rintro _ ⟨rfl⟩ _
        rw [← returnType, ← returns]
        exact External.checkResult_ok scalar checked
      · refine ⟨sound.memory.linked, sound.memory.frames, sound.memory.size, sound.memory.host, ?_⟩
        exact sound.memory.cells.stores fun trust =>
          (behaves trust).stores i ext f found c.world asked (kept trust)
      · have dropped : c.stack.drop ext.arity.toNat = rest := by
          rw [whole, count, List.drop_left]
        simp only [Core.answered, Core.setRegister_stack, dropped]
        exact calls

end

end ScalarScript
