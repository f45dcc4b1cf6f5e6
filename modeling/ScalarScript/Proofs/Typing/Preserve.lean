import ScalarScript.Proofs.Typing.Plan
import ScalarScript.Proofs.Typing.Step
/-!
A checked program stays checked while it runs: every move leads to another state with a shape, or
ends the run with a value that fits, or with a fault that a checked program can come to.
-/
namespace ScalarScript

open Compile (eax ebx)
open Symbolic

variable {World : Type}

-- A part of a program that jumps never leave.
structure Goal.Ok (Γ : Plan) (code : List Instruction) (goal : Goal) : Prop where
  placed : ∃ pre, code = pre ++ (goal.segment ++ goal.tail)
  checked : ∃ σ, Check Γ goal.final σ goal.segment
  closed : ∀ i ∈ goal.segment, i.opcode.isBranch = true → i.opcode ≠ .call →
    i.target ∈ labelsOf goal.segment

-- A part that holds every label of the program.
def Goal.Whole (code : List Instruction) (goal : Goal) : Prop :=
  ∀ label ∈ labelsOf code, label ∈ labelsOf goal.segment

-- What a checked program relies on.
structure Premises (Γ : Plan) (registers : Nat → Bool) (env : Environment World)
    (code : List Instruction) : Prop where
  unique : (labelsOf code).Nodup
  coherent : Γ.Coherent
  offers : Offers Γ.outline.hosts env.externals
  behaves : Γ.trusted → Behaves Γ.outline.hosts env.externals registers

-- A label of a part leads to a place in that part.
theorem Goal.Ok.seek {Γ : Plan} {code rest : List Instruction} {goal : Goal} {label : Int}
    (ok : goal.Ok Γ code) (unique : (labelsOf code).Nodup)
    (member : label ∈ labelsOf goal.segment) (found : seek label code = some rest) :
    ∃ s m, rest = s ++ goal.tail ∧ s <:+ goal.segment ∧ Γ.labels label = some m ∧
      Check Γ goal.final { m with } s := by
  obtain ⟨pre, split⟩ := ok.placed
  obtain ⟨σ, checked⟩ := ok.checked
  cases inner : ScalarScript.seek label goal.segment with
  | none => exact absurd member (seek_eq_none_iff.mp inner)
  | some s =>
    have absent : label ∉ labelsOf pre := by
      intro early
      rw [split, labelsOf_append, labelsOf_append] at unique
      exact (List.nodup_append.mp unique).2.2 label early label (List.mem_append_left _ member) rfl
    rw [split, seek_append_of_notMem absent, seek_append_of_some inner] at found
    obtain ⟨m, known, later⟩ := checked.seek inner
    obtain ⟨before, i, place, _⟩ := seek_eq_some inner
    exact ⟨s, m, (Option.some.inj found).symm, ⟨before ++ [i], by simp [place]⟩, known, later⟩

section

variable {Γ : Plan} {registers : Nat → Bool} {goals : Nat → Goal}
  {returns : List (List Instruction)} {c : Core World} {g : Trail} {σ : Shape}

-- At a label less is known than before it.
theorem Sound.meet {m : Mark} (sound : Sound Γ registers goals returns c g σ)
    (meets : σ.Meets m) : Sound Γ registers goals returns c g { m with } := by
  obtain ⟨chain, inside, ready, stack, wanted⟩ := m
  obtain ⟨rfl, rfl, fewer, rfl, eax⟩ := meets
  obtain ⟨lineage, waiting, outer, own, below, same, based, whole, running⟩ := sound.calls
  refine ⟨sound.deep, ⟨?_, (by rintro _ ⟨⟩), (by rintro ⟨⟩)⟩, sound.memory,
    lineage, waiting, outer, own, below, same, based, whole,
    { running with knows := running.knows.mono fewer }⟩
  intro t asked
  obtain ⟨given, known, into⟩ := eax t asked
  exact (sound.holds.eax given known).into into

theorem Sound.forget (sound : Sound Γ registers goals returns c g σ) :
    Sound Γ registers goals returns c g { σ with flags := none } :=
  ⟨sound.deep, ⟨sound.holds.eax, sound.holds.ebx, (by rintro ⟨⟩)⟩, sound.memory, sound.calls⟩

theorem Operands.into {given wanted : List Ty} {stack : List (Option Value)}
    (operands : Operands Γ given stack) (into : List.Forall₂ Ty.Into given wanted) :
    Operands Γ wanted stack := by
  induction into generalizing stack with
  | nil => exact operands
  | cons first _ ih =>
    cases operands with
    | cons value others =>
      obtain ⟨v, rfl, fits⟩ := value
      exact .cons ⟨v, rfl, fits.into first⟩ (ih others)

-- What the callee relies on is ready where it is called.
theorem Lineage.Knows.enter {s : Symbol} {chain called : Chain} {lineage links : Lineage}
    {before ready : Ready} (knows : lineage.Knows ready) (suffix : links <:+ lineage)
    (fewer : before ⊆ ready) (bound : ∀ v ∈ before, v.depth ≤ s.depth)
    (inside : s.depth ≤ chain.length) (deeper : called.length = (chain.outer s.depth).length + 1) :
    Lineage.Knows (⟨called, none, []⟩ :: links) before := by
  intro v sure x member depth
  rcases List.mem_cons.mp member with rfl | linked
  · have low := bound v sure
    rw [Chain.length_outer inside] at deeper
    have same : called.length = v.depth := depth
    omega
  · exact knows v (fewer sure) x (suffix.subset linked) depth

-- A call: the caller waits, the callee finds its arguments and is linked to the bodies around it.
theorem Sound.enter {s : Symbol} {given stack : List Ty} {rest : List Instruction}
    (sound : Sound Γ registers goals returns c g σ) (inside : σ.inside = true)
    (inner : s.depth ≠ 0) (function : s.isFunction = true)
    (fits : s.Fits Γ.outline σ.chain σ.ready) (arguments : σ.stack = given ++ stack)
    (into : List.Forall₂ Ty.Into given s.params.reverse)
    (part : rest <:+ (goals returns.length).segment)
    (later : Check Γ (goals returns.length).final ({ σ with stack }.holding s.returnType) rest) :
    ∃ f, Γ.outline.functions s.label = some f ∧
      Sound Γ registers goals ((rest ++ (goals returns.length).tail) :: returns) c
        ⟨Trail.enter f g.lineages, c.stack.drop f.params.length :: g.bases, g.compared⟩
        { f.start with } := by
  rw [Symbol.Fits, if_neg inner, if_pos function] at fits
  obtain ⟨inScope, body, f, before, known, enclosing, returnType, fewer, bound⟩ := fits
  refine ⟨_, known, ?_⟩
  obtain ⟨lineage, waiting, outer, own, below, same, based, whole, running⟩ := sound.calls
  have memory := same ▸ sound.memory
  have operands := running.operands
  rw [arguments] at operands
  obtain ⟨taken, kept, rfl, first, second⟩ := operands.split
  have count : s.params.length = taken.length := by
    rw [← first.length_eq, into.length_eq, List.length_reverse]
  have dropped : c.stack.drop s.params.length = kept ++ below := by
    rw [whole, count, List.append_assoc, List.drop_left]
  obtain ⟨linked, suffix⟩ := running.of.dropWhile (σ.chain.outer_suffix s.depth)
  cases lineage with
  | nil =>
    have empty := running.of.length_eq
    rw [List.length_nil] at empty
    omega
  | cons x parents =>
    rw [same]
    refine ⟨by simp [Signature.start], ⟨(by rintro _ ⟨⟩), (by rintro _ ⟨⟩), (by rintro ⟨⟩)⟩, ?_, ?_⟩
    · refine ⟨memory.linked.enter running.of (running.framed inside).layout suffix rfl, ?_,
        memory.size, memory.host, memory.cells⟩
      exact (FramesOf.cons_bare rfl).mpr memory.frames
    · refine ⟨_, (x :: parents) :: waiting, below :: outer, taken, kept ++ below, rfl, ?_, ?_,
        ⟨rfl, linked⟩, by simp [Signature.start], ?_,
        running.knows.enter suffix fewer bound inScope rfl, first.into into, ?_⟩
      · rw [dropped, based]
      · rw [whole, List.append_assoc]
      · rintro _ _ ⟨rfl⟩
        rfl
      · have waitsFor : Chain.function? (body :: σ.chain.outer s.depth) = some f := enclosing
        change Waits Γ goals (Chain.function? (body :: σ.chain.outer s.depth)) _ _ _ _
        rw [waitsFor]
        exact .call (σ := { σ with stack }) inside (sound.deep inside) part
          (by rw [returnType]; exact later) running.of (running.framed inside) running.knows second
          running.waits

-- A return: the call that waited goes on with a value of the type it waits for.
theorem Sound.leave {f : Enclosing} {t : Ty} (sound : Sound Γ registers goals returns c g σ)
    (outside : σ.inside = false) (function : σ.chain.function? = some f) (empty : σ.stack = [])
    (given : σ.eax = some t) (into : t.Into f.returnType) :
    ∃ σ' s others, returns = (s ++ (goals others.length).tail) :: others ∧
      s <:+ (goals others.length).segment ∧ Check Γ (goals others.length).final σ' s ∧
      Sound Γ registers goals others c ⟨g.lineages.tail, g.bases.tail, g.compared⟩ σ' := by
  obtain ⟨lineage, waiting, outer, own, below, same, based, whole, running⟩ := sound.calls
  have memory := same ▸ sound.memory
  have operands := running.operands
  have waits := running.waits
  rw [empty] at operands
  cases operands
  rw [function] at waits
  cases waits with
  | @call σ' _ s others lineage' lineages bases own below inside deep part later of' framed knows
      operands rest =>
    refine ⟨σ'.holding f.returnType, s, others, rfl, part, later, fun _ => deep,
      ⟨?_, (by rintro _ ⟨⟩), (by rintro ⟨⟩)⟩, ?_, ?_⟩
    · rintro _ ⟨rfl⟩
      exact (sound.holds.eax t given).into into
    · rw [same]
      refine ⟨memory.linked.2, ?_, memory.size, memory.host, memory.cells⟩
      cases lineage with
      | nil => exact memory.frames
      | cons x parents => exact (FramesOf.cons_bare (running.bare outside x rfl)).mp memory.frames
    · rw [same, based]
      exact ⟨lineage', lineages, bases, own, below, rfl, rfl, whole, of', fun _ => framed,
        fun none => absurd (inside.symm.trans none) (by simp), knows, operands, rest⟩

end

-- What a move of a checked program can lead to.
inductive Advances (Γ : Plan) (registers : Nat → Bool) (goals : Nat → Goal) (g : Trail) :
    Move World → Prop where
  | next {l : Config World} {made : List HostCall} {σ : Shape} {s : List Instruction}
      (typed : WellTyped Γ registers goals l g σ s) : Advances Γ registers goals g (.next l made)
  | exit {v : Value} {c : Core World} {made : List HostCall}
      (fits : ∀ wanted ∈ Γ.outline.exitType, Γ.Fits v wanted) :
      Advances Γ registers goals g (.stop (.ok v) c made)
  | fault {f : RuntimeFault} {c : Core World} {made : List HostCall} (possible : f.Possible Γ) :
      Advances Γ registers goals g (.stop (.error f) c made)

section

variable {Γ : Plan} {registers : Nat → Bool} {goals : Nat → Goal} {env : Environment World}
  {code : List Instruction} {k : Config World} {g : Trail} {σ : Shape} {i : Instruction}
  {s : List Instruction}

theorem WellTyped.move_eq (typed : WellTyped Γ registers goals k g σ (i :: s)) :
    move env code k = match deed env.externals i k.core with
      | .proceed core made => .next { k with rest := s ++ (goals k.returns.length).tail, core } made
      | .stop outcome core made => .stop outcome core made
      | .branch => k.goto code i.target
      | .enter =>
        if env.maxCallDepth ≤ k.returns.length then
          .stop (.error (.callOverflow k.returns.length)) k.core []
        else { k with returns := (s ++ (goals k.returns.length).tail) :: k.returns }.goto code i.target
      | .leave =>
        match k.returns with
        | [] => .stop (.error .emptyCalls) k.core []
        | back :: returns => .next { k with rest := back, returns } [] := by
  obtain ⟨remaining, returns, core⟩ := k
  have rest : remaining = i :: (s ++ (goals returns.length).tail) := typed.rest
  subst rest
  rfl

theorem WellTyped.behind (typed : WellTyped Γ registers goals k g σ (i :: s)) :
    s <:+ (goals k.returns.length).segment :=
  (List.suffix_cons i s).trans typed.part

-- An instruction after which the next one follows.
theorem WellTyped.advances_of_deed {g' : Trail} {σ' : Shape}
    (typed : WellTyped Γ registers goals k g σ (i :: s))
    (done : Deed.Unless Γ (Sound Γ registers goals k.returns · g' σ') (deed env.externals i k.core))
    (later : Check Γ (goals k.returns.length).final σ' s) :
    Advances Γ registers goals g' (move env code k) := by
  rw [typed.move_eq]
  generalize deed env.externals i k.core = result at done
  cases done with
  | proceed meets => exact .next ⟨rfl, typed.behind, later, meets⟩
  | fault possible => exact .fault possible

theorem WellTyped.advances_of_effect {g' : Trail} {σ' : Shape}
    (typed : WellTyped Γ registers goals k g σ (i :: s))
    (plain : deed env.externals i k.core = match k.core.effect i with
      | .ok after => .proceed after []
      | .error fault => .stop (.error fault) k.core [])
    (done : Unless Γ (Sound Γ registers goals k.returns · g' σ') (k.core.effect i))
    (later : Check Γ (goals k.returns.length).final σ' s) :
    Advances Γ registers goals g' (move env code k) := by
  refine typed.advances_of_deed ?_ later
  rw [plain]
  generalize k.core.effect i = result at done
  cases done with
  | ok meets => exact .proceed meets
  | fault possible => exact .fault possible

-- A jump to a label where no more is relied on than is known.
theorem Advances.goto {l : Config World} {label : Int} {m : Mark}
    (ok : (goals l.returns.length).Ok Γ code) (unique : (labelsOf code).Nodup)
    (member : label ∈ labelsOf (goals l.returns.length).segment)
    (target : Γ.labels label = some m)
    (sound : Sound Γ registers goals l.returns l.core g { m with }) :
    Advances Γ registers goals g (l.goto code label) := by
  unfold Config.goto
  cases found : seek label code with
  | none =>
    refine .fault ?_
    simp [RuntimeFault.Possible, RuntimeFault.code, Code.invalidOperation, Code.typeError]
  | some rest =>
    obtain ⟨s, m', rfl, part, known, later⟩ := ok.seek unique member found
    rw [target] at known
    cases known
    exact .next ⟨rfl, part, later, sound⟩

theorem WellTyped.advances_of_jumpIf {condition : Condition} {label : Int} {m : Mark}
    (typed : WellTyped Γ registers goals k g σ (.branch (.jumpIf condition) label :: s))
    (ok : (goals k.returns.length).Ok Γ code) (unique : (labelsOf code).Nodup)
    (target : Γ.labels label = some m) (meets : σ.Meets m)
    (later : Check Γ (goals k.returns.length).final { σ with flags := none } s) :
    Advances Γ registers goals g (move env code k) := by
  have does : deed env.externals (.branch (.jumpIf condition) label) k.core =
      if condition.holds k.core.flags then .branch else .proceed k.core [] := rfl
  have member := ok.closed _ (typed.part.subset List.mem_cons_self) rfl (by rintro ⟨⟩)
  by_cases taken : condition.holds k.core.flags = true
  · rw [if_pos taken] at does
    rw [typed.move_eq, does]
    exact .goto ok unique member target (typed.sound.meet meets)
  · rw [if_neg taken] at does
    refine typed.advances_of_deed ?_ later
    rw [does]
    exact .proceed typed.sound.forget

theorem WellTyped.advances_of_call {called : Symbol} {given stack : List Ty}
    (typed : WellTyped Γ registers goals k g σ (.call called.label called.name :: s))
    (premises : Premises Γ registers env code) (ok : ∀ n, (goals n).Ok Γ code)
    (whole : (goals (k.returns.length + 1)).Whole code) (inside : σ.inside = true)
    (inner : called.depth ≠ 0) (function : called.isFunction = true)
    (fits : called.Fits Γ.outline σ.chain σ.ready) (arguments : σ.stack = given ++ stack)
    (into : List.Forall₂ Ty.Into given called.params.reverse)
    (later : Check Γ (goals k.returns.length).final ({ σ with stack }.holding called.returnType) s) :
    Advances Γ registers goals
      (g.after Γ.outline.functions (.call called.label called.name) k.core) (move env code k) := by
  obtain ⟨f, known, sound⟩ := typed.sound.enter inside inner function fits arguments into
    typed.behind later
  have trail : g.after Γ.outline.functions (.call called.label called.name) k.core =
      ⟨Trail.enter f g.lineages, k.core.stack.drop f.params.length :: g.bases, g.compared⟩ := by
    have entry : Γ.outline.functions (Instruction.call called.label called.name).target = some f :=
      known
    simp only [Trail.after, Trail.lineagesAfter, Trail.basesAfter, Instruction.call,
      Trail.comparedAfter] at entry ⊢
    rw [entry]
    rfl
  have does : deed env.externals (.call called.label called.name) k.core = .enter := rfl
  rw [typed.move_eq, does, trail]
  simp only
  split
  · refine .fault ?_
    simp [RuntimeFault.Possible, RuntimeFault.code, Code.callOverflow, Code.typeError]
  · generalize entered : Config.mk k.rest _ k.core = l
    have returns : l.returns.length = k.returns.length + 1 := by rw [← entered]; rfl
    by_cases present : called.label ∈ labelsOf code
    · refine .goto (ok _) premises.unique ?_ (premises.coherent.starts _ f known) ?_
      · rw [returns]
        exact whole _ present
      · rw [← entered]
        exact sound
    · have missing := seek_eq_none_iff.mpr present
      have target : (Instruction.call called.label called.name).target = called.label := rfl
      rw [target, Config.goto, missing]
      refine .fault ?_
      simp [RuntimeFault.Possible, RuntimeFault.code, Code.invalidOperation, Code.typeError]

theorem WellTyped.advances_of_ret {f : Enclosing} {t : Ty}
    (typed : WellTyped Γ registers goals k g σ (.plain .ret :: s)) (outside : σ.inside = false)
    (function : σ.chain.function? = some f) (empty : σ.stack = []) (given : σ.eax = some t)
    (into : t.Into f.returnType) :
    Advances Γ registers goals ⟨g.lineages.tail, g.bases.tail, g.compared⟩ (move env code k) := by
  have does : deed env.externals (.plain .ret) k.core = .leave := rfl
  obtain ⟨σ', rest, others, returns, part, later, sound⟩ :=
    typed.sound.leave outside function empty given into
  rw [typed.move_eq, does, returns]
  exact .next ⟨rfl, part, later, sound⟩

-- Every instruction of a checked program leads on.
theorem WellTyped.advances (premises : Premises Γ registers env code)
    (ok : ∀ n, (goals n).Ok Γ code) (whole : (goals (k.returns.length + 1)).Whole code)
    (typed : WellTyped Γ registers goals k g σ (i :: s)) :
    Advances Γ registers goals (g.after Γ.outline.functions i k.core) (move env code k) := by
  have sound := typed.sound
  have closed := (ok k.returns.length).closed i (typed.part.subset List.mem_cons_self)
  cases typed.checked with
  | load inside source later => exact typed.advances_of_effect rfl (sound.load inside source) later
  | store inside plain fits given into later =>
    exact typed.advances_of_effect rfl (sound.store inside plain fits given into) later
  | push given later => exact typed.advances_of_effect rfl (sound.push given) later
  | keep given later => exact typed.advances_of_effect rfl (sound.keep given) later
  | pop given later => exact typed.advances_of_effect rfl (sound.pop given) later
  | binary left right later => exact typed.advances_of_effect rfl (sound.binary left right) later
  | unary given later => exact typed.advances_of_effect rfl (sound.unary given) later
  | compare ordered left right numbers later =>
    exact typed.advances_of_effect rfl (sound.compare left right numbers) later
  | setIf given order later => exact typed.advances_of_effect rfl (sound.setIf _) later
  | test given later => exact typed.advances_of_effect rfl (sound.test given) later
  | allocate inside same depth inner inLayout later =>
    exact typed.advances_of_effect rfl (sound.allocate inside same depth inner inLayout) later
  | receive inside plain fits given into later =>
    exact typed.advances_of_effect rfl (sound.receive inside plain fits given into) later
  | pushScope outside chain deep outer later =>
    exact typed.advances_of_effect rfl (sound.pushScope outside chain deep outer) later
  | popScope inside chain function later =>
    exact typed.advances_of_effect rfl (sound.popScope inside chain function) later
  | hostCall inside outer function fits arguments into later =>
    exact typed.advances_of_deed (sound.hostCall outer function fits arguments into premises.offers
      premises.behaves) later
  | label target meets later => exact typed.advances_of_deed (.proceed (sound.meet meets)) later
  | jumpIf given plain target meets later =>
    exact typed.advances_of_jumpIf (ok _) premises.unique target meets later
  | jump target meets later =>
    rw [typed.move_eq]
    exact .goto (ok _) premises.unique (closed rfl (by rintro ⟨⟩)) target (sound.meet meets)
  | call inside inner function fits arguments into later =>
    exact typed.advances_of_call premises ok whole inside inner function fits arguments into later
  | exitNull empty later =>
    rw [typed.move_eq]
    exact .exit fun wanted _ _ => .inl rfl
  | exit empty given into later =>
    rw [typed.move_eq]
    exact .exit fun wanted asked => (sound.holds.eax _ given).into (into wanted asked)
  | ret outside chain function empty given into later =>
    refine typed.advances_of_ret outside ?_ empty given into
    rw [Chain.function?, chain]
    exact function

end

end ScalarScript
