import ScalarScript.Proofs.Machine.Raised
import ScalarScript.Proofs.Typing.Height
import ScalarScript.Proofs.Typing.Lexical
/-!
Stacks are balanced. Every address has a height; whenever a call comes there, its own operands on
the stack are as many, above what was there when it began. Calls take their arguments and leave
nothing, and frames go to those that made them.
-/
namespace ScalarScript

open Symbolic
open Linked (At Passes Followed)

variable {World Watch : Type}

namespace Link

-- The code from the instruction at an address on.
def onward : List Instruction → Nat → List Instruction
  | [], _ => []
  | i :: rest, n =>
    if i.opcode = .label then onward rest n
    else if n = 0 then i :: rest
    else onward rest (n - 1)

-- What follows some code is labels, up to the instruction at its address.
theorem onward_split (pre rest : List Instruction) :
    ∃ labels, (∀ i ∈ labels, i.opcode = .label) ∧
      rest = labels ++ onward (pre ++ rest) (address pre) := by
  induction pre with
  | nil =>
    induction rest with
    | nil => exact ⟨[], by simp, rfl⟩
    | cons i rest ih =>
      by_cases is : i.opcode = .label
      · obtain ⟨labels, are, split⟩ := ih
        refine ⟨i :: labels, List.forall_mem_cons.mpr ⟨is, are⟩, ?_⟩
        simp only [List.nil_append, address_nil, onward, if_pos is] at split ⊢
        rw [List.cons_append, ← split]
      · exact ⟨[], by simp, by simp [onward, is]⟩
  | cons i pre ih =>
    obtain ⟨labels, are, split⟩ := ih
    refine ⟨labels, are, ?_⟩
    rw [List.cons_append, onward]
    by_cases is : i.opcode = .label
    · rw [if_pos is, address_cons_label is]
      exact split
    · rw [if_neg is, if_neg (by rw [address_cons_other is]; omega), address_cons_other is,
        Nat.add_sub_cancel]
      exact split

theorem head?_onward (code : List Instruction) (address : Int) :
    instructionAt code address = (onward code address.toNat).head? := by
  unfold instructionAt
  generalize address.toNat = n
  induction code generalizing n with
  | nil => rfl
  | cons i rest ih =>
    unfold onward
    by_cases is : i.opcode = .label
    · rw [if_pos is, List.filter_cons_of_neg (by simpa using is)]
      exact ih n
    · rw [if_neg is, List.filter_cons_of_pos (by simpa using is)]
      cases n with
      | zero => rfl
      | succ n =>
        rw [if_neg n.succ_ne_zero, List.getElem?_cons_succ]
        exact ih n

theorem onward_eq {pre rest : List Instruction} (settled : ∀ i ∈ rest.head?, i.opcode ≠ .label) :
    onward (pre ++ rest) (address pre) = rest := by
  obtain ⟨labels, are, split⟩ := onward_split pre rest
  cases labels with
  | nil => exact split.symm
  | cons i labels =>
    have first : rest.head? = some i := by rw [split]; rfl
    exact absurd (are i List.mem_cons_self) (settled i first)

end Link

-- The number of operands that a body has on the stack at an address.
def Plan.heightAt (Γ : Plan) (code : List Instruction) (address : Int) : Nat :=
  Γ.height (strip (Link.onward code address.toNat))

-- Labels in front of checked code do not change its height.
theorem Check.height_labels {Γ : Plan} {υ σ : Shape} {labels rest : List Instruction}
    (checked : Check Γ υ σ (labels ++ rest)) (final : υ.stack = [])
    (are : ∀ i ∈ labels, i.opcode = .label) : Γ.height (labels ++ rest) = Γ.height rest := by
  induction labels generalizing σ with
  | nil => rfl
  | cons i labels ih =>
    have is := are i List.mem_cons_self
    have whole := checked.height final
    rw [List.cons_append] at checked whole ⊢
    cases checked with
    | label target meets later =>
      rw [whole, meets.stack, ← ih later fun j member => are j (List.mem_cons_of_mem _ member)]
      exact (later.height final).symm
    | _ => cases is

-- Where checked code stands, the address has its height.
theorem Plan.heightAt_eq {Γ : Plan} {υ σ : Shape} {code pre rest : List Instruction}
    (split : code = pre ++ rest) (checked : Check Γ υ σ (strip rest)) (final : υ.stack = []) :
    Γ.heightAt code (Link.address pre) = σ.stack.length := by
  obtain ⟨labels, are, behind⟩ := Link.onward_split pre rest
  rw [← split] at behind
  have marks : strip labels = labels := strip_of_labels are
  rw [← checked.height final, heightAt, Int.toNat_natCast]
  rw [behind, strip_append, marks] at checked
  conv_rhs => rw [behind, strip_append, marks]
  exact (checked.height_labels final are).symm

-- A call has its arguments on the stack.
theorem Check.arguments {Γ : Plan} {υ σ : Shape} {i : Instruction} {rest : List Instruction}
    {f : Signature} (checked : Check Γ υ σ (i :: rest)) (opcode : i.opcode = .call)
    (known : Γ.outline.functions i.target = some f) : f.params.length ≤ σ.stack.length := by
  cases checked with
  | @call _ s given stack _ inside inner function fits arguments into later =>
    have params := fits.params_of_script inner function
    change Γ.outline.functions s.label = _ at known
    rw [known, Option.map_some, Option.some.injEq] at params
    rw [params, arguments, List.length_append, into.length_eq, List.length_reverse]
    exact Nat.le_add_right _ _
  | _ => cases opcode

-- A run inside a call.
inductive Within (m : Machine World Watch) (depth : Nat) :
    RunState World Watch → RunState World Watch → Prop where
  | here {s : RunState World Watch} (inner : depth < s.calls.length) : Within m depth s s
  | step {s t u : RunState World Watch} (inner : depth < s.calls.length)
      (stepped : Exec.step m s = .ok none t) (later : Within m depth t u) : Within m depth s u

-- What holds of a state that a run reaches, given the trail up to there.
structure Balanced (m : Machine World Watch) (code : List Instruction)
    (functions : Int → Option Signature) (height : Int → Nat) (s : RunState World Watch)
    (g : Trail) : Prop where
  -- above what was there when the running call began, there are as many operands as the address says
  level : ∃ own base outer, g.bases = base :: outer ∧ s.stack = own ++ base ∧
    own.length = height s.address
  pops : ∀ i, instructionAt code s.address = some i → i.opcode = .pop → 0 < height s.address
  returning : ∀ i, instructionAt code s.address = some i → i.opcode = .ret →
    s.calls ≠ [] ∧ height s.address = 0
  -- a call takes its arguments, and nothing below them changes while it runs
  calls : ∀ t, Exec.step m s = .ok none t → s.calls.length < t.calls.length →
    ∃ i f, instructionAt code s.address = some i ∧ functions i.target = some f ∧
      f.params.length ≤ height s.address ∧
      (∀ u, Within m s.calls.length t u → s.stack.drop f.params.length <:+ u.stack) ∧
      ∀ u, Inside m s.calls.length t u →
        u.stack = s.stack.drop f.params.length ∧ u.calls = s.calls
  -- the frame that goes is the one that the running call made
  frames : ∀ i u, instructionAt code s.address = some i → i.opcode = .popScope →
    Exec.step m s = .ok none u → ∃ x parents rest f fs, g.lineages = (x :: parents) :: rest ∧
      x.frame = some fs.length ∧ s.scopes[x.depth]? = some (f :: fs) ∧
      u.scopes[x.depth]? = some fs
  -- nothing is missing on the stacks, unless a host function takes more than its arguments
  faults : ∀ e u, Exec.step m s = .error e u → e.code = .stackUnderflow →
    ∃ i ext f, instructionAt code s.address = some i ∧ i.opcode = .hostCall ∧
      External.function? m.externals i.target = some (ext, f) ∧
      ext.arity < (f s.world (s.request ext.arity.toNat)).popped

-- What holds of the heights of a program by themselves.
structure Levels (code : List Instruction) (t : Stmt) (height : Int → Nat) : Prop where
  -- both ends of every statement
  statements : ∀ pre mid post p, code = pre ++ mid ++ post → t.Includes p →
    strip mid = p.stmt.code → strip post = p.after ++ [Instruction.unary .exit .null] →
    height (Link.address pre) = 0 ∧ height (Link.address (pre ++ mid)) = 0
  returns : ∀ address i, instructionAt code address = some i → i.opcode = .ret →
    height address = 0

-- Where a host function is blamed, it took more than its arguments.
theorem overPopped_of_hostDeed {externals : Array (External World)} {slot : Int} {c core : Core World}
    {name : String} {arity : Int} {made : List HostCall}
    (done : hostDeed externals slot c = .stop (.error (.overPopped name arity)) core made) :
    ∃ ext f, External.function? externals slot = some (ext, f) ∧
      ext.arity < (f c.world (c.request ext.arity.toNat)).popped := by
  unfold hostDeed at done
  split at done
  · cases done
  · rename_i ext f found
    split at done
    · cases done
    · refine ⟨ext, f, found, ?_⟩
      dsimp only at done
      cases answered : ext.answer (f c.world (c.request ext.arity.toNat)) with
      | error fault =>
        rw [answered] at done
        cases done
        exact overPopped_of_answer answered
      | ok v =>
        rw [answered] at done
        cases checked : ext.checkResult v with
        | ok w => simp [Except.bind, checked] at done
        | error fault =>
          simp only [Except.bind, checked] at done
          cases done
          exact (raises_checkResult ext v _ checked).elim

theorem hostCall_of_overPopped {externals : Array (External World)} {i : Instruction}
    {c core : Core World} {name : String} {arity : Int} {made : List HostCall}
    (done : deed externals i c = .stop (.error (.overPopped name arity)) core made) :
    i.opcode = .hostCall := by
  by_contra plain
  unfold deed at done
  split at done
  · cases done
  · cases done
  · obtain ⟨failed, _⟩ := Deed.stop.inj done
    exact c.raises_resolve i.first _ failed
  · cases done
  · split at done <;> cases done
  · cases done
  · cases done
  · exact plain ‹_›
  · cases effect : c.effect i with
    | ok after => simp [effect] at done
    | error f =>
      simp only [effect] at done
      cases done
      exact c.raises_effect i _ effect

theorem overPopped_of_move {env : Environment World} {code : List Instruction} {k : Config World}
    {name : String} {arity : Int} {core : Core World} {made : List HostCall}
    (stopped : move env code k = .stop (.error (.overPopped name arity)) core made) :
    ∃ i rest ext f, k.rest = i :: rest ∧ i.opcode = .hostCall ∧
      External.function? env.externals i.target = some (ext, f) ∧
      ext.arity < (f k.core.world (k.core.request ext.arity.toNat)).popped := by
  obtain ⟨i, rest, remains, done⟩ := deed_of_move (by rintro ⟨⟩) stopped
  have opcode := hostCall_of_overPopped done
  simp only [deed, opcode] at done
  obtain ⟨ext, f, found, more⟩ := overPopped_of_hostDeed done
  exact ⟨i, rest, ext, f, remains, opcode, found, more⟩

theorem ret_of_move {env : Environment World} {code rest : List Instruction} {k n : Config World}
    {i : Instruction} {made : List HostCall} (first : k.rest = i :: rest)
    (moved : move env code k = .next n made) (opcode : i.opcode = .ret) : n.core = k.core := by
  cases leads_of_move first moved with
  | proceed done => simp [deed, opcode] at done
  | branch done => rfl
  | enter done => rfl
  | leave done => rfl

theorem popScope_of_move {env : Environment World} {rest whole : List Instruction}
    {k n : Config World} {depth : Int} {made : List HostCall}
    (first : k.rest = .popScope depth :: rest) (moved : move env whole k = .next n made) :
    k.core.popScope depth = .ok n.core := by
  cases leads_of_move first moved with
  | @proceed core _ done =>
    simp only [deed, Instruction.popScope, Core.effect] at done
    cases popped : k.core.popScope depth with
    | error f => simp [popped] at done
    | ok d =>
      simp only [popped, Deed.proceed.injEq] at done
      rw [done.1]
  | branch done =>
    rcases deed_eq_branch done with opcode | ⟨_, opcode, _⟩ <;> cases opcode
  | enter done => cases deed_eq_enter done
  | leave done => cases deed_eq_leave done

theorem Core.below_of_popScope {c d : Core World} {depth : Nat} {f : ScopeFrame}
    {fs : List ScopeFrame} (done : c.popScope depth = .ok d)
    (top : c.scopes[depth]? = some (f :: fs)) : d.scopes[depth]? = some fs := by
  obtain ⟨_, _, rfl⟩ := popScope_eq_ok done
  simp only [Int.toNat_natCast, Array.getElem?_modify, if_true, top, Option.map_some, List.tail_cons]

-- Of the faults for what is missing on the stacks, only that of a host function is possible.
theorem RuntimeFault.Possible.overPopped {Γ : Plan} {f : RuntimeFault} (possible : f.Possible Γ)
    (underflow : f.code = .stackUnderflow) : ∃ name arity, f = .overPopped name arity := by
  cases f with
  | overPopped name arity => exact ⟨name, arity, rfl⟩
  | value f =>
    cases kind : f.kind <;> simp only [code, kind] at underflow <;>
      exact absurd underflow (by decide)
  | emptyStack | emptyCalls | noFrame depth | missingArguments name arity => exact possible.elim
  | _ => exact absurd underflow (by simp only [code]; decide)

theorem RuntimeFault.Imposed.code_ne {f : RuntimeFault} (imposed : f.Imposed) :
    f.code ≠ .stackUnderflow := by
  cases f with
  | instructionLimit _ | cancelled | halted | internal _ => simp only [code]; decide
  | _ => exact imposed.elim

-- A step makes a call, ends one, or leaves the calls as they are.
theorem Exec.step_calls {m : Machine World Watch} {s t : RunState World Watch} (fair : Fair m)
    (inside : 0 ≤ s.address) (stepped : Exec.step m s = .ok none t) :
    t.calls = s.calls ∨ (∃ a, t.calls = a :: s.calls) ∨ ∃ a, s.calls = a :: t.calls := by
  rcases Exec.step_turn fair inside with ⟨_, ended⟩ | ⟨i, _, turn⟩
  · rw [stepped] at ended
    cases ended
  · rw [stepped] at turn
    cases turn with
    | proceed done onward => exact .inl onward.calls
    | branch done onward => exact .inl onward.calls
    | enter done room onward => exact .inr (.inl ⟨_, onward.calls⟩)
    | leave done top onward => exact .inr (.inr ⟨_, by rw [top, onward.calls]⟩)

section

variable {Γ : Plan} {goals : Nat → Goal}

-- What was on the stack when a call began is still there.
theorem Waits.suffix {f : Option Enclosing} {returns : List (List Instruction)}
    {lineages : List Lineage} {bases : List (List (Option Value))} {stack : List (Option Value)}
    (waits : Waits Γ goals f returns lineages bases stack) : ∀ base ∈ bases, base <:+ stack := by
  induction waits with
  | program => simp
  | call _ _ _ _ _ _ _ _ _ ih =>
    intro base member
    rcases List.mem_cons.mp member with rfl | outer
    · exact List.suffix_append _ _
    · exact (ih base outer).trans (List.suffix_append _ _)

end

section

variable {m : Machine World Watch} {code : List Instruction} {t : Stmt} {hosts : List Declaration}
  {exitType : Option Ty} {depths : Nat} {registers : Nat → Bool} {trusted : Prop}
  {first s u : RunState World Watch} {g : Trail}

theorem Situated.suffix (situated : Situated code t hosts exitType depths registers trusted s g) :
    ∀ base ∈ g.bases, base <:+ s.stack := by
  obtain ⟨k, here, shaped⟩ := situated
  rw [show s.stack = k.core.stack from congrArg Core.stack here.core]
  rcases shaped with fresh | ⟨σ, part, typed⟩
  · rw [fresh.trail]
    intro base member
    rw [List.mem_singleton.mp member]
    exact List.nil_suffix
  · obtain ⟨lineage, waiting, outer, own, below, _, based, stack, running⟩ := typed.sound.calls
    rw [based, stack]
    intro base member
    rcases List.mem_cons.mp member with rfl | later
    · exact List.suffix_append _ _
    · exact (running.waits.suffix base later).trans (List.suffix_append _ _)

theorem Hosted.checked (hosted : Hosted m code t hosts exitType depths registers trusted) :
    Check (t.plan hosts exitType depths trusted) t.start t.start t.main :=
  Stmt.plan_check hosted.plain hosted.deep hosted.unique hosted.ok

theorem WellTyped.heightAt {k : Config World} {σ : Shape} {part : List Instruction}
    (typed : WellTyped (t.plan hosts exitType depths trusted) registers (fun _ => t.goal) k g σ part)
    (here : At code s k) :
    (t.plan hosts exitType depths trusted).heightAt code s.address = σ.stack.length := by
  obtain ⟨pre, rest, split, place, remains⟩ := here.position
  have whole : strip rest = part := by
    rw [← remains, typed.rest]
    exact List.append_nil part
  rw [place]
  exact Plan.heightAt_eq split (whole.symm ▸ typed.checked) rfl

-- The operands of the running call are as many as the address says.
theorem Situated.level (hosted : Hosted m code t hosts exitType depths registers trusted)
    (situated : Situated code t hosts exitType depths registers trusted s g) :
    ∃ own base outer, g.bases = base :: outer ∧ s.stack = own ++ base ∧
      own.length = (t.plan hosts exitType depths trusted).heightAt code s.address := by
  obtain ⟨k, here, shaped⟩ := situated
  rw [show s.stack = k.core.stack from congrArg Core.stack here.core]
  rcases shaped with fresh | ⟨σ, part, typed⟩
  · obtain ⟨l, pre, rest, path, there, split, place, remains, notLabel⟩ := here.settle
    rw [fresh.settled path, fresh.rest] at remains
    refine ⟨[], [], [], by rw [fresh.trail]; rfl, fresh.stack, ?_⟩
    rw [Plan.heightAt, place, Int.toNat_natCast, split, Link.onward_eq notLabel, ← remains]
    exact (hosted.checked.height rfl).symm
  · obtain ⟨lineage, waiting, outer, own, below, _, based, stack, running⟩ := typed.sound.calls
    refine ⟨own, below, outer, based, stack, ?_⟩
    rw [typed.heightAt here]
    exact running.operands.length_eq.symm

theorem Situated.inside (situated : Situated code t hosts exitType depths registers trusted s g) :
    0 ≤ s.address := by
  obtain ⟨k, here, _⟩ := situated
  obtain ⟨pre, _, _, place, _⟩ := here.position
  omega

-- As long as a call runs, its base and those of the calls that wait stay as they are.
theorem Traced.within {depth : Nat} {own bases : List (List (Option Value))}
    (hosted : Hosted m code t hosts exitType depths registers trusted)
    (start : Situated code t hosts exitType depths registers trusted first t.trail)
    (traced : Traced m (t.outline hosts exitType depths).functions code first t.trail s g)
    (within : Within m depth s u) (based : g.bases = own ++ bases)
    (count : bases.length ≤ depth + 2) :
    ∃ h own', Traced m (t.outline hosts exitType depths).functions code first t.trail u h ∧
      h.bases = own' ++ bases := by
  induction within generalizing g own with
  | here inner => exact ⟨g, own, traced, based⟩
  | @step s v u inner stepped later ih =>
    have next := traced.step stepped
    have deeper : depth < v.calls.length := by
      cases later with
      | here inner => exact inner
      | step inner _ _ => exact inner
    have after := (next.situated hosted start).counts.2.1
    have above : ∃ own', (g.next (t.outline hosts exitType depths).functions code s).bases =
        own' ++ bases := by
      rcases Trail.moved_next (t.outline hosts exitType depths).functions code s g with
        ⟨i, _, moved⟩ | unmoved
      · cases moved with
        | call _ _ _ entered => exact ⟨_ :: own, by rw [entered, based, List.cons_append]⟩
        | within _ _ same => exact ⟨own, same.trans based⟩
        | ret _ _ left =>
          rw [left, based] at after ⊢
          cases own with
          | nil =>
            rw [List.nil_append, List.length_tail] at after
            omega
          | cons _ own => exact ⟨own, rfl⟩
      · exact ⟨own, by rw [unmoved, based]⟩
    obtain ⟨own', based'⟩ := above
    exact ih next based'

-- Calls that wait do not change.
theorem Inside.calls_eq {depth : Nat} {below : List Activation}
    (hosted : Hosted m code t hosts exitType depths registers trusted)
    (situated : Situated code t hosts exitType depths registers trusted s g)
    (inside : Inside m depth s u) (count : below.length = depth) (waits : below <:+ s.calls) :
    u.calls = below := by
  induction inside generalizing g with
  | back same => exact (waits.eq_of_length (count.trans same.symm)).symm
  | @step s v u inner stepped later ih =>
    have next := situated.step hosted
    rw [stepped] at next
    obtain ⟨there, _⟩ := next
    refine ih there ?_
    rcases Exec.step_calls hosted.runs.fair situated.inside stepped with same | ⟨a, more⟩ | ⟨a, fewer⟩
    · rw [same]
      exact waits
    · rw [more]
      exact waits.trans (List.suffix_cons _ _)
    · rw [fewer] at waits inner
      rcases List.suffix_cons_iff.mp waits with whole | rest
      · rw [← whole] at inner
        omega
      · exact rest

-- A body that returns has nothing on the stack, and its call ends.
theorem Situated.returning {i : Instruction}
    (situated : Situated code t hosts exitType depths registers trusted s g)
    (executed : instructionAt code s.address = some i) (opcode : i.opcode = .ret) :
    s.calls ≠ [] ∧ (t.plan hosts exitType depths trusted).heightAt code s.address = 0 := by
  rcases situated.instruction executed (by simp [opcode]) with rfl | ⟨k, σ, rest, here, typed⟩
  · cases opcode
  rw [typed.heightAt here]
  obtain ⟨lineage, waiting, _, _, _, _, _, _, running⟩ := typed.sound.calls
  have depth := here.calls.length_eq
  cases typed.checked with
  | ret outside chain function empty given into later =>
    refine ⟨?_, by rw [empty]; rfl⟩
    intro none
    have waits := running.waits
    rw [none] at depth
    rw [List.length_eq_zero_iff.mp depth.symm, Chain.function?, chain, Option.bind_some, function]
      at waits
    cases waits
  | _ => cases opcode

theorem Situated.core_of_ret {i : Instruction}
    (hosted : Hosted m code t hosts exitType depths registers trusted)
    (situated : Situated code t hosts exitType depths registers trusted s g)
    (executed : instructionAt code s.address = some i) (opcode : i.opcode = .ret)
    (stepped : Exec.step m s = .ok none u) : u.toCore = s.toCore := by
  rcases situated.instruction executed (by simp [opcode]) with rfl | ⟨k, σ, rest, here, typed⟩
  · cases opcode
  have first := typed.rest.trans List.cons_append
  obtain ⟨n, moved, there⟩ := Linked.step_moved hosted.runs here first executed
    (by rw [opcode]; rfl) stepped
  rw [there.core, here.core, ret_of_move first moved opcode]

theorem Situated.calls (hosted : Hosted m code t hosts exitType depths registers trusted)
    (start : Situated code t hosts exitType depths registers trusted first t.trail)
    (traced : Traced m (t.outline hosts exitType depths).functions code first t.trail s g)
    {v : RunState World Watch} (stepped : Exec.step m s = .ok none v)
    (deeper : s.calls.length < v.calls.length) :
    ∃ i f, instructionAt code s.address = some i ∧
      (t.outline hosts exitType depths).functions i.target = some f ∧
      f.params.length ≤ (t.plan hosts exitType depths trusted).heightAt code s.address ∧
      (∀ u, Within m s.calls.length v u → s.stack.drop f.params.length <:+ u.stack) ∧
      ∀ u, Inside m s.calls.length v u →
        u.stack = s.stack.drop f.params.length ∧ u.calls = s.calls := by
  have situated := traced.situated hosted start
  obtain ⟨i, f, lineage, calling, call, known, lineages, bases⟩ :=
    situated.entered hosted stepped deeper
  obtain ⟨lineageCount, baseCount, _⟩ := situated.counts
  have next := traced.step stepped
  refine ⟨i, f, calling, known, ?_, ?_, ?_⟩
  · rcases situated.instruction calling (by simp [call]) with rfl | ⟨k, σ, rest, here, typed⟩
    · cases call
    · rw [typed.heightAt here]
      exact typed.checked.arguments call known
  · intro u within
    obtain ⟨h, own, there, based⟩ := next.within hosted start within
      (show _ = [] ++ _ from bases) (by rw [List.length_cons, baseCount])
    refine (there.situated hosted start).suffix _ ?_
    rw [based]
    exact List.mem_append_right _ List.mem_cons_self
  · intro u inside
    obtain ⟨w, h, j, before, executed, opcode, returned, _, based⟩ :=
      next.inside hosted start inside deeper (show _ = [lineage] ++ g.lineages from lineages)
        lineageCount (show _ = [] ++ _ from bases) (by rw [List.length_cons, baseCount])
    have within := before.situated hosted start
    obtain ⟨own, base, outer, same, stack, level⟩ := within.level hosted
    rw [based] at same
    obtain ⟨rfl, -⟩ := List.cons.inj same
    rw [(within.returning executed opcode).2, List.length_eq_zero_iff] at level
    refine ⟨?_, inside.calls_eq hosted (next.situated hosted start) rfl ?_⟩
    · rw [within.core_of_ret hosted executed opcode returned, stack, level, List.nil_append]
    · rcases Exec.step_calls hosted.runs.fair situated.inside stepped with same | ⟨a, more⟩ | ⟨a, fewer⟩
      · rw [same] at deeper
        omega
      · rw [more]
        exact List.suffix_cons _ _
      · rw [fewer, List.length_cons] at deeper
        omega

theorem Situated.pops {i : Instruction}
    (situated : Situated code t hosts exitType depths registers trusted s g)
    (executed : instructionAt code s.address = some i) (opcode : i.opcode = .pop) :
    0 < (t.plan hosts exitType depths trusted).heightAt code s.address := by
  rcases situated.instruction executed (by simp [opcode]) with rfl | ⟨k, σ, rest, here, typed⟩
  · cases opcode
  rw [typed.heightAt here]
  cases typed.checked with
  | pop given later | receive inside plain fits given into later =>
    rw [given]
    exact Nat.succ_pos _
  | _ => cases opcode

-- The frame that goes is the top one of its depth, at the height at which the running call made it.
theorem Situated.frames {i : Instruction}
    (hosted : Hosted m code t hosts exitType depths registers trusted)
    (situated : Situated code t hosts exitType depths registers trusted s g)
    (executed : instructionAt code s.address = some i) (opcode : i.opcode = .popScope)
    (stepped : Exec.step m s = .ok none u) :
    ∃ x parents rest f fs, g.lineages = (x :: parents) :: rest ∧ x.frame = some fs.length ∧
      s.scopes[x.depth]? = some (f :: fs) ∧ u.scopes[x.depth]? = some fs := by
  rcases situated.instruction executed (by simp [opcode]) with rfl | ⟨k, σ, rest, here, typed⟩
  · cases opcode
  have first := typed.rest.trans List.cons_append
  obtain ⟨n, moved, there⟩ := Linked.step_moved hosted.runs here first executed
    (by rw [opcode]; rfl) stepped
  obtain ⟨lineage, waiting, _, _, _, same, _, _, running⟩ := typed.sound.calls
  have of := running.of
  have memory := typed.sound.memory
  rw [same] at memory
  cases typed.checked with
  | @popScope _ body f _ inside chain function later =>
    have deep := typed.sound.deep inside
    have framed := running.framed inside
    cases lineage with
    | nil =>
      obtain ⟨parents, chained⟩ := List.head?_eq_some_iff.mp chain
      exact (chained ▸ of : Lineage.Of (body :: parents) []).elim
    | cons x parents =>
      have depth : x.depth = σ.chain.length := of.depth_head
      have own : x.chain = σ.chain := by
        obtain ⟨outer, chained⟩ := List.head?_eq_some_iff.mp chain
        rw [chained] at of ⊢
        exact of.1
      have has : x.frame.isSome = true :=
        framed x rfl body (by rw [own]; exact chain) (.inl (by rw [function]; rfl))
      have some := (atDepth_cons x.depth x parents waiting).trans (if_pos ⟨rfl, has⟩)
      have inner : 1 ≤ x.depth := by
        rw [depth]
        cases chained : σ.chain with
        | nil => simp [chained] at chain
        | cons body outer => simp
      obtain ⟨frame, fs, top, height, _⟩ := memory.frames.top inner
        (by rw [memory.size, depth]; exact Nat.lt_succ_of_le deep) (by rw [some]; rfl)
      have popped := popScope_of_move first moved
      refine ⟨x, parents, waiting, frame, fs, same, height, by rw [here.core]; exact top, ?_⟩
      rw [there.core, depth]
      rw [depth] at top
      exact Core.below_of_popScope popped top
  | _ => cases opcode

theorem Situated.underflow {e : RuntimeError}
    (hosted : Hosted m code t hosts exitType depths registers trusted)
    (situated : Situated code t hosts exitType depths registers trusted s g)
    (failed : Exec.step m s = .error e u) (underflow : e.code = .stackUnderflow) :
    ∃ i ext f, instructionAt code s.address = some i ∧ i.opcode = .hostCall ∧
      External.function? m.externals i.target = some (ext, f) ∧
      ext.arity < (f s.world (s.request ext.arity.toNat)).popped := by
  obtain ⟨k, here, shaped⟩ := situated
  have followed := Linked.step_followed hosted.runs here
  rw [failed] at followed
  cases followed with
  | imposed disturbed cause => exact absurd underflow cause.code_ne
  | @fault f _ w l path stopped i executed first =>
    have possible : f.Possible (t.plan hosts exitType depths trusted) := by
      rcases Situated.advances hosted here shaped path with ⟨_, ended⟩ | ⟨j, _, advances⟩
      · rw [ended] at stopped
        cases stopped
      · rw [stopped] at advances
        cases advances with
        | fault possible => exact possible
    obtain ⟨name, arity, rfl⟩ := possible.overPopped underflow
    obtain ⟨j, rest, ext, function, remains, opcode, found, more⟩ := overPopped_of_move stopped
    rw [remains] at first
    cases first
    have core : s.toCore = l.core := by rw [path.core_eq, here.core]
    exact ⟨i, ext, function, executed, opcode, found, core ▸ more⟩

theorem Situated.balanced
    (hosted : Hosted m code t hosts exitType depths registers trusted)
    (start : Situated code t hosts exitType depths registers trusted first t.trail)
    (traced : Traced m (t.outline hosts exitType depths).functions code first t.trail s g) :
    Balanced m code (t.outline hosts exitType depths).functions
      ((t.plan hosts exitType depths trusted).heightAt code) s g := by
  have situated := traced.situated hosted start
  refine ⟨situated.level hosted, fun i => situated.pops, fun i => situated.returning, ?_, ?_, ?_⟩
  · intro v stepped deeper
    exact Situated.calls hosted start traced stepped deeper
  · intro i u executed opcode stepped
    exact situated.frames hosted executed opcode stepped
  · intro e u failed underflow
    exact situated.underflow hosted failed underflow

theorem Hosted.levels (hosted : Hosted m code t hosts exitType depths registers trusted) :
    Levels code t ((t.plan hosts exitType depths trusted).heightAt code) := by
  refine ⟨?_, ?_⟩
  · intro pre mid post p split includes inner after
    have known : t.Known (t.plan hosts exitType depths trusted) := by
      refine ⟨[t.frame], [], [], hosted.ok, ?_, ?_, fun _ => by simp [Leaves]⟩
      · intro q member
        exact lookup_of_mem (t.map_fst_marks [t.frame] [] ▸ hosted.unique) member
      · rintro _ ⟨rfl⟩ _ ⟨⟩
    have coherent : (t.plan hosts exitType depths trusted).Coherent :=
      Stmt.plan_coherent hosted.plain hosted.unique
    have exit : (t.plan hosts exitType depths trusted).height [.unary .exit .null] = 0 := rfl
    obtain ⟨first, last⟩ := includes.height known coherent.plain exit
    have whole : strip pre ++ (p.stmt.code ++ strip post) = .scopeDepth (depths + 1) :: t.main := by
      rw [← hosted.split, split, strip_append, strip_append, inner, List.append_assoc]
    -- The number of depths stands before every statement.
    obtain ⟨x, front⟩ : ∃ x, strip pre = .scopeDepth (depths + 1) :: x := by
      cases front : strip pre with
      | cons i x =>
        rw [front, List.cons_append] at whole
        exact ⟨x, by rw [(List.cons.inj whole).1]⟩
      | nil =>
        have length := congrArg List.length whole
        have total := congrArg List.length includes.code_eq
        rw [front, after] at length
        simp only [Portion.code, Stmt.main, List.length_append, List.length_cons,
          List.length_nil] at length total
        omega
    have main : t.main = x ++ (p.stmt.code ++ strip post) := by
      rw [front, List.cons_append] at whole
      exact (List.cons.inj whole).2.symm
    obtain ⟨σ, _, here⟩ := (main ▸ hosted.checked).split
    obtain ⟨τ, _, behind⟩ := here.split
    rw [after] at here behind
    refine ⟨?_, ?_⟩
    · have rest : Check (t.plan hosts exitType depths trusted) t.start σ (strip (mid ++ post)) := by
        rw [strip_append, inner, after]
        exact here
      rw [Plan.heightAt_eq (by rw [split, List.append_assoc]) rest rfl]
      exact (here.height rfl).symm.trans first
    · rw [Plan.heightAt_eq split (by rw [after]; exact behind) rfl]
      exact (behind.height rfl).symm.trans last
  · intro address i executed opcode
    obtain ⟨rest, onward⟩ := List.head?_eq_some_iff.mp (Link.head?_onward code address ▸ executed)
    rw [Plan.heightAt, onward, strip_cons_other (by simp [opcode]), Plan.height, opcode]

end

-- The stacks of an accepted source are balanced, in every state that a run reaches.
theorem Accepted.operands_balanced {bindings : List (Binding World)} {source exitName : String}
    {bound : Bound World} {exitType : Option Ty} {p : Program} {m : Machine World Watch}
    (accepted : Accepted bindings source exitName bound exitType p) (loads : m.Loads bound p) :
    ∃ tokens t depths, tokenize source = .ok tokens ∧
      Compiled tokens bound.declarations exitType p t depths ∧
      ∃ height : Int → Nat, Levels p.code.toList t height ∧
        ∀ first : RunState World Watch, bound.Starts first →
          (∀ s, Reaches m first s → ∃ g,
            Traced m (t.outline bound.declarations exitType depths).functions p.code.toList first
              t.trail s g) ∧
          ∀ s g, Traced m (t.outline bound.declarations exitType depths).functions p.code.toList
              first t.trail s g →
            Balanced m p.code.toList (t.outline bound.declarations exitType depths).functions height
              s g := by
  obtain ⟨tokens, t, depths, read, compiled⟩ := accepted.tree
  have hosted := accepted.hosted compiled loads fun trust : False => trust.elim
  refine ⟨tokens, t, depths, read, compiled, _, hosted.levels, ?_⟩
  intro first starts
  have start := accepted.situated hosted starts
  exact ⟨fun s reached => Traced.start.of_reaches reached,
    fun s g traced => Situated.balanced hosted start traced⟩

theorem Sample.balances :
    (Sample.after 11).calls.length = 1 ∧ (Sample.after 11).stack.length = 1 ∧
      ∃ (t : Stmt) (height : Int → Nat) (g : Trail),
        Levels Sample.program.code.toList t height ∧ ∃ functions,
          Balanced Sample.machine Sample.program.code.toList functions height (Sample.after 11)
            g := by
  obtain ⟨_, t, _, _, _, height, levels, runs⟩ :=
    Accepted.operands_balanced Sample.accepted Sample.loads
  obtain ⟨g, traced⟩ := (runs Sample.first Sample.starts).1 _ (Sample.reaches_after 11)
  obtain ⟨_, _, called, pending⟩ := Sample.within_call
  exact ⟨called, pending, t, height, g, levels, _,
    (runs Sample.first Sample.starts).2 _ _ traced⟩

end ScalarScript
