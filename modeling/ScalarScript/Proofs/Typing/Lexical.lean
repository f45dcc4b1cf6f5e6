import ScalarScript.Proofs.Typing.Nesting
/-!
Variables are found where they were declared. The machine takes the top frame of a depth, without
links between calls; in every state that a run of an accepted source reaches, that frame is the one
that the links of the running call lead to.
-/
namespace ScalarScript

open Symbolic
open Linked (At Passes)

variable {World Watch : Type}

-- The frame of an instance is the top one of its depth, and has a slot for each of its variables.
def OnTop (s : RunState World Watch) (x : Instance) : Prop :=
  ∃ f fs, s.scopes[x.depth]? = some (f :: fs) ∧ x.frame = some fs.length ∧ f.size = x.layout.length

-- A variable is found in the frame of an instance of the body that declares it, or at the host.
inductive FoundIn (s : RunState World Watch) (lineage : Lineage) (o : Slot) : Prop where
  | script {x : Instance} {i : Nat} {l : Local} {slot : FrameSlot} (member : x ∈ lineage)
      (top : OnTop s x) (declares : x.layout[i]? = some l) (named : o.name = l.name)
      (typed : o.type = l.type.ty) (found : s.slotOf o = .ok (x.depth, i, slot))
  | host {i : Nat} (outer : o.depth = 0) (found : s.slotOf o = .ok (0, i, .shared))

-- What holds of a state that a run reaches, given the trail up to there.
structure LexicallyAddressed (m : Machine World Watch) (code : List Instruction)
    (functions : Int → Option Signature) (first : RunState World Watch) (start : Trail)
    (s : RunState World Watch) (g : Trail) : Prop where
  -- there is a lineage for every call that has not ended, through the bodies around the function
  calls : g.lineages.length = s.calls.length + 1
  chains : ∀ lineage ∈ g.lineages, ∃ chain, Lineage.Of chain lineage
  -- frames belong to these calls and to nothing else
  frames : FramesOf g.lineages s.scopes
  -- between making its frame and dropping it, a call sees the frames that its links lead to
  view : ∀ x parents rest, g.lineages = (x :: parents) :: rest → x.frame.isSome = true →
    ∀ y ∈ x :: parents, y.layout ≠ [] → OnTop s y
  operands : ∀ i o, instructionAt code s.address = some i → i.opcode ≠ .debugLine →
    i.first = .slot o ∨ i.second = .slot o →
    ∃ lineage rest, g.lineages = lineage :: rest ∧ FoundIn s lineage o
  -- a call gets a frame of its own, all of it empty
  fresh : ∀ i u, instructionAt code s.address = some i → i.opcode = .pushScope →
    Exec.step m s = .ok none u → ∃ x parents rest old, g.lineages = (x :: parents) :: rest ∧
      s.scopes[x.depth]? = some old ∧
      u.scopes[x.depth]? = some (Array.replicate x.layout.length .empty :: old)
  -- a return brings back what the caller saw before
  restored : ∀ t u, Exec.step m s = .ok none t → s.calls.length < t.calls.length →
    Inside m s.calls.length t u → ∃ h, Traced m functions code first start u h ∧
      h.lineages = g.lineages ∧
      ∀ depth : Nat, u.scopes[depth]?.map List.length = s.scopes[depth]?.map List.length
  faults : ∀ e u, Exec.step m s = .error e u →
    ∃ (w : RunState World Watch) (f : RuntimeFault), e = w.error f ∧
      ∀ depth o, f ≠ .operandDepth depth o ∧ f ≠ .scopeDepth depth ∧ f ≠ .noSlot o

theorem Stacked.length_eq {xs : List Instance} {fs : List ScopeFrame} (stacked : Stacked xs fs) :
    fs.length = xs.length := by
  induction stacked with
  | nil => rfl
  | cons _ _ _ ih => rw [List.length_cons, List.length_cons, ih]

theorem Instance.depth_pos (x : Instance) (held : x.layout ≠ []) : 1 ≤ x.depth := by
  unfold layout at held
  unfold depth
  cases chained : x.chain with
  | nil => simp [chained] at held
  | cons body parents => simp

theorem Lineage.Of.depth_le {chain : Chain} {lineage : Lineage} (of : Lineage.Of chain lineage)
    {y : Instance} (member : y ∈ lineage) : y.depth ≤ chain.length := by
  cases chain with
  | nil =>
    cases lineage with
    | nil => cases member
    | cons x parents => exact of.elim
  | cons body outer =>
    cases lineage with
    | nil => cases member
    | cons x parents =>
      have own : x.depth = (body :: outer).length := by rw [Instance.depth, of.1]
      rcases List.mem_cons.mp member with rfl | further
      · exact own.le
      · exact (of.depth_lt y further).le.trans own.le

section

variable {m : Machine World Watch} {code : List Instruction} {t : Stmt} {hosts : List Declaration}
  {exitType : Option Ty} {depths : Nat} {registers : Nat → Bool} {trusted : Prop}
  {s : RunState World Watch} {g : Trail}

-- While a call has its frame, its links lead to the top frames.
theorem Situated.view {x y : Instance} {parents : Lineage} {rest : List Lineage}
    (situated : Situated code t hosts exitType depths registers trusted s g)
    (running : g.lineages = (x :: parents) :: rest) (framed : x.frame.isSome = true)
    (member : y ∈ x :: parents) (held : y.layout ≠ []) : OnTop s y := by
  obtain ⟨k, here, shaped⟩ := situated
  rcases shaped with fresh | ⟨σ, part, typed⟩
  · rw [fresh.trail] at running
    cases running
    cases framed
  · have sound := typed.sound
    obtain ⟨lineage, waiting, _, _, _, same, _, _, call⟩ := sound.calls
    rw [running] at same
    obtain ⟨rfl, rfl⟩ := List.cons.inj same
    have of := call.of
    have inside : σ.inside = true := by
      by_contra outside
      rw [call.bare (by simpa using outside) x rfl] at framed
      cases framed
    have memory := sound.memory
    rw [running] at memory
    have first := memory.linked.top of (fun _ => framed) member held
    have deep : y.depth ≤ depths := (of.depth_le member).trans (sound.deep inside)
    obtain ⟨f, fs, top, height, ok⟩ := memory.frames.top (y.depth_pos held)
      (by rw [memory.size]; exact Nat.lt_succ_of_le deep) first
    refine ⟨f, fs, ?_, height, ok.1⟩
    rw [show s.scopes = k.core.scopes from congrArg Core.scopes here.core]
    exact top

-- The variables among the operands of a checked instruction.
theorem Check.operands {Γ : Plan} {υ σ : Shape} {i : Instruction} {rest : List Instruction}
    {o : Slot} (checked : Check Γ υ σ (i :: rest)) (here : i.first = .slot o ∨ i.second = .slot o) :
    σ.inside = true ∧ ∃ (s : Symbol) (ready : Ready), .slot o = s.operand ∧
      s.isFunction = false ∧ s.Fits Γ.outline σ.chain ready := by
  cases checked with
  | load inside source later =>
    cases source with
    | constant v plain => cases v <;> rcases here with first | second <;> first | cases first | cases second
    | var s plain fits =>
      rcases here with first | second
      · cases first
      · exact ⟨inside, s, _, second.symm, plain, fits⟩
  | store inside plain fits given into later =>
    rcases here with first | second
    · exact ⟨inside, _, _, first.symm, plain, fits⟩
    · cases second
  | receive inside plain fits given into later =>
    rcases here with first | second
    · exact ⟨inside, _, _, first.symm, plain, fits⟩
    · cases second
  | @allocate _ s _ _ inside typed depth inner inLayout later =>
    rcases here with first | second
    · exact ⟨inside, s, [s], first.symm, Symbol.isFunction_of_scalar typed,
        Symbol.fits_of_inLayout typed depth inner inLayout (.inl List.mem_cons_self)⟩
    · cases second
  | _ => rcases here with first | second <;> first | cases first | cases second

theorem Situated.operands {i : Instruction} {o : Slot}
    (situated : Situated code t hosts exitType depths registers trusted s g)
    (executed : instructionAt code s.address = some i) (active : i.opcode ≠ .debugLine)
    (here : i.first = .slot o ∨ i.second = .slot o) :
    ∃ lineage rest, g.lineages = lineage :: rest ∧ FoundIn s lineage o := by
  rcases situated.instruction executed active with rfl | ⟨k, σ, rest, at_, typed⟩
  · rcases here with first | second
    · cases first
    · cases second
  obtain ⟨inside, u, _, operand, plain, fits⟩ := typed.checked.operands here
  obtain ⟨lineage, lineages, same, of, framed, _, memory⟩ := typed.sound.running inside
  rw [← at_.core] at memory
  refine ⟨lineage, lineages, same, ?_⟩
  simp only [Symbol.operand, Operand.slot.injEq] at operand
  unfold Symbol.Fits at fits
  split at fits
  · rename_i outer
    obtain ⟨i, d, index, declared, type, _⟩ := fits
    have held : d.type ≠ .function := by
      rw [type]
      simpa [Symbol.isFunction] using plain
    obtain ⟨frame, top, shared⟩ := memory.host
    have slot := Core.slotOf_operand u.type u.name top (shared i d declared held)
    refine .host (i := i) (by rw [operand, outer]; rfl) ?_
    rw [operand, outer, index]
    exact slot
  · rename_i inner
    obtain ⟨inScope, leads⟩ := fits
    rw [if_neg (by simp [plain])] at leads
    obtain ⟨x, i, l, f, fs, slot⟩ :=
      memory.slot of framed (typed.sound.deep inside) inner inScope leads.1
    obtain ⟨held, found⟩ := slot.present
    have depth : x.depth = u.depth := by
      rw [Instance.depth, slot.declares, Chain.length_outer inScope]
    have resolved : s.slotOf o = .ok (x.depth, i, held) := by
      rw [operand, depth, slot.index]
      exact Core.slotOf_operand u.type u.name slot.top found
    exact .script slot.member ⟨f, fs, depth ▸ slot.top, slot.height, slot.ok.1⟩ slot.known
      (by rw [operand]; exact slot.named) (by rw [operand]; exact slot.typed) resolved

-- What the machine does at an instruction that is no mark.
theorem Linked.step_moved {i : Instruction} {k : Config World} {rest : List Instruction}
    {u : RunState World Watch} (runs : Runs m code) (here : At code s k)
    (first : k.rest = i :: rest) (executed : instructionAt code s.address = some i)
    (active : i.opcode.isMark = false) (stepped : Exec.step m s = .ok none u) :
    ∃ n, move m.environment (strip code) k = .next n (m.made s) ∧ At code u n := by
  have followed := Linked.step_followed runs here
  rw [stepped] at followed
  cases followed with
  | @mark _ l j path there _ _ _ _ found is =>
    rw [executed] at found
    cases found
    rw [is] at active
    cases active
  | @onward _ l n j path found _ head moved there =>
    cases path with
    | refl => exact ⟨n, moved, there⟩
    | label here' is later =>
      rw [first] at here'
      obtain ⟨rfl, _⟩ := List.cons.inj here'
      rw [is] at active
      cases active

-- A frame that was made is empty, and stands above those that were there.
theorem Core.top_of_pushScope {c d : Core World} {depth size : Nat}
    (done : c.pushScope depth size = .ok d) :
    ∃ old, c.scopes[depth]? = some old ∧
      d.scopes[depth]? = some (Array.replicate size .empty :: old) := by
  obtain ⟨_, inside, rfl⟩ := pushScope_eq_ok done
  have present : c.scopes[depth]? = some c.scopes[depth] :=
    Array.getElem?_eq_getElem (by omega)
  refine ⟨_, present, ?_⟩
  simp only [Int.toNat_natCast, Array.getElem?_modify, if_true, present, Option.map_some]

theorem pushScope_of_move {env : Environment World} {rest whole : List Instruction}
    {k n : Config World} {depth size : Int} {made : List HostCall}
    (first : k.rest = .pushScope depth size :: rest) (moved : move env whole k = .next n made) :
    k.core.pushScope depth size = .ok n.core := by
  cases leads_of_move first moved with
  | @proceed core _ done =>
    simp only [deed, Instruction.pushScope, Core.effect] at done
    cases pushed : k.core.pushScope depth size with
    | error f => simp [pushed] at done
    | ok d =>
      simp only [pushed, Deed.proceed.injEq] at done
      rw [done.1]
  | branch done =>
    rcases deed_eq_branch done with opcode | ⟨_, opcode, _⟩ <;> cases opcode
  | enter done => cases deed_eq_enter done
  | leave done => cases deed_eq_leave done

theorem Situated.fresh {i : Instruction} {u : RunState World Watch}
    (hosted : Hosted m code t hosts exitType depths registers trusted)
    (situated : Situated code t hosts exitType depths registers trusted s g)
    (executed : instructionAt code s.address = some i) (opcode : i.opcode = .pushScope)
    (stepped : Exec.step m s = .ok none u) :
    ∃ x parents rest old, g.lineages = (x :: parents) :: rest ∧ s.scopes[x.depth]? = some old ∧
      u.scopes[x.depth]? = some (Array.replicate x.layout.length .empty :: old) := by
  rcases situated.instruction executed (by simp [opcode]) with rfl | ⟨k, σ, rest, here, typed⟩
  · cases opcode
  obtain ⟨n, moved, there⟩ := Linked.step_moved hosted.runs here
    (typed.rest.trans (List.cons_append)) executed (by rw [opcode]; rfl) stepped
  obtain ⟨lineage, waiting, _, _, _, same, _, _, call⟩ := typed.sound.calls
  have of := call.of
  cases typed.checked with
  | pushScope outside chain deep around later =>
    rename_i body parents
    rw [chain] at of
    cases lineage with
    | nil => exact of.elim
    | cons x outer =>
      have depth : x.depth = σ.chain.length := by rw [of.depth_head, chain]
      have layout : x.layout = body.layout := by rw [Instance.layout, of.1]; rfl
      have pushed := pushScope_of_move (typed.rest.trans List.cons_append) moved
      obtain ⟨old, present, added⟩ := Core.top_of_pushScope pushed
      refine ⟨x, outer, waiting, old, same, ?_, ?_⟩
      · rw [here.core, depth, present]
      · rw [there.core, depth, layout]
        exact added
  | _ => cases opcode

theorem Situated.heights (situated : Situated code t hosts exitType depths registers trusted s g)
    (size : s.scopes.size = depths + 1) (depth : Nat) :
    (s.scopes[depth]?).map List.length =
      if depth = 0 then some 1
      else if depth ≤ depths then some (atDepth depth g.lineages).length else none := by
  obtain ⟨_, frames, ⟨frame, top, _⟩, _⟩ := situated.memory
  split
  · rename_i host
    rw [host, top]
    rfl
  · rename_i inner
    split
    · rename_i inside
      have present := Array.getElem?_eq_getElem (show depth < s.scopes.size by omega)
      rw [present, Option.map_some,
        (frames depth (Nat.one_le_iff_ne_zero.mpr inner) _ present).length_eq]
    · rename_i outside
      rw [Array.getElem?_eq_none (by omega), Option.map_none]

-- Behind the first instruction there is a stack of frames for every depth.
theorem Situated.size_eq {i : Instruction}
    (situated : Situated code t hosts exitType depths registers trusted s g)
    (executed : instructionAt code s.address = some i) (active : i.opcode ≠ .debugLine)
    (later : i.opcode ≠ .scopeDepth) : s.scopes.size = depths + 1 := by
  rcases situated.instruction executed active with rfl | ⟨k, σ, rest, here, typed⟩
  · exact absurd rfl later
  · rw [here.core, typed.sound.memory.size]
    rfl

theorem Situated.restored {first u v : RunState World Watch}
    (hosted : Hosted m code t hosts exitType depths registers trusted)
    (start : Situated code t hosts exitType depths registers trusted first t.trail)
    (traced : Traced m (t.outline hosts exitType depths).functions code first t.trail s g)
    (stepped : Exec.step m s = .ok none u) (deeper : s.calls.length < u.calls.length)
    (inside : Inside m s.calls.length u v) :
    ∃ h, Traced m (t.outline hosts exitType depths).functions code first t.trail v h ∧
      h.lineages = g.lineages ∧
      ∀ depth : Nat, (v.scopes[depth]?).map List.length = (s.scopes[depth]?).map List.length := by
  have situated := traced.situated hosted start
  obtain ⟨j, f, lineage, calling, call, _, lineages, bases⟩ := situated.entered hosted stepped deeper
  have size := situated.size_eq calling (by simp [call]) (by simp [call])
  obtain ⟨lineageCount, baseCount, _⟩ := situated.counts
  obtain ⟨w, h, i, before, executed, opcode, returned, waiting, _⟩ :=
    (traced.step stepped).inside hosted start inside deeper
      (show _ = [lineage] ++ g.lineages from lineages) lineageCount (show _ = [] ++ _ from bases)
      (by rw [List.length_cons, baseCount])
  have after := before.step returned
  have there := after.situated hosted start
  have same : (h.next (t.outline hosts exitType depths).functions code w).lineages = g.lineages := by
    rw [← waiting]
    simp [Trail.next, executed, Trail.after, Trail.lineagesAfter, opcode]
  have wide : v.scopes.size = depths + 1 := by
    have within := before.situated hosted start
    have next := within.step hosted
    rw [returned] at next
    obtain ⟨_, grown⟩ := next
    rw [within.size_eq executed (by simp [opcode]) (by simp [opcode])] at grown
    exact le_antisymm there.size_le grown
  refine ⟨_, after, same, ?_⟩
  intro depth
  rw [there.heights wide, situated.heights size, same]

theorem Situated.lexicallyAddressed {first : RunState World Watch}
    (hosted : Hosted m code t hosts exitType depths registers trusted)
    (start : Situated code t hosts exitType depths registers trusted first t.trail)
    (traced : Traced m (t.outline hosts exitType depths).functions code first t.trail s g) :
    LexicallyAddressed m code (t.outline hosts exitType depths).functions first t.trail s g := by
  have situated := traced.situated hosted start
  obtain ⟨calls, _, chains⟩ := situated.counts
  refine ⟨calls, chains, situated.memory.2.1, ?_, ?_, ?_, ?_, ?_⟩
  · intro x parents rest running framed y member held
    exact situated.view running framed member held
  · intro i o executed active here
    exact situated.operands executed active here
  · intro i u executed opcode stepped
    exact situated.fresh hosted executed opcode stepped
  · intro u v stepped deeper inside
    exact Situated.restored hosted start traced stepped deeper inside
  · intro e u failed
    have step := situated.step hosted
    rw [failed] at step
    cases step with
    | @fault f _ w possible =>
      refine ⟨w, f, rfl, ?_⟩
      intro depth o
      refine ⟨?_, ?_, ?_⟩ <;> rintro rfl <;> exact possible.elim

end

-- Whatever the host does: in every state that a run of an accepted source reaches, variables are
-- found where the tree of the source has them.
theorem Accepted.lexically_addressed {bindings : List (Binding World)} {source exitName : String}
    {bound : Bound World} {exitType : Option Ty} {p : Program} {m : Machine World Watch}
    (accepted : Accepted bindings source exitName bound exitType p) (loads : m.Loads bound p) :
    ∃ tokens t depths, tokenize source = .ok tokens ∧
      Compiled tokens bound.declarations exitType p t depths ∧
      ∀ first : RunState World Watch, bound.Starts first →
        (∀ s, Reaches m first s → ∃ g,
          Traced m (t.outline bound.declarations exitType depths).functions p.code.toList first
            t.trail s g) ∧
        ∀ s g, Traced m (t.outline bound.declarations exitType depths).functions p.code.toList
            first t.trail s g →
          LexicallyAddressed m p.code.toList
            (t.outline bound.declarations exitType depths).functions first t.trail s g := by
  obtain ⟨tokens, t, depths, read, compiled⟩ := accepted.tree
  have hosted := accepted.hosted compiled loads fun trust : False => trust.elim
  refine ⟨tokens, t, depths, read, compiled, ?_⟩
  intro first starts
  have start := accepted.situated hosted starts
  exact ⟨fun s reached => Traced.start.of_reaches reached,
    fun s g traced => Situated.lexicallyAddressed hosted start traced⟩

theorem Sample.finds_variables :
    (Sample.after 9).calls.length = 1 ∧ ∃ (t : Stmt) (depths : Nat) (g : Trail),
      LexicallyAddressed Sample.machine Sample.program.code.toList
        (t.outline Sample.bound.declarations none depths).functions Sample.first t.trail
        (Sample.after 9) g := by
  obtain ⟨tokens, t, depths, _, _, runs⟩ :=
    Accepted.lexically_addressed Sample.accepted Sample.loads
  obtain ⟨g, traced⟩ := (runs Sample.first Sample.starts).1 _ (Sample.reaches_after 9)
  exact ⟨Sample.within_call.1.2, t, depths, g, (runs Sample.first Sample.starts).2 _ _ traced⟩

end ScalarScript
