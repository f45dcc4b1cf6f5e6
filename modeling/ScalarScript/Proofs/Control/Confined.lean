import ScalarScript.Proofs.Control.Peephole
import ScalarScript.Proofs.Control.Stretch
import ScalarScript.Proofs.Machine.Way
import ScalarScript.Proofs.Typing.Accepted
/-!
What compiles can be linked, optimized or not, and its runs keep to the bodies of functions: control
gets into one by a call and out of it by a return, an exit or an error, and in no other way.
-/
namespace ScalarScript

open Control Exec

variable {World Watch : Type}

namespace Link

-- The part of a program in front of an address, with the labels that stand there.
def upTo : List Instruction → Nat → List Instruction
  | [], _ => []
  | i :: rest, n =>
    if i.opcode = .label then i :: upTo rest n
    else if n = 0 then []
    else i :: upTo rest (n - 1)

theorem upTo_address (pre rest : List Instruction) :
    upTo (pre ++ rest) (address pre) = pre ++ rest.takeWhile (·.opcode = .label) := by
  induction pre with
  | nil =>
    induction rest with
    | nil => rfl
    | cons i rest ih =>
      by_cases label : i.opcode = .label
      · simpa [upTo, label] using ih
      · simp [upTo, label]
  | cons i pre ih =>
    by_cases label : i.opcode = .label
    · rw [address_cons_label label, List.cons_append, upTo, if_pos label, ih, List.cons_append]
    · rw [address_cons_other label, List.cons_append, upTo, if_neg label,
        if_neg (Nat.succ_ne_zero _), Nat.add_sub_cancel, ih, List.cons_append]

-- Where an instruction of a linked program stood before.
theorem split_of_filter {code : List Instruction} {n : Nat} {i : Instruction}
    (found : (code.filter (·.opcode ≠ .label))[n]? = some i) :
    ∃ pre rest, code = pre ++ i :: rest ∧ n = address pre ∧ i.opcode ≠ .label := by
  induction code generalizing n with
  | nil => simp at found
  | cons j code ih =>
    by_cases label : j.opcode = .label
    · obtain ⟨pre, rest, rfl, rfl, other⟩ := ih (by simpa [label] using found)
      exact ⟨j :: pre, rest, rfl, (address_cons_label label pre).symm, other⟩
    · cases n with
      | zero =>
        obtain rfl : j = i := by simpa [label] using found
        exact ⟨[], code, rfl, rfl, label⟩
      | succ n =>
        obtain ⟨pre, rest, rfl, rfl, other⟩ := ih (by simpa [label] using found)
        exact ⟨j :: pre, rest, rfl, (address_cons_other label pre).symm, other⟩

-- The same for what a machine fetches that runs the linked program.
theorem fetched {code : List Instruction} {m : Machine World Watch} {address : Int}
    {i : Instruction} (linked : m.code = (Link.linked code).toArray) (inside : 0 ≤ address)
    (found : m.code[address.toNat]? = some i) :
    ∃ pre j rest, code = pre ++ j :: rest ∧ address = Link.address pre ∧ j.opcode ≠ .label ∧
      i = retarget (addresses code 0) j := by
  rw [linked, List.getElem?_toArray, Link.linked, List.getElem?_map,
    Option.map_eq_some_iff] at found
  obtain ⟨j, found, rfl⟩ := found
  obtain ⟨pre, rest, split, place, other⟩ := split_of_filter found
  exact ⟨pre, j, rest, split, by omega, other, rfl⟩

-- A branch goes to the address behind its label.
theorem retarget_target {code before behind : List Instruction} {i j : Instruction}
    (unique : (labelsOf code).Nodup) (split : code = before ++ j :: behind)
    (label : j.opcode = .label) (same : j.target = i.target) (branch : i.opcode.isBranch = true) :
    (retarget (addresses code 0) i).target = address (before ++ [j]) := by
  obtain ⟨pre, k, parts, is, given⟩ :=
    lookup_addresses_of_seek (seek_of_split unique split label same) 0
  have fronts : pre ++ [k] = before ++ [j] :=
    (List.append_left_inj behind).mp (by rw [parts] at split; simpa using split)
  obtain ⟨rfl, _⟩ := List.append_inj' fronts rfl
  rw [address_append, address_cons_label label]
  simp [retarget, branch, given]

end Link

-- The functions around an address of a linked program, by the code that it was linked from.
def functionsAt (code : List Instruction) (address : Int) : List Int :=
  functionsBehind code (Link.upTo code address.toNat)

-- The same for the address of a state, and for those that its calls wait at, innermost first.
def nesting (code : List Instruction) (s : RunState World Watch) : List (List Int) :=
  functionsAt code s.address :: s.calls.map (functionsAt code ·.resume)

-- How a step that goes on moves between functions.
inductive Crosses (code : List Instruction) (i : Instruction) (s t : RunState World Watch) :
    Prop where
  -- to a place in the same function, or at the top level
  | within (opcode : i.opcode ≠ .call ∧ i.opcode ≠ .ret) (same : nesting code t = nesting code s)
  -- to the entry of a function
  | enter (opcode : i.opcode = .call) {outer : List Int} (entry : i.target ∈ functionEntries code)
      (inner : nesting code t = (i.target :: outer) :: nesting code s)
  -- back to where the call stands
  | leave (opcode : i.opcode = .ret)
      (outer : nesting code s = functionsAt code s.address :: nesting code t)

-- A state in which a run keeps to the bodies of functions.
structure Confined (m : Machine World Watch) (code : List Instruction) (s : RunState World Watch) :
    Prop where
  onward : ∀ t, Exec.step m s = .ok none t →
    ∃ i, instructionAt code s.address = some i ∧ Crosses code i s t
  -- inside a function only an exit ends the run with a value
  ended : ∀ v t, Exec.step m s = .ok (some v) t → functionsAt code s.address ≠ [] →
    ∃ i, instructionAt code s.address = some i ∧ i.opcode = .exit

namespace Enclosed

variable {code pre rest : List Instruction} {i : Instruction}

-- No function begins at a label that something other than a jump stands in front of.
theorem functionsAt_address (enclosed : Enclosed code) (split : code = pre ++ rest)
    (last : ∀ i ∈ pre.getLast?, i.opcode ≠ .jump) :
    functionsAt code (Link.address pre) = functionsBehind code pre := by
  rw [functionsAt, Int.toNat_natCast]
  conv_lhs => rw [split, Link.upTo_address, ← split]
  induction rest generalizing pre with
  | nil => simp
  | cons j rest ih =>
    by_cases label : j.opcode = .label
    · have plain : j.target ∉ functionEntries code := by
        intro entry
        obtain ⟨i, front, jump⟩ := enclosed.fenced pre j rest split label entry
        exact last i front jump
      have parts : code = (pre ++ [j]) ++ rest := by simp [split]
      have onward := ih parts (by simp [label])
      have stays : functionsBehind code (pre ++ [j]) = functionsBehind code pre := by
        have control : j.control? = some (.label j.target) := by simp [Instruction.control?, label]
        rw [functionsBehind, skeleton_append, skeleton_cons_of_some control, around_append,
          around_cons]
        simp [cross, plain, functionsBehind]
      rw [stays, List.append_assoc, List.singleton_append] at onward
      simpa [label] using onward
    · simp [label]

-- An instruction stands in the functions that began in front of it.
theorem functionsAt_instruction (split : code = pre ++ i :: rest) (other : i.opcode ≠ .label) :
    functionsAt code (Link.address pre) = functionsBehind code pre := by
  rw [functionsAt, Int.toNat_natCast]
  conv_lhs => rw [split, Link.upTo_address, ← split]
  simp [other]

-- The next instruction stands in the same functions, but for returns and jumps.
theorem functionsAt_next (enclosed : Enclosed code) (split : code = pre ++ i :: rest)
    (other : i.opcode ≠ .label) (jump : i.opcode ≠ .jump) (ret : i.opcode ≠ .ret) :
    functionsAt code (Link.address pre + 1) = functionsAt code (Link.address pre) := by
  have next : (Link.address pre : Int) + 1 = Link.address (pre ++ [i]) := by
    simp [Link.address_cons_other other]
  have parts : code = (pre ++ [i]) ++ rest := by simp [split]
  rw [next, enclosed.functionsAt_address parts (by simpa using jump),
    functionsAt_instruction split other, functionsBehind, skeleton_append, around_append,
    skeleton_cons]
  -- what is no label and no return crosses nothing
  cases control : i.control? with
  | none => rfl
  | some c =>
    have stays : ∀ outer, cross (functionEntries code) outer c = outer := by
      intro outer
      cases c with
      | label id => exact absurd (Instruction.opcode_of_control?_label control).1 other
      | ret =>
        unfold Instruction.control? at control
        split at control
        all_goals cases control
        exact absurd ‹_› ret
      | _ => rfl
    simp [stays, functionsBehind]

theorem crosses (enclosed : Enclosed code) (split : code = pre ++ i :: rest)
    (other : i.opcode ≠ .label) {s t : RunState World Watch} (place : s.address = Link.address pre)
    (goes : Goes (Link.retarget (Link.addresses code 0) i) s t) : Crosses code i s t := by
  have same := Link.retarget_opcode (Link.addresses code 0) i
  have member : i ∈ code := by simp [split]
  have here : functionsAt code s.address = functionsBehind code pre := by
    rw [place, functionsAt_instruction split other]
  cases goes with
  | next falls address calls _ =>
    rw [same] at falls
    refine .within ⟨falls.2.1, falls.2.2.1⟩ ?_
    rw [nesting, nesting, calls, address, place,
      enclosed.functionsAt_next split other falls.1 falls.2.2.1]
  | jump jumps address calls _ =>
    rw [same] at jumps
    have branch : i.opcode.isBranch = true := by
      rcases jumps with jump | ⟨_, jump⟩ <;> rw [jump] <;> rfl
    have plain : i.opcode ≠ .call ∧ i.opcode ≠ .ret := by
      rcases jumps with jump | ⟨_, jump⟩ <;> simp [jump]
    obtain ⟨_, before, j, behind, parts, label, target, kept⟩ :=
      enclosed.jumps pre i rest split branch plain.1
    refine .within plain ?_
    have onto := Link.retarget_target enclosed.unique parts label target branch
    have whole : code = (before ++ [j]) ++ behind := by simp [parts]
    rw [nesting, nesting, calls, here, address, onto,
      enclosed.functionsAt_address whole (by simp [label]), kept]
  | enter opcode address calls resume _ _ =>
    rw [same] at opcode
    have branch : i.opcode.isBranch = true := by rw [opcode]; rfl
    have entry := enclosed.calls i member opcode
    obtain ⟨before, j, behind, parts, label, target⟩ :
        ∃ (before : List Instruction) (j : Instruction) (behind : List Instruction),
          code = before ++ j :: behind ∧ j.opcode = .label ∧ j.target = i.target := by
      cases found : seek i.target code with
      | none => exact absurd (enclosed.defined i member branch) (seek_eq_none_iff.mp found)
      | some behind =>
        obtain ⟨before, j, parts, label, target⟩ := seek_eq_some found
        exact ⟨before, j, behind, parts, label, target⟩
    have onto := Link.retarget_target enclosed.unique parts label target branch
    have whole : code = (before ++ [j]) ++ behind := by simp [parts]
    have inside : functionsBehind code (before ++ [j]) =
        i.target :: functionsBehind code before := by
      have control : j.control? = some (.label j.target) := by simp [Instruction.control?, label]
      rw [functionsBehind, skeleton_append, skeleton_cons_of_some control, around_append,
        around_cons, target]
      simp [cross, entry, functionsBehind]
    have deeper : nesting code t =
        (i.target :: functionsBehind code before) :: nesting code s := by
      rw [nesting, nesting, calls, List.map_cons, resume, address, onto,
        enclosed.functionsAt_address whole (by simp [label]), inside, place,
        enclosed.functionsAt_next split other (by simp [opcode]) (by simp [opcode])]
    exact .enter opcode entry deeper
  | leave opcode calls address _ =>
    rw [same] at opcode
    refine .leave opcode ?_
    rw [nesting, nesting, calls, List.map_cons, address]

-- Behind the last instruction is the top level.
theorem functionsAt_end (enclosed : Enclosed code) {address : Int}
    (past : (Link.linked code).length ≤ address) : functionsAt code address = [] := by
  have whole : ∀ (code : List Instruction) (n : Nat), Link.address code ≤ n →
      Link.upTo code n = code := by
    intro code
    induction code with
    | nil => intros; rfl
    | cons i code ih =>
      intro n past
      by_cases label : i.opcode = .label
      · rw [Link.address_cons_label label] at past
        rw [Link.upTo, if_pos label, ih n past]
      · rw [Link.address_cons_other label] at past
        rw [Link.upTo, if_neg label, if_neg (by omega), ih (n - 1) (by omega)]
  rw [Link.length_linked] at past
  rw [functionsAt, whole code address.toNat (by omega)]
  exact enclosed.closed

theorem confined (enclosed : Enclosed code) {m : Machine World Watch}
    (linked : m.code = (Link.linked code).toArray) (s : RunState World Watch) :
    Confined m code s := by
  constructor
  · intro t stepped
    obtain ⟨i, inside, found, goes⟩ := step_goes stepped
    obtain ⟨pre, j, rest, split, place, other, rfl⟩ := Link.fetched linked inside found
    exact ⟨j, instructionAt_eq split place other, enclosed.crosses split other place goes⟩
  · intro v t stepped inner
    rcases step_exits stepped with past | ⟨i, inside, found, exits⟩
    · rw [linked, List.size_toArray] at past
      exact absurd (enclosed.functionsAt_end past) inner
    · obtain ⟨pre, j, rest, split, place, other, rfl⟩ := Link.fetched linked inside found
      rw [Link.retarget_opcode] at exits
      exact ⟨j, instructionAt_eq split place other, exits⟩

end Enclosed

-- A run is in functions that were called, one for each call, and otherwise at the top level.
def Called (code : List Instruction) (s : RunState World Watch) : Prop :=
  ∃ inner : List (List Int), nesting code s = inner ++ [[]] ∧ ∀ f ∈ inner, f ≠ []

theorem Called.step {code : List Instruction} {i : Instruction} {s t : RunState World Watch}
    (called : Called code s) (crosses : Crosses code i s t) : Called code t := by
  obtain ⟨inner, same, inside⟩ := called
  cases crosses with
  | within _ kept => exact ⟨inner, kept.trans same, inside⟩
  | enter _ _ deeper =>
    refine ⟨_ :: inner, by rw [deeper, same, List.cons_append], ?_⟩
    exact List.forall_mem_cons.mpr ⟨by simp, inside⟩
  | leave _ outer =>
    rw [same] at outer
    cases inner with
    | nil =>
      have none : nesting code t = [] := (List.cons.inj outer).2.symm
      cases none
    | cons f inner =>
      exact ⟨inner, (List.cons.inj outer).2.symm, (List.forall_mem_cons.mp inside).2⟩

-- A run that starts at the top level.
theorem Called.drive {m : Machine World Watch} {code : List Instruction}
    (confined : ∀ s : RunState World Watch, Confined m code s) (n : Nat) {s t : RunState World Watch}
    (called : Called code s) (ran : Exec.drive (Exec.step m) n s = .ok none t) : Called code t := by
  induction n generalizing s with
  | zero =>
    cases ran
    exact called
  | succ n ih =>
    rw [drive_apply] at ran
    cases stepped : Exec.step m s with
    | error e u =>
      rw [stepped] at ran
      cases ran
    | ok result u =>
      rw [stepped] at ran
      cases result with
      | some v => cases ran
      | none =>
        obtain ⟨i, _, crosses⟩ := (confined s).onward u stepped
        exact ih (called.step crosses) ran

-- Every run stays in the bodies that it has called.
structure KeepsToBodies (m : Machine World Watch) (code : List Instruction) : Prop where
  steps : ∀ s : RunState World Watch, Confined m code s
  runs : ∀ (around : Surroundings World Watch) (context : Context) (n : Nat)
    (s : RunState World Watch),
    Exec.drive (Exec.step m) n (Machine.start around context) = .ok none s → Called code s

theorem Enclosed.keepsToBodies {code : List Instruction} (enclosed : Enclosed code)
    {m : Machine World Watch} (linked : m.code = (Link.linked code).toArray) :
    KeepsToBodies m code := by
  refine ⟨enclosed.confined linked, ?_⟩
  intro around context n s ran
  refine Called.drive (enclosed.confined linked) n ⟨[], ?_, by simp⟩ ran
  have start : functionsAt code 0 = [] :=
    (enclosed.functionsAt_address (List.nil_append code).symm (by simp)).trans rfl
  simp [nesting, Machine.start, start]

-- A program that can be linked, and whose runs keep to the bodies of its functions.
structure Structured (p : Program) : Prop where
  enclosed : Enclosed p.code.toList
  -- no label is there twice or missing
  links : ∃ q log, link p = .ok (q, log) ∧ ∀ (World Watch : Type) (m : Machine World Watch),
    m.code = q.code → KeepsToBodies m p.code.toList

theorem Structured.of_enclosed {p : Program} (unlinked : p.stage ≠ .ready)
    (enclosed : Enclosed p.code.toList) : Structured p := by
  have linked := (link_eq_ok_iff unlinked).mpr ⟨enclosed.unique, enclosed.defined, rfl, rfl⟩
  exact ⟨enclosed, _, _, linked, fun _ _ _ same => enclosed.keepsToBodies same⟩

theorem compileTokens_markersLead {tokens : List Token} {declarations : List Declaration}
    {exitType : Option Ty} (fine : (compileTokens tokens declarations exitType).error = none) :
    MarkersLead (compileTokens tokens declarations exitType).program.code.toList := by
  unfold compileTokens at fine ⊢
  cases ran : Compile.program tokens declarations (Compiler.start tokens exitType) with
  | error e c => simp [ran] at fine
  | ok u c =>
    obtain ⟨_, _, _, _, _, lead, _⟩ := Compile.program_ok ran
    exact lead

-- What compiled is enclosed after optimization as well.
theorem Compiled.optimized_enclosed {tokens : List Token} {declarations : List Declaration}
    {exitType : Option Ty} {p : Program} {t : Stmt} {depths : Nat} {maxPasses : Int}
    {o : Optimization} (compiled : Compiled tokens declarations exitType p t depths)
    (done : optimize p maxPasses = .ok o) : Enclosed o.program.code.toList := by
  obtain ⟨whole, fenced⟩ := t.program_enclosed compiled.unique compiled.ok (depths + 1)
  rw [← compiled.code] at whole fenced
  rw [skeleton_strip] at whole
  obtain ⟨same, kept⟩ := optimize_skeleton done fenced
  exact .of_skeleton (same.symm ▸ whole) kept

-- Whatever compiles keeps to bodies, as it is and optimized.
theorem compileTokens_structured (tokens : List Token) (declarations : List Declaration)
    (exitType : Option Ty) (fine : (compileTokens tokens declarations exitType).error = none) :
    Structured (compileTokens tokens declarations exitType).program ∧
      ∀ maxPasses : Int, ∃ o,
        optimize (compileTokens tokens declarations exitType).program maxPasses = .ok o ∧
          Structured o.program := by
  obtain ⟨t, depths, compiled⟩ := compileTokens_tree fine
  have lead := compileTokens_markersLead fine
  generalize (compileTokens tokens declarations exitType).program = p at compiled lead
  obtain ⟨whole, fenced⟩ := t.program_enclosed compiled.unique compiled.ok (depths + 1)
  rw [← compiled.code] at whole fenced
  rw [skeleton_strip] at whole
  refine ⟨.of_enclosed (by simp [compiled.stage]) (.of_skeleton whole (.of_strip lead fenced)), ?_⟩
  intro maxPasses
  obtain ⟨o, done⟩ : ∃ o, optimize p maxPasses = .ok o := by
    unfold optimize
    rw [if_neg (by simp [compiled.stage])]
    exact ⟨_, rfl⟩
  refine ⟨o, done, .of_enclosed ?_ (compiled.optimized_enclosed done)⟩
  unfold optimize at done
  rw [if_neg (by simp [compiled.stage])] at done
  cases done
  simp

-- The sample keeps to the body of its function.
theorem Sample.structured :
    (compileTokens ((tokenize Sample.source).toOption.getD []) Sample.bound.declarations
      none).error = none ∧ Structured Sample.program := by
  have fine : (compileTokens ((tokenize Sample.source).toOption.getD [])
      Sample.bound.declarations none).error = none :=
    Option.isNone_iff_eq_none.mp Sample.computed.2.1
  exact ⟨fine, (compileTokens_structured _ _ none fine).1⟩

end ScalarScript
