import ScalarScript.Proofs.Symbolic.Marks
import ScalarScript.Proofs.Symbolic.Turn
/-!
A linked program does what its labelled code does symbolically, line markers left out. Every step
of the machine is followed by symbolic moves, and as long as nothing disturbs it, a symbolic run
that ends is a run of the machine that ends alike.
-/
namespace ScalarScript

open Symbolic

variable {World Watch : Type}

-- A machine that runs the linked form of some code.
structure Runs (m : Machine World Watch) (code : List Instruction) : Prop where
  unique : (labelsOf code).Nodup
  defined : BranchesDefined code
  linked : m.code = (Link.linked code).toArray
  fair : Fair m

namespace Linked

-- The address at which the code that remains, without line markers, stands.
def Stands (code : List Instruction) (address : Int) (k : List Instruction) : Prop :=
  ∃ pre rest, code = pre ++ rest ∧ address = Link.address pre ∧ k = strip rest

-- A state of the machine and a symbolic one at the same place with the same core.
structure At (code : List Instruction) (s : RunState World Watch) (k : Config World) : Prop where
  core : s.toCore = k.core
  position : Stands code s.address k.rest
  calls : List.Forall₂ (fun a back => Stands code a.resume back) s.calls k.returns

theorem stands_start (code : List Instruction) : Stands code 0 (strip code) :=
  ⟨[], code, rfl, rfl, rfl⟩

theorem deed_retarget (externals : Array (External World)) (labels : List (Int × Nat))
    (i : Instruction) (c : Core World) :
    deed externals (Link.retarget labels i) c = deed externals i c := by
  unfold Link.retarget
  split
  · rename_i branch
    cases opcode : i.opcode <;> simp [opcode, Opcode.isBranch] at branch <;> simp [deed, opcode]
  · rfl

-- A branch goes to the address of the code behind its label.
theorem stands_target {code : List Instruction} {i : Instruction} (defined : BranchesDefined code)
    (member : i ∈ code) (branch : i.opcode.isBranch = true) :
    ∃ rest, seek i.target (strip code) = some rest ∧
      Stands code (Link.retarget (Link.addresses code 0) i).target rest := by
  have present := defined i member branch
  cases found : seek i.target code with
  | none => exact absurd present (seek_eq_none_iff.mp found)
  | some rest =>
    obtain ⟨pre, j, split, is, given⟩ := Link.lookup_addresses_of_seek found 0
    refine ⟨strip rest, by rw [seek_strip, found]; rfl, pre ++ [j], rest, by simp [split], ?_, rfl⟩
    rw [Link.address_append, Link.address_cons_label is]
    simp [Link.retarget, branch, given]

end Linked

-- The host calls that an instruction makes.
def Deed.made : Deed World → List HostCall
  | .proceed _ made | .stop _ _ made => made
  | _ => []

-- The host calls that the next step makes.
def Machine.made (m : Machine World Watch) (s : RunState World Watch) : List HostCall :=
  match m.code[s.address.toNat]? with
  | some i => (deed m.externals i s.toCore).made
  | none => []

-- The instruction at an address once the labels are gone, as it was before linking.
def instructionAt (code : List Instruction) (address : Int) : Option Instruction :=
  (code.filter (·.opcode ≠ .label))[address.toNat]?

theorem instructionAt_eq {code pre rest : List Instruction} {i : Instruction} {address : Int}
    (split : code = pre ++ i :: rest) (place : address = Link.address pre)
    (other : i.opcode ≠ .label) : instructionAt code address = some i := by
  have index : address.toNat = (pre.filter (·.opcode ≠ .label)).length := by
    rw [place, Link.address, List.countP_eq_length_filter, Int.toNat_natCast]
  rw [instructionAt, split, index]
  simp [other]

namespace Linked

-- A symbolic state behind some labels.
inductive Passes : Config World → Config World → Prop where
  | refl {k : Config World} : Passes k k
  | label {k l : Config World} {i : Instruction} {rest : List Instruction}
      (here : k.rest = i :: rest) (is : i.opcode = .label) (later : Passes { k with rest } l) :
      Passes k l

theorem Passes.steps {env : Environment World} {code : List Instruction} {k l : Config World}
    (passes : Passes k l) : Steps env code k [] l := by
  induction passes with
  | refl => exact .refl
  | @label k l i rest here is later ih =>
    have moved : move env code k = .next { k with rest } [] := by simp only [move, here, deed, is]
    exact .head moved ih

theorem Passes.core_eq {k l : Config World} (passes : Passes k l) : l.core = k.core := by
  induction passes with
  | refl => rfl
  | label _ _ _ ih => exact ih

-- Labels are passed without a step of the machine.
theorem At.settle {code : List Instruction} {s : RunState World Watch}
    {k : Config World} (here : At code s k) :
    ∃ k' pre rest, Passes k k' ∧ At code s k' ∧ code = pre ++ rest ∧
      s.address = Link.address pre ∧ k'.rest = strip rest ∧
      ∀ i ∈ rest.head?, i.opcode ≠ .label := by
  obtain ⟨pre, rest, split, place, remains⟩ := here.position
  induction rest generalizing pre k with
  | nil => exact ⟨k, pre, [], .refl, here, split, place, remains, by simp⟩
  | cons i rest ih =>
    by_cases is : i.opcode = .label
    · have mark : i.opcode ≠ .debugLine := by simp [is]
      have first : k.rest = i :: strip rest := by rw [remains, strip_cons_other mark]
      have split' : code = (pre ++ [i]) ++ rest := by simp [split]
      have place' : s.address = Link.address (pre ++ [i]) := by
        simp [Link.address_cons_label is, place]
      obtain ⟨k', pre', rest', path, result⟩ := ih (k := { k with rest := strip rest })
        ⟨here.core, ⟨pre ++ [i], rest, split', place', rfl⟩, here.calls⟩ (pre ++ [i]) split' place' rfl
      exact ⟨k', pre', rest', .label first is path, result⟩
    · exact ⟨k, pre, i :: rest, .refl, here, split, place, remains, by simpa using is⟩

-- What the symbolic run does while the machine takes a step.
inductive Followed (m : Machine World Watch) (code : List Instruction) (s : RunState World Watch)
    (k : Config World) :
    EStateM.Result RuntimeError (RunState World Watch) (Option Value) → Prop where
  -- a line marker
  | mark {t : RunState World Watch} {l : Config World}
      {i : Instruction} (path : Passes k l) (there : At code t l)
      (quiet : Undisturbed m s → Undisturbed m t) (silent : m.made s = [])
      (inside : s.address < m.code.size) (next : t.address = s.address + 1)
      (executed : instructionAt code s.address = some i) (is : i.opcode = .debugLine) :
      Followed m code s k (.ok none t)
  | onward {t : RunState World Watch} {l n : Config World} {i : Instruction}
      (path : Passes k l) (executed : instructionAt code s.address = some i)
      (active : i.opcode ≠ .debugLine) (first : l.rest.head? = some i)
      (moved : move m.environment (strip code) l = .next n (m.made s)) (there : At code t n)
      (quiet : Undisturbed m s → Undisturbed m t) : Followed m code s k (.ok none t)
  | exit {v : Value} {t : RunState World Watch} {l : Config World}
      (path : Passes k l)
      (stopped : move m.environment (strip code) l = .stop (.ok v) t.toCore (m.made s)) :
      Followed m code s k (.ok (some v) t)
  | fault {f : RuntimeFault} {t u : RunState World Watch} {l : Config World}
      (path : Passes k l)
      (stopped : move m.environment (strip code) l = .stop (.error f) t.toCore (m.made s))
      {i : Instruction} (executed : instructionAt code s.address = some i)
      (first : l.rest.head? = some i) : Followed m code s k (.error (u.error f) t)
  | imposed {f : RuntimeFault} {t u : RunState World Watch} (disturbed : ¬ Undisturbed m s)
      (cause : f.Imposed) : Followed m code s k (.error (u.error f) t)

-- The turn of an instruction that is neither label nor line marker.
theorem followed_of_turn {m : Machine World Watch} {code pre rest : List Instruction}
    {s : RunState World Watch} {k l : Config World} {i : Instruction}
    {result : EStateM.Result RuntimeError (RunState World Watch) (Option Value)}
    (runs : Runs m code) (path : Passes k l) (here : At code s l)
    (split : code = pre ++ i :: rest) (place : s.address = Link.address pre)
    (remains : l.rest = i :: strip rest) (other : i.opcode ≠ .label)
    (active : i.opcode ≠ .debugLine)
    (made : m.made s = (deed m.externals i s.toCore).made)
    (turn : Turn m (Link.retarget (Link.addresses code 0) i) s result) :
    Followed m code s k result := by
  have after : Stands code (s.address + 1) (strip rest) :=
    ⟨pre ++ [i], rest, by simp [split], by simp [Link.address_cons_other other, place], rfl⟩
  have member : i ∈ code := by simp [split]
  have target (branch : i.opcode.isBranch = true) := stands_target runs.defined member branch
  have depth := here.calls.length_eq
  have executed := instructionAt_eq split place other
  have first : l.rest.head? = some i := by rw [remains]; rfl
  have external : m.environment.externals = m.externals := rfl
  cases turn with
  | proceed done onward =>
    rw [deed_retarget] at done
    rw [done] at made
    refine .onward (n := { l with rest := strip rest, core := _ }) path executed active first ?_
      ⟨onward.core, onward.address ▸ after, onward.calls ▸ here.calls⟩ onward.quiet
    simp only [move, remains, external, ← here.core, done, made, Deed.made]
  | branch done onward =>
    rw [deed_retarget] at done
    rw [done] at made
    have branch : i.opcode.isBranch = true := by
      rcases deed_eq_branch done with opcode | ⟨condition, opcode, _⟩ <;> rw [opcode] <;> rfl
    obtain ⟨behind, found, stands⟩ := target branch
    refine .onward (n := { l with rest := behind }) path executed active first ?_
      ⟨onward.core.trans here.core, onward.address ▸ stands, onward.calls ▸ here.calls⟩ onward.quiet
    simp only [move, remains, external, ← here.core, done, made, Deed.made, Config.goto, found]
  | enter done room onward =>
    rw [deed_retarget] at done
    rw [done] at made
    obtain ⟨behind, found, stands⟩ := target (by rw [deed_eq_enter done]; rfl)
    refine .onward (n := { l with rest := behind, returns := strip rest :: l.returns }) path executed
      active first ?_
      ⟨onward.core.trans here.core, onward.address ▸ stands, ?_⟩ onward.quiet
    · have fits : ¬ m.environment.maxCallDepth ≤ (l.returns.length : Int) := by
        rw [← depth]
        exact Int.not_le.mpr room
      simp only [move, remains, external, ← here.core, done, made, Deed.made, Config.goto, found,
        if_neg fits]
    · rw [onward.calls]
      exact .cons after here.calls
  | leave done top onward =>
    rw [deed_retarget] at done
    rw [done] at made
    have calls := here.calls
    rw [top] at calls
    cases returns : l.returns with
    | nil => simp [returns] at calls
    | cons back returns' =>
      rw [returns] at calls
      cases calls with
      | cons stands calls =>
        refine .onward (n := { l with rest := back, returns := returns' }) path executed active first ?_
          ⟨onward.core.trans here.core, onward.address ▸ stands, onward.calls ▸ calls⟩ onward.quiet
        simp only [move, remains, external, ← here.core, done, made, Deed.made, returns]
  | exit done after =>
    rw [deed_retarget] at done
    rw [done] at made
    refine .exit path ?_
    simp only [move, remains, external, ← here.core, done, made, Deed.made, after]
  | fault done after =>
    rw [deed_retarget] at done
    rw [done] at made
    refine .fault path ?_ executed first
    simp only [move, remains, external, ← here.core, done, made, Deed.made, after]
  | overflow done full after =>
    rw [deed_retarget] at done
    rw [done] at made
    refine .fault path ?_ executed first
    rw [depth] at full ⊢
    have filled : m.environment.maxCallDepth ≤ (l.returns.length : Int) := full
    simp only [move, remains, external, ← here.core, done, made, Deed.made, after, if_pos filled]
  | underflow done empty after =>
    rw [deed_retarget] at done
    rw [done] at made
    refine .fault path ?_ executed first
    have returns : l.returns = [] := List.length_eq_zero_iff.mp (by rw [← depth, empty]; rfl)
    simp only [move, remains, external, ← here.core, done, made, Deed.made, after, returns]
  | imposed disturbed cause => exact .imposed disturbed cause

-- The turn of a line marker.
theorem followed_of_mark {m : Machine World Watch} {code pre rest : List Instruction}
    {s : RunState World Watch} {k l : Config World} {i : Instruction}
    {result : EStateM.Result RuntimeError (RunState World Watch) (Option Value)}
    (path : Passes k l) (here : At code s l)
    (split : code = pre ++ i :: rest) (place : s.address = Link.address pre)
    (remains : l.rest = strip rest) (is : i.opcode = .debugLine)
    (made : m.made s = (deed m.externals i s.toCore).made) (inside : s.address < m.code.size)
    (turn : Turn m (Link.retarget (Link.addresses code 0) i) s result) :
    Followed m code s k result := by
  have does : deed m.externals (Link.retarget (Link.addresses code 0) i) s.toCore =
      .proceed s.toCore [] := by
    rw [deed_retarget]
    simp only [deed, is]
  have after : Stands code (s.address + 1) (strip rest) :=
    ⟨pre ++ [i], rest, by simp [split],
      by simp [Link.address_cons_other (by simp [is] : i.opcode ≠ .label), place], rfl⟩
  rw [deed_retarget] at does
  rw [does] at made
  rw [← deed_retarget m.externals (Link.addresses code 0)] at does
  cases turn with
  | proceed done onward =>
    rw [does] at done
    cases done
    exact .mark path ⟨onward.core.trans here.core, onward.address ▸ remains ▸ after,
      onward.calls ▸ here.calls⟩ onward.quiet made inside onward.address
      (instructionAt_eq split place (by simp [is])) is
  | imposed disturbed cause => exact .imposed disturbed cause
  | branch done _ | enter done _ _ | leave done _ _ | exit done _ | fault done _
  | overflow done _ _ | underflow done _ _ =>
    rw [does] at done
    cases done

theorem step_followed {m : Machine World Watch} {code : List Instruction}
    {s : RunState World Watch} {k : Config World} (runs : Runs m code) (here : At code s k) :
    Followed m code s k (Exec.step m s) := by
  obtain ⟨l, pre, rest, path, there, split, place, remains, notLabel⟩ := here.settle
  have inside : 0 ≤ s.address := by omega
  have index : s.address.toNat = Link.address pre := by omega
  cases rest with
  | nil =>
    have past : m.code[s.address.toNat]? = none := by
      rw [runs.linked, List.getElem?_toArray, List.getElem?_eq_none_iff, Link.length_linked, index,
        split, List.append_nil]
    rcases Exec.step_turn runs.fair inside with ⟨_, ended⟩ | ⟨i, present, _⟩
    · rw [ended]
      refine .exit path ?_
      simp only [move, remains, strip_nil, Machine.made, past, there.core]
    · rw [past] at present
      cases present
  | cons i rest =>
    have other : i.opcode ≠ .label := notLabel i rfl
    have present : m.code[s.address.toNat]? = some (Link.retarget (Link.addresses code 0) i) := by
      rw [runs.linked, List.getElem?_toArray, index, Link.linked_getElem? split other]
    have made : m.made s = (deed m.externals i s.toCore).made := by
      simp only [Machine.made, present, deed_retarget]
    rcases Exec.step_turn runs.fair inside with ⟨missing, _⟩ | ⟨j, found, turn⟩
    · rw [present] at missing
      cases missing
    · rw [present] at found
      cases found
      by_cases mark : i.opcode = .debugLine
      · have bound : s.address < m.code.size := by
          obtain ⟨bound, _⟩ := Array.getElem?_eq_some_iff.mp present
          omega
        exact followed_of_mark path there split place (by rw [remains, strip_cons_debugLine mark])
          mark made bound turn
      · exact followed_of_turn runs path there split place
          (by rw [remains, strip_cons_other mark]) other mark made turn

end Linked

-- The host calls of a run, in order.
def Machine.hostCalls (m : Machine World Watch) : Nat → RunState World Watch → List HostCall
  | 0, _ => []
  | fuel + 1, s =>
    m.made s ++ match Exec.step m s with
      | .ok none t => m.hostCalls fuel t
      | _ => []

-- Any number of steps that do not end the run.
inductive Reaches (m : Machine World Watch) :
    RunState World Watch → RunState World Watch → Prop where
  | refl {s : RunState World Watch} : Reaches m s s
  | head {s t u : RunState World Watch} :
      Exec.step m s = .ok none t → Reaches m t u → Reaches m s u

-- The outcome of a run of the machine tells the outcome of the program.
def Reports (seen : Except RuntimeError Value) (outcome : Except RuntimeFault Value) : Prop :=
  match seen, outcome with
  | .ok v, .ok w => v = w
  | .error e, .error f => e.code = f.code
  | _, _ => False

namespace Linked

-- The symbolic run goes along with the machine to every state that it reaches.
theorem At.follow {m : Machine World Watch} {code : List Instruction} {s t : RunState World Watch}
    {k : Config World} (runs : Runs m code) (here : At code s k) (reached : Reaches m s t) :
    ∃ l made, Steps m.environment (strip code) k made l ∧ At code t l := by
  induction reached generalizing k with
  | refl => exact ⟨k, [], .refl, here⟩
  | head stepped _ ih =>
    have followed := step_followed runs here
    rw [stepped] at followed
    cases followed with
    | mark path there =>
      obtain ⟨l, made, later, final⟩ := ih there
      exact ⟨l, _, path.steps.trans later, final⟩
    | onward path _ _ _ moved there =>
      obtain ⟨l, made, later, final⟩ := ih there
      exact ⟨l, _, (path.steps.trans (.single moved)).trans later, final⟩

-- A run of the machine that nothing disturbs ends as the symbolic one.
theorem At.ends {m : Machine World Watch} {code : List Instruction} {s t : RunState World Watch}
    {k : Config World} {fuel : Nat} {seen : Except RuntimeError Value} (runs : Runs m code)
    (here : At code s k) (quiet : Undisturbed m s) (ran : m.runFrom fuel s = some (seen, t)) :
    ∃ n outcome, Ends m.environment (strip code) n k (m.hostCalls fuel s) outcome t.toCore ∧
      Reports seen outcome := by
  induction fuel generalizing s k with
  | zero => cases ran
  | succ fuel ih =>
    unfold Machine.runFrom at ran
    unfold Machine.hostCalls
    have followed := step_followed runs here
    cases stepped : Exec.step m s with
    | ok result u =>
      rw [stepped] at followed ran
      cases followed with
      | mark path there calm silent =>
        obtain ⟨n, outcome, ends, reports⟩ := ih there (calm quiet) ran
        obtain ⟨n, ends⟩ := path.steps.ends ends
        exact ⟨n, outcome, by simpa only [silent] using ends, reports⟩
      | onward path _ _ _ moved there calm =>
        obtain ⟨n, outcome, ends, reports⟩ := ih there (calm quiet) ran
        obtain ⟨n, ends⟩ := path.steps.ends (.next moved ends)
        exact ⟨n, outcome, ends, reports⟩
      | exit path stopped =>
        cases ran
        obtain ⟨n, ends⟩ := path.steps.ends (.stop stopped)
        exact ⟨n, .ok _, by simpa only [List.append_nil, List.nil_append] using ends, rfl⟩
    | error e u =>
      rw [stepped] at followed ran
      cases ran
      cases followed with
      | fault path stopped =>
        obtain ⟨n, ends⟩ := path.steps.ends (.stop stopped)
        exact ⟨n, .error _, by simpa only [List.append_nil, List.nil_append] using ends, rfl⟩
      | imposed disturbed => exact absurd quiet disturbed

-- And the other way round: where the symbolic run ends, the machine does.
theorem At.runs {m : Machine World Watch} {code : List Instruction} {s : RunState World Watch}
    {k : Config World} {n : Nat} {calls : List HostCall} {outcome : Except RuntimeFault Value}
    {core : Core World} (runs : Runs m code) (here : At code s k) (quiet : Undisturbed m s)
    (ends : Ends m.environment (strip code) n k calls outcome core) :
    ∃ fuel seen t, m.runFrom fuel s = some (seen, t) ∧ m.hostCalls fuel s = calls ∧
      t.toCore = core ∧ Reports seen outcome := by
  -- Line markers take a step of the machine and no move: the rest of the code bounds their number.
  induction n using Nat.strong_induction_on generalizing s k calls with
  | _ n byMoves =>
    generalize left : (m.code.size - s.address).toNat = distance
    induction distance using Nat.strong_induction_on generalizing s k calls with
    | _ distance byMarks =>
      have followed := step_followed runs here
      cases stepped : Exec.step m s with
      | ok result u =>
        rw [stepped] at followed
        cases followed with
        | mark path there calm silent inside next =>
          obtain ⟨n', shorter, last⟩ := ends.of_silent path.steps
          have closer : (m.code.size - u.address).toNat < distance := by omega
          have further : ∃ fuel seen t, m.runFrom fuel u = some (seen, t) ∧
              m.hostCalls fuel u = calls ∧ t.toCore = core ∧ Reports seen outcome := by
            rcases Nat.lt_or_eq_of_le shorter with fewer | rfl
            · exact byMoves n' fewer there (calm quiet) last
            · exact byMarks _ closer there (calm quiet) last rfl
          obtain ⟨fuel, seen, t, ran, made, final⟩ := further
          refine ⟨fuel + 1, seen, t, ?_, ?_, final⟩
          · simp only [Machine.runFrom, stepped, ran]
          · simp only [Machine.hostCalls, stepped, silent, made, List.nil_append]
        | onward path _ _ _ moved there calm =>
          obtain ⟨n', shorter, last⟩ := ends.of_silent path.steps
          obtain ⟨n'', more, rfl, rfl, later⟩ := last.of_next moved
          obtain ⟨fuel, seen, t, ran, made, final⟩ :=
            byMoves n'' (by omega) there (calm quiet) later
          refine ⟨fuel + 1, seen, t, ?_, ?_, final⟩
          · simp only [Machine.runFrom, stepped, ran]
          · simp only [Machine.hostCalls, stepped, made]
        | exit path stopped =>
          obtain ⟨n', shorter, last⟩ := ends.of_silent path.steps
          obtain ⟨rfl, rfl, rfl⟩ := last.of_stop stopped
          refine ⟨1, .ok _, u, ?_, ?_, rfl, rfl⟩
          · simp only [Machine.runFrom, stepped]
          · simp only [Machine.hostCalls, stepped, List.append_nil]
      | error e u =>
        rw [stepped] at followed
        cases followed with
        | @fault f _ w _ path stopped =>
          obtain ⟨n', shorter, last⟩ := ends.of_silent path.steps
          obtain ⟨rfl, rfl, rfl⟩ := last.of_stop stopped
          refine ⟨1, .error (w.error f), u, ?_, ?_, rfl, rfl⟩
          · simp only [Machine.runFrom, stepped]
          · simp only [Machine.hostCalls, stepped, List.append_nil]
        | imposed disturbed => exact absurd quiet disturbed

-- The symbolic state in which a run starts.
def startConfig (code : List Instruction) (s : RunState World Watch) : Config World :=
  ⟨strip code, [], s.toCore⟩

theorem at_start (code : List Instruction) (around : Surroundings World Watch)
    (context : Context) :
    At code (Machine.start around context) (startConfig code (Machine.start around context)) :=
  ⟨rfl, stands_start code, .nil⟩

end Linked

end ScalarScript
