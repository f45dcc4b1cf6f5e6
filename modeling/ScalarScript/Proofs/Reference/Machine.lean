import ScalarScript.Proofs.Reference.Program
import ScalarScript.Proofs.Typing.Accepted
/-!
The machine does what the program does. Its journal tells the steps of the program and the calls of
the host in their order.
-/
namespace ScalarScript

open Symbolic Linked

variable {World Watch : Type}

-- Where the instructions that linking keeps stood, line markers left out.
def placesOf : List Instruction → Nat → List (Option Nat)
  | [], _ => []
  | i :: rest, next =>
    match i.opcode with
    | .label => placesOf rest (next + 1)
    | .debugLine => none :: placesOf rest next
    | _ => some next :: placesOf rest (next + 1)

def placeAt (code : List Instruction) (address : Int) : Option Nat :=
  (placesOf code 0)[address.toNat]?.join

-- What can be seen of the next step of the machine.
def Machine.events (m : Machine World Watch) (code : List Instruction) (marks : Nat → Bool)
    (s : RunState World Watch) : List Event :=
  ((placeAt code s.address).map (named marks)).getD [] ++ (m.made s).map .call

-- What can be seen of so many steps.
def Machine.journal (m : Machine World Watch) (code : List Instruction) (marks : Nat → Bool) :
    Nat → RunState World Watch → List Event
  | 0, _ => []
  | fuel + 1, s =>
    m.events code marks s ++ match Exec.step m s with
      | .ok none t => m.journal code marks fuel t
      | _ => []

theorem placesOf_label {i : Instruction} (is : i.opcode = .label) (rest : List Instruction)
    (next : Nat) : placesOf (i :: rest) next = placesOf rest (next + 1) := by
  simp [placesOf, is]

theorem placesOf_mark {i : Instruction} (is : i.opcode = .debugLine) (rest : List Instruction)
    (next : Nat) : placesOf (i :: rest) next = none :: placesOf rest next := by
  simp [placesOf, is]

theorem placesOf_other {i : Instruction} (label : i.opcode ≠ .label) (mark : i.opcode ≠ .debugLine)
    (rest : List Instruction) (next : Nat) :
    placesOf (i :: rest) next = some next :: placesOf rest (next + 1) := by
  rw [placesOf]
  split
  · contradiction
  · contradiction
  · rfl

theorem placesOf_append (pre rest : List Instruction) (next : Nat) :
    (placesOf (pre ++ rest) next).drop (Link.address pre) =
      placesOf rest (next + (strip pre).length) := by
  induction pre generalizing next with
  | nil => rfl
  | cons i pre ih =>
    rw [List.cons_append]
    by_cases label : i.opcode = .label
    · rw [placesOf_label label, Link.address_cons_label label, ih,
        strip_cons_other (by simp [label])]
      congr 1
      simp
      omega
    · rw [Link.address_cons_other label]
      by_cases mark : i.opcode = .debugLine
      · rw [placesOf_mark mark, List.drop_succ_cons, ih, strip_cons_debugLine mark]
      · rw [placesOf_other label mark, List.drop_succ_cons, ih, strip_cons_other mark]
        congr 1
        simp
        omega

section

variable {code pre rest : List Instruction} {i : Instruction} {address : Int}

theorem placeAt_split (split : code = pre ++ rest) (place : address = Link.address pre) :
    placeAt code address = (placesOf rest (strip pre).length).head?.join := by
  have here := placesOf_append pre rest 0
  rw [placeAt, place, Int.toNat_natCast, split, ← List.head?_drop, here, Nat.zero_add]

theorem placeAt_mark (split : code = pre ++ i :: rest) (place : address = Link.address pre)
    (is : i.opcode = .debugLine) : placeAt code address = none := by
  rw [placeAt_split split place, placesOf_mark is]
  rfl

theorem placeAt_other (split : code = pre ++ i :: rest) (place : address = Link.address pre)
    (label : i.opcode ≠ .label) (mark : i.opcode ≠ .debugLine) :
    placeAt code address = some (strip pre).length := by
  rw [placeAt_split split place, placesOf_other label mark]
  rfl

end

-- The state without the labels in front of the code that remains.
def Symbolic.Config.settled (k : Config World) : Config World :=
  { k with rest := k.rest.dropWhile (·.opcode = .label) }

namespace Linked

theorem Passes.settled_eq {k l : Config World} (passes : Passes k l) : l.settled = k.settled := by
  induction passes with
  | refl => rfl
  | @label k l i rest here is later ih =>
    rw [ih, Config.settled, Config.settled, here, List.dropWhile_cons_of_pos (by simpa using is)]

theorem settled_of_head {k : Config World} {i : Instruction} {rest : List Instruction}
    (first : k.rest = i :: rest) (active : i.opcode ≠ .label) : k.settled = k := by
  rw [Config.settled, first, List.dropWhile_cons_of_neg (by simpa using active), ← first]

theorem Passes.eq_of_head {k l : Config World} {i : Instruction} {rest : List Instruction}
    (passes : Passes k l) (first : k.rest = i :: rest) (active : i.opcode ≠ .label) : l = k := by
  cases passes with
  | refl => rfl
  | label here is _ =>
    rw [first] at here
    cases here
    exact absurd is active

-- The machine is in the state, apart from labels in front of the code.
def Near (code : List Instruction) (s : RunState World Watch) (k : Config World) : Prop :=
  ∃ j, At code s j ∧ j.settled = k.settled

theorem Near.label {code : List Instruction} {s : RunState World Watch} {k : Config World}
    {i : Instruction} {rest : List Instruction} (near : Near code s k) (first : k.rest = i :: rest)
    (is : i.opcode = .label) : Near code s { k with rest } := by
  obtain ⟨j, here, same⟩ := near
  refine ⟨j, here, same.trans ?_⟩
  rw [Config.settled, Config.settled, first, List.dropWhile_cons_of_pos (by simpa using is)]

-- A line marker takes a step in which nothing happens.
theorem At.step_mark {m : Machine World Watch} {code pre rest : List Instruction}
    {s : RunState World Watch} {k : Config World} {i : Instruction} (runs : Runs m code)
    (here : At code s k) (quiet : Undisturbed m s) (split : code = pre ++ i :: rest)
    (place : s.address = Link.address pre) (remains : k.rest = strip rest)
    (is : i.opcode = .debugLine) :
    ∃ t, Exec.step m s = .ok none t ∧ At code t k ∧ Undisturbed m t ∧ m.made s = [] ∧
      s.address < m.code.size ∧ t.address = s.address + 1 ∧ t.calls = s.calls := by
  have other : i.opcode ≠ .label := by simp [is]
  have inside : 0 ≤ s.address := by omega
  have index : s.address.toNat = Link.address pre := by omega
  have present : m.code[s.address.toNat]? = some (Link.retarget (Link.addresses code 0) i) := by
    rw [runs.linked, List.getElem?_toArray, index, Link.linked_getElem? split other]
  have below : s.address < m.code.size := by
    obtain ⟨bound, _⟩ := Array.getElem?_eq_some_iff.mp present
    omega
  have does : deed m.externals (Link.retarget (Link.addresses code 0) i) s.toCore =
      .proceed s.toCore [] := by
    rw [deed_retarget]
    simp only [deed, is]
  have silent : m.made s = [] := by
    simp only [Machine.made, present, does, Deed.made]
  have after : Stands code (s.address + 1) (strip rest) :=
    ⟨pre ++ [i], rest, by simp [split], by simp [Link.address_cons_other other, place], rfl⟩
  rcases Exec.step_turn runs.fair inside with ⟨missing, _⟩ | ⟨j, found, turn⟩
  · rw [present] at missing
    cases missing
  rw [present] at found
  cases found
  generalize stepped : Exec.step m s = result at turn
  cases turn with
  | proceed done onward =>
    rw [does] at done
    cases done
    exact ⟨_, rfl, ⟨onward.core.trans here.core, onward.address ▸ remains ▸ after,
      onward.calls ▸ here.calls⟩, onward.quiet quiet, silent, below, onward.address, onward.calls⟩
  | imposed disturbed => exact absurd quiet disturbed
  | branch done _ | enter done _ _ | leave done _ _ | exit done _ | fault done _
  | overflow done _ _ | underflow done _ _ =>
    rw [does] at done
    cases done

end Linked

-- So many steps of the machine, with what can be seen of them.
inductive Proceeds (m : Machine World Watch) (code : List Instruction) (marks : Nat → Bool) :
    Nat → RunState World Watch → List Event → RunState World Watch → Prop where
  | refl {s : RunState World Watch} : Proceeds m code marks 0 s [] s
  | head {n : Nat} {s t u : RunState World Watch} {seen : List Event}
      (stepped : Exec.step m s = .ok none t) (later : Proceeds m code marks n t seen u) :
      Proceeds m code marks (n + 1) s (m.events code marks s ++ seen) u

namespace Proceeds

variable {m : Machine World Watch} {code : List Instruction} {marks : Nat → Bool} {n : Nat}
  {s t u : RunState World Watch} {seen : List Event}

theorem trans {k : Nat} {more : List Event} (first : Proceeds m code marks n s seen t)
    (second : Proceeds m code marks k t more u) :
    Proceeds m code marks (n + k) s (seen ++ more) u := by
  induction first with
  | refl => simpa using second
  | @head n _ _ _ _ stepped _ ih =>
    rw [Nat.add_right_comm, List.append_assoc]
    exact .head stepped (ih second)

-- The run goes on from there.
theorem runFrom (proceeds : Proceeds m code marks n s seen t) (fuel : Nat) :
    m.runFrom (n + fuel) s = m.runFrom fuel t := by
  induction proceeds with
  | refl => rw [Nat.zero_add]
  | @head n _ _ _ _ stepped _ ih => rw [Nat.add_right_comm, Machine.runFrom, stepped, ← ih]

theorem journal (proceeds : Proceeds m code marks n s seen t) (fuel : Nat) :
    m.journal code marks (n + fuel) s = seen ++ m.journal code marks fuel t := by
  induction proceeds with
  | refl => rw [Nat.zero_add, List.nil_append]
  | @head n _ _ _ _ stepped _ ih =>
    rw [Nat.add_right_comm, Machine.journal, stepped, List.append_assoc, ← ih]

end Proceeds

namespace Linked

variable {m : Machine World Watch} {code rest : List Instruction} {marks : Nat → Bool}
  {s : RunState World Watch} {k : Config World} {i : Instruction} {place : Nat}

-- The machine stands at an instruction.
structure Faces (m : Machine World Watch) (code : List Instruction) (s : RunState World Watch)
    (k : Config World) (i : Instruction) (place : Nat) : Prop where
  here : At code s k
  quiet : Undisturbed m s
  executed : instructionAt code s.address = some i
  plain : i.opcode ≠ .debugLine
  placed : placeAt code s.address = some place

-- Line markers in front of an instruction are passed.
theorem Near.reach (runs : Runs m code) (near : Near code s k) (quiet : Undisturbed m s)
    (first : k.rest = i :: rest) (active : i.opcode ≠ .label)
    (lies : LiesAt (strip code) place k.rest) :
    ∃ fuel t, Proceeds m code marks fuel s [] t ∧ Faces m code t k i place ∧
      t.calls = s.calls := by
  generalize left : (m.code.size - s.address).toNat = distance
  induction distance using Nat.strong_induction_on generalizing s with
  | _ distance ih =>
    obtain ⟨j, here, same⟩ := near
    obtain ⟨l, pre, behind, passes, there, split, address, remains, notLabel⟩ := here.settle
    have settled : l.settled = k :=
      passes.settled_eq.trans (same.trans (settled_of_head first active))
    cases behind with
    | nil =>
      rw [← settled, Config.settled, remains] at first
      cases first
    | cons x behind =>
      have label : x.opcode ≠ .label := notLabel x rfl
      by_cases mark : x.opcode = .debugLine
      · rw [strip_cons_debugLine mark] at remains
        obtain ⟨t, stepped, onward, calm, silent, inside, next, calls⟩ :=
          there.step_mark runs quiet split address remains mark
        have unseen : m.events code marks s = [] := by
          rw [Machine.events, placeAt_mark split address mark, silent]
          rfl
        obtain ⟨fuel, u, proceeds, faces, same⟩ := ih _ (by omega)
          ⟨l, onward, settled.trans (settled_of_head first active).symm⟩ calm rfl
        refine ⟨fuel + 1, u, ?_, faces, same.trans calls⟩
        have path := Proceeds.head stepped proceeds
        rwa [unseen] at path
      · rw [strip_cons_other mark] at remains
        obtain rfl : l = k := (settled_of_head remains label).symm.trans settled
        obtain ⟨rfl, rfl⟩ := List.cons.inj (remains.symm.trans first)
        refine ⟨0, s, .refl, ⟨there, quiet, instructionAt_eq split address label, mark, ?_⟩, rfl⟩
        rw [placeAt_other split address label mark, ← lies.place_eq, remains, split]
        simp [strip_cons_other mark]

theorem Faces.events (faces : Faces m code s k i place) :
    m.events code marks s = named marks place ++ (m.made s).map .call := by
  rw [Machine.events, faces.placed]
  rfl

-- A symbolic move is one of the machine.
theorem Faces.moves {n : Config World} {made : List HostCall} (runs : Runs m code)
    (faces : Faces m code s k i place) (first : k.rest = i :: rest) (active : i.opcode ≠ .label)
    (moved : move m.environment (strip code) k = .next n made) :
    ∃ t, Proceeds m code marks 1 s (named marks place ++ made.map .call) t ∧ At code t n ∧
      Undisturbed m t ∧ Exec.step m s = .ok none t := by
  have followed := step_followed runs faces.here
  generalize stepped : Exec.step m s = result at followed
  cases followed with
  | mark _ _ _ _ _ _ executed is =>
    rw [faces.executed] at executed
    cases executed
    exact absurd is faces.plain
  | onward path _ _ _ moved' there calm =>
    obtain rfl := path.eq_of_head first active
    rw [moved'] at moved
    cases moved
    have path : Proceeds m code marks 1 s _ _ := .head stepped .refl
    rw [faces.events, List.append_nil] at path
    exact ⟨_, path, there, calm faces.quiet, rfl⟩
  | exit path stopped =>
    obtain rfl := path.eq_of_head first active
    rw [stopped] at moved
    cases moved
  | fault path stopped =>
    obtain rfl := path.eq_of_head first active
    rw [stopped] at moved
    cases moved
  | imposed disturbed => exact absurd faces.quiet disturbed

-- Where the symbolic run stops, the machine does.
theorem Faces.stops {outcome : Except RuntimeFault Value} {core : Core World}
    {made : List HostCall} (runs : Runs m code) (faces : Faces m code s k i place)
    (first : k.rest = i :: rest) (active : i.opcode ≠ .label)
    (stopped : move m.environment (strip code) k = .stop outcome core made) :
    ∃ seen t, m.runFrom 1 s = some (seen, t) ∧ Reports seen outcome ∧ t.toCore = core ∧
      m.journal code marks 1 s = named marks place ++ made.map .call := by
  have followed := step_followed runs faces.here
  have events : m.events code marks s = _ := faces.events
  unfold Machine.runFrom Machine.journal
  generalize stepped : Exec.step m s = result at followed
  cases followed with
  | mark _ _ _ _ _ _ executed is =>
    rw [faces.executed] at executed
    cases executed
    exact absurd is faces.plain
  | onward path _ _ _ moved _ _ =>
    obtain rfl := path.eq_of_head first active
    rw [stopped] at moved
    cases moved
  | exit path stopped' =>
    obtain rfl := path.eq_of_head first active
    rw [stopped'] at stopped
    cases stopped
    exact ⟨_, _, rfl, rfl, rfl, by rw [events, List.append_nil]⟩
  | fault path stopped' =>
    obtain rfl := path.eq_of_head first active
    rw [stopped'] at stopped
    cases stopped
    exact ⟨_, _, rfl, rfl, rfl, by rw [events, List.append_nil]⟩
  | imposed disturbed => exact absurd faces.quiet disturbed

-- A step changes the calls by one at most.
theorem At.step_calls {t : RunState World Watch} {k : Config World} (runs : Runs m code)
    (here : At code s k) (stepped : Exec.step m s = .ok none t) {base : List Activation}
    (below : base <:+ s.calls) (deep : base.length ≤ t.calls.length) : base <:+ t.calls := by
  have inside : 0 ≤ s.address := by
    obtain ⟨pre, _, _, address, _⟩ := here.position
    omega
  rcases Exec.step_turn runs.fair inside with ⟨_, ended⟩ | ⟨j, _, turn⟩
  · rw [stepped] at ended
    cases ended
  rw [stepped] at turn
  cases turn with
  | proceed _ onward | branch _ onward => rwa [onward.calls]
  | enter _ _ onward =>
    rw [onward.calls]
    exact below.trans (List.suffix_cons _ _)
  | leave _ top onward =>
    rw [onward.calls] at deep ⊢
    rw [top] at below
    rcases List.suffix_cons_iff.mp below with rfl | later
    · rw [List.length_cons] at deep
      omega
    · exact later

-- A symbolic path is one of the machine.
theorem Near.follow {floor n : Nat} {l : Config World} {seen : List Event} (runs : Runs m code)
    (near : Near code s k) (quiet : Undisturbed m s)
    (path : Path m.environment (strip code) marks floor n k seen l) :
    ∃ fuel t, n ≤ fuel ∧ Proceeds m code marks fuel s seen t ∧ Near code t l ∧
      Undisturbed m t ∧
      ∀ base, base <:+ s.calls → base.length ≤ floor → base <:+ t.calls := by
  induction path generalizing s with
  | refl => exact ⟨0, s, Nat.le_refl 0, .refl, near, quiet, fun _ below _ => below⟩
  | label first is _ ih => exact ih (near.label first is) quiet
  | head first active lies moved deep _ ih =>
    obtain ⟨fuel, t, waits, faces, same⟩ := near.reach runs quiet first active lies
    obtain ⟨u, one, there, calm, stepped⟩ := faces.moves runs first active moved
    obtain ⟨more, v, enough, later, last, still, kept⟩ := ih ⟨_, there, rfl⟩ calm
    refine ⟨fuel + 1 + more, v, by omega, ?_, last, still, fun base below few => ?_⟩
    · simpa using (waits.trans one).trans later
    · refine kept base (faces.here.step_calls runs stepped (same ▸ below) ?_) few
      rw [there.calls.length_eq]
      exact few.trans deep

theorem Near.core_eq (near : Near code s k) : s.toCore = k.core := by
  obtain ⟨j, here, same⟩ := near
  have core : j.core = k.core := congrArg (·.core) same
  exact here.core.trans core

theorem Near.length_calls (near : Near code s k) : s.calls.length = k.returns.length := by
  obtain ⟨j, here, same⟩ := near
  have returns : j.returns = k.returns := congrArg (·.returns) same
  rw [here.calls.length_eq, returns]

end Linked

-- A run of the machine goes as an evaluation, and gets where it should.
def Machine.Mirrors {α : Type} (m : Machine World Watch) (code : List Instruction)
    (marks : Nat → Bool) (bound : Nat) (s : RunState World Watch)
    (there : α → Storage World → RunState World Watch → Prop) : Outcome World α → Prop
  | .done a after seen => ∃ fuel t, Proceeds m code marks fuel s seen t ∧ there a after t
  | .halted result after seen => ∃ fuel ending t, m.runFrom fuel s = some (ending, t) ∧
      Reports ending result ∧ t.toCore.storage = after ∧ m.journal code marks fuel s = seen
  | .spent seen => ∃ fuel t, bound ≤ fuel ∧ Proceeds m code marks fuel s seen t

theorem Machine.Mirrors.imp {α : Type} {m : Machine World Watch} {code : List Instruction}
    {marks : Nat → Bool} {bound : Nat} {s : RunState World Watch}
    {there onward : α → Storage World → RunState World Watch → Prop} {x : Outcome World α}
    (mirrors : m.Mirrors code marks bound s there x)
    (implies : ∀ a after t, there a after t → onward a after t) :
    m.Mirrors code marks bound s onward x := by
  cases x with
  | done a after seen =>
    obtain ⟨fuel, t, proceeds, reached⟩ := mirrors
    exact ⟨fuel, t, proceeds, implies _ _ _ reached⟩
  | halted result after seen => exact mirrors
  | spent seen => exact mirrors

-- What goes as an evaluation symbolically does so in the machine.
theorem Machine.mirrors {α : Type} {m : Machine World Watch} {code : List Instruction}
    {marks : Nat → Bool} {floor bound : Nat} {s : RunState World Watch} {k : Config World}
    {there : α → Storage World → Config World → Prop} {x : Outcome World α}
    (runs : Runs m code) (near : Near code s k) (quiet : Undisturbed m s)
    (deep : floor ≤ k.returns.length)
    (simulates : Simulates m.environment (strip code) marks floor bound k there x) :
    m.Mirrors code marks bound s (fun a after t => ∃ l, there a after l ∧ Near code t l ∧
      ∀ base, base <:+ s.calls → base.length ≤ floor → base <:+ t.calls) x := by
  cases simulates deep with
  | done path reached =>
    obtain ⟨fuel, t, _, proceeds, there, _, below⟩ := near.follow runs quiet path
    exact ⟨fuel, t, proceeds, _, reached, there, below⟩
  | @halted n place result core seen l i rest made path first lies stopped =>
    obtain ⟨fuel, t, _, proceeds, there, calm, _⟩ := near.follow runs quiet path
    have active : i.opcode ≠ .label := by
      intro is
      simp only [move, first, deed, is] at stopped
      cases stopped
    obtain ⟨more, u, waits, faces, _⟩ := there.reach runs calm first active lies
    obtain ⟨ending, last, ran, reports, final, seen⟩ := faces.stops runs first active stopped
    have way := proceeds.trans waits
    refine ⟨fuel + more + 1, ending, last, ?_, reports, by rw [final], ?_⟩
    · rw [way.runFrom, ran]
    · rw [way.journal, seen, List.append_nil]
  | spent path long =>
    obtain ⟨fuel, t, enough, proceeds, _⟩ := near.follow runs quiet path
    exact ⟨fuel, t, long.trans enough, proceeds⟩

-- A run that ended stays as it is with more steps to spare.
theorem Machine.runFrom_add {m : Machine World Watch} {fuel : Nat} {s : RunState World Watch}
    {ended : Except RuntimeError Value × RunState World Watch}
    (ran : m.runFrom fuel s = some ended) (code : List Instruction) (marks : Nat → Bool)
    (more : Nat) :
    m.runFrom (fuel + more) s = some ended ∧
      m.journal code marks (fuel + more) s = m.journal code marks fuel s := by
  induction fuel generalizing s with
  | zero => cases ran
  | succ fuel ih =>
    rw [Nat.add_right_comm]
    unfold Machine.runFrom at ran ⊢
    unfold Machine.journal
    generalize Exec.step m s = stepped at ran ⊢
    cases stepped with
    | error e t => exact ⟨ran, rfl⟩
    | ok result t =>
      cases result with
      | some v => exact ⟨ran, rfl⟩
      | none =>
        obtain ⟨again, same⟩ := ih ran
        exact ⟨again, congrArg (m.events code marks s ++ ·) same⟩

-- As long as steps are taken no run has ended.
theorem Proceeds.runFrom_eq_none {m : Machine World Watch} {code : List Instruction}
    {marks : Nat → Bool} {n fuel : Nat} {s t : RunState World Watch} {seen : List Event}
    (proceeds : Proceeds m code marks n s seen t) (fewer : fuel ≤ n) : m.runFrom fuel s = none := by
  induction proceeds generalizing fuel with
  | refl =>
    obtain rfl := Nat.le_zero.mp fewer
    rfl
  | head stepped _ ih =>
    cases fuel with
    | zero => rfl
    | succ fuel =>
      rw [Machine.runFrom, stepped]
      exact ih (Nat.le_of_succ_le_succ fewer)

-- What a run that ended comes to, the program comes to with that bound.
theorem Machine.Mirrors.of_ended {m : Machine World Watch} {code : List Instruction}
    {marks : Nat → Bool} {fuel : Nat} {s last : RunState World Watch} {x : Outcome World Unit}
    {ending : Except RuntimeError Value}
    (mirrors : m.Mirrors code marks fuel s (fun _ _ _ => False) x)
    (ran : m.runFrom fuel s = some (ending, last)) :
    ∃ result, x = .halted result last.toCore.storage (m.journal code marks fuel s) ∧
      Reports ending result := by
  cases x with
  | done a after seen =>
    obtain ⟨_, _, _, impossible⟩ := mirrors
    exact impossible.elim
  | spent seen =>
    obtain ⟨n, t, enough, proceeds⟩ := mirrors
    rw [proceeds.runFrom_eq_none enough] at ran
    cases ran
  | halted result after seen =>
    obtain ⟨other, ending', last', ran', reports, rfl, rfl⟩ := mirrors
    obtain ⟨long, same⟩ := runFrom_add ran code marks other
    obtain ⟨long', same'⟩ := runFrom_add ran' code marks fuel
    rw [Nat.add_comm, long, Option.some_inj, Prod.mk.injEq] at long'
    obtain ⟨rfl, rfl⟩ := long'
    refine ⟨result, ?_, reports⟩
    rw [← same, ← same', Nat.add_comm]

theorem BranchesDefined.strip {code : List Instruction} (defined : BranchesDefined code) :
    BranchesDefined (strip code) := by
  intro i member branches
  rw [labelsOf_strip]
  exact defined i (List.mem_filter.mp member).1 branches

-- The linked program takes the steps that the tree of its source prescribes, and calls the host as
-- it prescribes, whatever the host answers and however conditions turn out.
theorem Accepted.steps_prescribed {bindings : List (Binding World)} {source exitName : String}
    {bound : Bound World} {exitType : Option Ty} {p : Program} {m : Machine World Watch}
    {first : RunState World Watch} (accepted : Accepted bindings source exitName bound exitType p)
    (loads : m.Loads bound p) (starts : bound.Starts first) (quiet : Undisturbed m first) :
    ∃ tokens t depths, tokenize source = .ok tokens ∧
      Compiled tokens bound.declarations exitType p t depths ∧
      (∀ n, m.Mirrors p.code.toList t.steps n first (fun _ _ _ => False)
        (t.run (depths + 1) m.environment t.steps n first.toCore.storage)) ∧
      ∀ fuel ending last, m.runFrom fuel first = some (ending, last) → ∃ result,
        t.run (depths + 1) m.environment t.steps fuel first.toCore.storage =
          .halted result last.toCore.storage (m.journal p.code.toList t.steps fuel first) ∧
        Reports ending result := by
  obtain ⟨tokens, t, depths, read, compiled⟩ := accepted.tree
  have runs := loads.runs compiled.stage accepted.resolved
  have offers := (Binding.resolve_ok accepted.resolved).offers
  rw [← loads.externals] at offers
  have mirrors (n : Nat) : m.Mirrors p.code.toList t.steps n first (fun _ _ _ => False)
      (t.run (depths + 1) m.environment t.steps n first.toCore.storage) := by
    obtain ⟨world, watch, context, rfl⟩ := starts
    have unique := runs.unique
    have defined := runs.defined.strip
    rw [← labelsOf_strip, compiled.code] at unique
    rw [compiled.code] at defined
    have simulates := @Stmt.run_simulated _ m.environment t _ _ _ _ unique defined offers _
      t.spared_steps compiled.ok n
    rw [← compiled.code] at simulates
    have goes := Machine.mirrors runs ⟨_, at_start _ _ _, rfl⟩ quiet (Nat.zero_le _)
      (simulates _)
    exact goes.imp fun _ _ _ impossible => impossible.choose_spec.1
  exact ⟨tokens, t, depths, read, compiled, mirrors, fun fuel ending last ran =>
    (mirrors fuel).of_ended ran⟩

-- A program that calls its host and a function of its own.
theorem Sample.prescribed :
    ∃ (t : Stmt) (depths : Nat), ∀ n,
      Sample.machine.Mirrors Sample.program.code.toList t.steps n Sample.first
        (fun _ _ _ => False) (t.run (depths + 1) Sample.machine.environment t.steps n
          Sample.first.toCore.storage) := by
  have quiet : Undisturbed Sample.machine Sample.first := ⟨rfl, by decide, .inl rfl⟩
  obtain ⟨_, t, depths, _, _, mirrors, _⟩ :=
    Accepted.steps_prescribed Sample.accepted Sample.loads Sample.starts quiet
  exact ⟨t, depths, mirrors⟩

end ScalarScript
