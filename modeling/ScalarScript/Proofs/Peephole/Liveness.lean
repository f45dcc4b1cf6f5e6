import ScalarScript.Peephole.Liveness
import Mathlib.Data.List.Induction
import Mathlib.Logic.Relation
/-!
Liveness is reachability. A program with labels has a graph of control: from an instruction to the
one behind it, from a jump to its label, from a conditional jump to both. The search finds out
whether a read can be reached from a place, through instructions that pass on what is tracked.
-/
namespace ScalarScript

namespace Flow

variable {code : Array Instruction} {effect : Instruction → Effect}

-- The last label of that number stands at that place.
def Stands (code : Array Instruction) (id : Int) (place : Nat) : Prop :=
  (∃ i, code[place]? = some i ∧ i.opcode = .label ∧ i.target = id) ∧
    ∀ later i, place < later → code[later]? = some i → i.opcode = .label → i.target ≠ id

-- Where control may go from a place. An exit leads nowhere, and behind the last instruction there
-- is no way on.
inductive Edge (code : Array Instruction) : Nat → Nat → Prop where
  | behind {place : Nat} {i : Instruction} (here : code[place]? = some i)
      (stays : i.opcode ≠ .exit ∧ i.opcode ≠ .jump) : Edge code place (place + 1)
  | label {place target : Nat} {i : Instruction} (here : code[place]? = some i)
      (leads : i.opcode = .jump ∨ i.opcode.isConditionalJump = true)
      (stands : Stands code i.target target) : Edge code place target

-- What is tracked is read at a place. Where a label is missing, nobody knows who reads it.
inductive ReadAt (code : Array Instruction) (effect : Instruction → Effect) (place : Nat) : Prop where
  | reads {i : Instruction} (here : code[place]? = some i) (read : effect i = .read)
  | lost {i : Instruction} (here : code[place]? = some i) (pass : effect i = .pass)
      (leads : i.opcode = .jump ∨ i.opcode.isConditionalJump = true)
      (missing : ∀ target, ¬ Stands code i.target target)

-- An edge along which what is tracked goes on.
def Passes (code : Array Instruction) (effect : Instruction → Effect) (place next : Nat) : Prop :=
  (∃ i, code[place]? = some i ∧ effect i = .pass) ∧ Edge code place next

-- Some path on which what is tracked goes on comes to a place where it is read.
def Reaches (code : Array Instruction) (effect : Instruction → Effect) (start : Nat) : Prop :=
  ∃ place, Relation.ReflTransGen (Passes code effect) start place ∧ ReadAt code effect place

theorem Reaches.step {place next : Nat} (passes : Passes code effect place next)
    (reaches : Reaches code effect next) : Reaches code effect place := by
  obtain ⟨goal, path, reads⟩ := reaches
  exact ⟨goal, .head passes path, reads⟩

-- A set of places without a read, which no path leaves, is one from which no read is reached.
theorem not_reaches_of_closed (closed : Nat → Prop)
    (silent : ∀ place, closed place → ¬ ReadAt code effect place)
    (stays : ∀ place next, closed place → Passes code effect place next → closed next)
    {start : Nat} (inside : closed start) : ¬ Reaches code effect start := by
  rintro ⟨goal, path, reads⟩
  have arrived : closed goal := by
    clear reads
    induction path with
    | refl => exact inside
    | tail _ passes ih => exact stays _ _ ih passes
  exact silent goal arrived reads

-- The labels of a list, the last first.
def marks (xs : List Instruction) : List (Int × Nat) :=
  ((xs.zipIdx.filter fun (i, _) => i.opcode = .label).map fun (i, n) => (i.target, n)).reverse

theorem marks_concat (xs : List Instruction) (i : Instruction) :
    marks (xs ++ [i]) =
      if i.opcode = .label then (i.target, xs.length) :: marks xs else marks xs := by
  by_cases mark : i.opcode = .label <;> simp [marks, List.zipIdx_append, mark]

-- Of a list that grows, the instruction added is the last label of its number, and no other label
-- changes.
theorem stands_concat_of_label {xs : List Instruction} {i : Instruction} (mark : i.opcode = .label)
    {place : Nat} : Stands (xs ++ [i]).toArray i.target place ↔ place = xs.length := by
  simp only [Stands, List.getElem?_toArray]
  have last : (xs ++ [i])[xs.length]? = some i := by simp
  have bound {n : Nat} {j : Instruction} (found : (xs ++ [i])[n]? = some j) : n ≤ xs.length := by
    have inside := (List.getElem?_eq_some_iff.mp found).1
    rw [List.length_append, List.length_singleton] at inside
    omega
  constructor
  · rintro ⟨⟨j, found, _, _⟩, latest⟩
    by_contra other
    have := bound found
    exact latest xs.length i (by omega) last mark rfl
  · rintro rfl
    exact ⟨⟨i, last, mark, rfl⟩, fun later j behind found => absurd (bound found) (by omega)⟩

theorem stands_concat_of_other {xs : List Instruction} {i : Instruction} {id : Int}
    (other : ¬ (i.opcode = .label ∧ i.target = id)) {place : Nat} :
    Stands (xs ++ [i]).toArray id place ↔ Stands xs.toArray id place := by
  simp only [Stands, List.getElem?_toArray]
  -- a label of that number stands in the list as it was
  have same (n : Nat) (j : Instruction) (named : j.opcode = .label ∧ j.target = id) :
      (xs ++ [i])[n]? = some j ↔ xs[n]? = some j := by
    rw [List.getElem?_append]
    split
    · rfl
    · rename_i behind
      have none : xs[n]? = none := List.getElem?_eq_none (by omega)
      rw [none, List.getElem?_singleton]
      have new : i ≠ j := by
        rintro rfl
        exact other named
      split <;> simp [new]
  constructor
  · rintro ⟨⟨j, found, named⟩, latest⟩
    exact ⟨⟨j, (same _ _ named).mp found, named⟩, fun later k behind found mark is =>
      latest later k behind ((same _ _ ⟨mark, is⟩).mpr found) mark is⟩
  · rintro ⟨⟨j, found, named⟩, latest⟩
    exact ⟨⟨j, (same _ _ named).mpr found, named⟩, fun later k behind found mark is =>
      latest later k behind ((same _ _ ⟨mark, is⟩).mp found) mark is⟩

theorem lookup_marks {xs : List Instruction} {id : Int} {place : Nat} :
    (marks xs).lookup id = some place ↔ Stands xs.toArray id place := by
  induction xs using List.reverseRecOn with
  | nil => simp [marks, Stands]
  | append_singleton xs i ih =>
    rw [marks_concat]
    by_cases named : i.opcode = .label ∧ i.target = id
    · obtain ⟨mark, rfl⟩ := named
      rw [if_pos mark, List.lookup_cons_self, Option.some.injEq, stands_concat_of_label mark, eq_comm]
    · rw [stands_concat_of_other named, ← ih]
      split
      · rename_i mark
        have other : (id == i.target) = false := by
          simpa using fun same : id = i.target => named ⟨mark, same.symm⟩
        rw [List.lookup_cons, other]
      · rfl

theorem label?_eq_some {id : Int} {place : Nat} :
    (Flow.of code).label? id = some place ↔ Stands code id place := lookup_marks

theorem label?_eq_none {id : Int} :
    (Flow.of code).label? id = none ↔ ∀ place, ¬ Stands code id place := by
  simp only [Option.eq_none_iff_forall_ne_some, ne_eq, label?_eq_some]

-- Where control goes on is where the edges lead.
theorem mem_successors? {place : Nat} {i : Instruction} {next : List Nat}
    (here : code[place]? = some i) (known : (Flow.of code).successors? place i = some next)
    (goal : Nat) : goal ∈ next ↔ Edge code place goal := by
  have same {j : Instruction} (there : code[place]? = some j) : j = i :=
    Option.some.inj (there.symm.trans here)
  unfold successors? at known
  split at known
  · rename_i exit
    cases known
    constructor
    · rintro ⟨⟩
    · rintro (⟨there, stays⟩ | ⟨there, leads, _⟩) <;> cases same there
      · exact absurd exit stays.1
      · simp [exit, Opcode.isConditionalJump] at leads
  · rename_i jump
    obtain ⟨target, stands, rfl⟩ := Option.map_eq_some_iff.mp known
    rw [label?_eq_some] at stands
    constructor
    · intro member
      cases List.mem_singleton.mp member
      exact .label here (.inl jump) stands
    · rintro (⟨there, stays⟩ | ⟨there, _, other⟩) <;> cases same there
      · exact absurd jump stays.2
      · cases (label?_eq_some.mpr other).symm.trans (label?_eq_some.mpr stands)
        exact List.mem_singleton_self _
  · rename_i condition jump
    obtain ⟨target, stands, rfl⟩ := Option.map_eq_some_iff.mp known
    rw [label?_eq_some] at stands
    constructor
    · intro member
      rcases List.mem_cons.mp member with rfl | member
      · exact .label here (.inr (by simp [jump, Opcode.isConditionalJump])) stands
      · cases List.mem_singleton.mp member
        exact .behind here (by simp [jump])
    · rintro (⟨there, stays⟩ | ⟨there, _, other⟩) <;> cases same there
      · simp
      · cases (label?_eq_some.mpr other).symm.trans (label?_eq_some.mpr stands)
        exact List.mem_cons_self
  · rename_i exit jump branch
    cases known
    constructor
    · intro member
      cases List.mem_singleton.mp member
      exact .behind here ⟨exit, jump⟩
    · rintro (⟨there, stays⟩ | ⟨there, leads, _⟩) <;> cases same there
      · simp
      · rcases leads with is | is
        · exact absurd is jump
        · cases opcode : i.opcode <;> simp [opcode, Opcode.isConditionalJump] at is
          exact absurd opcode (branch _)

theorem successors?_eq_none {place : Nat} {i : Instruction} :
    (Flow.of code).successors? place i = none ↔
      (i.opcode = .jump ∨ i.opcode.isConditionalJump = true) ∧
        ∀ target, ¬ Stands code i.target target := by
  unfold successors?
  split
  · rename_i exit
    simp [exit, Opcode.isConditionalJump]
  · rename_i jump
    simp [jump, label?_eq_none]
  · rename_i condition jump
    simp [jump, label?_eq_none, Opcode.isConditionalJump]
  · rename_i exit jump branch
    have other : i.opcode.isConditionalJump = false := by
      cases opcode : i.opcode <;> simp [Opcode.isConditionalJump]
      exact branch _ opcode
    simp [other, show i.opcode ≠ .jump from jump]

theorem length_successors? {f : Flow} {place : Nat} {i : Instruction} {next : List Nat}
    (known : f.successors? place i = some next) : next.length ≤ 2 := by
  unfold successors? at known
  split at known
  · cases known
    simp
  · obtain ⟨_, _, rfl⟩ := Option.map_eq_some_iff.mp known
    simp
  · obtain ⟨_, _, rfl⟩ := Option.map_eq_some_iff.mp known
    simp
  · cases known
    simp

-- A search that finds a read has a path to it.
theorem reaches_of_search {steps : Nat} {visited : Array Bool} {pending : List Nat}
    (found : (Flow.of code).search effect steps visited pending = true) :
    ∃ place ∈ pending, Reaches code effect place := by
  fun_induction search (Flow.of code) effect steps visited pending with
  | case1 => cases found
  | case2 => cases found
  | case3 steps visited place pending outside ih =>
    obtain ⟨goal, member, reaches⟩ := ih found
    exact ⟨goal, List.mem_cons_of_mem _ member, reaches⟩
  | case4 steps visited place pending i here seen ih =>
    obtain ⟨goal, member, reaches⟩ := ih found
    exact ⟨goal, List.mem_cons_of_mem _ member, reaches⟩
  | case5 steps visited place pending i here fresh read =>
    exact ⟨place, List.mem_cons_self, place, .refl, .reads here read⟩
  | case6 steps visited place pending i here fresh _ kill ih =>
    obtain ⟨goal, member, reaches⟩ := ih found
    exact ⟨goal, List.mem_cons_of_mem _ member, reaches⟩
  | case7 steps visited place pending i here fresh pass lost =>
    obtain ⟨leads, missing⟩ := successors?_eq_none.mp lost
    exact ⟨place, List.mem_cons_self, place, .refl, .lost here pass leads missing⟩
  | case8 steps visited place pending i here fresh _ pass next known ih =>
    obtain ⟨goal, member, reaches⟩ := ih found
    rcases List.mem_append.mp member with new | old
    · have edge := (mem_successors? here known goal).mp new
      exact ⟨place, List.mem_cons_self, .step ⟨⟨i, here, pass⟩, edge⟩ reaches⟩
    · exact ⟨goal, List.mem_cons_of_mem _ old, reaches⟩

-- A search has been at a place, or is still to come there. What lies behind the program counts as
-- visited.
def Met (visited : Array Bool) (pending : List Nat) (place : Nat) : Prop :=
  visited[place]? ≠ some false ∨ place ∈ pending

theorem Met.again {visited : Array Bool} {place p : Nat} {pending : List Nat}
    (seen : visited[place]? ≠ some false) (met : Met visited (place :: pending) p) :
    Met visited pending p := by
  rcases met with old | member
  · exact .inl old
  · rcases List.mem_cons.mp member with rfl | later
    · exact .inl seen
    · exact .inr later

theorem seen_visit {visited : Array Bool} {place p : Nat} :
    (visited.setIfInBounds place true)[p]? ≠ some false ↔ p = place ∨ visited[p]? ≠ some false := by
  rw [Array.getElem?_setIfInBounds]
  by_cases here : place = p
  · subst here
    simp
  · simp [here, Ne.symm here]

theorem Met.visit {visited : Array Bool} {place p : Nat} {pending : List Nat} (next : List Nat)
    (met : Met visited (place :: pending) p) :
    Met (visited.setIfInBounds place true) (next ++ pending) p := by
  rcases met with old | member
  · exact .inl (seen_visit.mpr (.inr old))
  · rcases List.mem_cons.mp member with rfl | later
    · exact .inl (seen_visit.mpr (.inl rfl))
    · exact .inr (List.mem_append_right _ later)

-- Where a search stands: nothing is read at the places visited, and they pass on to places that it
-- has met.
structure Explored (code : Array Instruction) (effect : Instruction → Effect)
    (visited : Array Bool) (pending : List Nat) : Prop where
  size : visited.size = code.size
  silent : ∀ place, visited[place]? ≠ some false → ¬ ReadAt code effect place
  onward : ∀ place next, visited[place]? ≠ some false → Passes code effect place next →
    Met visited pending next

theorem ReadAt.inside {place : Nat} (reads : ReadAt code effect place) : place < code.size := by
  cases reads with
  | reads here _ | lost here _ _ _ => exact (Array.getElem?_eq_some_iff.mp here).1

theorem Passes.inside {place next : Nat} (passes : Passes code effect place next) :
    place < code.size := by
  obtain ⟨⟨i, here, _⟩, _⟩ := passes
  exact (Array.getElem?_eq_some_iff.mp here).1

theorem Explored.start (pending : List Nat) :
    Explored code effect (Array.replicate code.size false) pending := by
  have outside {place : Nat} (visited : (Array.replicate code.size false)[place]? ≠ some false) :
      ¬ place < code.size := by
    intro inside
    exact visited (by rw [Array.getElem?_replicate, if_pos inside])
  exact ⟨Array.size_replicate, fun place visited reads => outside visited reads.inside,
    fun place next visited passes => absurd passes.inside (outside visited)⟩

-- A place that was visited before need not be visited again.
theorem Explored.again {visited : Array Bool} {place : Nat} {pending : List Nat}
    (explored : Explored code effect visited (place :: pending))
    (seen : visited[place]? ≠ some false) : Explored code effect visited pending :=
  ⟨explored.size, explored.silent, fun p next done passes =>
    (explored.onward p next done passes).again seen⟩

-- A place visited for the first time, where nothing is read.
theorem Explored.visit {visited : Array Bool} {place : Nat} {pending next : List Nat}
    (explored : Explored code effect visited (place :: pending))
    (silent : ¬ ReadAt code effect place)
    (onward : ∀ goal, Passes code effect place goal → goal ∈ next) :
    Explored code effect (visited.setIfInBounds place true) (next ++ pending) := by
  refine ⟨by rw [Array.size_setIfInBounds, explored.size], fun p seen => ?_,
    fun p goal seen passes => ?_⟩
  · rcases seen_visit.mp seen with rfl | old
    · exact silent
    · exact explored.silent p old
  · rcases seen_visit.mp seen with rfl | old
    · exact .inr (List.mem_append_left _ (onward goal passes))
    · exact (explored.onward p goal old passes).visit next

theorem Explored.done {visited : Array Bool} (explored : Explored code effect visited [])
    {place : Nat} (met : Met visited [] place) : ¬ Reaches code effect place := by
  refine not_reaches_of_closed (fun p => visited[p]? ≠ some false) explored.silent ?_
    (met.resolve_right List.not_mem_nil)
  intro p next seen passes
  exact (explored.onward p next seen passes).resolve_right List.not_mem_nil

-- What is left to do: a place to visit may leave two pending ones behind.
def remaining (visited : Array Bool) (pending : List Nat) : Nat :=
  2 * visited.count false + pending.length

theorem remaining_visit {visited : Array Bool} {place : Nat} (pending next : List Nat)
    (fresh : visited[place]? = some false) (few : next.length ≤ 2) :
    remaining (visited.setIfInBounds place true) (next ++ pending) <
      remaining visited (place :: pending) := by
  obtain ⟨inside, here⟩ := Array.getElem?_eq_some_iff.mp fresh
  have some : 0 < visited.count false := Array.count_pos_iff.mpr (here ▸ Array.getElem_mem inside)
  have count : (visited.setIfInBounds place true).count false = visited.count false - 1 := by
    rw [Array.setIfInBounds, dif_pos inside, Array.count_set, here]
    rfl
  simp only [remaining, count, List.length_append, List.length_cons]
  omega

-- A search that finds no read has looked everywhere.
theorem not_reaches_of_search {steps : Nat} {visited : Array Bool} {pending : List Nat}
    (explored : Explored code effect visited pending) (enough : remaining visited pending < steps)
    (none : (Flow.of code).search effect steps visited pending = false) :
    ∀ place, Met visited pending place → ¬ Reaches code effect place := by
  have less {visited : Array Bool} {place steps : Nat} {pending : List Nat}
      (enough : remaining visited (place :: pending) < steps + 1) :
      remaining visited pending < steps := by
    simp only [remaining, List.length_cons] at enough ⊢
    omega
  have unseen {visited : Array Bool} {place : Nat} (fresh : ¬ visited[place]?.getD true = true) :
      visited[place]? = some false := by
    cases known : visited[place]? with
    | none => simp [known] at fresh
    | some b => simpa [known] using fresh
  fun_induction search (Flow.of code) effect steps visited pending with
  | case1 => exact absurd enough (Nat.not_lt_zero _)
  | case2 steps visited => exact fun _ met => explored.done met
  | case3 steps visited place pending outside ih =>
    have seen : visited[place]? ≠ some false := by
      have behind : visited.size ≤ place := explored.size ▸ Array.getElem?_eq_none_iff.mp outside
      simp [Array.getElem?_eq_none behind]
    exact fun p met => ih (explored.again seen) (less enough) none p (met.again seen)
  | case4 steps visited place pending i here again ih =>
    have seen : visited[place]? ≠ some false := by
      intro fresh
      simp [fresh] at again
    exact fun p met => ih (explored.again seen) (less enough) none p (met.again seen)
  | case5 => cases none
  | case6 steps visited place pending i here fresh visited' kill ih =>
    have silent : ¬ ReadAt code effect place := by
      rintro (⟨there, read⟩ | ⟨there, pass, _⟩) <;> cases here.symm.trans there
      · exact Effect.noConfusion (kill.symm.trans read)
      · exact Effect.noConfusion (kill.symm.trans pass)
    have onward (goal : Nat) : Passes code effect place goal → goal ∈ [] := by
      rintro ⟨⟨j, there, pass⟩, _⟩
      cases here.symm.trans there
      exact Effect.noConfusion (kill.symm.trans pass)
    have shrinks := remaining_visit pending [] (unseen fresh) (Nat.zero_le 2)
    have rest := ih (explored.visit silent onward)
      (Nat.lt_of_lt_of_le shrinks (Nat.le_of_lt_succ enough)) none
    exact fun p met => rest p (met.visit [])
  | case7 => cases none
  | case8 steps visited place pending i here fresh visited' pass next known ih =>
    have silent : ¬ ReadAt code effect place := by
      rintro (⟨there, read⟩ | ⟨there, _, leads, missing⟩) <;> cases here.symm.trans there
      · exact Effect.noConfusion (pass.symm.trans read)
      · cases (successors?_eq_none.mpr ⟨leads, missing⟩).symm.trans known
    have onward (goal : Nat) (passes : Passes code effect place goal) : goal ∈ next :=
      (mem_successors? here known goal).mpr passes.2
    have shrinks := remaining_visit pending next (unseen fresh) (length_successors? known)
    have rest := ih (explored.visit silent onward)
      (Nat.lt_of_lt_of_le shrinks (Nat.le_of_lt_succ enough)) none
    exact fun p met => rest p (met.visit next)

-- With enough steps a search from one place is exact.
theorem search_iff {start steps : Nat} (enough : 2 * code.size + 1 < steps) :
    (Flow.of code).search effect steps (Array.replicate code.size false) [start] = true ↔
      Reaches code effect start := by
  constructor
  · intro found
    obtain ⟨place, member, reaches⟩ := reaches_of_search found
    cases List.mem_singleton.mp member
    exact reaches
  · contrapose
    intro none
    refine not_reaches_of_search (.start [start]) ?_ (by simpa using none) start
      (.inr (List.mem_singleton_self _))
    simpa [remaining] using enough

-- Something is live at a place exactly when it can be read from there. More steps granted to the
-- search would change nothing.
theorem live_exact (p : Program) (start : Nat) (effect : Instruction → Effect) :
    ((Flow.of p.code).live start effect = true ↔ Reaches p.code effect start) ∧
      ∀ more, (Flow.of p.code).search effect (2 * p.code.size + 2 + more)
        (Array.replicate p.code.size false) [start] = (Flow.of p.code).live start effect := by
  have exact : (Flow.of p.code).live start effect = true ↔ Reaches p.code effect start :=
    search_iff (by show _ < 2 * p.code.size + 2; omega)
  refine ⟨exact, fun more => ?_⟩
  rw [Bool.eq_iff_iff, exact, search_iff (by omega)]

end Flow

end ScalarScript
