import ScalarScript.Proofs.Control.Confined
import ScalarScript.Proofs.Machine.Site
/-!
The line of a running machine. It is that of the marker passed last; a return brings back the line of
the call. In code that begins with a marker, and that no branch from elsewhere leads into, it is a
line of the markers there, whatever way control has come.
-/
namespace ScalarScript

open Exec

variable {World Watch : Type}

-- A part of some code that begins with a line marker. Only branches inside it lead to its labels.
structure Region (code before : List Instruction) (marker : Instruction)
    (inner after : List Instruction) (own : Int → Prop) : Prop where
  split : code = before ++ marker :: inner ++ after
  leads : marker.opcode = .debugLine
  lines : ∀ i ∈ marker :: inner, i.opcode = .debugLine → own i.line
  closed : ∀ i ∈ before ++ after, i.opcode.isBranch = true → i.target ∉ labelsOf inner

namespace Region

variable {code before inner after pre rest : List Instruction} {marker i : Instruction}
  {own : Int → Prop} {address : Int}

-- Where an instruction stands, with respect to the region.
inductive Position (before : List Instruction) (marker : Instruction)
    (inner after pre : List Instruction) (i : Instruction) : Prop where
  | front (ahead : pre ++ [i] <+: before)
  | lead (first : pre = before) (same : i = marker)
  | inside {y z : List Instruction} (back : pre = before ++ marker :: y) (parts : inner = y ++ i :: z)
  | rear (behind : before ++ marker :: inner <+: pre) (member : i ∈ after)

theorem position (region : Region code before marker inner after own)
    (split : code = pre ++ i :: rest) : Position before marker inner after pre i := by
  have both : pre ++ i :: rest = before ++ (marker :: (inner ++ after)) := by
    rw [← split, region.split]
    simp
  rcases List.append_eq_append_iff.mp both with ⟨x, parts, tail⟩ | ⟨x, parts, tail⟩
  · cases x with
    | nil =>
      obtain ⟨same, _⟩ := List.cons.inj tail
      exact .lead (by simpa using parts.symm) same
    | cons j x =>
      rw [List.cons_append] at tail
      obtain ⟨rfl, _⟩ := List.cons.inj tail
      exact .front ⟨x, by rw [parts]; simp⟩
  · cases x with
    | nil =>
      obtain ⟨same, _⟩ := List.cons.inj tail
      exact .lead (by simpa using parts) same.symm
    | cons j x =>
      rw [List.cons_append] at tail
      obtain ⟨rfl, others⟩ := List.cons.inj tail
      rcases List.append_eq_append_iff.mp others with ⟨y, left, right⟩ | ⟨y, left, right⟩
      · exact .rear ⟨y, by rw [parts, left]; simp⟩ (by rw [right]; simp)
      · cases y with
        | nil =>
          refine .rear ⟨[], by rw [parts]; simpa using left⟩ ?_
          have first : i :: rest = after := by simpa using right
          simp [← first]
        | cons k y =>
          rw [List.cons_append] at right
          obtain ⟨rfl, _⟩ := List.cons.inj right
          exact .inside parts left

-- The addresses in the region that are not that of its marker.
def Past (before inner : List Instruction) (address : Int) : Prop :=
  Link.address before < address ∧ address < Link.address before + 1 + Link.address inner

theorem address_le_of_prefix {a b : List Instruction} (is : a <+: b) :
    Link.address a ≤ Link.address b := by
  obtain ⟨c, rfl⟩ := is
  simp

theorem address_marker (region : Region code before marker inner after own)
    (y : List Instruction) :
    Link.address (before ++ marker :: y) = Link.address before + 1 + Link.address y := by
  rw [Link.address_append, Link.address_cons_other (by simp [region.leads])]
  omega

-- What stands past the marker is inside.
theorem inside_of_past (region : Region code before marker inner after own)
    (split : code = pre ++ i :: rest) (past : Past before inner (Link.address pre)) : i ∈ inner := by
  unfold Past at past
  cases region.position split with
  | front ahead =>
    have below := address_le_of_prefix ahead
    have grows := address_le_of_prefix (List.prefix_append pre [i])
    omega
  | lead first _ =>
    rw [first] at past
    omega
  | inside _ parts => simp [parts]
  | rear behind _ =>
    have above := address_le_of_prefix behind
    rw [region.address_marker] at above
    omega

-- The instruction at an address that is followed by one past the marker.
theorem past_of_next (region : Region code before marker inner after own)
    (split : code = pre ++ i :: rest) (other : i.opcode ≠ .label)
    (past : Past before inner (Link.address pre + 1)) :
    i = marker ∨ i ∈ inner ∧ Past before inner (Link.address pre) := by
  unfold Past at past ⊢
  cases region.position split with
  | front ahead =>
    have below := address_le_of_prefix ahead
    rw [Link.address_append, Link.address_cons_other other, Link.address_nil] at below
    omega
  | lead _ same => exact .inl same
  | inside back parts =>
    refine .inr ⟨by simp [parts], ?_⟩
    rw [back, region.address_marker] at past ⊢
    omega
  | rear behind _ =>
    have above := address_le_of_prefix behind
    rw [region.address_marker] at above
    omega

-- A branch that leads past the marker stands past it.
theorem past_of_target (region : Region code before marker inner after own)
    (split : code = pre ++ i :: rest) (branch : i.opcode.isBranch = true)
    (leads : i.target ∈ labelsOf inner) : Past before inner (Link.address pre) := by
  have other : i.opcode ≠ .label := by
    intro label
    rw [label] at branch
    cases branch
  unfold Past
  cases region.position split with
  | front ahead =>
    refine absurd leads (region.closed i ?_ branch)
    exact List.mem_append_left _ (ahead.mem (by simp))
  | lead _ same =>
    rw [same, region.leads] at branch
    cases branch
  | inside back parts =>
    rw [back, region.address_marker, parts, Link.address_append, Link.address_cons_other other]
    omega
  | rear _ member => exact absurd leads (region.closed i (List.mem_append_right _ member) branch)

end Region

-- The line is one of the region's own, wherever the run is in it or goes back to it.
structure Lined (before inner : List Instruction) (own : Int → Prop) (s : RunState World Watch) :
    Prop where
  here : Region.Past before inner s.address → own s.line
  waiting : ∀ a ∈ s.calls, Region.Past before inner a.resume → own a.line

namespace Region

variable {code before inner after pre rest : List Instruction} {marker i : Instruction}
  {own : Int → Prop} {m : Machine World Watch} {s t : RunState World Watch}

theorem start {around : Surroundings World Watch} {context : Context} :
    Lined before inner own (Machine.start around context) := by
  refine ⟨fun past => ?_, by simp [Machine.start]⟩
  have first : ((Link.address before : Nat) : Int) < 0 := past.1
  omega

-- A branch of the program leads behind its label.
theorem target_past (region : Region code before marker inner after own) (runs : Runs m code)
    (split : code = pre ++ i :: rest) (branch : i.opcode.isBranch = true)
    (past : Past before inner (Link.retarget (Link.addresses code 0) i).target) :
    Past before inner (Link.address pre) := by
  have defined := runs.defined i (by simp [split]) branch
  obtain ⟨j, member, same⟩ := List.mem_map.mp defined
  rw [List.mem_filter, decide_eq_true_eq] at member
  obtain ⟨member, label⟩ := member
  obtain ⟨front, behind, parts⟩ := List.append_of_mem member
  rw [Link.retarget_target runs.unique parts label same branch, Link.address_append,
    Link.address_cons_label label, Link.address_nil, Nat.add_zero] at past
  refine region.past_of_target split branch ?_
  rw [← same]
  exact List.mem_map.mpr ⟨j, List.mem_filter.mpr
    ⟨region.inside_of_past parts past, by simp [label]⟩, rfl⟩

theorem step (region : Region code before marker inner after own) (runs : Runs m code)
    (lined : Lined before inner own s) (stepped : Exec.step m s = .ok none t) :
    Lined before inner own t := by
  obtain ⟨i, inside, found, goes⟩ := step_goes stepped
  obtain ⟨pre, j, rest, split, place, other, rfl⟩ := Link.fetched runs.linked inside found
  have same := Link.retarget_opcode (Link.addresses code 0) j
  cases goes with
  | next falls address calls line =>
    refine ⟨fun past => ?_, by rw [calls]; exact lined.waiting⟩
    rw [address, place] at past
    rw [line, same, Link.retarget_line]
    split
    · rename_i marks
      rcases region.past_of_next split other past with rfl | ⟨member, _⟩
      · exact region.lines _ List.mem_cons_self marks
      · exact region.lines j (List.mem_cons_of_mem _ member) marks
    · rename_i plain
      rcases region.past_of_next split other past with rfl | ⟨_, here⟩
      · exact absurd region.leads plain
      · exact lined.here (place ▸ here)
  | jump jumps address calls line =>
    refine ⟨fun past => ?_, by rw [calls]; exact lined.waiting⟩
    rw [address] at past
    rw [line]
    have branch : j.opcode.isBranch = true := by
      rw [same] at jumps
      rcases jumps with jump | ⟨_, jump⟩ <;> rw [jump] <;> rfl
    exact lined.here (place ▸ region.target_past runs split branch past)
  | enter opcode address calls resume site line =>
    have branch : j.opcode.isBranch = true := by rw [← same, opcode]; rfl
    refine ⟨fun past => ?_, ?_⟩
    · rw [address] at past
      rw [line]
      exact lined.here (place ▸ region.target_past runs split branch past)
    · rw [calls]
      refine List.forall_mem_cons.mpr ⟨fun past => ?_, lined.waiting⟩
      rw [resume, place] at past
      rw [site]
      rcases region.past_of_next split other past with rfl | ⟨_, here⟩
      · rw [region.leads] at branch
        cases branch
      · exact lined.here (place ▸ here)
  | leave opcode calls address line =>
    have waiting := lined.waiting
    rw [calls, List.forall_mem_cons] at waiting
    refine ⟨fun past => ?_, waiting.2⟩
    rw [address] at past
    rw [line]
    exact waiting.1 past

-- An error that is raised past the marker tells one of the region's lines.
theorem error (region : Region code before marker inner after own) (runs : Runs m code)
    {fuel : Nat} {e : RuntimeError} (lined : Lined before inner own s)
    (ran : m.runFrom fuel s = some (.error e, t)) (past : Past before inner e.address) :
    own e.line := by
  induction fuel generalizing s with
  | zero => cases ran
  | succ fuel ih =>
    unfold Machine.runFrom at ran
    cases stepped : Exec.step m s with
    | error f u =>
      rw [stepped] at ran
      cases ran
      obtain ⟨address, line⟩ := step_error_site stepped
      rw [line]
      exact lined.here (address ▸ past)
    | ok result u =>
      rw [stepped] at ran
      cases result with
      | some v => cases ran
      | none => exact ih (region.step runs lined stepped) ran

end Region

end ScalarScript
