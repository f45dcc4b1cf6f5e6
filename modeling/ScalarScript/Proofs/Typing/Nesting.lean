import ScalarScript.Proofs.Typing.Soundness
/-!
Calls inside calls. Whatever a call does, the trail of the calls that wait for it stays as it was,
and the instruction that ends the call brings that trail back.
-/
namespace ScalarScript

open Symbolic
open Linked (At Passes)

variable {World Watch : Type}

-- A run from inside a call up to its return, and no further.
inductive Inside (m : Machine World Watch) (depth : Nat) :
    RunState World Watch → RunState World Watch → Prop where
  | back {s : RunState World Watch} (same : s.calls.length = depth) : Inside m depth s s
  | step {s t u : RunState World Watch} (inner : depth < s.calls.length)
      (stepped : Exec.step m s = .ok none t) (later : Inside m depth t u) : Inside m depth s u

-- What an instruction does to the calls that a trail knows of.
inductive Trail.Moved (functions : Int → Option Signature) (i : Instruction) (c : Core World)
    (g h : Trail) : Prop where
  | call {f : Signature} (opcode : i.opcode = .call) (known : functions i.target = some f)
      (lineages : h.lineages = Trail.enter f g.lineages)
      (bases : h.bases = c.stack.drop f.params.length :: g.bases)
  | ret (opcode : i.opcode = .ret) (lineages : h.lineages = g.lineages.tail)
      (bases : h.bases = g.bases.tail)
  | within (count : h.lineages.length = g.lineages.length)
      (lineages : h.lineages.tail = g.lineages.tail) (bases : h.bases = g.bases)

namespace Trail

theorem length_framed (frame : Option Nat) (lineages : List Lineage) :
    (framed frame lineages).length = lineages.length := by
  unfold framed
  split <;> rfl

theorem tail_framed (frame : Option Nat) (lineages : List Lineage) :
    (framed frame lineages).tail = lineages.tail := by
  unfold framed
  split <;> rfl

theorem length_allocate (index : Int) (lineages : List Lineage) :
    (allocate index lineages).length = lineages.length := by
  unfold allocate
  split <;> rfl

theorem tail_allocate (index : Int) (lineages : List Lineage) :
    (allocate index lineages).tail = lineages.tail := by
  unfold allocate
  split <;> rfl

theorem moved (functions : Int → Option Signature) (i : Instruction) (c : Core World) (g : Trail) :
    Moved functions i c g (g.after functions i c) := by
  cases opcode : i.opcode with
  | call =>
    cases known : functions i.target with
    | none =>
      exact .within (by simp [after, lineagesAfter, opcode, known])
        (by simp [after, lineagesAfter, opcode, known])
        (by simp [after, basesAfter, opcode, known])
    | some f =>
      exact .call opcode known (by simp [after, lineagesAfter, opcode, known])
        (by simp [after, basesAfter, opcode, known])
  | ret =>
    exact .ret opcode (by simp [after, lineagesAfter, opcode]) (by simp [after, basesAfter, opcode])
  | pushScope | popScope =>
    exact .within (by simp [after, lineagesAfter, opcode, length_framed])
      (by simp [after, lineagesAfter, opcode, tail_framed])
      (by simp [after, basesAfter, opcode])
  | allocate type =>
    refine .within ?_ ?_ (by simp [after, basesAfter, opcode])
    · simp only [after, lineagesAfter, opcode]
      split
      · exact length_allocate _ _
      · rfl
    · simp only [after, lineagesAfter, opcode]
      split
      · exact tail_allocate _ _
      · rfl
  | _ =>
    exact .within (by simp [after, lineagesAfter, opcode]) (by simp [after, lineagesAfter, opcode])
      (by simp [after, basesAfter, opcode])

-- The calls that wait are not touched from inside.
theorem Moved.above {functions : Int → Option Signature} {i : Instruction} {c : Core World}
    {g h : Trail} {top : Lineage} {front waiting : List Lineage}
    {own bases : List (List (Option Value))} (moved : Moved functions i c g h)
    (lineages : g.lineages = top :: front ++ waiting) (based : g.bases = own ++ bases)
    (room : bases.length ≤ h.bases.length) :
    ∃ front' own', h.lineages = front' ++ waiting ∧ h.bases = own' ++ bases := by
  cases moved with
  | call opcode known entered base =>
    rw [lineages, List.cons_append, enter] at entered
    exact ⟨_ :: top :: front, _ :: own, entered, by rw [base, based]; rfl⟩
  | ret opcode left base =>
    rw [based] at base
    cases own with
    | nil =>
      rw [base, List.nil_append, List.length_tail] at room
      obtain rfl := List.length_eq_zero_iff.mp (show bases.length = 0 by omega)
      exact ⟨front, [], by rw [left, lineages]; rfl, base⟩
    | cons _ own => exact ⟨front, own, by rw [left, lineages]; rfl, base⟩
  | within count same base =>
    rw [lineages, List.cons_append, List.tail_cons] at same
    rw [lineages] at count
    cases running : h.lineages with
    | nil =>
      rw [running] at count
      cases count
    | cons lineage rest =>
      rw [running, List.tail_cons] at same
      exact ⟨lineage :: front, own, by rw [same]; rfl, by rw [base, based]⟩

end Trail

section

variable {Γ : Plan} {goals : Nat → Goal} {f : Option Enclosing}
  {returns : List (List Instruction)} {lineages : List Lineage}
  {bases : List (List (Option Value))} {stack : List (Option Value)}

theorem Waits.length_eq (waits : Waits Γ goals f returns lineages bases stack) :
    lineages.length = returns.length ∧ bases.length = returns.length := by
  induction waits with
  | program => exact ⟨rfl, rfl⟩
  | call _ _ _ _ _ _ _ _ _ ih =>
    rw [List.length_cons, List.length_cons, List.length_cons, ih.1, ih.2]
    exact ⟨rfl, rfl⟩

-- Every call that waits has links through the bodies around its own.
theorem Waits.chains (waits : Waits Γ goals f returns lineages bases stack) :
    ∀ lineage ∈ lineages, ∃ chain, Lineage.Of chain lineage := by
  induction waits with
  | program => simp
  | call _ _ _ _ of _ _ _ _ ih =>
    intro lineage member
    rcases List.mem_cons.mp member with rfl | later
    · exact ⟨_, of⟩
    · exact ih lineage later

end

section

variable {m : Machine World Watch} {code : List Instruction} {t : Stmt} {hosts : List Declaration}
  {exitType : Option Ty} {depths : Nat} {registers : Nat → Bool} {trusted : Prop}
  {first s u : RunState World Watch} {g : Trail}

-- There is a lineage and a base for every call that has not ended.
theorem Situated.counts (situated : Situated code t hosts exitType depths registers trusted s g) :
    g.lineages.length = s.calls.length + 1 ∧ g.bases.length = s.calls.length + 1 ∧
      ∀ lineage ∈ g.lineages, ∃ chain, Lineage.Of chain lineage := by
  obtain ⟨k, here, shaped⟩ := situated
  have depth := here.calls.length_eq
  rcases shaped with fresh | ⟨σ, part, typed⟩
  · rw [fresh.returns] at depth
    rw [depth, fresh.trail]
    refine ⟨rfl, rfl, ?_⟩
    intro lineage member
    rw [List.mem_singleton.mp member]
    exact ⟨[t.frame], rfl, trivial⟩
  · obtain ⟨lineage, waiting, outer, own, below, same, based, _, running⟩ := typed.sound.calls
    obtain ⟨waitingCount, outerCount⟩ := running.waits.length_eq
    rw [same, based, depth, List.length_cons, List.length_cons, waitingCount, outerCount]
    refine ⟨rfl, rfl, ?_⟩
    intro other member
    rcases List.mem_cons.mp member with rfl | later
    · exact ⟨_, running.of⟩
    · exact running.waits.chains other later

-- The calls after a step, by the instruction at which the machine stands.
theorem Trail.moved_next (functions : Int → Option Signature) (code : List Instruction)
    (s : RunState World Watch) (g : Trail) :
    (∃ i, instructionAt code s.address = some i ∧
      Trail.Moved functions i s.toCore g (g.next functions code s)) ∨ g.next functions code s = g := by
  unfold Trail.next
  cases executed : instructionAt code s.address with
  | none => exact .inr rfl
  | some i => exact .inl ⟨i, rfl, moved functions i s.toCore g⟩

-- A step to more calls is a call, with a lineage and a base of its own.
theorem Situated.entered (hosted : Hosted m code t hosts exitType depths registers trusted)
    (situated : Situated code t hosts exitType depths registers trusted s g)
    (stepped : Exec.step m s = .ok none u) (deeper : s.calls.length < u.calls.length) :
    ∃ i f lineage, instructionAt code s.address = some i ∧ i.opcode = .call ∧
      (t.outline hosts exitType depths).functions i.target = some f ∧
      (g.next (t.outline hosts exitType depths).functions code s).lineages = lineage :: g.lineages ∧
      (g.next (t.outline hosts exitType depths).functions code s).bases =
        s.stack.drop f.params.length :: g.bases := by
  have next := situated.step hosted
  rw [stepped] at next
  obtain ⟨there, _⟩ := next
  have before := situated.counts.1
  have after := there.counts.1
  rcases Trail.moved_next (t.outline hosts exitType depths).functions code s g with
    ⟨i, executed, moved⟩ | same
  · cases moved with
    | @call f opcode known lineages bases =>
      cases running : g.lineages with
      | nil => simp [running] at before
      | cons lineage waiting =>
        refine ⟨i, f, ⟨f.chain, none, []⟩ :: lineage.dropWhile (·.chain ≠ f.chain.tail), executed,
          opcode, known, ?_, bases⟩
        rw [lineages, running, Trail.enter]
    | ret _ lineages _ =>
      rw [lineages, List.length_tail] at after
      omega
    | within count _ _ => omega
  · rw [same] at after
    omega

-- As long as a call inside runs, the trail ends with that of the calls that wait; where it returns,
-- it does so by a `ret`, with nothing left above the base that it began with.
theorem Traced.inside {depth : Nat} {s : RunState World Watch} {g : Trail}
    {front waiting : List Lineage} {own bases : List (List (Option Value))}
    (hosted : Hosted m code t hosts exitType depths registers trusted)
    (start : Situated code t hosts exitType depths registers trusted first t.trail)
    (traced : Traced m (t.outline hosts exitType depths).functions code first t.trail s g)
    (inside : Inside m depth s u) (inner : depth < s.calls.length)
    (lineages : g.lineages = front ++ waiting) (waitingCount : waiting.length = depth + 1)
    (based : g.bases = own ++ bases) (basesCount : bases.length = depth + 2) :
    ∃ v h i, Traced m (t.outline hosts exitType depths).functions code first t.trail v h ∧
      instructionAt code v.address = some i ∧ i.opcode = .ret ∧ Exec.step m v = .ok none u ∧
      h.lineages.tail = waiting ∧ h.bases = bases := by
  induction inside generalizing g front own with
  | back same => omega
  | @step s v u _ stepped later ih =>
    have situated := traced.situated hosted start
    obtain ⟨lineageCount, baseCount, _⟩ := situated.counts
    have next := traced.step stepped
    obtain ⟨lineageAfter, baseAfter, _⟩ := (next.situated hosted start).counts
    rw [lineages, List.length_append] at lineageCount
    rw [based, List.length_append] at baseCount
    obtain ⟨top, front, rfl⟩ := List.exists_cons_of_length_pos (l := front) (by omega)
    have step := Trail.moved_next (t.outline hosts exitType depths).functions code s g
    generalize g.next (t.outline hosts exitType depths).functions code s = h at *
    cases later with
    | back same =>
      obtain ⟨i, executed, opcode, lineagesTail⟩ : ∃ i, instructionAt code s.address = some i ∧
          i.opcode = .ret ∧ h.lineages = g.lineages.tail := by
        rcases step with ⟨i, executed, moved⟩ | unmoved
        · cases moved with
          | call _ _ lineages' bases' =>
            rw [bases', based, List.length_cons, List.length_append] at baseAfter
            omega
          | ret opcode lineages' _ => exact ⟨i, executed, opcode, lineages'⟩
          | within count _ _ =>
            rw [lineages, List.length_append] at count
            omega
        · rw [unmoved, lineages, List.length_append] at lineageAfter
          omega
      rw [lineagesTail, lineages, List.cons_append, List.tail_cons, List.length_append]
        at lineageAfter
      obtain rfl := List.length_eq_zero_iff.mp (show front.length = 0 by omega)
      rw [List.length_singleton] at lineageCount
      obtain rfl := List.length_eq_zero_iff.mp (show own.length = 0 by omega)
      exact ⟨s, g, i, traced, executed, opcode, stepped, by rw [lineages]; rfl, based⟩
    | step inner' _ _ =>
      have above : ∃ front' own', h.lineages = front' ++ waiting ∧ h.bases = own' ++ bases := by
        rcases step with ⟨i, _, moved⟩ | unmoved
        · exact moved.above lineages based (by omega)
        · exact ⟨top :: front, own, by rw [unmoved, lineages], by rw [unmoved, based]⟩
      obtain ⟨front', own', lineages', based'⟩ := above
      exact ih next inner' lineages' based'

end

end ScalarScript
