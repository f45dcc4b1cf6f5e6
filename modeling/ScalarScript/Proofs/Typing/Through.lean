import ScalarScript.Proofs.Typing.Parts
import ScalarScript.Proofs.Typing.Run
/-!
Runs through the code of one expression, calls included: behind it, `eax` holds a value of the type
of the expression.
-/
namespace ScalarScript

open Symbolic
open Linked (At Passes Followed)

variable {World Watch : Type}

theorem Link.address_eq_zero_iff {x : List Instruction} :
    Link.address x = 0 ↔ ∀ i ∈ x, i.opcode = .label := by
  simp [Link.address]

theorem strip_of_labels {x : List Instruction} (labels : ∀ i ∈ x, i.opcode = .label) :
    strip x = x := by
  refine List.filter_eq_self.mpr ?_
  intro i member
  simp [labels i member]

namespace Linked

variable {code a b : List Instruction} {s : RunState World Watch} {k : Config World}

-- At an address, only labels can stand between two places.
theorem At.rest_at (here : At code s k) (split : code = a ++ b)
    (place : s.address = Link.address a) :
    (∃ x, (∀ i ∈ x, i.opcode = .label) ∧ k.rest = x ++ strip b) ∨
      ∃ x, (∀ i ∈ x, i.opcode = .label) ∧ strip b = x ++ k.rest := by
  obtain ⟨pre, rest, cut, at_, remains⟩ := here.position
  rw [place] at at_
  rw [split] at cut
  rcases List.append_eq_append_iff.mp cut with ⟨x, rfl, rfl⟩ | ⟨x, rfl, rfl⟩
  · have labels : ∀ i ∈ x, i.opcode = .label := by
      rw [← Link.address_eq_zero_iff]
      rw [Link.address_append] at at_
      omega
    exact .inr ⟨x, labels, by rw [strip_append, strip_of_labels labels, remains]⟩
  · have labels : ∀ i ∈ x, i.opcode = .label := by
      rw [← Link.address_eq_zero_iff]
      rw [Link.address_append] at at_
      omega
    exact .inl ⟨x, labels, by rw [remains, strip_append, strip_of_labels labels]⟩

-- The instruction at an address is the first behind it that is no label.
theorem mem_of_instructionAt {pre x : List Instruction} {i : Instruction}
    (executed : instructionAt (pre ++ x ++ b) (Link.address pre) = some i)
    (some : Link.address x ≠ 0) : i ∈ x ∧ i.opcode ≠ .label := by
  have length : Link.address pre = (pre.filter (·.opcode ≠ .label)).length := by
    rw [Link.address, List.countP_eq_length_filter]
  rw [Link.address, List.countP_eq_length_filter] at some
  rw [instructionAt, Int.toNat_natCast, length, List.filter_append, List.filter_append,
    List.append_assoc, List.getElem?_append_right (Nat.le_refl _), Nat.sub_self] at executed
  cases first : x.filter (·.opcode ≠ .label) with
  | nil => exact absurd (by rw [first]; rfl) some
  | cons j rest =>
    rw [first, List.cons_append, List.getElem?_cons_zero] at executed
    cases executed
    have member : i ∈ x.filter (·.opcode ≠ .label) := by rw [first]; exact List.mem_cons_self
    simpa using member

-- Before an address, more remains than there.
theorem At.rest_before {i : Instruction} (here : At code s k) (split : code = a ++ b)
    (place : s.address < Link.address a) (executed : instructionAt code s.address = some i)
    (active : i.opcode ≠ .debugLine) : Link.address (strip b) < Link.address k.rest := by
  obtain ⟨pre, rest, cut, at_, remains⟩ := here.position
  rw [at_] at place executed
  rw [split] at cut executed
  rcases List.append_eq_append_iff.mp cut with ⟨x, rfl, rfl⟩ | ⟨x, rfl, rfl⟩
  · rw [Link.address_append] at place
    omega
  · rw [remains, strip_append, Link.address_append]
    have some : Link.address x ≠ 0 := by
      rw [Link.address_append] at place
      omega
    obtain ⟨found, other⟩ := mem_of_instructionAt executed some
    have positive : Link.address (strip x) ≠ 0 := by
      rw [Ne, Link.address_eq_zero_iff]
      intro labels
      exact other (labels i (List.mem_filter.mpr ⟨found, by simpa using active⟩))
    omega

theorem Passes.address_eq {l : Config World} (passes : Passes k l) :
    Link.address l.rest = Link.address k.rest := by
  induction passes with
  | refl => rfl
  | label here is _ ih => rw [ih, here, Link.address_cons_label is]

theorem Passes.returns_eq {l : Config World} (passes : Passes k l) : l.returns = k.returns := by
  induction passes with
  | refl => rfl
  | label _ _ _ ih => exact ih

end Linked

-- A run from some state through the code between two addresses, calls made there included, up to
-- the first time that the end is reached in the same call.
inductive Through (m : Machine World Watch) (first last : Int) (depth : Nat) :
    RunState World Watch → RunState World Watch → Prop where
  | done {s : RunState World Watch} (behind : s.address = last) (same : s.calls.length = depth) :
      Through m first last depth s s
  | step {s t u : RunState World Watch} (inner : depth ≤ s.calls.length)
      (inside : s.calls.length = depth → first ≤ s.address ∧ s.address < last)
      (stepped : Exec.step m s = .ok none t) (later : Through m first last depth t u) :
      Through m first last depth s u

theorem Waits.congr {Γ : Plan} {goals other : Nat → Goal} {f : Option Enclosing}
    {returns : List (List Instruction)} {lineages : List Lineage}
    {bases : List (List (Option Value))} {stack : List (Option Value)}
    (waits : Waits Γ goals f returns lineages bases stack)
    (same : ∀ n < returns.length, goals n = other n) :
    Waits Γ other f returns lineages bases stack := by
  induction waits with
  | program => exact .program
  | @call σ f s returns lineage lineages bases own below inside deep part later of framed knows
      operands rest ih =>
    have here := same returns.length (by simp)
    rw [here] at part later ⊢
    exact .call inside deep part later of framed knows operands
      (ih fun n small => same n (Nat.lt_succ_of_lt small))

-- The goals of a run that is watched through a part of the code.
def watching (t : Stmt) (depth : Nat) (goal : Goal) (n : Nat) : Goal :=
  if n = depth then goal else t.goal

theorem watching_self (t : Stmt) (depth : Nat) (goal : Goal) : watching t depth goal depth = goal :=
  if_pos rfl

theorem watching_other {t : Stmt} {depth n : Nat} {goal : Goal} (other : n ≠ depth) :
    watching t depth goal n = t.goal :=
  if_neg other

section

variable {m : Machine World Watch} {code front post : List Instruction} {t : Stmt}
  {hosts : List Declaration} {exitType : Option Ty} {depths : Nat} {registers : Nat → Bool}
  {trusted : Prop} {depth : Nat} {goal : Goal} {type : Ty}

-- A state on the way through a part of the code: that part has a shape, or only line markers are
-- left of it.
inductive Watched (code post : List Instruction) (t : Stmt) (hosts : List Declaration)
    (exitType : Option Ty) (depths : Nat) (registers : Nat → Bool) (trusted : Prop) (depth : Nat)
    (goal : Goal) (type : Ty) (s : RunState World Watch) : Prop where
  | running {k : Config World} {g : Trail} {σ : Shape} {part : List Instruction}
      (here : At code s k) (inner : depth ≤ k.returns.length)
      (typed : WellTyped (t.plan hosts exitType depths trusted) registers (watching t depth goal) k g σ part)
  | ended {k : Config World} (here : At code s k) (same : s.calls.length = depth)
      (short : Link.address k.rest ≤ Link.address (strip post))
      (fits : trusted → s.registers.eax.Fits type)

-- A part of which only labels are left has left its value.
theorem WellTyped.fits_of_labels {k : Config World} {g : Trail} {σ : Shape}
    {part : List Instruction}
    (typed : WellTyped (t.plan hosts exitType depths trusted) registers (watching t depth goal) k g σ part)
    (same : k.returns.length = depth) (final : goal.final.eax = some type)
    (labels : ∀ i ∈ part, i.opcode = .label) : trusted → k.core.registers.eax.Fits type := by
  obtain ⟨l, passes, typed⟩ := typed.behind_labels labels
  rw [← passes.core_eq]
  refine typed.sound.holds.eax type ?_
  rw [same, watching_self]
  exact final

theorem WellTyped.address_of_labels {k : Config World} {g : Trail} {σ : Shape}
    {part : List Instruction}
    (typed : WellTyped (t.plan hosts exitType depths trusted) registers (watching t depth goal) k g σ part)
    (same : k.returns.length = depth) (tail : goal.tail = strip post)
    (labels : ∀ i ∈ part, i.opcode = .label) :
    Link.address k.rest = Link.address (strip post) := by
  rw [typed.rest, same, watching_self, tail, Link.address_append,
    Link.address_eq_zero_iff.mpr labels, Nat.zero_add]

-- Before the end of the part, the next instruction belongs to it.
theorem WellTyped.next_instruction {s : RunState World Watch} {k l : Config World} {g : Trail}
    {σ : Shape} {part : List Instruction} {i : Instruction}
    (typed : WellTyped (t.plan hosts exitType depths trusted) registers (watching t depth goal) k g σ part)
    (here : At code s k) (split : code = front ++ post) (tail : goal.tail = strip post)
    (inside : s.calls.length = depth → s.address < Link.address front) (passes : Passes k l)
    (executed : instructionAt code s.address = some i) (active : i.opcode ≠ .debugLine)
    (first : l.rest.head? = some i) :
    ∃ σ' rest, WellTyped (t.plan hosts exitType depths trusted) registers (watching t depth goal) l g σ'
      (i :: rest) := by
  have length := here.calls.length_eq
  have labelled (same : k.returns.length = depth) {x : List Instruction}
      (rest : Link.address l.rest = Link.address (x ++ strip post))
      (labels : ∀ j ∈ x, j.opcode = .label) : False := by
    have more := here.rest_before split (inside (length.trans same)) executed active
    rw [← passes.address_eq, rest, Link.address_append, Link.address_eq_zero_iff.mpr labels] at more
    omega
  rcases typed.passes passes with ⟨σ', part', later⟩ | ⟨labels, more⟩
  · have rest := later.rest
    cases part' with
    | nil =>
      by_cases same : k.returns.length = depth
      · rw [passes.returns_eq, same, watching_self, tail] at rest
        exact (labelled same (congrArg Link.address rest) (by simp)).elim
      · rw [passes.returns_eq, watching_other same] at rest
        rw [rest] at first
        cases first
    | cons j part' =>
      rw [rest] at first
      cases first
      exact ⟨σ', part', later⟩
  · by_cases same : k.returns.length = depth
    · have rest := typed.rest
      rw [same, watching_self, tail] at rest
      exact (labelled same (by rw [passes.address_eq, rest]) labels).elim
    · rw [watching_other same] at more
      exact absurd rfl more

theorem Watched.step {s u : RunState World Watch}
    (hosted : Hosted m code t hosts exitType depths registers trusted)
    (ok : goal.Ok (t.plan hosts exitType depths trusted) (strip code)) (split : code = front ++ post)
    (tail : goal.tail = strip post) (final : goal.final.eax = some type)
    (watched : Watched code post t hosts exitType depths registers trusted depth goal type s)
    (inside : s.calls.length = depth → s.address < Link.address front)
    (inner : depth ≤ u.calls.length) (stepped : Exec.step m s = .ok none u) :
    Watched code post t hosts exitType depths registers trusted depth goal type u := by
  have oks (n : Nat) : (watching t depth goal n).Ok (t.plan hosts exitType depths trusted) (strip code) := by
    unfold watching
    split
    · exact ok
    · exact hosted.goal_ok
  cases watched with
  | @running k g σ part here deep typed =>
    have followed := Linked.step_followed hosted.runs here
    rw [stepped] at followed
    cases followed with
    | @mark _ l i path there _ _ _ _ executed is =>
      rcases typed.passes path with ⟨σ', part', later⟩ | ⟨labels, more⟩
      · exact .running there (by rw [path.returns_eq]; exact deep) later
      · have same : k.returns.length = depth := by
          by_contra other
          rw [watching_other other] at more
          exact more rfl
        refine .ended there ?_ ?_ ?_
        · rw [there.calls.length_eq, path.returns_eq, same]
        · rw [path.address_eq, typed.address_of_labels same tail labels]
        · rw [show u.registers = l.core.registers from congrArg Core.registers there.core,
            path.core_eq]
          exact typed.fits_of_labels same final labels
    | @onward _ l n i path executed active first moved there =>
      obtain ⟨σ', rest, later⟩ := typed.next_instruction here split tail inside path executed active
        first
      have whole : (watching t depth goal (l.returns.length + 1)).Whole (strip code) := by
        rw [watching_other (by rw [path.returns_eq]; omega)]
        exact hosted.goal_whole
      have advances := later.advances hosted.premises oks whole
      rw [moved] at advances
      cases advances with
      | next typed => exact .running there (by rw [← there.calls.length_eq]; exact inner) typed
  | @ended k here same short fits =>
    have followed := Linked.step_followed hosted.runs here
    rw [stepped] at followed
    cases followed with
    | @mark _ l i path there =>
      refine .ended there ?_ (by rw [path.address_eq]; exact short) ?_
      · rw [there.calls.length_eq, path.returns_eq, ← here.calls.length_eq, same]
      · have core : u.toCore = s.toCore := by rw [there.core, path.core_eq, here.core]
        rw [core]
        exact fits
    | @onward _ l n i path executed active first moved there =>
      have more := here.rest_before split (inside same) executed active
      omega

-- At the end of the part its value is there.
theorem Watched.fits {u : RunState World Watch} (split : code = front ++ post)
    (tail : goal.tail = strip post) (final : goal.final.eax = some type)
    (watched : Watched code post t hosts exitType depths registers trusted depth goal type u)
    (behind : u.address = Link.address front) (same : u.calls.length = depth) :
    trusted → u.registers.eax.Fits type := by
  cases watched with
  | ended here same short fits => exact fits
  | @running k g σ part here inner typed =>
    have returns : k.returns.length = depth := here.calls.length_eq.symm.trans same
    have rest := typed.rest
    rw [returns, watching_self, tail] at rest
    have labels : ∀ i ∈ part, i.opcode = .label := by
      rcases here.rest_at split behind with ⟨x, labels, remains⟩ | ⟨x, labels, remains⟩
      · rw [rest] at remains
        rw [List.append_cancel_right remains]
        exact labels
      · rw [rest, ← List.append_assoc, List.self_eq_append_left, List.append_eq_nil_iff] at remains
        simp [remains.2]
    rw [here.core]
    exact typed.fits_of_labels returns final labels

theorem Watched.through {first : Int} {s u : RunState World Watch}
    (hosted : Hosted m code t hosts exitType depths registers trusted)
    (ok : goal.Ok (t.plan hosts exitType depths trusted) (strip code)) (split : code = front ++ post)
    (tail : goal.tail = strip post) (final : goal.final.eax = some type)
    (watched : Watched code post t hosts exitType depths registers trusted depth goal type s)
    (through : Through m first (Link.address front) depth s u) :
    trusted → u.registers.eax.Fits type := by
  induction through with
  | done behind same => exact watched.fits split tail final behind same
  | step inner inside stepped later ih =>
    refine ih (watched.step hosted ok split tail final (fun same => (inside same).2) ?_ stepped)
    cases later with
    | done _ same => exact same.ge
    | step inner _ _ _ => exact inner

-- The code of an expression in compiled code, with what stands before and behind it.
structure Stmt.Occurs (t : Stmt) (depths : Nat) (code pre mid post : List Instruction) (e : Expr) :
    Prop where
  split : code = pre ++ mid ++ post
  inner : strip mid = e.code
  place : ∃ p, t.Holds p ∧ p.expr = e ∧ strip post = p.after ++ [Instruction.unary .exit .null] ∧
    strip pre = .scopeDepth (depths + 1) ::
      (if t.count = 0 then [] else [Instruction.pushScope 1 t.count]) ++ p.before

theorem Linked.passes_labels {k : Config World} {x rest : List Instruction}
    (remains : k.rest = x ++ rest) (labels : ∀ i ∈ x, i.opcode = .label) :
    Passes k { k with rest } := by
  induction x generalizing k with
  | nil =>
    have same : { k with rest } = k := by rw [← List.nil_append rest, ← remains]
    rw [same]
    exact .refl
  | cons i x ih =>
    exact .label remains (labels i List.mem_cons_self)
      (ih (k := { k with rest := x ++ rest }) rfl fun j later => labels j (List.mem_cons_of_mem _ later))

-- At the start of an expression, the state has a shape from which its code is checked.
theorem Situated.starts {pre mid : List Instruction} {e : Expr} {s : RunState World Watch}
    {g : Trail} (hosted : Hosted m code t hosts exitType depths registers trusted)
    (occurs : t.Occurs depths code pre mid post e)
    (situated : Situated code t hosts exitType depths registers trusted s g)
    (place : s.address = Link.address pre) :
    ∃ k σ, At code s k ∧ WellTyped (t.plan hosts exitType depths trusted) registers (fun _ => t.goal) k g σ
      (e.code ++ strip post) := by
  obtain ⟨k, here, shaped⟩ := situated
  obtain ⟨p, _, _, _, before⟩ := occurs.place
  obtain ⟨i, rest, head, other⟩ := e.code_head
  have split : code = pre ++ (mid ++ post) := by rw [occurs.split, List.append_assoc]
  have behind : strip (mid ++ post) = e.code ++ strip post := by rw [strip_append, occurs.inner]
  have remains : ∃ x, (∀ i ∈ x, i.opcode = .label) ∧ k.rest = x ++ (e.code ++ strip post) := by
    rcases here.rest_at split place with ⟨x, labels, remains⟩ | ⟨x, labels, remains⟩
    · exact ⟨x, labels, by rw [remains, behind]⟩
    · rw [behind, head] at remains
      cases x with
      | nil => exact ⟨[], by simp, by rw [head]; exact remains.symm⟩
      | cons j x =>
        rw [List.cons_append, List.cons_append] at remains
        obtain ⟨rfl, _⟩ := List.cons.inj remains
        exact absurd (labels i List.mem_cons_self) other
  obtain ⟨x, labels, remains⟩ := remains
  have passes := Linked.passes_labels remains labels
  have there : At code s { k with rest := e.code ++ strip post } :=
    ⟨here.core, ⟨pre, mid ++ post, split, place, behind.symm⟩, here.calls⟩
  rcases shaped with fresh | ⟨σ, part, typed⟩
  · -- The first instruction of the program stands before every expression.
    have whole : x ++ (e.code ++ strip post) = strip pre ++ (e.code ++ strip post) := by
      rw [← remains, fresh.rest, ← hosted.split, split, strip_append, behind]
    have same : x = strip pre := List.append_cancel_right whole
    rw [same, before] at labels
    exact absurd (labels _ List.mem_cons_self) (by rintro ⟨⟩)
  · obtain ⟨σ', part', later⟩ := typed.settled passes
    have rest := later.rest
    have same : part' = e.code ++ strip post := by
      rw [← List.append_nil part']
      exact rest.symm
    exact ⟨_, σ', there, same ▸ later⟩

-- A run that is watched from now on through the first part of what remains.
theorem WellTyped.watch {k : Config World} {g : Trail} {σ τ : Shape}
    {part rest : List Instruction}
    (typed : WellTyped (t.plan hosts exitType depths trusted) registers (fun _ => t.goal) k g σ
      (part ++ rest)) (checked : Check (t.plan hosts exitType depths trusted) τ σ part)
    (same : k.returns.length = depth) :
    WellTyped (t.plan hosts exitType depths trusted) registers (watching t depth ⟨part, rest, τ⟩) k g σ
      part := by
  have goal : watching t depth ⟨part, rest, τ⟩ k.returns.length = ⟨part, rest, τ⟩ := by
    rw [same, watching_self]
  refine ⟨?_, ?_, ?_, ?_⟩
  · rw [goal, typed.rest]
    exact List.append_nil _
  · rw [goal]
  · rw [goal]
    exact checked
  · obtain ⟨deep, registers, memory, lineage, waiting, outer, own, below, lineages, bases, stack,
      running⟩ := typed.sound
    refine ⟨deep, registers, memory, lineage, waiting, outer, own, below, lineages, bases, stack,
      { running with waits := running.waits.congr ?_ }⟩
    intro n small
    exact (watching_other (by omega)).symm

-- Behind the code of an expression, `eax` holds a null or a value of its type.
theorem Situated.value {pre mid : List Instruction} {e : Expr} {s u : RunState World Watch}
    {g : Trail} (hosted : Hosted m code t hosts exitType depths registers trusted)
    (occurs : t.Occurs depths code pre mid post e)
    (situated : Situated code t hosts exitType depths registers trusted s g)
    (place : s.address = Link.address pre)
    (through : Through m (Link.address pre) (Link.address (pre ++ mid)) s.calls.length s u) :
    trusted → u.registers.eax.Fits e.type := by
  obtain ⟨p, holds, rfl, after, before⟩ := occurs.place
  obtain ⟨k, σ, here, typed⟩ := situated.starts hosted occurs place
  obtain ⟨τ, checked, _⟩ := typed.checked.split
  have known : p.expr.Known (t.plan hosts exitType depths trusted) := by
    refine holds.known hosted.ok ?_
    intro m member
    exact lookup_of_mem (t.map_fst_marks [t.frame] [] ▸ hosted.unique) member
  have ok : Goal.Ok (t.plan hosts exitType depths trusted) (strip code) ⟨p.expr.code, strip post, τ⟩ := by
    refine ⟨⟨strip pre, ?_⟩, ⟨σ, checked⟩, p.expr.jumps _ (List.Subset.refl _)⟩
    rw [occurs.split, strip_append, strip_append, occurs.inner, List.append_assoc]
  have depth := here.calls.length_eq
  exact Watched.through hosted ok occurs.split rfl (checked.eax_of_expr known)
    (.running here depth.le (typed.watch checked depth.symm)) through

end

end ScalarScript
