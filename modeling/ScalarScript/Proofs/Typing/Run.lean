import ScalarScript.Proofs.Machine.Drive
import ScalarScript.Proofs.Symbolic.Linked
import ScalarScript.Proofs.Typing.Bindings
import ScalarScript.Proofs.Typing.Preserve
/-!
Runs of the machine on a checked program. Every state that is reached, with the trail of the run up
to there, has a shape.
-/
namespace ScalarScript

open Symbolic
open Linked (At Passes Followed)

variable {World Watch : Type}

-- The trail after the instruction at which the machine stands.
def Trail.next (functions : Int → Option Signature) (code : List Instruction)
    (s : RunState World Watch) (g : Trail) : Trail :=
  match instructionAt code s.address with
  | some i => g.after functions i s.toCore
  | none => g

-- The states that a run comes to, each with the trail up to there.
inductive Traced (m : Machine World Watch) (functions : Int → Option Signature)
    (code : List Instruction) (first : RunState World Watch) (start : Trail) :
    RunState World Watch → Trail → Prop where
  | start : Traced m functions code first start first start
  | step {s t : RunState World Watch} {g : Trail} (before : Traced m functions code first start s g)
      (stepped : Exec.step m s = .ok none t) :
      Traced m functions code first start t (g.next functions code s)

-- A trail goes with every run.
theorem Traced.of_reaches {m : Machine World Watch} {functions : Int → Option Signature}
    {code : List Instruction} {first s t : RunState World Watch} {start g : Trail}
    (before : Traced m functions code first start s g) (reached : Reaches m s t) :
    ∃ h, Traced m functions code first start t h := by
  induction reached generalizing g with
  | refl => exact ⟨g, before⟩
  | head stepped _ ih => exact ih (before.step stepped)

theorem Reaches.of_drive {m : Machine World Watch} {n : Nat} {s t : RunState World Watch}
    (ran : Exec.drive (Exec.step m) n s = .ok none t) : Reaches m s t := by
  induction n generalizing s with
  | zero =>
    cases ran
    exact .refl
  | succ n ih =>
    rw [Exec.drive_apply] at ran
    cases stepped : Exec.step m s with
    | error e u =>
      rw [stepped] at ran
      cases ran
    | ok result u =>
      rw [stepped] at ran
      cases result with
      | some v => cases ran
      | none => exact .head stepped (ih ran)

section

variable {Γ : Plan} {registers : Nat → Bool} {goals : Nat → Goal} {env : Environment World}
  {code : List Instruction} {k l : Config World} {g : Trail} {σ : Shape} {part : List Instruction}

theorem Trail.after_mark {functions : Int → Option Signature} {i : Instruction} {c : Core World}
    (is : i.opcode.isMark = true) : g.after functions i c = g := by
  cases opcode : i.opcode <;> simp [opcode, Opcode.isMark] at is <;>
    simp [after, lineagesAfter, basesAfter, comparedAfter, opcode]

-- Behind a label of the part that runs there is a shape as well.
theorem WellTyped.label {i : Instruction} {s : List Instruction}
    (typed : WellTyped Γ registers goals k g σ (i :: s)) (is : i.opcode = .label) :
    ∃ σ', WellTyped Γ registers goals { k with rest := s ++ (goals k.returns.length).tail } g σ' s := by
  have behind := typed.behind
  have sound := typed.sound
  cases typed.checked with
  | label target meets later => exact ⟨_, rfl, behind, later, sound.meet meets⟩
  | _ => cases is

theorem WellTyped.passes (typed : WellTyped Γ registers goals k g σ part) (passes : Passes k l) :
    (∃ σ' part', WellTyped Γ registers goals l g σ' part') ∨
      (∀ i ∈ part, i.opcode = .label) ∧ (goals k.returns.length).tail ≠ [] := by
  induction passes generalizing σ part with
  | refl => exact .inl ⟨σ, part, typed⟩
  | @label k l i rest here is later ih =>
    have whole := typed.rest
    rw [here] at whole
    cases part with
    | nil =>
      refine .inr ⟨by simp, ?_⟩
      rintro none
      rw [none] at whole
      cases whole
    | cons j part =>
      rw [List.cons_append] at whole
      obtain ⟨rfl, rfl⟩ := List.cons.inj whole
      obtain ⟨σ', behind⟩ := typed.label is
      rcases ih behind with found | ⟨labels, more⟩
      · exact .inl found
      · refine .inr ⟨?_, more⟩
        intro j member
        rcases List.mem_cons.mp member with rfl | later
        · exact is
        · exact labels j later

theorem WellTyped.behind_labels (typed : WellTyped Γ registers goals k g σ part)
    (labels : ∀ i ∈ part, i.opcode = .label) :
    ∃ l, Passes k l ∧ WellTyped Γ registers goals l g (goals k.returns.length).final [] := by
  induction part generalizing k σ with
  | nil =>
    have checked := typed.checked
    cases checked
    exact ⟨k, .refl, typed⟩
  | cons i part ih =>
    have is := labels i List.mem_cons_self
    obtain ⟨σ', behind⟩ := typed.label is
    obtain ⟨l, passes, final⟩ := ih behind fun j later => labels j (List.mem_cons_of_mem _ later)
    exact ⟨l, .label typed.rest is passes, final⟩

end

-- The whole program as the part that every call runs in.
def Stmt.goal (t : Stmt) : Goal := ⟨t.main, [], t.start⟩

-- Before anything was called there is one instance, that of the program.
def Stmt.trail (t : Stmt) : Trail := ⟨[[⟨[t.frame], none, []⟩]], [[]], none⟩

-- A machine that runs the program of a tree, with a host that keeps to its declarations where it is
-- trusted.
structure Hosted (m : Machine World Watch) (code : List Instruction) (t : Stmt)
    (hosts : List Declaration) (exitType : Option Ty) (depths : Nat) (registers : Nat → Bool)
    (trusted : Prop) : Prop where
  runs : Runs m code
  tree : strip code = t.program (depths + 1)
  deep : 1 ≤ depths
  plain : PlainTypes hosts exitType
  ok : t.Ok (t.outline hosts exitType depths) [t.frame] [] []
  offers : Offers hosts m.externals
  behaves : trusted → Behaves hosts m.externals registers

section

variable {m : Machine World Watch} {code : List Instruction} {t : Stmt} {hosts : List Declaration}
  {exitType : Option Ty} {depths : Nat} {registers : Nat → Bool} {trusted : Prop}

namespace Hosted

theorem split (hosted : Hosted m code t hosts exitType depths registers trusted) :
    strip code = .scopeDepth (depths + 1) :: t.main := by
  rw [hosted.tree, t.program_eq]
  rfl

theorem labels_main (hosted : Hosted m code t hosts exitType depths registers trusted) :
    labelsOf t.main = labelsOf code := by
  rw [← labelsOf_strip code, hosted.split, labelsOf_cons_other (by rintro ⟨⟩)]

theorem labels_code (t : Stmt) : labelsOf t.main = labelsOf t.code := by
  unfold Stmt.main
  split <;> simp [labelsOf_cons, Instruction.pushScope, Instruction.unary]

theorem unique (hosted : Hosted m code t hosts exitType depths registers trusted) :
    (labelsOf t.code).Nodup := by
  rw [← labels_code, hosted.labels_main]
  exact hosted.runs.unique

theorem premises (hosted : Hosted m code t hosts exitType depths registers trusted) :
    Premises (t.plan hosts exitType depths trusted) registers m.environment (strip code) := by
  refine ⟨?_, Stmt.plan_coherent hosted.plain hosted.unique, hosted.offers, hosted.behaves⟩
  rw [labelsOf_strip]
  exact hosted.runs.unique

theorem goal_ok (hosted : Hosted m code t hosts exitType depths registers trusted) :
    t.goal.Ok (t.plan hosts exitType depths trusted) (strip code) := by
  refine ⟨⟨[.scopeDepth (depths + 1)], ?_⟩,
    ⟨_, Stmt.plan_check hosted.plain hosted.deep hosted.unique hosted.ok⟩, ?_⟩
  · rw [hosted.split]
    simp [Stmt.goal]
  · intro i member branch _
    have inside : i ∈ strip code := by
      rw [hosted.split]
      exact List.mem_cons_of_mem _ member
    change _ ∈ labelsOf t.main
    rw [hosted.labels_main]
    exact hosted.runs.defined i (List.mem_filter.mp inside).1 branch

theorem goal_whole (hosted : Hosted m code t hosts exitType depths registers trusted) :
    t.goal.Whole (strip code) := by
  intro label member
  change label ∈ labelsOf t.main
  rwa [hosted.labels_main, ← labelsOf_strip]

end Hosted

-- The state before the first instruction.
structure Fresh (t : Stmt) (hosts : List Declaration) (depths : Nat) (registers : Nat → Bool)
    (trusted : Prop) (k : Config World) (g : Trail) : Prop where
  rest : k.rest = .scopeDepth (depths + 1) :: t.main
  returns : k.returns = []
  trail : g = t.trail
  stack : k.core.stack = []
  size : k.core.scopes.size = 1
  host : HostFrame hosts k.core.scopes
  cells : CellsOk trusted hosts registers k.core.cells

-- A state of the machine with a trail that has a shape.
def Situated (code : List Instruction) (t : Stmt) (hosts : List Declaration) (exitType : Option Ty)
    (depths : Nat) (registers : Nat → Bool) (trusted : Prop) (s : RunState World Watch)
    (g : Trail) : Prop :=
  ∃ k, At code s k ∧ (Fresh t hosts depths registers trusted k g ∨ ∃ σ part,
    WellTyped (t.plan hosts exitType depths trusted) registers (fun _ => t.goal) k g σ part)

-- A core with room for frames at so many depths more.
def Core.widened (c : Core World) (depths : Nat) : Core World :=
  { c with scopes := c.scopes ++ Array.replicate depths [] }

-- Once there are as many stacks of frames as depths, the program starts.
theorem Fresh.sound {k : Config World} {g : Trail} (fresh : Fresh t hosts depths registers trusted k g)
    (deep : 1 ≤ depths) :
    Sound (t.plan hosts exitType depths trusted) registers (fun _ => t.goal) []
      (k.core.widened depths) g t.start := by
  refine ⟨fun _ => deep, ⟨(by rintro _ ⟨⟩), (by rintro _ ⟨⟩), (by rintro ⟨⟩)⟩, ?_, ?_⟩
  · rw [fresh.trail]
    refine ⟨by simp [Stmt.trail, Linked], ?_, ?_, ?_, fresh.cells⟩
    · intro depth inner fs present
      have empty : atDepth depth t.trail.lineages = [] := by simp [Stmt.trail, atDepth]
      rw [empty]
      simp only [Core.widened] at present
      rw [Array.getElem?_append_right (by rw [fresh.size]; exact inner),
        Array.getElem?_replicate] at present
      split at present
      · cases present
        exact .nil
      · cases present
    · simp [Core.widened, fresh.size, Stmt.plan, Stmt.outline, Nat.add_comm]
    · obtain ⟨frame, top, shared⟩ := fresh.host
      refine ⟨frame, ?_, shared⟩
      simp only [Core.widened]
      rw [Array.getElem?_append_left (by rw [fresh.size]; exact Nat.one_pos), top]
  · rw [fresh.trail]
    refine ⟨_, [], [], [], [], rfl, rfl, fresh.stack, ⟨rfl, trivial⟩, ?_, ?_,
      by simp [Stmt.start, Lineage.Knows], .nil, .program⟩
    · rintro inside _ ⟨rfl⟩ _ ⟨rfl⟩ framed
      have none : t.slots = [] := by
        rw [← List.length_eq_zero_iff, Stmt.length_slots]
        simpa [Stmt.start] using inside
      simp [Stmt.frame, none] at framed
    · rintro _ _ ⟨rfl⟩
      rfl

theorem Fresh.advances {k : Config World} {g : Trail}
    (hosted : Hosted m code t hosts exitType depths registers trusted)
    (fresh : Fresh t hosts depths registers trusted k g) :
    ∃ l, move m.environment (strip code) k = .next l [] ∧
      WellTyped (t.plan hosts exitType depths trusted) registers (fun _ => t.goal) l g t.start t.main := by
  have does : deed m.environment.externals (.scopeDepth (depths + 1)) k.core =
      .proceed (k.core.widened depths) [] := by
    have count : ((depths : Int) + 1).toNat - k.core.scopes.size = depths := by
      rw [fresh.size]
      omega
    simp only [deed, Instruction.scopeDepth, Core.effect, count]
    rfl
  refine ⟨{ k with rest := t.main, core := k.core.widened depths }, ?_, ?_⟩
  · simp only [move, fresh.rest, does]
  · refine ⟨?_, ?_, Stmt.plan_check hosted.plain hosted.deep hosted.unique hosted.ok, ?_⟩
    · simp [Stmt.goal]
    · exact List.suffix_refl _
    · simp only [fresh.returns]
      exact fresh.sound hosted.deep

-- A part that ends with the program passes labels without an end.
theorem WellTyped.settled {k l : Config World} {g : Trail} {σ : Shape} {part : List Instruction}
    (typed : WellTyped (t.plan hosts exitType depths trusted) registers (fun _ => t.goal) k g σ part)
    (passes : Passes k l) : ∃ σ' part',
      WellTyped (t.plan hosts exitType depths trusted) registers (fun _ => t.goal) l g σ' part' := by
  rcases typed.passes passes with found | ⟨_, more⟩
  · exact found
  · exact absurd rfl more

theorem Fresh.settled {k l : Config World} {g : Trail} (fresh : Fresh t hosts depths registers trusted k g)
    (passes : Passes k l) : l = k := by
  cases passes with
  | refl => rfl
  | label here is later =>
    rw [fresh.rest] at here
    cases here
    cases is

-- What a step of the machine can lead to.
inductive Situated.Step (code : List Instruction) (t : Stmt) (hosts : List Declaration)
    (exitType : Option Ty) (depths : Nat) (registers : Nat → Bool) (trusted : Prop)
    (s : RunState World Watch) (g : Trail) :
    EStateM.Result RuntimeError (RunState World Watch) (Option Value) → Prop where
  | next {u : RunState World Watch} (there : Situated code t hosts exitType depths registers trusted u
      (g.next (t.outline hosts exitType depths).functions code s))
      (size : s.scopes.size ≤ u.scopes.size) :
      Situated.Step code t hosts exitType depths registers trusted s g (.ok none u)
  | exit {v : Value} {u : RunState World Watch}
      (fits : trusted → ∀ wanted ∈ exitType, v.Fits wanted) :
      Situated.Step code t hosts exitType depths registers trusted s g (.ok (some v) u)
  | fault {f : RuntimeFault} {u w : RunState World Watch}
      (possible : f.Possible (t.plan hosts exitType depths trusted)) :
      Situated.Step code t hosts exitType depths registers trusted s g (.error (w.error f) u)

-- The move after some labels, with the trail after its instruction.
theorem Situated.advances {s : RunState World Watch} {g : Trail} {k l : Config World}
    (hosted : Hosted m code t hosts exitType depths registers trusted) (here : At code s k)
    (shaped : Fresh t hosts depths registers trusted k g ∨ ∃ σ part,
      WellTyped (t.plan hosts exitType depths trusted) registers (fun _ => t.goal) k g σ part)
    (passes : Passes k l) :
    (l.rest = [] ∧ move m.environment (strip code) l = .stop (.ok .null) l.core []) ∨
      ∃ i, l.rest.head? = some i ∧ Advances (t.plan hosts exitType depths trusted) registers
        (fun _ => t.goal) (g.after (t.outline hosts exitType depths).functions i s.toCore)
        (move m.environment (strip code) l) := by
  rcases shaped with fresh | ⟨σ, part, typed⟩
  · right
    rw [fresh.settled passes]
    obtain ⟨n, moved, typed⟩ := fresh.advances hosted
    refine ⟨.scopeDepth (depths + 1), by rw [fresh.rest]; rfl, ?_⟩
    rw [moved]
    exact .next typed
  · obtain ⟨σ, part, typed⟩ := typed.settled passes
    have rest : l.rest = part := by rw [typed.rest]; exact List.append_nil part
    cases part with
    | nil =>
      left
      exact ⟨rest, by simp only [move, rest]⟩
    | cons i part =>
      right
      refine ⟨i, by rw [rest]; rfl, ?_⟩
      have core : s.toCore = l.core := by rw [passes.core_eq, here.core]
      rw [core]
      exact typed.advances hosted.premises (fun _ => hosted.goal_ok) hosted.goal_whole

theorem Situated.size_le {s : RunState World Watch} {g : Trail}
    (situated : Situated code t hosts exitType depths registers trusted s g) :
    s.scopes.size ≤ depths + 1 := by
  obtain ⟨k, here, shaped⟩ := situated
  rw [here.core]
  rcases shaped with fresh | ⟨σ, part, typed⟩
  · rw [fresh.size]
    exact Nat.le_add_left 1 depths
  · rw [typed.sound.memory.size]
    exact Nat.le_refl _

-- Every step leads from a state with a shape to another, unless it ends the run.
theorem Situated.step {s : RunState World Watch} {g : Trail}
    (hosted : Hosted m code t hosts exitType depths registers trusted)
    (situated : Situated code t hosts exitType depths registers trusted s g) :
    Situated.Step code t hosts exitType depths registers trusted s g (Exec.step m s) := by
  obtain ⟨k, here, shaped⟩ := situated
  have followed := Linked.step_followed hosted.runs here
  generalize Exec.step m s = result at followed
  cases followed with
  | @mark u l i path there _ _ _ _ executed is =>
    have core : u.toCore = s.toCore := by rw [there.core, path.core_eq, here.core]
    refine .next ⟨l, there, ?_⟩ (congrArg (·.scopes.size) core).ge
    have same : g.next (t.outline hosts exitType depths).functions code s = g := by
      simp only [Trail.next, executed]
      exact Trail.after_mark (by rw [is]; rfl)
    rw [same]
    rcases shaped with fresh | ⟨σ, part, typed⟩
    · rw [fresh.settled path]
      exact .inl fresh
    · exact .inr (typed.settled path)
  | @onward u l n i path executed _ first moved there =>
    have next : g.next (t.outline hosts exitType depths).functions code s =
        g.after (t.outline hosts exitType depths).functions i s.toCore := by
      simp only [Trail.next, executed]
    rcases Situated.advances hosted here shaped path with ⟨none, _⟩ | ⟨j, head, advances⟩
    · rw [none] at first
      cases first
    · rw [first] at head
      cases head
      rw [moved] at advances
      cases advances with
      | next typed =>
        refine .next ⟨n, there, .inr ⟨_, _, next ▸ typed⟩⟩ ?_
        rw [there.core, typed.sound.memory.size]
        exact Situated.size_le ⟨k, here, shaped⟩
  | exit path stopped =>
    refine .exit ?_
    rcases Situated.advances hosted here shaped path with ⟨_, ended⟩ | ⟨j, head, advances⟩
    · rw [ended] at stopped
      obtain ⟨same, _⟩ := Move.stop.inj stopped
      cases same
      exact fun _ wanted _ => .inl rfl
    · rw [stopped] at advances
      cases advances with
      | exit fits => exact fun trust wanted asked => fits wanted asked trust
  | fault path stopped =>
    refine .fault ?_
    rcases Situated.advances hosted here shaped path with ⟨_, ended⟩ | ⟨j, head, advances⟩
    · rw [ended] at stopped
      cases stopped
    · rw [stopped] at advances
      cases advances with
      | fault possible => exact possible
  | @imposed f u w disturbed cause =>
    refine .fault ?_
    cases f <;> simp [RuntimeFault.Imposed] at cause <;>
      simp [RuntimeFault.Possible, RuntimeFault.code, Code.typeError, Code.instructionLimit,
        Code.cancelled, Code.invalidOperation]

end

end ScalarScript
