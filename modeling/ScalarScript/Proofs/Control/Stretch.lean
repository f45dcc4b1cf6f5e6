import ScalarScript.Proofs.Control.Skeleton
import ScalarScript.Proofs.Typing.Plan
/-!
The code of a tree keeps to the bodies of functions. Every part of it is a stretch: what it does to
control is settled inside, up to jumps to a few labels around it, and the functions in it begin and
end in it.
-/
namespace ScalarScript

open Control
open Compile (eax ebx)

-- Code that stays in one body, with its own functions in it. Some of its jumps may lead out of it,
-- to labels of the same body.
structure Stretch (starts outs : List Int) (code : List Instruction) (own : List Int) : Prop where
  unframed : (skeleton code).head? ≠ some .frame
  entries : functionEntries code = own
  around : ∀ outer, around starts outer (skeleton code) = outer
  calls : ∀ id, .call id ∈ skeleton code → id ∈ starts
  jumps : ∀ outer, ∀ p ∈ sites starts target? outer (skeleton code),
    p ∈ sites starts (spot? starts) outer (skeleton code) ∨ ∃ id ∈ outs, p = (id, outer)
  fences : ∀ entry ∈ own, ∃ skip, [.branch .jump skip, .label entry] <:+: code

namespace Stretch

variable {starts outs : List Int} {a b : List Instruction} {own inner : List Int}

theorem nil : Stretch starts outs [] [] := by
  refine ⟨?_, rfl, fun _ => rfl, ?_, ?_, ?_⟩
  · simp
  · simp
  · simp
  · simp

theorem append (first : Stretch starts outs a own) (second : Stretch starts outs b inner) :
    Stretch starts outs (a ++ b) (own ++ inner) := by
  refine ⟨?_, ?_, ?_, ?_, ?_, ?_⟩
  · have one := first.unframed
    have two := second.unframed
    rw [skeleton_append]
    cases parts : skeleton a with
    | nil => exact two
    | cons c cs =>
      rw [parts] at one
      exact one
  · rw [functionEntries, skeleton_append, entries_append _ second.unframed]
    exact congrArg₂ (· ++ ·) first.entries second.entries
  · intro outer
    rw [skeleton_append, around_append, first.around, second.around]
  · intro id called
    rw [skeleton_append] at called
    exact (List.mem_append.mp called).elim (first.calls id) (second.calls id)
  · intro outer p asked
    rw [skeleton_append, sites_append, first.around] at asked ⊢
    rw [List.mem_append]
    rcases List.mem_append.mp asked with early | late
    · exact (first.jumps outer p early).imp_left .inl
    · exact (second.jumps outer p late).imp_left .inr
  · intro entry member
    rcases List.mem_append.mp member with early | late
    · obtain ⟨skip, inside⟩ := first.fences entry early
      exact ⟨skip, inside.trans (List.prefix_append a b).isInfix⟩
    · obtain ⟨skip, inside⟩ := second.fences entry late
      exact ⟨skip, inside.trans (List.suffix_append a b).isInfix⟩

-- One instruction that no control goes through, or a call.
theorem plain {i : Instruction} (step : ∀ c ∈ i.control?, ∃ id ∈ starts, c = .call id) :
    Stretch starts outs [i] [] := by
  cases control : i.control? with
  | none =>
    have silent : skeleton [i] = [] := skeleton_cons_of_none control []
    refine ⟨?_, ?_, ?_, ?_, ?_, ?_⟩
    all_goals simp [silent, functionEntries, Control.entries]
  | some c =>
    obtain ⟨id, known, rfl⟩ := step c control
    have one : skeleton [i] = [.call id] := skeleton_cons_of_some control []
    refine ⟨?_, ?_, ?_, ?_, ?_, ?_⟩
    all_goals simp [one, functionEntries, Control.entries, cross, sites, target?, known]

theorem branch {i : Instruction} {c : Control} {id : Int} (is : i.control? = some c)
    (leads : c.target? = some id) (out : id ∈ outs) : Stretch starts outs [i] [] := by
  have one : skeleton [i] = [c] := skeleton_cons_of_some is []
  have jump : c = .jump id ∨ c = .branch id := by
    cases c <;> cases leads
    · exact .inl rfl
    · exact .inr rfl
  rcases jump with rfl | rfl
  all_goals
    refine ⟨?_, ?_, ?_, ?_, ?_, ?_⟩
    all_goals simp [one, functionEntries, Control.entries, cross, sites, target?, out]

-- A test and the jump on its outcome.
theorem test {condition : Condition} {id : Int} (out : id ∈ outs) :
    Stretch starts outs [.unary .test eax, .branch (.jumpIf condition) id] [] :=
  .append (a := [.unary .test eax]) (.plain (by rintro _ ⟨⟩)) (.branch rfl rfl out)

theorem skeleton_label (id : Int) : skeleton [.label id] = [.label id] := rfl

theorem label {id : Int} (other : id ∉ starts) : Stretch starts outs [.label id] [] := by
  refine ⟨?_, ?_, ?_, ?_, ?_, ?_⟩
  all_goals simp [skeleton_label, functionEntries, Control.entries, cross, sites, target?, other]

-- A label behind some code settles the jumps to it, from both sides.
theorem settle {id : Int} (first : Stretch starts (id :: outs) a own) (other : id ∉ starts)
    (second : Stretch starts (id :: outs) b inner) :
    Stretch starts outs (a ++ .label id :: b) (own ++ inner) := by
  have between : Stretch starts (id :: outs) [.label id] [] := label other
  have whole := first.append (between.append second)
  refine ⟨whole.unframed, whole.entries, whole.around, whole.calls, ?_, whole.fences⟩
  intro outer p asked
  rcases whole.jumps outer p asked with inside | ⟨out, member, rfl⟩
  · exact .inl inside
  · rcases List.mem_cons.mp member with rfl | outside
    · refine .inl ?_
      rw [skeleton_append, sites_append, first.around, skeleton_cons]
      simp [Instruction.control?, Instruction.label, sites, spot?, cross, other]
    · exact .inr ⟨out, outside, rfl⟩

end Stretch

theorem skeleton_receive (r : Routine) : skeleton r.receive = [] := by
  rw [skeleton, List.filterMap_eq_nil_iff]
  intro i member
  rcases List.mem_append.mp member with allocates | pops
  · obtain ⟨_, _, rfl⟩ := List.mem_map.mp allocates
    rfl
  · obtain ⟨_, _, rfl⟩ := List.mem_map.mp (List.mem_reverse.mp pops)
    rfl

-- What stands in front of the body of a function, and what stands behind it.
def Routine.opening (r : Routine) : List Control := [.jump r.skip, .label r.entry, .frame]

def Routine.ending (r : Routine) : List Control := [.label r.result, .ret, .label r.skip]

theorem Stmt.skeleton_function (r : Routine) (body : Stmt) :
    skeleton (Stmt.function r body).code = r.opening ++ (skeleton body.code ++ r.ending) := by
  rw [Stmt.code, skeleton_append, skeleton_append, skeleton_append, skeleton_receive,
    List.append_nil, List.append_assoc]
  rfl

-- A function is a stretch of the body around it.
theorem Stretch.function {starts outs own : List Int} {r : Routine} {body : Stmt}
    (inside : Stretch starts [r.result] body.code own) (entry : r.entry ∈ starts)
    (result : r.result ∉ starts) (skip : r.skip ∉ starts) :
    Stretch starts outs (Stmt.function r body).code (r.entry :: own) := by
  have enters (outer : List Int) : Control.around starts outer r.opening = r.entry :: outer := by
    simp [Routine.opening, cross, entry]
  have leaves (outer : List Int) : Control.around starts outer r.ending = outer.tail := by
    simp [Routine.ending, cross, result, skip]
  refine ⟨?_, ?_, ?_, ?_, ?_, ?_⟩
  · simp [Stmt.skeleton_function, Routine.opening]
  · have unframed : (skeleton body.code ++ r.ending).head? ≠ some .frame := by
      have first := inside.unframed
      cases parts : skeleton body.code with
      | nil => simp [Routine.ending]
      | cons c cs =>
        rw [parts] at first
        exact first
    have known : Control.entries (skeleton body.code) = own := inside.entries
    rw [functionEntries, Stmt.skeleton_function, entries_append _ unframed,
      entries_append _ (by simp [Routine.ending]), known]
    simp [Routine.opening, Routine.ending, Control.entries]
  · intro outer
    rw [Stmt.skeleton_function, around_append, around_append, enters, inside.around, leaves,
      List.tail_cons]
  · intro id called
    rw [Stmt.skeleton_function] at called
    exact inside.calls id (by simpa [Routine.opening, Routine.ending] using called)
  · intro outer p asked
    left
    -- the jump around the function leads behind it, those inside to their labels or to its end
    have around : sites starts target? outer r.opening = [(r.skip, outer)] := by
      simp [Routine.opening, sites, cross, target?]
    have none : sites starts target? (r.entry :: outer) r.ending = [] := by
      simp [Routine.ending, sites, target?]
    have spots : sites starts (spot? starts) (r.entry :: outer) r.ending =
        [(r.result, r.entry :: outer), (r.skip, outer)] := by
      simp [Routine.ending, sites, spot?, cross, result, skip]
    rw [Stmt.skeleton_function, sites_append, sites_append, enters, inside.around] at asked ⊢
    rw [around, none, List.append_nil, List.singleton_append] at asked
    rw [spots]
    rcases List.mem_cons.mp asked with rfl | inner
    · simp
    · rcases inside.jumps (r.entry :: outer) p inner with settled | ⟨id, member, rfl⟩
      · simp [settled]
      · obtain rfl := List.mem_singleton.mp member
        simp
  · intro label member
    rcases List.mem_cons.mp member with rfl | deeper
    · exact ⟨r.skip, [], .pushScope r.depth (r.params.length + body.count) :: r.receive ++
        body.code ++ Stmt.conclude r, by simp [Stmt.code]⟩
    · obtain ⟨skip, found⟩ := inside.fences label deeper
      refine ⟨skip, found.trans ?_⟩
      rw [Stmt.code]
      exact (List.suffix_append _ body.code).isInfix.trans
        (List.prefix_append _ (Stmt.conclude r)).isInfix

-- What the calls of an expression lead to.
def Symbol.Enters (starts : List Int) (s : Symbol) : Prop :=
  s.isFunction = true → s.isExternal = false → s.label ∈ starts

theorem Stretch.callInstruction {starts outs : List Int} {s : Symbol} (function : s.isFunction = true)
    (enters : s.Enters starts) : Stretch starts outs [s.callInstruction] [] := by
  refine .plain ?_
  unfold Symbol.callInstruction
  split
  · rintro _ ⟨⟩
  · rename_i own
    rintro _ ⟨rfl⟩
    exact ⟨s.label, enters function (by simpa using own), rfl⟩

theorem Stretch.regroup {starts outs : List Int} : Stretch starts outs regroup [] :=
  .append (a := [.move ebx eax]) (.plain (by rintro _ ⟨⟩)) (.plain (by rintro _ ⟨⟩))

section

attribute [local simp] labelsOf_cons Instruction.move Instruction.binary Instruction.unary
  Instruction.push Instruction.pop Instruction.branch Instruction.label regroup

variable (starts : List Int)

mutual

theorem Expr.stretch (outs : List Int) : (e : Expr) → (∀ l ∈ labelsOf e.code, l ∉ starts) → e.Typed →
    e.All (·.Enters starts) → Stretch starts outs e.code []
  | .constant v, _, _, _ => .plain (by rintro _ ⟨⟩)
  | .var s, _, _, _ => .plain (by rintro _ ⟨⟩)
  | .call s args, others, typed, enters => by
    rw [Expr.code, labelsOf_append] at others
    exact .append (args.stretch outs (List.forall_mem_append.mp others).1 typed.2.1 enters.2)
      (.callInstruction typed.1 enters.1)
  | .unary op e, others, typed, enters => by
    rw [Expr.code, labelsOf_append] at others
    exact .append (e.stretch outs (List.forall_mem_append.mp others).1 typed.1 enters)
      (.plain (by rintro _ ⟨⟩))
  | .binary op a b, others, typed, enters => by
    have parts : (∀ l ∈ labelsOf a.code, l ∉ starts) ∧ ∀ l ∈ labelsOf b.code, l ∉ starts := by
      simpa [Expr.code, or_imp, forall_and] using others
    have left := a.stretch outs parts.1 typed.1 enters.1
    have right := b.stretch outs parts.2 typed.2.1 enters.2
    exact ((left.append (.append (a := [.push eax]) (.plain (by rintro _ ⟨⟩)) right)).append
      .regroup).append (.plain (by rintro _ ⟨⟩))
  | .compare c a b, others, typed, enters => by
    have parts : (∀ l ∈ labelsOf a.code, l ∉ starts) ∧ ∀ l ∈ labelsOf b.code, l ∉ starts := by
      simpa [Expr.code, or_imp, forall_and] using others
    have left := a.stretch outs parts.1 typed.1 enters.1
    have right := b.stretch outs parts.2 typed.2.1 enters.2
    exact ((left.append (.append (a := [.push eax]) (.plain (by rintro _ ⟨⟩)) right)).append
      .regroup).append (.append (a := [.binary .compare eax ebx]) (.plain (by rintro _ ⟨⟩))
        (.plain (by rintro _ ⟨⟩)))
  | .logical c a b done, others, typed, enters => by
    have parts : (∀ l ∈ labelsOf a.code, l ∉ starts) ∧ (∀ l ∈ labelsOf b.code, l ∉ starts) ∧
        done ∉ starts := by
      simpa [Expr.code, or_imp, forall_and] using others
    have left := a.stretch (done :: outs) parts.1 typed.1 enters.1
    have right := b.stretch (done :: outs) parts.2.1 typed.2.1 enters.2
    have skips : Stretch starts (done :: outs)
        [.unary .test eax, .branch (.jumpIf c.rule.skip) done, .push eax] [] :=
      .append (a := [.unary .test eax, .branch (.jumpIf c.rule.skip) done])
        (.test List.mem_cons_self) (.plain (by rintro _ ⟨⟩))
    have before := (((left.append skips).append right).append .regroup).append
      (.plain (i := .binary (.binary c.rule.op) eax ebx) (by rintro _ ⟨⟩))
    have whole := before.settle parts.2.2 .nil
    simpa [Expr.code] using whole
  | .choose c a b otherwise done, others, typed, enters => by
    have parts : (∀ l ∈ labelsOf c.code, l ∉ starts) ∧ (∀ l ∈ labelsOf a.code, l ∉ starts) ∧
        otherwise ∉ starts ∧ (∀ l ∈ labelsOf b.code, l ∉ starts) ∧ done ∉ starts := by
      simpa [Expr.code, or_imp, forall_and] using others
    have condition := c.stretch (otherwise :: done :: outs) parts.1 typed.1 enters.1
    have first := a.stretch (otherwise :: done :: outs) parts.2.1 typed.2.1 enters.2.1
    have second := b.stretch (otherwise :: done :: outs) parts.2.2.2.1 typed.2.2.1 enters.2.2
    have skips : Stretch starts (otherwise :: done :: outs)
        [.unary .test eax, .branch (.jumpIf .equal) otherwise] [] := .test List.mem_cons_self
    have leaves : Stretch starts (otherwise :: done :: outs) [.branch .jump done] [] :=
      .branch rfl rfl (List.mem_cons_of_mem _ List.mem_cons_self)
    have both := (((condition.append skips).append first).append leaves).settle parts.2.2.1 second
    have whole := both.settle parts.2.2.2.2 .nil
    simpa [Expr.code] using whole

theorem Args.stretch (outs : List Int) : (args : Args) → (∀ l ∈ labelsOf args.code, l ∉ starts) →
    args.Typed → args.All (·.Enters starts) → Stretch starts outs args.code []
  | .nil, _, _, _ => .nil
  | .cons e rest, others, typed, enters => by
    have parts : (∀ l ∈ labelsOf e.code, l ∉ starts) ∧ ∀ l ∈ labelsOf rest.code, l ∉ starts := by
      simpa [Args.code, or_imp, forall_and] using others
    exact (e.stretch outs parts.1 typed.1 enters.1).append
      (.append (a := [.push eax]) (.plain (by rintro _ ⟨⟩))
        (rest.stretch outs parts.2 typed.2 enters.2))

end

end

-- The labels of a tree that are no entries of functions.
def Stmt.spots : Stmt → List Int
  | seq a b => a.spots ++ b.spots
  | block a => a.spots
  | expr e | assign _ e | exit (some e) | yield (some e) _ | declare _ _ (some e) =>
    labelsOf e.code
  | function r body => r.skip :: r.result :: body.spots
  | ifThen e a otherwise => otherwise :: labelsOf e.code ++ a.spots
  | ifElse e a b otherwise done => otherwise :: done :: labelsOf e.code ++ a.spots ++ b.spots
  | whileLoop e a top done | loopWhile a e top done => top :: done :: labelsOf e.code ++ a.spots
  | forLoop init e a step top done =>
    top :: done :: labelsOf (guard e done) ++ init.spots ++ a.spots ++ step.spots
  | _ => []

section

attribute [local simp] labelsOf_cons Instruction.move Instruction.binary Instruction.unary
  Instruction.push Instruction.pop Instruction.branch Instruction.label Instruction.pushScope
  Instruction.popScope Instruction.plain

theorem Stmt.count_labels (t : Stmt) (l : Int) :
    (labelsOf t.code).count l = t.spots.count l + (t.routines.map (·.entry)).count l := by
  induction t with
  | seq a b aCount bCount =>
    simp only [code, spots, routines, labelsOf_append, List.map_append, List.count_append]
    omega
  | block a count => exact count
  | function r body count =>
    simp only [code, conclude, spots, routines, labelsOf_append, List.map_cons, List.count_append,
      List.count_cons]
    simp [List.count_cons, count]
    omega
  | ifThen e a otherwise count =>
    simp [code, guard, spots, routines, List.count_append, List.count_cons, count]
    omega
  | ifElse e a b otherwise done aCount bCount =>
    simp [code, guard, spots, routines, List.count_append, List.count_cons, aCount, bCount]
    omega
  | whileLoop e a top done count | loopWhile a e top done count =>
    simp [code, guard, spots, routines, List.count_append, List.count_cons, count]
    omega
  | forLoop init e a step top done initCount aCount stepCount =>
    simp [code, spots, routines, List.count_append, List.count_cons, initCount, aCount, stepCount]
    omega
  | declare type s init => cases init <;> simp [code, spots, routines]
  | yield e result => cases e <;> simp [code, spots, routines]
  | exit e => cases e <;> simp [code, spots, routines]
  | skip | expr e | assign s e | leave done => simp [code, spots, routines]

end

theorem Symbol.Fits.enters {starts : List Int} {o : Outline} {chain : Chain} {ready : Ready}
    (known : ∀ label f, o.functions label = some f → label ∈ starts) {s : Symbol}
    (fits : s.Fits o chain ready) : s.Enters starts := by
  intro function own
  have inner : s.depth ≠ 0 := by simpa [isExternal] using own
  rw [Fits, if_neg inner, if_pos function] at fits
  obtain ⟨_, _, _, leads, _⟩ := fits.2
  exact known _ _ leads

theorem Stretch.guard {starts outs : List Int} {o : Outline} {chain : Chain} {ready : Ready}
    (known : ∀ label f, o.functions label = some f → label ∈ starts) {e : Option Expr}
    {otherwise : Int} (others : ∀ l ∈ labelsOf (Stmt.guard e otherwise), l ∉ starts)
    (ok : ∀ test ∈ e, test.Ok o chain ready) (out : otherwise ∈ outs) :
    Stretch starts outs (Stmt.guard e otherwise) [] := by
  cases e with
  | none => exact .nil
  | some e =>
    obtain ⟨typed, fits⟩ := ok e rfl
    rw [Stmt.guard, labelsOf_append] at others
    exact (e.stretch starts outs (List.forall_mem_append.mp others).1 typed
      (Expr.All.imp (fun _ => Symbol.Fits.enters known) e fits)).append
      (.test out)

section

variable {starts : List Int} {o : Outline}

theorem Expr.Ok.stretch (known : ∀ label f, o.functions label = some f → label ∈ starts)
    {chain : Chain} {ready : Ready} {e : Expr} (ok : e.Ok o chain ready)
    (others : ∀ l ∈ labelsOf e.code, l ∉ starts) (outs : List Int) :
    Stretch starts outs e.code [] :=
  e.stretch starts outs others ok.1 (Expr.All.imp (fun _ => Symbol.Fits.enters known) e ok.2)

-- Where a body may leave to: behind its loops, and to its end.
def LeadsOut (outs loops : List Int) (chain : Chain) : Prop :=
  (∀ done ∈ loops.head?, done ∈ outs) ∧
    ∀ body ∈ chain.head?, ∀ f ∈ body.enclosing, f.returnLabel ∈ outs

theorem LeadsOut.mono {outs more loops : List Int} {chain : Chain} (leads : LeadsOut outs loops chain)
    (subset : outs ⊆ more) : LeadsOut more loops chain :=
  ⟨fun done first => subset (leads.1 done first),
    fun body head f function => subset (leads.2 body head f function)⟩

-- Inside a loop with its own way out.
theorem LeadsOut.loop {outs more loops : List Int} {chain : Chain} {done : Int}
    (leads : LeadsOut outs loops chain) (subset : outs ⊆ more) (out : done ∈ more) :
    LeadsOut more (done :: loops) chain :=
  ⟨by rintro _ ⟨rfl⟩; exact out, (leads.mono subset).2⟩

-- Where no loop is to be left.
theorem LeadsOut.plain {outs loops : List Int} {chain : Chain} (leads : LeadsOut outs loops chain) :
    LeadsOut outs [] chain := ⟨by simp, leads.2⟩

theorem Stmt.stretch (known : ∀ label f, o.functions label = some f → label ∈ starts) (t : Stmt)
    {chain : Chain} {before : Ready} {loops outs : List Int} (ok : t.Ok o chain before loops)
    (others : ∀ l ∈ t.spots, l ∉ starts) (entries : ∀ r ∈ t.routines, r.entry ∈ starts)
    (leads : LeadsOut outs loops chain) :
    Stretch starts outs t.code (t.routines.map (·.entry)) := by
  induction t generalizing chain before loops outs with
  | skip => exact .nil
  | seq a b aStretch bStretch =>
    rw [spots, List.forall_mem_append] at others
    rw [routines, List.forall_mem_append] at entries
    rw [routines, List.map_append]
    exact (aStretch ok.1 others.1 entries.1 leads).append
      (bStretch ok.2 others.2 entries.2 leads)
  | block a stretch => exact stretch ok others entries leads
  | expr e => exact Expr.Ok.stretch known ok others outs
  | assign s e => exact (Expr.Ok.stretch known ok.1 others outs).append (.plain (by rintro _ ⟨⟩))
  | declare type s init =>
    cases init with
    | none => exact .plain (by rintro _ ⟨⟩)
    | some e =>
      obtain ⟨_, _, _, _, given⟩ := ok
      exact .append (a := [.unary (.allocate type) s.operand]) (.plain (by rintro _ ⟨⟩))
        ((Expr.Ok.stretch known (given e rfl).1 others outs).append (.plain (by rintro _ ⟨⟩)))
  | function r body stretch =>
    simp only [spots, List.forall_mem_cons] at others
    rw [routines, List.forall_mem_cons] at entries
    have inner : LeadsOut [r.result] [] (r.frame body :: chain) := by
      refine ⟨by simp, ?_⟩
      rintro _ ⟨rfl⟩ _ ⟨rfl⟩
      exact List.mem_singleton_self _
    exact .function (stretch ok.2.2.2.2 others.2.2 entries.2 inner) entries.1 others.2.1 others.1
  | ifThen e a otherwise aStretch =>
    obtain ⟨eOk, _, aOk⟩ := ok
    simp only [spots, List.cons_append, List.forall_mem_cons, List.forall_mem_append] at others
    obtain ⟨other, eOthers, aOthers⟩ := others
    have test : Stretch starts (otherwise :: outs) (guard (some e) otherwise) [] :=
      (Expr.Ok.stretch known eOk eOthers _).append (.test List.mem_cons_self)
    have inner := aStretch aOk aOthers entries (leads.mono (List.subset_cons_self otherwise outs))
    simpa [code, routines] using (test.append inner).settle other .nil
  | ifElse e a b otherwise done aStretch bStretch =>
    obtain ⟨eOk, _, aOk, bOk⟩ := ok
    simp only [spots, List.cons_append, List.forall_mem_cons, List.forall_mem_append] at others
    obtain ⟨other, last, ⟨eOthers, aOthers⟩, bOthers⟩ := others
    rw [routines, List.forall_mem_append] at entries
    have more : outs ⊆ otherwise :: done :: outs :=
      List.subset_cons_of_subset _ (List.subset_cons_self done outs)
    have test : Stretch starts (otherwise :: done :: outs) (guard (some e) otherwise) [] :=
      (Expr.Ok.stretch known eOk eOthers _).append (.test List.mem_cons_self)
    have skips : Stretch starts (otherwise :: done :: outs) [.branch .jump done] [] :=
      .branch rfl rfl (List.mem_cons_of_mem _ List.mem_cons_self)
    have first := aStretch aOk aOthers entries.1 (leads.mono more)
    have second := bStretch bOk bOthers entries.2 (leads.mono more)
    have both := ((test.append first).append skips).settle other second
    simpa [code, routines] using both.settle last .nil
  | whileLoop e a top done aStretch =>
    obtain ⟨eOk, _, aOk⟩ := ok
    simp only [spots, List.cons_append, List.forall_mem_cons, List.forall_mem_append] at others
    obtain ⟨first, last, eOthers, aOthers⟩ := others
    have more : outs ⊆ top :: done :: outs :=
      List.subset_cons_of_subset _ (List.subset_cons_self done outs)
    have test : Stretch starts (top :: done :: outs) (guard (some e) done) [] :=
      (Expr.Ok.stretch known eOk eOthers _).append
        (.test (List.mem_cons_of_mem _ List.mem_cons_self))
    have inner := aStretch aOk aOthers entries
      (leads.loop more (List.mem_cons_of_mem _ List.mem_cons_self))
    have again : Stretch starts (top :: done :: outs) [.branch .jump top] [] :=
      .branch rfl rfl List.mem_cons_self
    have loop := Stretch.nil.settle first ((test.append inner).append again)
    simpa [code, routines] using loop.settle last .nil
  | forLoop init e a step top done initStretch aStretch stepStretch =>
    obtain ⟨initOk, eOk, aOk, stepOk⟩ := ok
    simp only [spots, List.cons_append, List.forall_mem_cons, List.forall_mem_append] at others
    obtain ⟨first, last, ⟨⟨eOthers, initOthers⟩, aOthers⟩, stepOthers⟩ := others
    simp only [routines, List.forall_mem_append] at entries
    have more : outs ⊆ top :: done :: outs :=
      List.subset_cons_of_subset _ (List.subset_cons_self done outs)
    have before := initStretch initOk initOthers entries.1.1 (leads.mono more).plain
    have test : Stretch starts (top :: done :: outs) (guard e done) [] :=
      .guard known eOthers (fun test given => (eOk test given).1)
        (List.mem_cons_of_mem _ List.mem_cons_self)
    have inner := aStretch aOk aOthers entries.1.2
      (leads.loop more (List.mem_cons_of_mem _ List.mem_cons_self))
    have onward := stepStretch stepOk stepOthers entries.2 (leads.mono more).plain
    have again : Stretch starts (top :: done :: outs) [.branch .jump top] [] :=
      .branch rfl rfl List.mem_cons_self
    have loop := before.settle first (((test.append inner).append onward).append again)
    simpa [code, routines] using loop.settle last .nil
  | loopWhile a e top done aStretch =>
    obtain ⟨aOk, _, eOk, _⟩ := ok
    simp only [spots, List.cons_append, List.forall_mem_cons, List.forall_mem_append] at others
    obtain ⟨first, last, eOthers, aOthers⟩ := others
    have more : outs ⊆ top :: done :: outs :=
      List.subset_cons_of_subset _ (List.subset_cons_self done outs)
    have inner := aStretch aOk aOthers entries
      (leads.loop more (List.mem_cons_of_mem _ List.mem_cons_self))
    have test : Stretch starts (top :: done :: outs) e.code [] := Expr.Ok.stretch known eOk eOthers _
    have again : Stretch starts (top :: done :: outs)
        [.unary .test eax, .branch (.jumpIf .notEqual) top] [] := .test List.mem_cons_self
    have loop := Stretch.nil.settle first ((inner.append test).append again)
    simpa [code, routines] using loop.settle last .nil
  | leave done => exact .branch rfl rfl (leads.1 done ok)
  | yield e result =>
    obtain ⟨body, f, head, function, rfl, given⟩ := ok
    have out : Stretch starts outs [.branch .jump f.returnLabel] [] :=
      .branch rfl rfl (leads.2 body head f function)
    cases e with
    | none => exact .append (a := [.move eax .null]) (.plain (by rintro _ ⟨⟩)) out
    | some e => exact (Expr.Ok.stretch known (given e rfl).1 others outs).append out
  | exit e =>
    cases e with
    | none => exact .plain (by rintro _ ⟨⟩)
    | some e =>
      exact (Expr.Ok.stretch known (ok e rfl).1 others outs).append (.plain (by rintro _ ⟨⟩))

end

-- The functions that a program knows of are those that it defines.
theorem Stmt.entry_of_mem_functions {t : Stmt} {chain : Chain} {before : Ready}
    {p : Int × Signature} (member : p ∈ t.functions chain before) :
    p.1 ∈ t.routines.map (·.entry) := by
  induction t generalizing chain before with
  | seq a b aKnown bKnown | ifElse _ a b _ _ aKnown bKnown =>
    rw [routines, List.map_append, List.mem_append]
    exact (List.mem_append.mp member).imp aKnown bKnown
  | block a known | ifThen _ a _ known | whileLoop _ a _ _ known | loopWhile a _ _ _ known =>
    exact known member
  | forLoop init _ a step _ _ _ known _ =>
    simp only [routines, List.map_append, List.mem_append]
    exact .inl (.inr (known member))
  | function r body known =>
    rcases List.mem_cons.mp member with rfl | inner
    · exact List.mem_cons_self
    · exact List.mem_cons_of_mem _ (known inner)
  | skip | expr _ | assign _ _ | declare _ _ _ | leave _ | yield _ _ | exit _ => cases member

-- Everything about the control of a program: its functions begin and end in it, and its jumps stay
-- in their bodies.
theorem Stmt.program_enclosed {t : Stmt} {hosts : List Declaration} {exitType : Option Ty}
    {depths : Nat} (unique : (labelsOf t.code).Nodup)
    (ok : t.Ok (t.outline hosts exitType depths) [t.frame] [] []) (size : Nat) :
    Sealed (skeleton (t.program size)) ∧ Fenced (t.program size) := by
  have apart : ∀ l ∈ t.spots, l ∉ t.routines.map (·.entry) := by
    intro l spot entry
    have once := List.nodup_iff_count_le_one.mp unique l
    have one := List.count_pos_iff.mpr spot
    have two := List.count_pos_iff.mpr entry
    rw [t.count_labels] at once
    omega
  have whole : Stretch (t.routines.map (·.entry)) [] t.code (t.routines.map (·.entry)) := by
    refine t.stretch ?_ ok apart (fun r member => List.mem_map_of_mem member) ⟨by simp, ?_⟩
    · exact fun label f known => entry_of_mem_functions (mem_of_lookup known)
    · rintro _ ⟨rfl⟩ _ ⟨⟩
  have last : Stretch (t.routines.map (·.entry)) [] [.unary .exit .null] [] :=
    .plain (by rintro _ ⟨⟩)
  have behind := whole.append last
  rw [List.append_nil] at behind
  obtain ⟨front, program, frames⟩ : ∃ front : List Instruction,
      t.program size = front ++ (t.code ++ [Instruction.unary .exit .null]) ∧
        (skeleton front = [] ∨ skeleton front = [.frame]) := by
    rw [Stmt.program]
    by_cases bare : t.count = 0
    · exact ⟨[.scopeDepth size], by simp [bare], .inl rfl⟩
    · exact ⟨[.scopeDepth size, .pushScope 1 t.count], by simp [bare], .inr rfl⟩
  have entries : functionEntries (t.program size) = t.routines.map (·.entry) := by
    have inner : Control.entries (skeleton (t.code ++ [Instruction.unary .exit .null])) =
      t.routines.map (·.entry) := behind.entries
    rw [functionEntries, program, skeleton_append, entries_append _ behind.unframed, inner]
    rcases frames with none | one
    · rw [none]
      rfl
    · rw [one]
      rfl
  have passes (outer : List Int) :
      Control.around (t.routines.map (·.entry)) outer (skeleton front) = outer := by
    rcases frames with none | one
    · rw [none]
      rfl
    · rw [one]
      rfl
  have silent (pick : Control → Option Int) (quiet : pick .frame = none) :
      sites (t.routines.map (·.entry)) pick [] (skeleton front) = [] := by
    rcases frames with none | one
    · rw [none]
      rfl
    · rw [one]
      simp [sites, quiet]
  have labels : labelsOf (t.program size) = labelsOf t.code := by
    rw [program]
    have none : labelsOf front = [] := by
      rw [labelsOf_eq_skeleton]
      rcases frames with none | one
      · rw [none]
        rfl
      · rw [one]
        rfl
    simp [none, labelsOf_cons, Instruction.unary]
  refine ⟨⟨?_, ?_, ?_, ?_⟩, ?_⟩
  · rw [← labelsOf_eq_skeleton, labels]
    exact unique
  · intro id called
    rw [← functionEntries, entries]
    rw [program, skeleton_append] at called
    refine (List.mem_append.mp called).elim ?_ (behind.calls id)
    intro early
    rcases frames with none | one
    · rw [none] at early
      cases early
    · rw [one] at early
      cases List.mem_singleton.mp early
  · rw [← functionEntries, entries, program, skeleton_append, sites_append, sites_append, passes,
      silent target? rfl, silent _ rfl, List.nil_append, List.nil_append]
    intro p asked
    rcases behind.jumps [] p asked with settled | ⟨_, none, _⟩
    · exact settled
    · cases none
  · rw [← functionEntries, entries, program, skeleton_append, around_append, passes,
      behind.around]
  · refine .of_fences (labels ▸ unique) ?_
    intro entry member
    rw [entries] at member
    obtain ⟨skip, inside⟩ := behind.fences entry member
    refine ⟨skip, inside.trans ?_⟩
    rw [program]
    exact (List.suffix_append _ _).isInfix

end ScalarScript
