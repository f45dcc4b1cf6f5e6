import ScalarScript.Proofs.Source.Reading
import ScalarScript.Proofs.Source.Scoping
/-!
The names of a tree that was read lead somewhere: every variable to a slot of a body around it,
every function to its body. Wherever a variable is in sight, its declaration was executed, unless it
stands in a branch without braces of its own.
-/
namespace ScalarScript

-- The place of statements in a program: what is in scope, what they add to the slots of the
-- innermost body and to the functions, and which of their variables may be passed over.
structure Placed (o : Outline) (chain : Chain) (before : Ready) (S : Setting) (scope : Scope)
    (slots : List Local) (functions : List (Int × Signature)) (passed : List Symbol) : Prop where
  fits : scope.Fits o chain before
  framed : scope.Framed
  depth : scope.top.depth = chain.length
  bound : ∀ v ∈ before, v.depth ≤ chain.length
  layout : ∃ body parents pre post, chain = body :: parents ∧ body.enclosing = S.enclosing ∧
    body.layout = pre ++ slots ++ post ∧ pre.length = scope.count
  functions : ∀ p ∈ functions, o.functions p.1 = some p.2
  passed : passed ⊆ o.passed
  exitType : o.exitType = S.exitType

namespace Placed

variable {o : Outline} {chain : Chain} {before : Ready} {S : Setting} {scope : Scope}
  {slots more : List Local} {functions others : List (Int × Signature)} {passed rest : List Symbol}

theorem inner (placed : Placed o chain before S scope slots functions passed) : chain ≠ [] := by
  obtain ⟨body, parents, _, _, rfl, _⟩ := placed.layout
  exact List.cons_ne_nil _ _

-- The first of two parts.
theorem first (placed : Placed o chain before S scope (slots ++ more) (functions ++ others)
    (passed ++ rest)) : Placed o chain before S scope slots functions passed := by
  obtain ⟨body, parents, pre, post, chained, enclosing, layout, length⟩ := placed.layout
  exact ⟨placed.fits, placed.framed, placed.depth, placed.bound,
    ⟨body, parents, pre, more ++ post, chained, enclosing, by simp [layout], length⟩,
    fun p member => placed.functions p (List.mem_append_left _ member),
    fun s member => placed.passed (List.mem_append_left _ member), placed.exitType⟩

-- The second one, behind the names of the first.
theorem second {after : Ready} {extra : List Symbol}
    (placed : Placed o chain before S scope (slots ++ more) (functions ++ others)
      (passed ++ rest))
    (fits : ((scope.claimed slots.length).adding extra).Fits o chain after)
    (bound : ∀ v ∈ after, v.depth ≤ chain.length) :
    Placed o chain after S ((scope.claimed slots.length).adding extra) more others rest := by
  obtain ⟨body, parents, pre, post, chained, enclosing, layout, length⟩ := placed.layout
  refine ⟨fits, (placed.framed.claimed _).adding _, ?_, bound,
    ⟨body, parents, pre ++ slots, post, chained, enclosing, by simp [layout], ?_⟩,
    fun p member => placed.functions p (List.mem_append_right _ member),
    fun s member => placed.passed (List.mem_append_right _ member), placed.exitType⟩
  · rw [Scope.depth_top_adding, Scope.depth_top_claimed, placed.depth]
  · rw [List.length_append, length, Scope.count_adding, Scope.count_claimed placed.framed]

-- The same place inside another loop.
theorem loop (placed : Placed o chain before S scope slots functions passed) (loops : List Int) :
    Placed o chain before { S with loops } scope slots functions passed :=
  ⟨placed.fits, placed.framed, placed.depth, placed.bound, placed.layout, placed.functions,
    placed.passed, placed.exitType⟩

-- The same place in a new block.
theorem block (placed : Placed o chain before S scope slots functions passed) :
    Placed o chain before S (scope.top.block :: scope) slots functions passed := by
  obtain ⟨t, member, plain⟩ := placed.framed
  exact ⟨Scope.fits_fresh placed.fits rfl, ⟨t, List.mem_cons_of_mem _ member, plain⟩, placed.depth,
    placed.bound, placed.layout, placed.functions, placed.passed, placed.exitType⟩

-- The next variable of the innermost body has the slot that comes next.
theorem fresh {name : String} {type : Scalar}
    (placed : Placed o chain before S scope (⟨name, type⟩ :: more) functions passed) :
    (scope.fresh name type).depth = chain.length ∧ (scope.fresh name type).depth ≠ 0 ∧
      (scope.fresh name type).InLayout chain := by
  obtain ⟨body, parents, pre, post, rfl, _, layout, length⟩ := placed.layout
  have depth : (scope.fresh name type).depth = (body :: parents).length := placed.depth
  refine ⟨depth, by rw [depth]; exact Nat.succ_ne_zero _, body, pre.length, ⟨name, type⟩, ?_, ?_, ?_,
    rfl, rfl⟩
  · rw [depth, Chain.outer_length, List.head?_cons]
  · change (scope.count : Int) = pre.length
    rw [length]
  · rw [layout]
    simp

end Placed

section

variable {o : Outline} {chain : Chain} {before : Ready} {scope after : Scope}
  {words rest : List Token}

theorem ReadsValue.ok {e : Expr} (reads : ReadsValue scope words e rest)
    (fits : scope.Fits o chain before) : e.Ok o chain before := by
  refine ⟨reads.typed, Expr.All.imp ?_ e reads.parses.visible⟩
  rintro s ⟨name, found⟩
  exact fits.resolve found

theorem ReadsTest.ok {e : Expr} (reads : ReadsTest scope words e rest)
    (fits : scope.Fits o chain before) : e.Ok o chain before ∧ e.type = .bool := by
  cases reads with
  | parens _ reads _ boolean => exact ⟨reads.ok fits, boolean⟩

theorem ReadsGuard.ok {e : Option Expr} (reads : ReadsGuard scope words e rest)
    (fits : scope.Fits o chain before) : ∀ test ∈ e, test.Ok o chain before ∧ test.type = .bool := by
  cases reads with
  | none => simp
  | test reads boolean =>
    rintro _ ⟨rfl⟩
    exact ⟨reads.ok fits, boolean⟩

theorem ReadsResult.ok {wanted : Option Ty} {e : Option Expr}
    (reads : ReadsResult scope wanted words e rest) (fits : scope.Fits o chain before) :
    ∀ value ∈ e, value.Ok o chain before ∧
      ∀ type ∈ wanted, Ty.accepts false type value.type = true := by
  cases reads with
  | none _ => simp
  | value reads accepted _ =>
    rintro _ ⟨rfl⟩
    exact ⟨reads.ok fits, accepted⟩

theorem ReadsSimple.ok {a : Stmt} (reads : ReadsSimple scope words a rest)
    (fits : scope.Fits o chain before) (loops : List Int) :
    a.Ok o chain before loops ∧ a.ready before = before := by
  cases reads with
  | assign _ _ found plain reads accepted =>
    exact ⟨⟨reads.ok fits, plain, fits.resolve found, accepted⟩, rfl⟩
  | expr reads => exact ⟨reads.ok fits, rfl⟩

theorem ReadsStep.ok {a : Stmt} (reads : ReadsStep scope words a rest)
    (fits : scope.Fits o chain before) (loops : List Int) : a.Ok o chain before loops := by
  cases reads with
  | none => trivial
  | simple reads => exact (reads.ok fits loops).1

theorem ReadsSimple.slots_eq {a : Stmt} (reads : ReadsSimple scope words a rest) :
    a.slots = [] := by
  cases reads <;> rfl

theorem ReadsStep.slots_eq {a : Stmt} (reads : ReadsStep scope words a rest) : a.slots = [] := by
  cases reads with
  | none => rfl
  | simple reads => exact reads.slots_eq

end

section

variable {o : Outline} {chain : Chain} {before : Ready} {S : Setting} {scope after : Scope}
  {words rest : List Token} {inBranch : Bool}

-- The variables that are sure to be ready behind statements, where those of a branch are not.
def Stmt.sure (inBranch : Bool) (before : Ready) (t : Stmt) : Ready :=
  if inBranch then before else t.ready before

theorem Stmt.sure_subset (t : Stmt) (inBranch : Bool) (before : Ready) :
    t.sure inBranch before ⊆ t.ready before := by
  cases inBranch with
  | true => exact t.subset_ready before
  | false => exact List.Subset.refl _

theorem Stmt.subset_sure (t : Stmt) (inBranch : Bool) (before : Ready) :
    before ⊆ t.sure inBranch before := by
  cases inBranch with
  | true => exact List.Subset.refl _
  | false => exact t.subset_ready before

-- One declared name.
theorem ReadsName.ok {type : Scalar} {a : Stmt} {s : Symbol} {more : List Local}
    {functions : List (Int × Signature)} {others : List Symbol}
    (reads : ReadsName scope type words a s rest)
    (placed : Placed o chain before S scope (a.slots ++ more) functions
      (a.passed inBranch ++ others)) (loops : List Int) :
    a.Ok o chain before loops ∧ a.slots.length = 1 ∧ (∀ low, a.ready low = s :: low) ∧
      s.depth = chain.length ∧ ∀ low, s.Fits o chain (a.sure inBranch low) := by
  have sure (name : String) (init : Option Expr)
      (placed : Placed o chain before S scope (⟨name, type⟩ :: more) functions
        ((Stmt.declare type (scope.fresh name type) init).passed inBranch ++ others)) (low : Ready) :
      (scope.fresh name type).Fits o chain
        ((Stmt.declare type (scope.fresh name type) init).sure inBranch low) := by
    obtain ⟨depth, inner, inLayout⟩ := placed.fresh
    refine Symbol.fits_of_inLayout rfl depth inner inLayout ?_
    cases inBranch with
    | true => exact .inr (placed.passed (by simp [Stmt.passed]))
    | false => exact .inl List.mem_cons_self
  cases reads with
  | @plain t _ named =>
    obtain ⟨depth, inner, inLayout⟩ := placed.fresh
    exact ⟨⟨depth, inner, rfl, inLayout, by simp⟩, rfl, fun _ => rfl, depth, sure _ none placed⟩
  | @filled t u e words _ named assigns reads accepted =>
    obtain ⟨depth, inner, inLayout⟩ := placed.fresh
    refine ⟨⟨depth, inner, rfl, inLayout, ?_⟩, rfl, fun _ => rfl, depth, sure _ (some e) placed⟩
    rintro _ ⟨rfl⟩
    exact ⟨reads.ok (Scope.fits_claimed.mpr placed.fits), accepted⟩

-- Names of one declaration. Of those before them fewer may be sure than are ready.
theorem ReadsNames.ok {type : Scalar} {a : Stmt} (reads : ReadsNames type scope words a after rest)
    {low : Ready} (placed : Placed o chain before S scope a.slots (a.functions chain before)
      (a.passed inBranch)) (fits : scope.Fits o chain low) (less : low ⊆ before)
    (loops : List Int) :
    a.Ok o chain before loops ∧ after.Fits o chain (a.sure inBranch low) ∧
      ∀ v ∈ a.ready before, v.depth ≤ chain.length := by
  -- behind one name, all names in sight fit
  have onward {scope : Scope} {a : Stmt} {s : Symbol} {low : Ready}
      (fits : scope.Fits o chain low) (sure : s.Fits o chain (a.sure inBranch low)) :
      ((scope.claimed 1).adding [s]).Fits o chain (a.sure inBranch low) := by
    refine Scope.fits_adding (Scope.fits_claimed.mpr (fits.mono (a.subset_sure inBranch low))) ?_
    intro u member
    rw [List.mem_singleton.mp member]
    exact sure
  induction reads generalizing before low with
  | @last scope a s words rest reads =>
    have whole : Placed o chain before S scope (a.slots ++ []) (a.functions chain before)
        (a.passed inBranch ++ []) := by simpa using placed
    obtain ⟨ok, _, ready, depth, sure⟩ := reads.ok whole loops
    refine ⟨ok, onward fits (sure low), ?_⟩
    rw [ready]
    exact List.forall_mem_cons.mpr ⟨depth.le, placed.bound⟩
  | @more scope after a b s t words middle rest reads comma others ih =>
    have whole : Placed o chain before S scope (a.slots ++ b.slots)
        (a.functions chain before ++ b.functions chain (a.ready before))
        (a.passed inBranch ++ b.passed inBranch) := placed
    obtain ⟨ok, length, ready, depth, sure⟩ := reads.ok whole loops
    have bound : ∀ v ∈ a.ready before, v.depth ≤ chain.length := by
      rw [ready]
      exact List.forall_mem_cons.mpr ⟨depth.le, placed.bound⟩
    have now := onward fits (sure low)
    have next : a.sure inBranch low ⊆ a.ready before := by
      refine List.Subset.trans (a.sure_subset inBranch low) ?_
      rw [ready, ready]
      exact List.cons_subset_cons s less
    have later := whole.second (by rw [length]; exact now.mono next) bound
    rw [length] at later
    obtain ⟨others, final, deep⟩ := ih later now next
    refine ⟨⟨ok, others⟩, ?_, deep⟩
    cases inBranch <;> exact final

end

theorem ReadsNames.leaves_eq {type : Scalar} {scope after : Scope} {words rest : List Token}
    {a : Stmt} (reads : ReadsNames type scope words a after rest) : a.leaves = false := by
  have name {scope : Scope} {words rest : List Token} {a : Stmt} {s : Symbol}
      (reads : ReadsName scope type words a s rest) : a.leaves = false := by cases reads <;> rfl
  induction reads with
  | last reads => exact name reads
  | more reads _ _ ih => rw [Stmt.leaves, name reads, ih, Bool.or_false]

-- A statement from which control may leave its loop declares nothing that stays in sight.
theorem Reads.ready_of_leaves {S : Setting} {scope after : Scope} {words rest : List Token}
    {t : Stmt} (reads : Reads .one S scope words t after rest) (leaves : t.leaves = true)
    (before : Ready) : t.ready before = before := by
  cases reads with
  | declare _ reads _ =>
    rw [reads.leaves_eq] at leaves
    cases leaves
  | simple reads _ => cases reads <;> cases leaves
  | loopWhile => cases leaves
  | _ => rfl

-- Names define no functions, and outside a branch none of them is passed over.
theorem ReadsNames.functions_eq {type : Scalar} {scope after : Scope} {words rest : List Token}
    {a : Stmt} (reads : ReadsNames type scope words a after rest) (chain : Chain)
    (before : Ready) : a.functions chain before = [] ∧ a.passed false = [] := by
  have name {scope : Scope} {words rest : List Token} {a : Stmt} {s : Symbol}
      (reads : ReadsName scope type words a s rest) (before : Ready) :
      a.functions chain before = [] ∧ a.passed false = [] := by cases reads <;> exact ⟨rfl, rfl⟩
  induction reads generalizing before with
  | last reads => exact name reads before
  | more reads _ _ ih =>
    rw [Stmt.functions, Stmt.passed, (name reads before).1, (name reads before).2, (ih _).1,
      (ih before).2]
    exact ⟨rfl, rfl⟩

theorem ReadsInit.ok {o : Outline} {chain : Chain} {before : Ready} {S : Setting}
    {scope after : Scope} {words rest : List Token} {a : Stmt} {more : List Local}
    {others : List (Int × Signature)} {passed : List Symbol}
    (reads : ReadsInit scope words a after rest)
    (placed : Placed o chain before S scope (a.slots ++ more) others passed) (loops : List Int) :
    a.Ok o chain before loops ∧ after.Fits o chain (a.ready before) ∧
      ∀ v ∈ a.ready before, v.depth ≤ chain.length := by
  cases reads with
  | none => exact ⟨trivial, placed.fits, placed.bound⟩
  | simple reads =>
    obtain ⟨ok, ready⟩ := reads.ok placed.fits loops
    rw [ready]
    exact ⟨ok, placed.fits, placed.bound⟩
  | names _ reads =>
    obtain ⟨noFunctions, nonePassed⟩ := reads.functions_eq chain before
    have alone : Placed o chain before S scope a.slots (a.functions chain before)
        (a.passed false) := by
      rw [noFunctions, nonePassed]
      exact placed.first
    exact reads.ok alone placed.fits (List.Subset.refl _) loops

-- The place of the body of a function.
theorem Placed.body {o : Outline} {chain : Chain} {before : Ready} {S : Setting} {scope : Scope}
    {r : Routine} {body : Stmt} {inBranch : Bool}
    (placed : Placed o chain before S scope (Stmt.function r body).slots
      ((Stmt.function r body).functions chain before)
      ((Stmt.function r body).passed inBranch))
    (depth : r.depth = chain.length + 1) :
    Placed o (r.frame body :: chain) (r.symbols ++ before) ⟨[], some r.enclosing, S.exitType⟩
      (r.scope (scope.adding [r.symbol])) body.slots
      (body.functions (r.frame body :: chain) (r.symbols ++ before)) (body.passed false) := by
  have named : r.symbol.Fits o chain before :=
    Routine.symbol_fits (placed.functions _ List.mem_cons_self) depth placed.inner placed.bound
  have outside : (scope.adding [r.symbol]).Fits o chain before :=
    Scope.fits_adding placed.fits (by simpa using named)
  have fresh : Scope.Fits o (r.frame body :: chain) (r.symbols ++ before)
      ({ depth := r.depth } :: scope.adding [r.symbol]) :=
    Scope.fits_fresh ((outside.cons _).mono (List.subset_append_right _ _)) rfl
  refine ⟨Scope.fits_adding (Scope.fits_claimed.mpr fresh) ?_, ?_, ?_, ?_,
    ⟨r.frame body, chain, r.locals, [], rfl, rfl, ?_, ?_⟩,
    fun p member => placed.functions p (List.mem_cons_of_mem _ member), placed.passed,
    placed.exitType⟩
  · intro s member
    obtain ⟨index, p, found, rfl⟩ := Routine.mem_symbols.mp member
    exact Routine.variable_fits depth found (List.mem_append_left _ member)
  · exact Scope.Framed.adding (Scope.Framed.claimed ⟨_, List.mem_cons_self, rfl⟩ _) _
  · rw [Routine.scope, Scope.depth_top_adding, Scope.depth_top_claimed]
    exact depth
  · intro v member
    rcases List.mem_append.mp member with own | outer
    · obtain ⟨index, p, _, rfl⟩ := Routine.mem_symbols.mp own
      exact depth.le
    · exact Nat.le_succ_of_le (placed.bound v outer)
  · rw [List.append_nil]
    rfl
  · rw [Routine.scope, Scope.count_adding, Scope.count_claimed ⟨_, List.mem_cons_self, rfl⟩]
    simp [Routine.locals, Scope.count]

-- Statements that were read are in order where they stand.
theorem Reads.ok {o : Outline} {chain : Chain} {before : Ready} {phrase : Phrase} {S : Setting}
    {scope after : Scope} {words rest : List Token} {t : Stmt} {inBranch : Bool}
    (reads : Reads phrase S scope words t after rest) (alone : phrase = .many → inBranch = false)
    (placed : Placed o chain before S scope t.slots (t.functions chain before)
      (t.passed inBranch)) (deep : ∀ r ∈ t.routines, r.depth ≤ o.depths) :
    t.Ok o chain before S.loops ∧ after.Fits o chain (t.sure inBranch before) ∧
      ∀ v ∈ t.ready before, v.depth ≤ chain.length := by
  induction reads generalizing chain before inBranch with
  | done =>
    exact ⟨trivial, placed.fits.mono (Stmt.subset_sure _ _ _), placed.bound⟩
  | empty =>
    exact ⟨trivial, placed.fits.mono (Stmt.subset_sure _ _ _), placed.bound⟩
  | @next S scope middle after a b words between rest first others firstOk othersOk =>
    obtain rfl := alone rfl
    have whole : Placed o chain before S scope (a.slots ++ b.slots)
        (a.functions chain before ++ b.functions chain (a.ready before))
        (a.passed false ++ b.passed false) := placed
    obtain ⟨ok, fits, bound⟩ := firstOk (by rintro ⟨⟩) whole.first
      (fun r member => deep r (List.mem_append_left _ member))
    obtain ⟨extra, rfl⟩ := first.scope_eq
    rw [← Stmt.length_slots] at fits othersOk
    obtain ⟨othersOk, final, low⟩ := othersOk (fun _ => rfl)
      (whole.second fits bound) (fun r member => deep r (List.mem_append_right _ member))
    exact ⟨⟨ok, othersOk⟩, final, low⟩
  | @block S scope inner t u a words rest opened reads closed ih =>
    obtain ⟨ok, _, _⟩ := ih (fun _ => rfl) placed.block deep
    obtain ⟨extra, rfl⟩ := reads.scope_eq
    rw [Scope.tail_adding_claimed_block]
    exact ⟨ok, Scope.fits_claimed.mpr (placed.fits.mono (Stmt.subset_sure _ _ _)), placed.bound⟩
  | @ifThen S scope after t e a otherwise words middle rest asks test whenTrue alone ih =>
    obtain ⟨ok, fits, _⟩ := ih (by rintro ⟨⟩) placed deep
    exact ⟨⟨(test.ok placed.fits).1, (test.ok placed.fits).2, ok⟩,
      fits.mono (Stmt.subset_sure _ inBranch before), placed.bound⟩
  | @ifElse S scope between after t u e a b otherwise done words first second rest asks test
      whenTrue divides whenFalse firstOk secondOk =>
    have whole : Placed o chain before S scope (a.slots ++ b.slots)
        (a.functions chain before ++ b.functions chain before)
        (a.passed true ++ b.passed true) := placed
    obtain ⟨ok, fits, _⟩ := firstOk (by rintro ⟨⟩) whole.first
      (fun r member => deep r (List.mem_append_left _ member))
    obtain ⟨extra, rfl⟩ := whenTrue.scope_eq
    rw [← Stmt.length_slots] at fits secondOk
    obtain ⟨otherOk, final, _⟩ := secondOk (by rintro ⟨⟩)
      (whole.second fits placed.bound) (fun r member => deep r (List.mem_append_right _ member))
    exact ⟨⟨(test.ok placed.fits).1, (test.ok placed.fits).2, ok, otherOk⟩,
      final.mono (Stmt.subset_sure _ inBranch before), placed.bound⟩
  | @whileLoop S scope after t e a top done words middle rest starts test body ih =>
    obtain ⟨ok, fits, _⟩ := ih (by rintro ⟨⟩) (placed.loop _) deep
    exact ⟨⟨(test.ok placed.fits).1, (test.ok placed.fits).2, ok⟩,
      fits.mono (Stmt.subset_sure _ inBranch before), placed.bound⟩
  | @forLoop S scope between after t u v w x init a step e top done first second third fourth rest
      starts opened before' one test two onward closed body ih =>
    have slots : (Stmt.forLoop init e a step top done).slots = init.slots ++ a.slots := by
      rw [Stmt.slots, onward.slots_eq, List.append_nil]
    have routines : ∀ r ∈ a.routines, r.depth ≤ o.depths := fun r member =>
      deep r (List.mem_append_left _ (List.mem_append_right _ member))
    have whole : Placed o chain before S (scope.top.block :: scope) (init.slots ++ a.slots)
        ([] ++ a.functions chain (init.ready before)) ([] ++ a.passed false) := by
      rw [← slots]
      exact placed.block
    obtain ⟨initOk, initFits, initBound⟩ := before'.ok whole []
    obtain ⟨extra, rfl⟩ := before'.scope_eq
    rw [← Stmt.length_slots] at initFits ih test
    obtain ⟨bodyOk, bodyFits, _⟩ := ih (fun _ => rfl)
      ((whole.second initFits initBound).loop _) routines
    obtain ⟨more, rfl⟩ := body.scope_eq
    refine ⟨⟨initOk, test.ok initFits, bodyOk, onward.ok bodyFits []⟩, ?_, placed.bound⟩
    rw [← Stmt.length_slots, Scope.claimed_adding, Scope.claimed_claimed, Scope.adding_adding,
      Scope.tail_adding_claimed_block]
    exact Scope.fits_claimed.mpr (placed.fits.mono (Stmt.subset_sure _ _ _))
  | @loopWhile S scope after t u v a e top done words middle rest starts body again test ended ih =>
    obtain ⟨ok, fits, bound⟩ := ih (by rintro ⟨⟩) (placed.loop _) deep
    obtain ⟨testOk, boolean⟩ := test.ok (fits.mono (Stmt.sure_subset _ _ _))
    exact ⟨⟨ok, fun leaves => body.ready_of_leaves leaves before, testOk, boolean⟩, fits, bound⟩
  | leave leaves inside ended =>
    exact ⟨by rw [Stmt.Ok, inside]; rfl, placed.fits.mono (Stmt.subset_sure _ _ _), placed.bound⟩
  | @yield S scope t f e words rest returns inside reads =>
    obtain ⟨body, parents, _, _, rfl, enclosing, _⟩ := placed.layout
    refine ⟨⟨body, f, rfl, enclosing.trans inside, rfl, ?_⟩,
      placed.fits.mono (Stmt.subset_sure _ _ _), placed.bound⟩
    intro value given
    obtain ⟨ok, accepted⟩ := reads.ok placed.fits value given
    exact ⟨ok, accepted _ rfl⟩
  | exit exits reads =>
    refine ⟨?_, placed.fits.mono (Stmt.subset_sure _ _ _), placed.bound⟩
    rw [Stmt.Ok, placed.exitType]
    exact reads.ok placed.fits
  | declare typed reads ended =>
    exact reads.ok placed placed.fits (List.Subset.refl _) _
  | @function S scope inner t n p b u r body words middle rest typed named name depth opened params
      begins reads ends ih =>
    have deeper : r.depth = chain.length + 1 := depth.trans (congrArg (· + 1) placed.depth)
    have known := placed.functions _ List.mem_cons_self
    obtain ⟨ok, _, _⟩ := ih (fun _ => rfl) (placed.body deeper)
      (fun s member => deep s (List.mem_cons_of_mem _ member))
    have symbol : r.symbol.Fits o chain before :=
      Routine.symbol_fits known deeper placed.inner placed.bound
    refine ⟨⟨deeper, deep r List.mem_cons_self, known, placed.bound, ok⟩, ?_, placed.bound⟩
    exact (Scope.fits_adding placed.fits (by simpa using symbol)).mono (Stmt.subset_sure _ _ _)
  | simple reads ended =>
    obtain ⟨ok, ready⟩ := reads.ok placed.fits _
    refine ⟨ok, placed.fits.mono (Stmt.subset_sure _ _ _), ?_⟩
    rw [ready]
    exact placed.bound

end ScalarScript
