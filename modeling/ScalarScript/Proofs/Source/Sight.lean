import ScalarScript.Proofs.Source.Program
/-!
What names mean where they stand: the latest declaration that is complete, in the innermost lexical
scope that has one. A variable is complete behind its initializer, a function in front of its body.
-/
namespace ScalarScript

-- The lexical scopes around a place, innermost first, each with its declarations, latest first.
abbrev Sight := List (List Symbol)

namespace Sight

-- The symbol is the latest of its name in the innermost scope that has one.
def Shows (g : Sight) (s : Symbol) : Prop :=
  ∃ inner newer older outer, g = inner ++ (newer ++ s :: older) :: outer ∧
    (∀ scope ∈ inner, ∀ u ∈ scope, u.name ≠ s.name) ∧ ∀ u ∈ newer, u.name ≠ s.name

def adding (s : Symbol) : Sight → Sight
  | [] => []
  | here :: outer => (s :: here) :: outer

end Sight

namespace Stmt

-- The declarations that are complete behind a statement. Those of a block end with it, and those of
-- an unbraced branch or body belong to the scope around it.
def sight : Sight → Stmt → Sight
  | g, seq a b | g, ifElse _ a b _ _ => b.sight (a.sight g)
  | g, ifThen _ a _ | g, whileLoop _ a _ _ | g, loopWhile a _ _ _ => a.sight g
  | g, declare _ s _ => g.adding s
  | g, function r _ => g.adding r.symbol
  | g, _ => g

-- Every name in a statement means the latest complete declaration. The step of a `for` comes behind
-- the body, as it is executed.
def Resolved : Sight → Stmt → Prop
  | g, seq a b => a.Resolved g ∧ b.Resolved (a.sight g)
  | g, block a => a.Resolved ([] :: g)
  | g, expr e => e.All g.Shows
  | g, assign s e => g.Shows s ∧ e.All g.Shows
  -- nothing in the initializer means the variable itself
  | g, declare _ s init => ∀ e ∈ init, e.All fun u => g.Shows u ∧ u ≠ s
  | g, function r body => body.Resolved (r.symbols :: g.adding r.symbol)
  | g, ifThen e a _ | g, whileLoop e a _ _ => e.All g.Shows ∧ a.Resolved g
  | g, ifElse e a b _ _ => e.All g.Shows ∧ a.Resolved g ∧ b.Resolved (a.sight g)
  | g, forLoop init e a step _ _ =>
    init.Resolved ([] :: g) ∧ (∀ test ∈ e, test.All (init.sight ([] :: g)).Shows) ∧
      a.Resolved (init.sight ([] :: g)) ∧ step.Resolved (a.sight (init.sight ([] :: g)))
  | g, loopWhile a e _ _ => a.Resolved g ∧ e.All (a.sight g).Shows
  | g, yield e _ | g, exit e => ∀ value ∈ e, value.All g.Shows
  | _, skip | _, leave _ => True

end Stmt

namespace Scope

def sight (scope : Scope) : Sight := scope.map Table.symbols

@[simp] theorem sight_claimed (scope : Scope) (n : Nat) :
    (scope.claimed n).sight = scope.sight := by
  induction scope with
  | nil => rfl
  | cons t rest ih =>
    unfold claimed
    split
    · exact congrArg (t.symbols :: ·) ih
    · rfl

@[simp] theorem sight_adding (scope : Scope) (s : Symbol) :
    (scope.adding [s]).sight = scope.sight.adding s := by
  cases scope <;> rfl

@[simp] theorem sight_block (scope : Scope) (t : Table) :
    sight (t.block :: scope) = [] :: scope.sight := rfl

@[simp] theorem sight_routine (scope : Scope) (r : Routine) :
    (r.scope scope).sight = r.symbols :: scope.sight := by
  simp [Routine.scope, sight, claimed, adding]

-- What a name leads to.
theorem shows_of_resolve {scope : Scope} {name : String} {s : Symbol}
    (found : scope.resolve? name = some s) : s.name = name ∧ scope.sight.Shows s := by
  obtain ⟨inner, t, outer, rfl, here, nearer⟩ := List.findSome?_eq_some_iff.mp found
  obtain ⟨named, newer, older, split, later⟩ := List.find?_eq_some_iff_append.mp here
  have named : s.name = name := by simpa using named
  refine ⟨named, inner.map Table.symbols, newer, older, outer.map Table.symbols, ?_, ?_, ?_⟩
  · simp [sight, split]
  · intro symbols member u declared
    obtain ⟨table, nearby, rfl⟩ := List.mem_map.mp member
    have missing := List.find?_eq_none.mp (nearer table nearby) u declared
    rw [named]
    simpa using missing
  · intro u member
    rw [named]
    simpa using later u member

-- There is a frame to take slots from. Nothing in sight lies deeper, and what lies in that frame
-- has one of the slots taken, or none.
structure Grounded (scope : Scope) : Prop where
  framed : scope.Framed
  below : ∀ t ∈ scope, ∀ s ∈ t.symbols, s.depth ≤ scope.top.depth ∧
    (s.depth = scope.top.depth → s.index < scope.count)

namespace Grounded

variable {scope : Scope}

theorem of_sight {other : Scope} (grounded : scope.Grounded) (framed : other.Framed)
    (depth : other.top.depth = scope.top.depth) (count : scope.count ≤ other.count)
    (same : ∀ t ∈ other, ∀ s ∈ t.symbols, ∃ u ∈ scope, s ∈ u.symbols) : other.Grounded := by
  refine ⟨framed, ?_⟩
  intro t member s declared
  obtain ⟨u, present, here⟩ := same t member s declared
  obtain ⟨deep, low⟩ := grounded.below u present s here
  rw [depth]
  exact ⟨deep, fun own => (low own).trans_le (by exact_mod_cast count)⟩

theorem claimed (grounded : scope.Grounded) (n : Nat) : (scope.claimed n).Grounded := by
  refine grounded.of_sight (grounded.framed.claimed n) (depth_top_claimed scope n)
    (by rw [count_claimed grounded.framed]; omega) ?_
  intro t member s declared
  have listed : t.symbols ∈ scope.sight := by
    rw [← sight_claimed scope n]
    exact List.mem_map_of_mem member
  obtain ⟨u, present, same⟩ := List.mem_map.mp listed
  exact ⟨u, present, same ▸ declared⟩

theorem block (grounded : scope.Grounded) : Grounded (scope.top.block :: scope) := by
  obtain ⟨t, member, plain⟩ := grounded.framed
  refine grounded.of_sight ⟨t, List.mem_cons_of_mem _ member, plain⟩ rfl le_rfl ?_
  intro u present s declared
  rcases List.mem_cons.mp present with rfl | outer
  · cases declared
  · exact ⟨u, outer, declared⟩

theorem adding (grounded : scope.Grounded) {s : Symbol} (depth : s.depth = scope.top.depth)
    (index : s.index < scope.count) : (scope.adding [s]).Grounded := by
  refine ⟨grounded.framed.adding _, ?_⟩
  rw [depth_top_adding, count_adding]
  cases scope with
  | nil => exact fun t member => absurd member List.not_mem_nil
  | cons table rest =>
    intro t member u declared
    rcases List.mem_cons.mp member with rfl | outer
    · rcases List.mem_cons.mp declared with rfl | old
      · exact ⟨depth.le, fun _ => index⟩
      · exact grounded.below table List.mem_cons_self u old
    · exact grounded.below t (List.mem_cons_of_mem _ outer) u declared

-- The name of a variable is added once its slot is taken.
theorem declared (grounded : scope.Grounded) (name : String) (type : Scalar) :
    ((scope.claimed 1).adding [scope.fresh name type]).Grounded := by
  refine (grounded.claimed 1).adding (depth_top_claimed scope 1).symm ?_
  rw [count_claimed grounded.framed]
  exact Int.lt_succ scope.count

-- The name of a function takes none.
theorem named (grounded : scope.Grounded) {r : Routine} (depth : r.depth = scope.top.depth + 1) :
    (scope.adding [r.symbol]).Grounded := by
  refine grounded.adding ?_ ?_
  · change r.depth - 1 = scope.top.depth
    omega
  · change (-1 : Int) < scope.count
    omega

theorem routine (grounded : scope.Grounded) {r : Routine} (deeper : scope.top.depth < r.depth) :
    (r.scope scope).Grounded := by
  have top : (r.scope scope).top.depth = r.depth := by
    rw [Routine.scope, depth_top_adding, depth_top_claimed]
    rfl
  have count : (r.scope scope).count = r.params.length := by
    rw [Routine.scope, count_adding, count_claimed ⟨_, List.mem_cons_self, rfl⟩]
    simp [Scope.count]
  refine ⟨Framed.adding (Framed.claimed ⟨_, List.mem_cons_self, rfl⟩ _) _, ?_⟩
  rw [top, count]
  intro t member s declared
  have listed : t.symbols ∈ r.symbols :: scope.sight := by
    rw [← sight_routine]
    exact List.mem_map_of_mem member
  rcases List.mem_cons.mp listed with own | outer
  · rw [own] at declared
    obtain ⟨index, p, found, rfl⟩ := Routine.mem_symbols.mp declared
    have inside := (List.getElem?_eq_some_iff.mp found).1
    exact ⟨le_rfl, fun _ => Int.ofNat_lt.mpr inside⟩
  · obtain ⟨u, present, same⟩ := List.mem_map.mp outer
    have shallow := (grounded.below u present s (same ▸ declared)).1
    exact ⟨by omega, fun own => by omega⟩

end Grounded

end Scope

-- The tables of a whole program, before anything is declared in it.
theorem Table.Hosts.grounded {declarations : List Declaration} {hosts : Table}
    (known : hosts.Hosts declarations) : Scope.Grounded [{ depth := 1 }, hosts] := by
  refine ⟨⟨_, List.mem_cons_self, rfl⟩, fun table member s declared => ?_⟩
  rcases List.mem_cons.mp member with rfl | outer
  · cases declared
  · rw [List.mem_singleton.mp outer] at declared
    have outermost := (known.known s declared).1
    exact ⟨by rw [outermost]; exact Nat.zero_le 1, fun own => by
      rw [outermost] at own
      cases own⟩

section

variable {scope after : Scope} {words rest : List Token}

theorem ReadsValue.shown {e : Expr} (reads : ReadsValue scope words e rest) :
    e.All scope.sight.Shows :=
  Expr.All.imp (fun _ ⟨_, found⟩ => (Scope.shows_of_resolve found).2) e reads.parses.visible

theorem ReadsTest.shown {e : Expr} (reads : ReadsTest scope words e rest) :
    e.All scope.sight.Shows := by
  cases reads with
  | parens _ reads _ _ => exact reads.shown

theorem ReadsGuard.shown {e : Option Expr} (reads : ReadsGuard scope words e rest) :
    ∀ test ∈ e, test.All scope.sight.Shows := by
  cases reads with
  | none => simp
  | test reads _ =>
    rintro _ ⟨rfl⟩
    exact reads.shown

theorem ReadsResult.shown {wanted : Option Ty} {e : Option Expr}
    (reads : ReadsResult scope wanted words e rest) : ∀ value ∈ e, value.All scope.sight.Shows := by
  cases reads with
  | none _ => simp
  | value reads _ _ =>
    rintro _ ⟨rfl⟩
    exact reads.shown

theorem ReadsSimple.resolved {a : Stmt} (reads : ReadsSimple scope words a rest) :
    a.Resolved scope.sight ∧ ∀ g, a.sight g = g := by
  cases reads with
  | assign _ _ found _ reads _ =>
    exact ⟨⟨(Scope.shows_of_resolve found).2, reads.shown⟩, fun _ => rfl⟩
  | expr reads => exact ⟨reads.shown, fun _ => rfl⟩

theorem ReadsStep.resolved {a : Stmt} (reads : ReadsStep scope words a rest) :
    a.Resolved scope.sight := by
  cases reads with
  | none => trivial
  | simple reads => exact reads.resolved.1

-- A variable is not in sight of its own initializer.
theorem ReadsName.resolved {type : Scalar} {a : Stmt} {s : Symbol}
    (reads : ReadsName scope type words a s rest) (grounded : scope.Grounded) :
    a.Resolved scope.sight ∧ (∀ g, a.sight g = g.adding s) ∧
      ((scope.claimed 1).adding [s]).Grounded := by
  cases reads with
  | @plain t _ named =>
    exact ⟨by simp [Stmt.Resolved], fun _ => rfl, grounded.declared t.literal type⟩
  | @filled t u e words _ named assigns reads _ =>
    refine ⟨?_, fun _ => rfl, grounded.declared t.literal type⟩
    rintro _ ⟨rfl⟩
    refine Expr.All.imp ?_ e reads.parses.visible
    rintro v ⟨name, found⟩
    have shown := (Scope.shows_of_resolve found).2
    rw [Scope.sight_claimed] at shown
    refine ⟨shown, ?_⟩
    rintro rfl
    obtain ⟨inner, newer, older, outer, split, _⟩ := shown
    have listed : newer ++ scope.fresh t.literal type :: older ∈ scope.sight := by
      rw [split]
      exact List.mem_append_right _ List.mem_cons_self
    obtain ⟨table, member, same⟩ := List.mem_map.mp listed
    have declared : scope.fresh t.literal type ∈ table.symbols := by
      rw [same]
      exact List.mem_append_right _ List.mem_cons_self
    exact lt_irrefl _ ((grounded.below table member _ declared).2 rfl)

theorem ReadsNames.resolved {type : Scalar} {a : Stmt}
    (reads : ReadsNames type scope words a after rest) (grounded : scope.Grounded) :
    a.Resolved scope.sight ∧ after.sight = a.sight scope.sight ∧ after.Grounded := by
  induction reads with
  | last reads =>
    obtain ⟨resolved, onward, later⟩ := reads.resolved grounded
    exact ⟨resolved, by rw [Scope.sight_adding, Scope.sight_claimed, onward], later⟩
  | more reads _ _ ih =>
    obtain ⟨resolved, onward, later⟩ := reads.resolved grounded
    obtain ⟨others, final, last⟩ := ih later
    rw [Scope.sight_adding, Scope.sight_claimed, ← onward] at others final
    exact ⟨⟨resolved, others⟩, final, last⟩

theorem ReadsInit.resolved {a : Stmt} (reads : ReadsInit scope words a after rest)
    (grounded : scope.Grounded) :
    a.Resolved scope.sight ∧ after.sight = a.sight scope.sight ∧ after.Grounded := by
  cases reads with
  | none => exact ⟨trivial, rfl, grounded⟩
  | simple reads => exact ⟨reads.resolved.1, (reads.resolved.2 _).symm, grounded⟩
  | names _ reads => exact reads.resolved grounded

end

-- What stands in a block leaves the scopes around it as they were.
theorem Scope.Grounded.leave {scope : Scope} {t : Table} {n : Nat} {extra : List Symbol}
    (grounded : scope.Grounded) :
    Scope.sight ((Scope.claimed n (t.block :: scope)).adding extra).tail = scope.sight ∧
      Scope.Grounded ((Scope.claimed n (t.block :: scope)).adding extra).tail := by
  rw [Scope.tail_adding_claimed_block]
  exact ⟨Scope.sight_claimed scope n, grounded.claimed n⟩

-- Names in statements that were read mean what they should.
theorem Reads.resolved {phrase : Phrase} {S : Setting} {scope after : Scope}
    {words rest : List Token} {t : Stmt} (reads : Reads phrase S scope words t after rest)
    (grounded : scope.Grounded) :
    t.Resolved scope.sight ∧ after.sight = t.sight scope.sight ∧ after.Grounded := by
  induction reads with
  | done | empty | leave => exact ⟨trivial, rfl, grounded⟩
  | next _ _ first others =>
    obtain ⟨resolved, onward, later⟩ := first grounded
    obtain ⟨more, final, last⟩ := others later
    rw [onward] at more final
    exact ⟨⟨resolved, more⟩, final, last⟩
  | block _ reads _ ih =>
    obtain ⟨resolved, _, _⟩ := ih grounded.block
    obtain ⟨extra, rfl⟩ := reads.scope_eq
    exact ⟨resolved, grounded.leave⟩
  | ifThen _ test _ _ ih =>
    obtain ⟨resolved, onward, later⟩ := ih grounded
    exact ⟨⟨test.shown, resolved⟩, onward, later⟩
  | ifElse _ test _ _ _ first second =>
    obtain ⟨resolved, onward, later⟩ := first grounded
    obtain ⟨more, final, last⟩ := second later
    rw [onward] at more final
    exact ⟨⟨test.shown, resolved, more⟩, final, last⟩
  | whileLoop _ test _ ih =>
    obtain ⟨resolved, onward, later⟩ := ih grounded
    exact ⟨⟨test.shown, resolved⟩, onward, later⟩
  | forLoop _ _ init _ test _ step _ body ih =>
    obtain ⟨resolved, onward, later⟩ := init.resolved grounded.block
    obtain ⟨inner, further, _⟩ := ih later
    have tested := test.shown
    have stepped := step.resolved
    rw [Scope.sight_block] at resolved onward
    rw [onward] at inner further tested
    rw [further] at stepped
    refine ⟨⟨resolved, tested, inner, stepped⟩, ?_⟩
    obtain ⟨extra, rfl⟩ := init.scope_eq
    obtain ⟨more, rfl⟩ := body.scope_eq
    rw [Scope.claimed_adding, Scope.claimed_claimed, Scope.adding_adding]
    exact grounded.leave
  | loopWhile _ _ _ test _ ih =>
    obtain ⟨resolved, onward, later⟩ := ih grounded
    have tested := test.shown
    rw [onward] at tested
    exact ⟨⟨resolved, tested⟩, onward, later⟩
  | yield _ _ reads => exact ⟨reads.shown, rfl, grounded⟩
  | exit _ reads => exact ⟨reads.shown, rfl, grounded⟩
  | declare _ reads _ => exact reads.resolved grounded
  | function _ _ _ depth _ _ _ _ _ ih =>
    have named := grounded.named depth
    obtain ⟨resolved, _, _⟩ := ih (named.routine (by rw [Scope.depth_top_adding]; omega))
    rw [Scope.sight_routine, Scope.sight_adding] at resolved
    exact ⟨resolved, Scope.sight_adding _ _, named⟩
  | simple reads _ => exact ⟨reads.resolved.1, (reads.resolved.2 _).symm, grounded⟩

end ScalarScript
