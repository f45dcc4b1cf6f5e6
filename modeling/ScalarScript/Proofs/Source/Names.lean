import ScalarScript.Scope.Tree
/-!
What declarations do to a scope: a slot of the innermost frame is claimed, and a symbol is added to
the innermost table. In a tree of tables they do the same to what a table sees.
-/
namespace ScalarScript

namespace Scope

-- The scope once that many slots more are taken.
def claimed (n : Nat) : Scope → Scope
  | [] => []
  | t :: rest => if t.isBlock then t :: claimed n rest else { t with slots := t.slots + n } :: rest

-- The scope with more symbols in its innermost table.
def adding (extra : List Symbol) : Scope → Scope
  | [] => []
  | t :: rest => { t with symbols := extra ++ t.symbols } :: rest

-- There is a frame to take slots from.
def Framed (scope : Scope) : Prop := ∃ t ∈ scope, t.isBlock = false

theorem claim_eq (scope : Scope) : scope.claim = (scope.count, scope.claimed 1) := by
  induction scope with
  | nil => rfl
  | cons t rest ih =>
    unfold claim count claimed
    split
    · rw [ih]
    · rfl

@[simp] theorem claimed_zero (scope : Scope) : scope.claimed 0 = scope := by
  induction scope with
  | nil => rfl
  | cons t rest ih =>
    unfold claimed
    split
    · rw [ih]
    · rfl

@[simp] theorem adding_nil (scope : Scope) : scope.adding [] = scope := by cases scope <;> rfl

@[simp] theorem adding_adding (scope : Scope) (a b : List Symbol) :
    (scope.adding a).adding b = scope.adding (b ++ a) := by
  cases scope <;> simp [adding]

@[simp] theorem claimed_claimed (scope : Scope) (m n : Nat) :
    (scope.claimed m).claimed n = scope.claimed (m + n) := by
  induction scope with
  | nil => rfl
  | cons t rest ih =>
    by_cases block : t.isBlock = true
    · simp [claimed, block, ih]
    · simp [claimed, block, Nat.add_assoc]

@[simp] theorem claimed_adding (scope : Scope) (extra : List Symbol) (n : Nat) :
    (scope.adding extra).claimed n = (scope.claimed n).adding extra := by
  cases scope with
  | nil => rfl
  | cons t rest =>
    by_cases block : t.isBlock = true
    · simp [claimed, adding, block]
    · simp [claimed, adding, block]

@[simp] theorem count_adding (scope : Scope) (extra : List Symbol) :
    (scope.adding extra).count = scope.count := by
  cases scope <;> rfl

theorem count_claimed {scope : Scope} (framed : scope.Framed) (n : Nat) :
    (scope.claimed n).count = scope.count + n := by
  induction scope with
  | nil => simp [Framed] at framed
  | cons t rest ih =>
    by_cases block : t.isBlock = true
    · have framed : Framed rest := by simpa [Framed, block] using framed
      simp [claimed, count, block, ih framed]
    · simp [claimed, count, block]

theorem Framed.claimed {scope : Scope} (framed : scope.Framed) (n : Nat) :
    (scope.claimed n).Framed := by
  induction scope with
  | nil => exact framed
  | cons t rest ih =>
    by_cases block : t.isBlock = true
    · have framed : Framed rest := by simpa [Framed, block] using framed
      obtain ⟨u, member, plain⟩ := ih framed
      exact ⟨u, by simp [Scope.claimed, block, member], plain⟩
    · exact ⟨{ t with slots := t.slots + n }, by simp [Scope.claimed, block], by simpa using block⟩

theorem Framed.adding {scope : Scope} (framed : scope.Framed) (extra : List Symbol) :
    (scope.adding extra).Framed := by
  cases scope with
  | nil => exact framed
  | cons t rest =>
    obtain ⟨u, member, plain⟩ := framed
    rcases List.mem_cons.mp member with rfl | outer
    · exact ⟨_, List.mem_cons_self, plain⟩
    · exact ⟨u, List.mem_cons_of_mem _ outer, plain⟩

theorem length_claimed (scope : Scope) (n : Nat) : (scope.claimed n).length = scope.length := by
  induction scope with
  | nil => rfl
  | cons t rest ih =>
    unfold claimed
    split
    · exact congrArg (· + 1) ih
    · rfl

theorem length_adding (scope : Scope) (extra : List Symbol) :
    (scope.adding extra).length = scope.length := by
  cases scope <;> rfl

theorem depth_top_claimed (scope : Scope) (n : Nat) :
    (scope.claimed n).top.depth = scope.top.depth := by
  cases scope with
  | nil => rfl
  | cons t rest =>
    unfold claimed
    split <;> rfl

theorem depth_top_adding (scope : Scope) (extra : List Symbol) :
    (scope.adding extra).top.depth = scope.top.depth := by
  cases scope <;> rfl

-- The symbol that a variable declared next gets.
def fresh (scope : Scope) (name : String) (type : Scalar) : Symbol :=
  { name, type := type.ty, depth := scope.top.depth, index := scope.count }

theorem define_eq_ok {scope after : Scope} {s : Symbol} (defined : scope.define s = .ok after) :
    after = scope.adding [s] := by
  cases scope with
  | nil =>
    cases defined
    rfl
  | cons t rest =>
    by_cases taken : t.declares s.name = true
    · simp [define, Table.define, taken, bind, Except.bind] at defined
    · simp only [define, Table.define, taken, Bool.false_eq_true, if_false, bind, Except.bind, pure,
        Except.pure, Except.ok.injEq] at defined
      rw [← defined]
      rfl

theorem reserve_eq_ok {scope after : Scope} {name : String} {type : Ty} {s : Symbol}
    (reserved : scope.reserve name type = .ok (s, after)) :
    s = { name, type, depth := scope.top.depth, index := scope.count } ∧
      after = scope.claimed 1 := by
  unfold reserve at reserved
  split at reserved
  · cases reserved
  · split at reserved
    · cases reserved
    · rw [claim_eq] at reserved
      cases reserved
      exact ⟨rfl, rfl⟩

theorem declare_eq_ok {scope after : Scope} {name : String} {type : Ty} {s : Symbol}
    (declared : scope.declare name type = .ok (s, after)) :
    s = { name, type, depth := scope.top.depth, index := scope.count } ∧
      after = (scope.claimed 1).adding [s] := by
  unfold declare at declared
  cases reserved : scope.reserve name type with
  | error e => simp [reserved, bind, Except.bind] at declared
  | ok p =>
    obtain ⟨symbol, middle⟩ := p
    obtain ⟨same, claimed⟩ := reserve_eq_ok reserved
    cases defined : middle.define symbol with
    | error e => simp [reserved, defined, bind, Except.bind] at declared
    | ok final =>
      simp only [reserved, defined, bind, Except.bind, pure, Except.pure, Except.ok.injEq,
        Prod.mk.injEq] at declared
      obtain ⟨rfl, rfl⟩ := declared
      exact ⟨same, claimed ▸ define_eq_ok defined⟩

theorem declareFunction_eq_ok {scope after : Scope} {name : String} {label : Int}
    {params : List Ty} {returnType : Ty} {s : Symbol}
    (declared : scope.declareFunction name label params returnType = .ok (s, after)) :
    s = { name, type := .function, depth := scope.top.depth, index := -1, label, params,
          returnType } ∧ after = scope.adding [s] := by
  unfold Scope.declareFunction at declared
  generalize Symbol.mk name .function scope.top.depth (-1) label params returnType = symbol
    at declared ⊢
  cases defined : scope.define symbol with
  | error e => simp [defined, bind, Except.bind] at declared
  | ok final =>
    simp only [defined, bind, Except.bind, pure, Except.pure, Except.ok.injEq,
      Prod.mk.injEq] at declared
    obtain ⟨rfl, rfl⟩ := declared
    exact ⟨rfl, Scope.define_eq_ok defined⟩

theorem declareHostFunction_eq_ok {scope after : Scope} {name : String} {params : List Ty}
    {returnType : Ty} {s : Symbol}
    (declared : scope.declareHostFunction name params returnType = .ok (s, after)) :
    s = ⟨name, .function, 0, scope.count, 0, params, returnType⟩ ∧
      after = (scope.claimed 1).adding [s] := by
  unfold Scope.declareHostFunction at declared
  split at declared
  · cases declared
  · split at declared
    · cases declared
    · rw [Scope.claim_eq] at declared
      simp only at declared
      generalize Symbol.mk name .function 0 scope.count 0 params returnType = symbol
        at declared ⊢
      cases defined : (scope.claimed 1).define symbol with
      | error e => simp [defined, bind, Except.bind] at declared
      | ok final =>
        simp only [defined, bind, Except.bind, pure, Except.pure, Except.ok.injEq,
          Prod.mk.injEq] at declared
        obtain ⟨rfl, rfl⟩ := declared
        exact ⟨rfl, Scope.define_eq_ok defined⟩

end Scope

namespace ScopeTree

variable {t : ScopeTree}

theorem scope_declare (ordered : t.Ordered) (i : Nat) (name : String) (type : Ty) :
    (t.update i (·.declare name type)).map (fun done => (done.1, done.2.scope i)) =
      (t.scope i).declare name type := by
  refine scope_update (fun s symbol s' declared => ?_) ordered i
  rw [(Scope.declare_eq_ok declared).2, Scope.length_adding, Scope.length_claimed]

theorem scope_declareFunction (ordered : t.Ordered) (i : Nat) (name : String) (label : Int)
    (params : List Ty) (returnType : Ty) :
    (t.update i (·.declareFunction name label params returnType)).map
        (fun done => (done.1, done.2.scope i)) =
      (t.scope i).declareFunction name label params returnType := by
  refine scope_update (fun s symbol s' declared => ?_) ordered i
  rw [(Scope.declareFunction_eq_ok declared).2, Scope.length_adding]

theorem scope_declareHostFunction (ordered : t.Ordered) (i : Nat) (name : String)
    (params : List Ty) (returnType : Ty) :
    (t.update i (·.declareHostFunction name params returnType)).map
        (fun done => (done.1, done.2.scope i)) =
      (t.scope i).declareHostFunction name params returnType := by
  refine scope_update (fun s symbol s' declared => ?_) ordered i
  rw [(Scope.declareHostFunction_eq_ok declared).2, Scope.length_adding, Scope.length_claimed]

end ScopeTree

end ScalarScript
