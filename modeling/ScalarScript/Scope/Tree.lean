import ScalarScript.Scope.Chain
/-!
Scope trees: numbered tables, each but the root inside another. Every table sees the chain of
tables around it.
-/
namespace ScalarScript

structure ScopeNode where
  table : Table
  parent : Option Nat
  deriving DecidableEq, Repr

structure ScopeTree where
  nodes : Array ScopeNode := #[⟨{}, none⟩]
  maxDepth : Nat := 0

namespace ScopeTree

-- The numbers of a table and those around it. Parents have smaller numbers, which bounds the way.
def pathFrom (t : ScopeTree) : Nat → Nat → List Nat
  | 0, _ => []
  | steps + 1, i =>
    match t.nodes[i]? with
    | none => []
    | some node => i :: (node.parent.map (pathFrom t steps)).getD []

def path (t : ScopeTree) (i : Nat) : List Nat := t.pathFrom (i + 1) i

def scope (t : ScopeTree) (i : Nat) : Scope :=
  (t.path i).map fun j => (t.nodes[j]?.map (·.table)).getD {}

def replace (nodes : Array ScopeNode) (place : Nat × Table) : Array ScopeNode :=
  nodes.modify place.1 fun node => { node with table := place.2 }

-- Puts the tables of a chain back in their places.
def put (t : ScopeTree) (i : Nat) (s : Scope) : ScopeTree :=
  { t with nodes := ((t.path i).zip s).foldl replace t.nodes }

def add (t : ScopeTree) (parent : Nat) (table : Table) : ScopeTree × Nat :=
  ({ t with nodes := t.nodes.push ⟨table, some parent⟩ }, t.nodes.size)

-- A table for a deeper frame.
def addChild (t : ScopeTree) (i : Nat) : ScopeTree × Nat :=
  let table := (t.scope i).top.child
  { t with maxDepth := max t.maxDepth table.depth }.add i table

def addBlock (t : ScopeTree) (i : Nat) : ScopeTree × Nat := t.add i (t.scope i).top.block

-- Applies an operation on scopes at a table.
def update (t : ScopeTree) (i : Nat) (f : Scope → Except SymbolError (Symbol × Scope)) :
    Except SymbolError (Symbol × ScopeTree) := do
  let (symbol, s) ← f (t.scope i)
  return (symbol, t.put i s)

def parent? (t : ScopeTree) (i : Nat) : Option Nat := t.nodes[i]?.bind (·.parent)

-- The parents of tables were there before them.
def Ordered (t : ScopeTree) : Prop :=
  ∀ (i : Nat) node, t.nodes[i]? = some node → ∀ p ∈ node.parent, p < i

variable {t u : ScopeTree} {i j : Nat} {node : ScopeNode} {table : Table} {s : Scope}

theorem ordered_root : Ordered {} := by
  intro i node found p parent
  obtain ⟨inside, rfl⟩ := Array.getElem?_eq_some_iff.mp found
  have first : i = 0 := by simpa using inside
  subst first
  cases parent

-- More steps than a way can have do not make it longer.
theorem pathFrom_eq (ordered : t.Ordered) {steps : Nat} (enough : i < steps) :
    t.pathFrom steps i = t.path i := by
  induction i using Nat.strongRecOn generalizing steps with
  | ind i ih =>
    obtain _ | steps := steps
    · cases enough
    simp only [path, pathFrom]
    cases found : t.nodes[i]? with
    | none => rfl
    | some node =>
      obtain ⟨table, _ | p⟩ := node
      · rfl
      · have below := ordered i _ found p rfl
        simp only [Option.map_some, Option.getD_some]
        rw [ih p below (by omega), ih p below below]

theorem path_nil (absent : t.nodes[i]? = none) : t.path i = [] := by rw [path, pathFrom, absent]

theorem path_eq (ordered : t.Ordered) (found : t.nodes[i]? = some node) :
    t.path i = i :: (node.parent.map t.path).getD [] := by
  obtain ⟨table, _ | p⟩ := node
  · rw [path, pathFrom, found]
    rfl
  · rw [path, pathFrom, found]
    simp [pathFrom_eq ordered (ordered i _ found p rfl)]

-- Every table sees itself and then what its parent sees.
theorem scope_eq (ordered : t.Ordered) (found : t.nodes[i]? = some node) :
    t.scope i = node.table :: (node.parent.map t.scope).getD [] := by
  rw [scope, path_eq ordered found, List.map_cons, found]
  cases node.parent <;> rfl

theorem path_bound (ordered : t.Ordered) (member : j ∈ t.path i) : j ≤ i ∧ j < t.nodes.size := by
  induction i using Nat.strongRecOn with
  | ind i ih =>
    cases found : t.nodes[i]? with
    | none =>
      rw [path_nil found] at member
      cases member
    | some node =>
      rw [path_eq ordered found] at member
      obtain ⟨table, parent⟩ := node
      rcases List.mem_cons.mp member with rfl | member
      · exact ⟨Nat.le_refl _, (Array.getElem?_eq_some_iff.mp found).1⟩
      · obtain _ | p := parent
        · cases member
        · have below := ordered i _ found p rfl
          have ⟨before, there⟩ := ih p below member
          exact ⟨by omega, there⟩

theorem path_nodup (ordered : t.Ordered) (i : Nat) : (t.path i).Nodup := by
  induction i using Nat.strongRecOn with
  | ind i ih =>
    cases found : t.nodes[i]? with
    | none => simp [path_nil found]
    | some node =>
      rw [path_eq ordered found]
      obtain ⟨table, _ | p⟩ := node
      · simp
      · have below := ordered i _ found p rfl
        refine List.nodup_cons.mpr ⟨fun member => ?_, ih p below⟩
        have := (path_bound ordered member).1
        omega

-- A table that is put back stays in its place and where it belongs.
theorem parent_replace (nodes : Array ScopeNode) (place : Nat × Table) (i : Nat) :
    (replace nodes place)[i]?.map (·.parent) = nodes[i]?.map (·.parent) := by
  rw [replace, Array.getElem?_modify]
  split
  · cases nodes[i]? <;> rfl
  · rfl

theorem parent_foldl_replace (places : List (Nat × Table)) (nodes : Array ScopeNode) (i : Nat) :
    (places.foldl replace nodes)[i]?.map (·.parent) = nodes[i]?.map (·.parent) := by
  induction places generalizing nodes with
  | nil => rfl
  | cons place places ih => exact (ih (replace nodes place)).trans (parent_replace nodes place i)

theorem getElem?_foldl_replace {places : List (Nat × Table)} {nodes : Array ScopeNode}
    (elsewhere : i ∉ places.map (·.1)) : (places.foldl replace nodes)[i]? = nodes[i]? := by
  induction places generalizing nodes with
  | nil => rfl
  | cons place places ih =>
    obtain ⟨other, elsewhere⟩ := not_or.mp (mt List.mem_cons.mpr elsewhere)
    rw [List.foldl_cons, ih elsewhere, replace, Array.getElem?_modify, if_neg (Ne.symm other)]

-- Tables that are put in different places are found there.
theorem tables_foldl_replace {places : List Nat} {nodes : Array ScopeNode} (apart : places.Nodup)
    (inside : ∀ j ∈ places, j < nodes.size) (length : s.length = places.length) :
    places.map (fun j => (((places.zip s).foldl replace nodes)[j]?.map (·.table)).getD {}) = s := by
  induction places generalizing nodes s with
  | nil => exact (List.length_eq_zero_iff.mp length).symm
  | cons j places ih =>
    obtain _ | ⟨table, s⟩ := s
    · cases length
    obtain ⟨first, apart⟩ := List.nodup_cons.mp apart
    have elsewhere : j ∉ (places.zip s).map (·.1) := fun member => by
      obtain ⟨place, zipped, rfl⟩ := List.mem_map.mp member
      exact first (List.of_mem_zip zipped).1
    have there : j < nodes.size := inside j List.mem_cons_self
    rw [List.zip_cons_cons, List.foldl_cons, List.map_cons, getElem?_foldl_replace elsewhere]
    have head : ((replace nodes (j, table))[j]?.map (·.table)).getD {} = table := by
      simp [replace, there, Array.getElem_modify_self]
    rw [head, ih apart (fun k later => ?_) (by simpa using length)]
    simpa [replace] using inside k (List.mem_cons_of_mem _ later)

theorem Ordered.of_parents (ordered : t.Ordered)
    (same : ∀ i : Nat, u.nodes[i]?.map (·.parent) = t.nodes[i]?.map (·.parent)) : u.Ordered := by
  intro i node found p parent
  have known := same i
  rw [found, Option.map_some] at known
  obtain ⟨old, there, held⟩ := Option.map_eq_some_iff.mp known.symm
  exact ordered i old there p (held ▸ parent)

theorem pathFrom_of_parents
    (same : ∀ i : Nat, u.nodes[i]?.map (·.parent) = t.nodes[i]?.map (·.parent)) (steps i : Nat) :
    u.pathFrom steps i = t.pathFrom steps i := by
  induction steps generalizing i with
  | zero => rfl
  | succ steps ih =>
    have known := same i
    have ways : u.pathFrom steps = t.pathFrom steps := funext ih
    simp only [pathFrom, ways]
    cases found : u.nodes[i]? with
    | none =>
      rw [found] at known
      rw [Option.map_eq_none_iff.mp known.symm]
    | some node =>
      rw [found] at known
      obtain ⟨old, there, held⟩ := Option.map_eq_some_iff.mp known.symm
      simp only [there, held]

theorem scope_of_nodes (same : u.nodes = t.nodes) (i : Nat) : u.scope i = t.scope i := by
  simp only [scope, path, same, pathFrom_of_parents (u := u) (t := t) fun i => by rw [same]]

theorem Ordered.put (ordered : t.Ordered) (i : Nat) (s : Scope) : (t.put i s).Ordered :=
  ordered.of_parents (parent_foldl_replace _ _)

-- A chain that is put back is what the table then sees.
theorem scope_put (ordered : t.Ordered) (length : s.length = (t.scope i).length) :
    (t.put i s).scope i = s := by
  have way : (t.put i s).path i = t.path i := pathFrom_of_parents (parent_foldl_replace _ _) _ _
  rw [scope, way]
  exact tables_foldl_replace (path_nodup ordered i)
    (fun j member => (path_bound ordered member).2) (by simpa [scope] using length)

theorem Ordered.add (ordered : t.Ordered) {p : Nat} (there : p < t.nodes.size) (table : Table) :
    (t.add p table).1.Ordered := by
  intro i node found q parent
  rw [ScopeTree.add, Array.getElem?_push] at found
  split at found
  · rename_i last
    cases found
    cases parent
    omega
  · exact ordered i node found q parent

-- Tables that were there see the same once there is another one.
theorem scope_add_old (ordered : t.Ordered) {p : Nat} (there : p < t.nodes.size)
    (inside : i < t.nodes.size) : (t.add p table).1.scope i = t.scope i := by
  induction i using Nat.strongRecOn with
  | ind i ih =>
    have old : t.nodes[i]? = some t.nodes[i] := Array.getElem?_eq_getElem inside
    have new : (t.add p table).1.nodes[i]? = some t.nodes[i] := by
      rw [add, Array.getElem?_push_lt inside]
    rw [scope_eq (ordered.add there table) new, scope_eq ordered old]
    cases parent : t.nodes[i].parent with
    | none => rfl
    | some q =>
      have below := ordered i _ old q parent
      rw [Option.map_some, Option.map_some, ih q below (by omega)]

-- A new table sees itself and then what its parent sees.
theorem scope_add (ordered : t.Ordered) {p : Nat} (there : p < t.nodes.size) (table : Table) :
    (t.add p table).1.scope (t.add p table).2 = table :: t.scope p := by
  have last : (t.add p table).1.nodes[(t.add p table).2]? = some ⟨table, some p⟩ := by simp [add]
  rw [scope_eq (ordered.add there table) last]
  simp [scope_add_old ordered there there]

theorem scope_addBlock (ordered : t.Ordered) (there : i < t.nodes.size) :
    (t.addBlock i).1.scope (t.addBlock i).2 = (t.scope i).top.block :: t.scope i :=
  scope_add ordered there _

theorem scope_addChild (ordered : t.Ordered) (there : i < t.nodes.size) :
    (t.addChild i).1.scope (t.addChild i).2 = (t.scope i).top.child :: t.scope i := by
  let deeper : ScopeTree := { t with maxDepth := max t.maxDepth (t.scope i).top.child.depth }
  have seen : deeper.scope i = t.scope i := scope_of_nodes (u := deeper) (t := t) rfl i
  have new := scope_add (t := deeper) ordered there (t.scope i).top.child
  rw [seen] at new
  exact new

-- An operation on the tree is the operation on the chain of tables that the table sees, if that
-- neither adds nor drops a table.
theorem scope_update {f : Scope → Except SymbolError (Symbol × Scope)}
    (keeps : ∀ s symbol s', f s = .ok (symbol, s') → s'.length = s.length) (ordered : t.Ordered)
    (i : Nat) :
    (t.update i f).map (fun done => (done.1, done.2.scope i)) = f (t.scope i) := by
  unfold update
  cases done : f (t.scope i) with
  | error e => rfl
  | ok given =>
    have same := scope_put (i := i) ordered (keeps _ given.1 given.2 done)
    exact congrArg (fun s => Except.ok (given.1, s)) same

end ScopeTree

end ScalarScript
