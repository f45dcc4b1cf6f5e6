import ScalarScript.Machine.Core
import ScalarScript.Proofs.Source.Scoping
/-!
Frames and the bodies they belong to. Every call makes an instance of a body; it is linked to the
instance of the body around it, which is found from the caller outward. The machine only has a stack
of frames for each depth. What is shown here: the top frame of a depth is the one that the links
lead to.
-/
namespace ScalarScript

-- A body that was entered, with the bodies around it. While it has a frame, the number of frames
-- of its depth below that one.
structure Instance where
  chain : Chain
  frame : Option Nat
  -- the slots whose variables were allocated since the frame is there
  allocated : List Int
  deriving DecidableEq

-- An instance, the one it is linked to, and so on outward.
abbrev Lineage := List Instance

namespace Instance

def depth (x : Instance) : Nat := x.chain.length

def layout (x : Instance) : List Local := (x.chain.head?.map Body.layout).getD []

end Instance

-- The instances of a depth that have a frame, the innermost call first.
def atDepth (depth : Nat) (lineages : List Lineage) : List Instance :=
  (lineages.filterMap List.head?).filter fun x => x.depth = depth ∧ x.frame.isSome

theorem atDepth_cons (depth : Nat) (x : Instance) (parents : Lineage) (lineages : List Lineage) :
    atDepth depth ((x :: parents) :: lineages) =
      if x.depth = depth ∧ x.frame.isSome then x :: atDepth depth lineages
      else atDepth depth lineages := by
  simp only [atDepth, List.filterMap_cons, List.head?_cons, List.filter_cons, decide_eq_true_eq]

-- A lineage through exactly these bodies.
def Lineage.Of : Chain → Lineage → Prop
  | [], [] => True
  | body :: parents, x :: rest => x.chain = body :: parents ∧ Lineage.Of parents rest
  | _, _ => False

-- Every instance finds the ones that it is linked to on top of their depths, seen from below its
-- own call.
def Linked : List Lineage → Prop
  | [] => True
  | lineage :: rest =>
    (∀ x ∈ lineage.tail, x.layout ≠ [] → (atDepth x.depth rest).head? = some x) ∧ Linked rest

-- A frame whose slots are empty until their variables are allocated, and hold values of their types
-- from then on.
def FrameOk (layout : List Local) (allocated : List Int) (f : ScopeFrame) : Prop :=
  f.size = layout.length ∧ ∀ (i : Nat) slot, f[i]? = some slot →
    (slot = .empty ∧ (i : Int) ∉ allocated) ∨
      (i : Int) ∈ allocated ∧ ∃ l v, layout[i]? = some l ∧ slot = .held v ∧ v.type = l.type.ty

-- The frames of instances, each at its height.
inductive Stacked : List Instance → List ScopeFrame → Prop where
  | nil : Stacked [] []
  | cons {x : Instance} {xs : List Instance} {f : ScopeFrame} {fs : List ScopeFrame}
      (height : x.frame = some fs.length) (ok : FrameOk x.layout x.allocated f) (below : Stacked xs fs) :
      Stacked (x :: xs) (f :: fs)

-- The frames of every depth but the host's.
def FramesOf (lineages : List Lineage) (scopes : Array (List ScopeFrame)) : Prop :=
  ∀ depth, 1 ≤ depth → ∀ fs, scopes[depth]? = some fs → Stacked (atDepth depth lineages) fs

namespace Lineage

theorem Of.drop {chain : Chain} {lineage : Lineage} (of : Lineage.Of chain lineage) (n : Nat) :
    Lineage.Of (chain.drop n) (lineage.drop n) := by
  induction n generalizing chain lineage with
  | zero => simpa using of
  | succ n ih =>
    cases chain with
    | nil =>
      cases lineage with
      | nil => exact of
      | cons x rest => exact of.elim
    | cons body parents =>
      cases lineage with
      | nil => exact of.elim
      | cons x rest => exact ih of.2

theorem Of.length_eq {chain : Chain} {lineage : Lineage} (of : Lineage.Of chain lineage) :
    lineage.length = chain.length := by
  induction chain generalizing lineage with
  | nil =>
    cases lineage with
    | nil => rfl
    | cons x rest => exact of.elim
  | cons body parents ih =>
    cases lineage with
    | nil => exact of.elim
    | cons x rest => simp [ih of.2]

-- Every instance of a lineage stands at its own depth.
theorem Of.depth_lt {body : Body} {parents : Chain} {x : Instance} {rest : Lineage}
    (of : Lineage.Of (body :: parents) (x :: rest)) : ∀ y ∈ rest, y.depth < x.depth := by
  induction parents generalizing body x rest with
  | nil =>
    cases rest with
    | nil => simp
    | cons y rest => exact of.2.elim
  | cons next parents ih =>
    cases rest with
    | nil => exact of.2.elim
    | cons y rest =>
      have first : y.depth < x.depth := by
        rw [Instance.depth, Instance.depth, of.2.1, of.1]
        simp
      intro z member
      rcases List.mem_cons.mp member with rfl | later
      · exact first
      · exact (ih of.2 z later).trans first

theorem Of.depth_head {chain : Chain} {x : Instance} {rest : Lineage}
    (of : Lineage.Of chain (x :: rest)) : x.depth = chain.length := by
  cases chain with
  | nil => exact of.elim
  | cons body parents => rw [Instance.depth, of.1]

theorem Of.depth_lt_head {chain : Chain} {x : Instance} {rest : Lineage}
    (of : Lineage.Of chain (x :: rest)) : ∀ y ∈ rest, y.depth < chain.length := by
  cases chain with
  | nil => exact of.elim
  | cons body parents =>
    intro y member
    exact (of.depth_lt y member).trans_eq of.depth_head

-- The instance at the innermost depth is the first.
theorem Of.head_of_depth {chain : Chain} {x y : Instance} {rest : Lineage}
    (of : Lineage.Of chain (y :: rest)) (member : x ∈ y :: rest) (depth : x.depth = chain.length) :
    x = y := by
  rcases List.mem_cons.mp member with rfl | later
  · rfl
  · exact absurd depth (of.depth_lt_head x later).ne

-- Following links until an instance of that chain of bodies.
theorem Of.dropWhile {chain outer : Chain} {lineage : Lineage} (of : Lineage.Of chain lineage)
    (suffix : outer <:+ chain) :
    Lineage.Of outer (lineage.dropWhile (·.chain ≠ outer)) ∧
      lineage.dropWhile (·.chain ≠ outer) <:+ lineage := by
  refine ⟨?_, List.dropWhile_suffix _⟩
  induction chain generalizing lineage with
  | nil =>
    obtain rfl := List.suffix_nil.mp suffix
    cases lineage with
    | nil => trivial
    | cons x rest => exact of.elim
  | cons body parents ih =>
    cases lineage with
    | nil => exact of.elim
    | cons x rest =>
      by_cases same : x.chain = outer
      · rw [List.dropWhile_cons_of_neg (by simpa using same)]
        rw [← same, of.1]
        exact of
      · rw [List.dropWhile_cons_of_pos (by simpa using same)]
        refine ih of.2 ?_
        rcases List.suffix_cons_iff.mp suffix with whole | inner
        · exact absurd (of.1.trans whole.symm) same
        · exact inner

end Lineage

-- The instance at a depth.
theorem Lineage.Of.at_depth {chain : Chain} {lineage : Lineage} {depth : Nat} {body : Body}
    (of : Lineage.Of chain lineage) (inside : depth ≤ chain.length)
    (here : (chain.outer depth).head? = some body) :
    ∃ x ∈ lineage, x.chain = chain.outer depth ∧ x.depth = depth ∧ x.layout = body.layout := by
  have part := of.drop (chain.length - depth)
  change Lineage.Of (chain.outer depth) _ at part
  have length := Chain.length_outer inside
  cases outer : chain.outer depth with
  | nil => simp [outer] at here
  | cons b parents =>
    rw [outer] at part here length
    cases found : lineage.drop (chain.length - depth) with
    | nil =>
      rw [found] at part
      exact part.elim
    | cons x rest =>
      rw [found] at part
      refine ⟨x, List.mem_of_mem_drop (found ▸ List.mem_cons_self), part.1, ?_, ?_⟩
      · rw [Instance.depth, part.1, length]
      · cases here
        rw [Instance.layout, part.1]
        rfl

-- Seen from an instance, the top of each depth is the instance that its links lead to.
theorem Linked.top {x y : Instance} {parents : Lineage} {lineages : List Lineage} {chain : Chain}
    (linked : Linked ((x :: parents) :: lineages)) (of : Lineage.Of chain (x :: parents))
    (framed : x.layout ≠ [] → x.frame.isSome = true) (member : y ∈ x :: parents)
    (held : y.layout ≠ []) : (atDepth y.depth ((x :: parents) :: lineages)).head? = some y := by
  rw [atDepth_cons]
  rcases List.mem_cons.mp member with rfl | outer
  · rw [if_pos ⟨rfl, framed held⟩, List.head?_cons]
  · cases chain with
    | nil => exact of.elim
    | cons body rest =>
      have deeper := of.depth_lt y outer
      rw [if_neg (by omega)]
      exact linked.1 y outer held

-- A call leaves the view of the callee's links as the caller has it.
theorem Linked.enter {x : Instance} {lineage : Lineage} {parents links : Lineage}
    {lineages : List Lineage} {chain : Chain} (linked : Linked ((x :: parents) :: lineages))
    (of : Lineage.Of chain (x :: parents)) (framed : x.layout ≠ [] → x.frame.isSome = true)
    (suffix : links <:+ x :: parents) (shape : lineage.tail = links) :
    Linked (lineage :: (x :: parents) :: lineages) := by
  refine ⟨?_, linked⟩
  intro y member held
  rw [shape] at member
  exact linked.top of framed (suffix.subset member) held

-- A slot that gets a value counts as allocated.
theorem FrameOk.put {layout : List Local} {allocated after : List Int} {f : ScopeFrame} {i : Nat}
    {l : Local} {v : Value} (ok : FrameOk layout allocated f) (known : layout[i]? = some l)
    (fits : v.type = l.type.ty) (same : ∀ j, j ∈ after ↔ j = (i : Int) ∨ j ∈ allocated) :
    FrameOk layout after (f.setIfInBounds i (.held v)) := by
  refine ⟨by simp [ok.1], ?_⟩
  intro j slot found
  rw [Array.getElem?_setIfInBounds] at found
  split at found
  · rename_i here
    subst here
    split at found
    · cases found
      exact .inr ⟨(same i).mpr (.inl rfl), l, v, known, rfl, fits⟩
    · cases found
  · rename_i other
    rcases ok.2 j slot found with ⟨empty, absent⟩ | ⟨present, held⟩
    · refine .inl ⟨empty, ?_⟩
      rw [same]
      rintro (here | early)
      · exact other (Int.ofNat.inj here).symm
      · exact absent early
    · exact .inr ⟨(same j).mpr (.inr present), held⟩

namespace FramesOf

theorem top {lineages : List Lineage} {scopes : Array (List ScopeFrame)} {depth : Nat}
    {x : Instance} (frames : FramesOf lineages scopes) (inner : 1 ≤ depth)
    (inside : depth < scopes.size) (first : (atDepth depth lineages).head? = some x) :
    ∃ f fs, scopes[depth]? = some (f :: fs) ∧ x.frame = some fs.length ∧
      FrameOk x.layout x.allocated f := by
  have stacked := frames depth inner scopes[depth] (Array.getElem?_eq_getElem inside)
  rw [Array.getElem?_eq_getElem inside]
  generalize scopes[depth] = stack at stacked
  generalize atDepth depth lineages = instances at stacked first
  cases stacked with
  | nil => cases first
  | cons height ok below =>
    cases first
    exact ⟨_, _, rfl, height, ok⟩

-- Only instances with a frame matter.
theorem cons_bare {lineages : List Lineage} {scopes : Array (List ScopeFrame)} {x : Instance}
    {parents : Lineage} (bare : x.frame = none) :
    FramesOf ((x :: parents) :: lineages) scopes ↔ FramesOf lineages scopes := by
  unfold FramesOf
  simp [atDepth_cons, bare]

theorem put {lineages : List Lineage} {scopes : Array (List ScopeFrame)} {depth i : Nat}
    {x : Instance} {l : Local} {v : Value} (frames : FramesOf lineages scopes)
    (first : (atDepth depth lineages).head? = some x) (known : x.layout[i]? = some l)
    (allocated : (i : Int) ∈ x.allocated) (fits : v.type = l.type.ty) :
    FramesOf lineages (scopes.modify depth fun
      | f :: fs => f.setIfInBounds i (.held v) :: fs
      | [] => []) := by
  intro d inner stack present
  rw [Array.getElem?_modify] at present
  split at present
  · rename_i same
    subst same
    obtain ⟨before, old, rfl⟩ := Option.map_eq_some_iff.mp present
    have stacked := frames depth inner before old
    generalize atDepth depth lineages = instances at stacked first ⊢
    cases stacked with
    | nil => cases first
    | cons height ok below =>
      cases first
      exact .cons height (ok.put known fits (by simpa using allocated)) below
  · exact frames d inner stack present

-- The running instance allocates one of its variables.
theorem allocate {lineages : List Lineage} {scopes : Array (List ScopeFrame)} {i : Nat}
    {x : Instance} {parents : Lineage} {l : Local} {v : Value}
    (frames : FramesOf ((x :: parents) :: lineages) scopes) (framed : x.frame.isSome = true)
    (known : x.layout[i]? = some l) (fits : v.type = l.type.ty) :
    FramesOf (({ x with allocated := i :: x.allocated } :: parents) :: lineages)
      (scopes.modify x.depth fun
        | f :: fs => f.setIfInBounds i (.held v) :: fs
        | [] => []) := by
  intro d inner stack present
  rw [Array.getElem?_modify] at present
  rw [atDepth_cons]
  split at present
  · rename_i same
    subst same
    obtain ⟨before, old, rfl⟩ := Option.map_eq_some_iff.mp present
    have stacked := frames x.depth inner before old
    rw [atDepth_cons, if_pos ⟨rfl, framed⟩] at stacked
    rw [if_pos ⟨rfl, framed⟩]
    cases stacked with
    | cons height ok below => exact .cons height (ok.put known fits (by simp)) below
  · rename_i other
    have stacked := frames d inner stack present
    rw [atDepth_cons, if_neg (fun both => other both.1)] at stacked
    rwa [if_neg (fun both => other both.1)]

theorem push {lineages : List Lineage} {scopes : Array (List ScopeFrame)} {x : Instance}
    {parents : Lineage} {stack : List ScopeFrame} (frames : FramesOf lineages scopes)
    (present : scopes[x.depth]? = some stack) (inner : 1 ≤ x.depth) :
    FramesOf (({ x with frame := some stack.length, allocated := [] } :: parents) :: lineages)
      (scopes.modify x.depth (Array.replicate x.layout.length .empty :: ·)) := by
  intro d deep after found
  rw [Array.getElem?_modify] at found
  rw [atDepth_cons]
  split at found
  · rename_i same
    subst same
    rw [present] at found
    cases found
    rw [if_pos ⟨rfl, rfl⟩]
    refine .cons rfl ⟨by simp [Instance.layout], ?_⟩ (frames _ inner stack present)
    intro i slot here
    rw [Array.getElem?_replicate] at here
    split at here
    · cases here
      exact .inl ⟨rfl, List.not_mem_nil⟩
    · cases here
  · rename_i other
    rw [if_neg (fun both => other both.1)]
    exact frames d deep after found

theorem pop {lineages : List Lineage} {scopes : Array (List ScopeFrame)} {x : Instance}
    {parents : Lineage} (frames : FramesOf ((x :: parents) :: lineages) scopes)
    (framed : x.frame.isSome = true) :
    FramesOf (({ x with frame := none, allocated := [] } :: parents) :: lineages)
      (scopes.modify x.depth List.tail) := by
  rw [cons_bare rfl]
  intro d inner after found
  rw [Array.getElem?_modify] at found
  split at found
  · rename_i same
    subst same
    obtain ⟨before, old, rfl⟩ := Option.map_eq_some_iff.mp found
    have stacked := frames _ inner before old
    rw [atDepth_cons, if_pos ⟨rfl, framed⟩] at stacked
    cases stacked with
    | cons height ok below => exact below
  · rename_i other
    have stacked := frames d inner after found
    rwa [atDepth_cons, if_neg (fun both => other both.1)] at stacked

end FramesOf

end ScalarScript
