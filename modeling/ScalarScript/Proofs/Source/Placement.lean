import ScalarScript.Proofs.Typing.Accepted
/-!
What the code of a body works on: variables with slots in the frames of the bodies around it. Frames
made in it, and slots further in, are those of inner functions.
-/
namespace ScalarScript

open Compile (eax ebx)

def Symbol.place (s : Symbol) : Slot := ⟨s.type, s.depth, s.index, s.name⟩

-- The slot that an instruction allocates.
def Instruction.allocated? (i : Instruction) : Option Slot :=
  match i.opcode, i.first with
  | .allocate _, .slot a => some a
  | _, _ => none

-- The slot of a variable in sight: it belongs to the frame of one of the bodies around.
def Slot.InFrames (o : Outline) (chain : Chain) (a : Slot) : Prop :=
  a.depth ≤ o.depths ∧ ∀ depth : Nat, a.depth = depth → depth ≤ chain.length →
    ∀ body ∈ (chain.outer depth).head?, 0 ≤ a.index ∧ a.index < body.layout.length

-- What an instruction of a body may do. Frames that it makes, and slots further in, are those of
-- inner functions.
structure Instruction.InFrames (o : Outline) (chain : Chain) (i : Instruction) : Prop where
  frame : i.opcode = .pushScope → chain.length < i.depth ∧ i.depth ≤ o.depths
  allocated : ∀ a : Slot, i.allocated? = some a → chain.length ≤ a.depth
  operands : ∀ a, .slot a ∈ i.operands → a.InFrames o chain

-- An instruction that works on no slot.
def Instruction.slotless (i : Instruction) : Bool :=
  decide (i.opcode ≠ .pushScope) && i.operands.all fun
    | .slot _ => false
    | _ => true

theorem Instruction.not_mem_of_slotless {i : Instruction} (slotless : i.slotless = true)
    (a : Slot) : .slot a ∉ i.operands := by
  intro member
  rw [Instruction.slotless, Bool.and_eq_true, List.all_eq_true] at slotless
  exact absurd (slotless.2 _ member) Bool.false_ne_true

theorem Instruction.allocated?_of_slotless {i : Instruction} (slotless : i.slotless = true) :
    i.allocated? = none := by
  cases allocated : i.allocated? with
  | none => rfl
  | some a =>
    unfold Instruction.allocated? at allocated
    split at allocated
    · rename_i opcode first
      refine absurd ?_ (Instruction.not_mem_of_slotless slotless a)
      cases allocated
      simp [Instruction.operands, opcode, Opcode.operandCount, first]
    · cases allocated

-- Code all of whose instructions are as asked.
def Each (q : Instruction → Prop) (code : List Instruction) : Prop := ∀ i ∈ code, q i

namespace Each

variable {q q' : Instruction → Prop} {i : Instruction} {a b code : List Instruction}

theorem nil : Each q [] := by simp [Each]

theorem append (first : Each q a) (second : Each q b) : Each q (a ++ b) :=
  List.forall_mem_append.mpr ⟨first, second⟩

theorem cons (first : q i) (others : Each q code) : Each q (i :: code) :=
  List.forall_mem_cons.mpr ⟨first, others⟩

end Each

section

variable {o : Outline} {chain : Chain} {ready : Ready} {s : Symbol} {i : Instruction}
  {a b code : List Instruction}

theorem Symbol.InLayout.inFrames (inLayout : s.InLayout chain) (deep : s.depth ≤ o.depths) :
    s.place.InFrames o chain := by
  obtain ⟨body, index, l, here, same, known, _⟩ := inLayout
  refine ⟨Int.ofNat_le.mpr deep, ?_⟩
  intro depth own _ other outer
  obtain rfl : s.depth = depth := Int.ofNat_inj.mp own
  obtain rfl := Option.some.inj (here.symm.trans outer)
  have inside := (List.getElem?_eq_some_iff.mp known).1
  change 0 ≤ s.index ∧ s.index < _
  rw [same]
  omega

theorem Symbol.Fits.inFrames (fits : s.Fits o chain ready) (plain : s.isFunction = false)
    (deep : chain.length ≤ o.depths) : s.place.InFrames o chain := by
  unfold Symbol.Fits at fits
  split at fits
  · rename_i host
    refine ⟨?_, ?_⟩
    · change (s.depth : Int) ≤ _
      omega
    · intro depth own _ body outer
      obtain rfl : s.depth = depth := Int.ofNat_inj.mp own
      rw [host, Chain.outer, Nat.sub_zero, List.drop_length] at outer
      cases outer
  · obtain ⟨inside, leads⟩ := fits
    rw [if_neg (by simp [plain])] at leads
    exact leads.1.inFrames (inside.trans deep)

namespace Instruction.InFrames

theorem of_slotless (slotless : i.slotless = true) : i.InFrames o chain := by
  refine ⟨fun opcode => ?_, fun a allocated => ?_, fun a member => ?_⟩
  · exact absurd slotless (by simp [Instruction.slotless, opcode])
  · rw [allocated?_of_slotless slotless] at allocated
    cases allocated
  · exact absurd member (not_mem_of_slotless slotless a)

theorem load (inFrames : s.place.InFrames o chain) : (move eax s.operand).InFrames o chain := by
  refine ⟨by rintro ⟨⟩, by rintro _ ⟨⟩, fun a member => ?_⟩
  change .slot a ∈ [eax, s.operand] at member
  rcases List.mem_pair.mp member with other | same
  · cases other
  · cases same
    exact inFrames

theorem store (inFrames : s.place.InFrames o chain) : (move s.operand eax).InFrames o chain := by
  refine ⟨by rintro ⟨⟩, by rintro _ ⟨⟩, fun a member => ?_⟩
  change .slot a ∈ [s.operand, eax] at member
  rcases List.mem_pair.mp member with same | other
  · cases same
    exact inFrames
  · cases other

theorem pop (inFrames : s.place.InFrames o chain) : (pop s.operand).InFrames o chain := by
  refine ⟨by rintro ⟨⟩, by rintro _ ⟨⟩, fun a member => ?_⟩
  cases List.mem_singleton.mp (show .slot a ∈ [s.operand] from member)
  exact inFrames

theorem allocate {type : Scalar} (inFrames : s.place.InFrames o chain)
    (depth : s.depth = chain.length) : (unary (.allocate type) s.operand).InFrames o chain := by
  refine ⟨by rintro ⟨⟩, ?_, fun a member => ?_⟩
  · rintro a ⟨⟩
    exact (Int.ofNat_inj.mpr depth).ge
  · cases List.mem_singleton.mp (show .slot a ∈ [s.operand] from member)
    exact inFrames

end Instruction.InFrames

theorem Each.plain (slotless : i.slotless = true) (others : Each (·.InFrames o chain) code) :
    Each (·.InFrames o chain) (i :: code) := .cons (.of_slotless slotless) others

-- An instruction of an expression works on no slot, or loads a variable.
def Instruction.Loads (p : Symbol → Prop) (i : Instruction) : Prop :=
  i.slotless = true ∨ ∃ s, p s ∧ s.isFunction = false ∧ i = .move eax s.operand

theorem Each.regroup {p : Symbol → Prop} : Each (·.Loads p) regroup :=
  .cons (.inl rfl) (.cons (.inl rfl) .nil)

mutual

theorem Expr.loads {p : Symbol → Prop} : (e : Expr) → e.Typed → e.All p → Each (·.Loads p) e.code
  | .constant v, _, _ => by
    rw [Expr.code]
    exact .cons (.inl (by cases v <;> rfl)) .nil
  | .var s, typed, all => by
    rw [Expr.code]
    exact .cons (.inr ⟨s, all, typed, rfl⟩) .nil
  | .call s args, typed, all => by
    rw [Expr.code]
    refine .append (args.loads typed.2.1 all.2) (.cons (.inl ?_) .nil)
    unfold Symbol.callInstruction
    split <;> rfl
  | .unary op e, typed, all => by
    rw [Expr.code]
    exact .append (e.loads typed.1 all) (.cons (.inl rfl) .nil)
  | .binary op a b, typed, all => by
    rw [Expr.code]
    exact .append (.append (.append (a.loads typed.1 all.1)
      (.cons (.inl rfl) (b.loads typed.2.1 all.2))) .regroup) (.cons (.inl rfl) .nil)
  | .compare c a b, typed, all => by
    rw [Expr.code]
    exact .append (.append (.append (a.loads typed.1 all.1)
      (.cons (.inl rfl) (b.loads typed.2.1 all.2))) .regroup)
      (.cons (.inl rfl) (.cons (.inl rfl) .nil))
  | .logical c a b done, typed, all => by
    rw [Expr.code]
    exact .append (.append (.append (.append (a.loads typed.1 all.1)
      (.cons (.inl rfl) (.cons (.inl rfl) (.cons (.inl rfl) .nil)))) (b.loads typed.2.1 all.2))
      .regroup) (.cons (.inl rfl) (.cons (.inl rfl) .nil))
  | .choose c a b otherwise done, typed, all => by
    rw [Expr.code]
    exact .append (.append (.append (.append (.append (c.loads typed.1 all.1)
      (.cons (.inl rfl) (.cons (.inl rfl) .nil))) (a.loads typed.2.1 all.2.1))
      (.cons (.inl rfl) (.cons (.inl rfl) .nil))) (b.loads typed.2.2.1 all.2.2))
      (.cons (.inl rfl) .nil)

theorem Args.loads {p : Symbol → Prop} : (args : Args) → args.Typed → args.All p →
    Each (·.Loads p) args.code
  | .nil, _, _ => by
    rw [Args.code]
    exact .nil
  | .cons e rest, typed, all => by
    rw [Args.code]
    exact .append (e.loads typed.1 all.1) (.cons (.inl rfl) (rest.loads typed.2 all.2))

end

theorem Expr.Ok.inFrames {e : Expr} (ok : e.Ok o chain ready) (deep : chain.length ≤ o.depths) :
    Each (·.InFrames o chain) e.code := by
  intro i member
  rcases e.loads ok.1 ok.2 i member with slotless | ⟨s, fits, plain, rfl⟩
  · exact .of_slotless slotless
  · exact .load (fits.inFrames plain deep)

-- Expressions allocate nothing.
theorem Expr.Ok.allocated?_code {e : Expr} (ok : e.Ok o chain ready) :
    ∀ i ∈ e.code, i.allocated? = none := by
  intro i member
  rcases e.loads ok.1 ok.2 i member with slotless | ⟨s, _, _, rfl⟩
  · exact Instruction.allocated?_of_slotless slotless
  · rfl

theorem Stmt.guard_inFrames {e : Option Expr} {otherwise : Int}
    (ok : ∀ test ∈ e, test.Ok o chain ready) (deep : chain.length ≤ o.depths) :
    Each (·.InFrames o chain) (guard e otherwise) := by
  cases e with
  | none => exact .nil
  | some e => exact .append ((ok e rfl).inFrames deep) (.plain rfl (.plain rfl .nil))

-- In the body of a function, its parameters have the first slots.
theorem Routine.receive_inFrames {r : Routine} {body : Stmt} (depth : r.depth = chain.length + 1)
    (deep : r.depth ≤ o.depths) : Each (·.InFrames o (r.frame body :: chain)) r.receive := by
  have present {index : Nat} {p : Compile.Param} (member : (p, index) ∈ r.params.zipIdx) :
      (r.variable index p).place.InFrames o (r.frame body :: chain) :=
    (Routine.variable_inLayout depth (List.mem_zipIdx_iff_getElem?.mp member)).inFrames deep
  refine .append (fun i made => ?_) (fun i made => ?_)
  · obtain ⟨⟨p, index⟩, member, rfl⟩ := List.mem_map.mp made
    exact .allocate (present member) depth
  · obtain ⟨⟨p, index⟩, member, rfl⟩ := List.mem_map.mp (List.mem_reverse.mp made)
    exact .pop (present member)

-- The code of a function behind the making of its frame.
theorem Stmt.function_inFrames {r : Routine} {body : Stmt} (depth : r.depth = chain.length + 1)
    (deep : r.depth ≤ o.depths) (inner : Each (·.InFrames o (r.frame body :: chain)) body.code) :
    Each (·.InFrames o (r.frame body :: chain)) (r.receive ++ body.code ++ conclude r) :=
  .append (.append (r.receive_inFrames depth deep) inner)
    (.plain rfl (.plain rfl (.plain rfl (.plain rfl (.plain rfl .nil)))))

-- What goes on in an inner body is no matter of the frames of the outer one.
theorem Instruction.InFrames.outward {body : Body} (inner : i.InFrames o (body :: chain)) :
    i.InFrames o chain := by
  refine ⟨fun opcode => ?_, fun a allocated => ?_, fun a member => ?_⟩
  · obtain ⟨further, deep⟩ := inner.frame opcode
    rw [List.length_cons] at further
    exact ⟨by omega, deep⟩
  · have further := inner.allocated a allocated
    rw [List.length_cons] at further
    omega
  · obtain ⟨deep, within⟩ := inner.operands a member
    refine ⟨deep, fun depth own inside other outer => ?_⟩
    refine within depth own (Nat.le_succ_of_le inside) other ?_
    rwa [Chain.outer_cons inside]

theorem Stmt.code_function (r : Routine) (body : Stmt) : (function r body).code =
    [Instruction.branch .jump r.skip, .label r.entry, .pushScope r.depth (r.params.length + body.count)] ++
      (r.receive ++ body.code ++ conclude r) := by
  rw [code, List.append_assoc, List.append_assoc, List.append_assoc]

theorem Stmt.Ok.inFrames {t : Stmt} {loops : List Int} (ok : t.Ok o chain ready loops)
    (deep : chain.length ≤ o.depths) : Each (·.InFrames o chain) t.code := by
  induction t generalizing chain ready loops with
  | skip => exact .nil
  | seq a b first second => exact .append (first ok.1 deep) (second ok.2 deep)
  | block a ih => exact ih ok deep
  | expr e => exact ok.inFrames deep
  | assign s e =>
    obtain ⟨value, plain, fits, _⟩ := ok
    exact .append (value.inFrames deep) (.cons (.store (fits.inFrames plain deep)) .nil)
  | declare type s init =>
    obtain ⟨depth, _, _, inLayout, given⟩ := ok
    have present := inLayout.inFrames (depth.trans_le deep)
    cases init with
    | none => exact .cons (.allocate present depth) .nil
    | some e =>
      exact .append (.cons (.allocate present depth) ((given e rfl).1.inFrames deep))
        (.cons (.store present) .nil)
  | function r body ih =>
    obtain ⟨depth, within, _, _, inner⟩ := ok
    rw [code_function]
    refine .append (.plain rfl (.plain rfl (.cons ?_ .nil))) fun i member => ?_
    · refine ⟨fun _ => ⟨?_, Int.ofNat_le.mpr within⟩, by rintro _ ⟨⟩, fun a member => ?_⟩
      · change (chain.length : Int) < r.depth
        omega
      · cases member
    · exact (function_inFrames depth within (ih inner (depth.ge.trans within)) i member).outward
  | ifThen e a otherwise ih =>
    obtain ⟨test, _, inner⟩ := ok
    exact .append (.append (guard_inFrames (by simpa using test) deep) (ih inner deep))
      (.plain rfl .nil)
  | ifElse e a b otherwise done first second =>
    obtain ⟨test, _, one, two⟩ := ok
    exact .append (.append (.append (.append (guard_inFrames (by simpa using test) deep)
      (first one deep)) (.plain rfl (.plain rfl .nil))) (second two deep)) (.plain rfl .nil)
  | whileLoop e a top done ih =>
    obtain ⟨test, _, inner⟩ := ok
    exact .append (.append (.plain rfl (guard_inFrames (by simpa using test) deep))
      (ih inner deep)) (.plain rfl (.plain rfl .nil))
  | forLoop init e a step top done initIh ih stepIh =>
    obtain ⟨one, test, two, three⟩ := ok
    exact .append (.append (.append (.append (initIh one deep)
      (.plain rfl (guard_inFrames (fun e given => (test e given).1) deep))) (ih two deep))
      (stepIh three deep)) (.plain rfl (.plain rfl .nil))
  | loopWhile a e top done ih =>
    obtain ⟨inner, _, test, _⟩ := ok
    exact .append (.append (.plain rfl (ih inner deep)) (test.inFrames deep))
      (.plain rfl (.plain rfl (.plain rfl .nil)))
  | leave done => exact .plain rfl .nil
  | yield e result =>
    obtain ⟨_, _, _, _, _, given⟩ := ok
    cases e with
    | none => exact .plain rfl (.plain rfl .nil)
    | some e => exact .append ((given e rfl).1.inFrames deep) (.plain rfl .nil)
  | exit e =>
    cases e with
    | none => exact .plain rfl .nil
    | some e => exact .append ((ok e rfl).1.inFrames deep) (.plain rfl .nil)

end

end ScalarScript
