import ScalarScript.Peephole.Liveness
import ScalarScript.Proofs.Machine.Effected
/-!
What an instruction does depends on the registers that it reads, and on the flags only where it asks
for them. Between two cores that agree on these it makes no difference, and they agree afterwards on
what it writes as well.
-/
namespace ScalarScript

namespace Instruction

variable {i : Instruction} {o : Operand} {r : Register}

theorem touches_eq_true_iff {use : Nat → Bool} : i.touches use o = true ↔
    ∃ p n, i.operands[n]? = some p ∧ use n = true ∧ p.same o = true := by
  simp only [touches, List.any_eq_true, Bool.and_eq_true, Prod.exists,
    List.mem_zipIdx_iff_getElem?]

theorem same_register_iff : o.same (.register r) = true ↔ o = .register r := by
  cases o <;> simp [Operand.same]

-- The operands in a position count where the operation has as many.
theorem operands_first (some : 0 < i.opcode.operandCount) : i.operands[0]? = .some i.first := by
  simp [operands, some]

theorem operands_second (some : 1 < i.opcode.operandCount) : i.operands[1]? = .some i.second := by
  simp [operands, some]

theorem reads_of_first (uses : i.opcode.reads 0 = true) (is : i.first = .register r) :
    i.reads (.register r) = true :=
  touches_eq_true_iff.mpr
    ⟨_, 0, operands_first (Opcode.reads_lt uses), uses, same_register_iff.mpr is⟩

theorem reads_of_second (uses : i.opcode.reads 1 = true) (is : i.second = .register r) :
    i.reads (.register r) = true :=
  touches_eq_true_iff.mpr
    ⟨_, 1, operands_second (Opcode.reads_lt uses), uses, same_register_iff.mpr is⟩

-- Operations write their first operand or none.
theorem writes_register_iff : i.writes (.register r) = true ↔
    i.opcode.writes 0 = true ∧ i.first = .register r := by
  constructor
  · intro writes
    obtain ⟨p, n, found, uses, is⟩ := touches_eq_true_iff.mp writes
    have zero : n = 0 := by
      cases opcode : i.opcode <;> simp_all [Opcode.writes]
    subst zero
    rw [operands_first (Opcode.writes_lt uses)] at found
    cases found
    exact ⟨uses, same_register_iff.mp is⟩
  · rintro ⟨uses, is⟩
    exact touches_eq_true_iff.mpr
      ⟨_, 0, operands_first (Opcode.writes_lt uses), uses, same_register_iff.mpr is⟩

end Instruction

-- Operations that store an outcome in the flags.
def Opcode.setsFlags : Opcode → Bool
  | compare | test => true
  | _ => false

-- The registers that are known behind an instruction, and whether the flags count there.
def Instruction.Learns (i : Instruction) (known : Register → Prop) (r : Register) : Prop :=
  known r ∨ i.writes (.register r) = true

def Instruction.Settles (i : Instruction) (flags : Prop) : Prop :=
  flags ∨ i.opcode.setsFlags = true

-- Results that fail alike or are related.
inductive Paired {α β : Type} (R : α → β → Prop) :
    Except RuntimeFault α → Except RuntimeFault β → Prop where
  | ok {a : α} {b : β} (related : R a b) : Paired R (.ok a) (.ok b)
  | error (f : RuntimeFault) : Paired R (.error f) (.error f)

namespace Paired

variable {α β γ δ : Type} {R R' : α → β → Prop} {Q : γ → δ → Prop}
  {x : Except RuntimeFault α} {y : Except RuntimeFault β}

-- Both begin with the same computation.
theorem after (r : Except RuntimeFault α) {f : α → Except RuntimeFault γ}
    {g : α → Except RuntimeFault δ} (second : ∀ a, r = .ok a → Paired Q (f a) (g a)) :
    Paired Q (r >>= f) (r >>= g) := by
  cases r with
  | ok a => exact second a rfl
  | error f => exact .error f

theorem branch {x' : Except RuntimeFault α} {y' : Except RuntimeFault β} {p : Prop} [Decidable p]
    (yes : Paired R x y) (no : Paired R x' y') :
    Paired R (if p then x else x') (if p then y else y') := by
  split
  · exact yes
  · exact no

theorem mono (paired : Paired R x y) (weaker : ∀ a b, R a b → R' a b) : Paired R' x y := by
  cases paired with
  | ok related => exact .ok (weaker _ _ related)
  | error f => exact .error f

end Paired

namespace Core

variable {World : Type} {c d : Core World} {known : Register → Prop} {flags : Prop}
  {i j : Instruction} {o : Operand} {p : Place} {v : Value}

-- Cores that agree in everything but the registers that are not known, and in the flags where these
-- count.
structure Agrees (known : Register → Prop) (flags : Prop) (c d : Core World) : Prop where
  registers : ∀ r, known r → d.registers.get? r = c.registers.get? r
  flags : flags → d.flags = c.flags
  stack : d.stack = c.stack
  scopes : d.scopes = c.scopes
  cells : d.cells = c.cells
  world : d.world = c.world

theorem Agrees.refl (known : Register → Prop) (flags : Prop) (c : Core World) :
    Agrees known flags c c :=
  ⟨fun _ _ => rfl, fun _ => rfl, rfl, rfl, rfl, rfl⟩

theorem Agrees.mono {known' : Register → Prop} {flags' : Prop} (agrees : Agrees known flags c d)
    (fewer : ∀ r, known' r → known r) (less : flags' → flags) : Agrees known' flags' c d :=
  { agrees with
    registers := fun r is => agrees.registers r (fewer r is)
    flags := fun counts => agrees.flags (less counts) }

-- Only registers and flags can tell them apart.
theorem Agrees.eq_with (agrees : Agrees known flags c d) :
    d = { c with registers := d.registers, flags := d.flags } := by
  obtain ⟨registers, marks, stack, scopes, cells, world⟩ := d
  obtain ⟨_, _, rfl, rfl, rfl, rfl⟩ := agrees
  rfl

-- Of a place that is no register, both hold the same.
def Place.Known (known : Register → Prop) : Place → Prop
  | .register r => known r
  | _ => True

theorem slotOf_of_scopes (same : d.scopes = c.scopes) (s : Slot) : d.slotOf s = c.slotOf s := by
  simp only [slotOf, frame?, same]

theorem locate_of_scopes (same : d.scopes = c.scopes) (o : Operand) : d.locate o = c.locate o := by
  unfold locate
  simp only [slotOf_of_scopes same]

theorem eq_of_locate_register {r : Register} (located : c.locate (.register r) = .ok p) :
    p = .register r := by
  simp only [locate] at located
  split at located
  · cases located
    rfl
  · cases located

-- Only a register is found in a register.
theorem register_of_locate {r : Register} (located : c.locate o = .ok (.register r)) :
    o = .register r := by
  cases o with
  | register s => cases eq_of_locate_register located; rfl
  | slot s =>
    simp only [locate] at located
    cases found : c.slotOf s with
    | error f =>
      rw [found] at located
      cases located
    | ok place =>
      obtain ⟨depth, index, slot⟩ := place
      rw [found] at located
      cases slot <;> cases located
  | literal v => cases located
  | null => cases located
  | absent => cases located

theorem Agrees.read (agrees : Agrees known flags c d) (is : Place.Known known p) :
    d.read p = c.read p := by
  cases p with
  | register r => simp only [Core.read, agrees.registers r is]
  | slot depth index => simp only [Core.read, frame?, agrees.scopes]
  | host index => simp only [Core.read, agrees.cells]
  | constant v => rfl

-- An operand that is no register has the same value, and a register that is known.
theorem Agrees.resolve (agrees : Agrees known flags c d) (is : ∀ r, o = .register r → known r) :
    d.resolve o = c.resolve o := by
  unfold Core.resolve
  rw [locate_of_scopes agrees.scopes]
  cases located : c.locate o with
  | error f => rfl
  | ok p =>
    have here : Place.Known known p := by
      cases p with
      | register r => exact is r (register_of_locate located)
      | _ => trivial
    simp only [Except.map, agrees.read here]

theorem get?_set_congr {rs ss : Registers} {r s : Register} (same : s ≠ r → rs.get? s = ss.get? s) :
    (rs.set r v).get? s = (ss.set r v).get? s := by
  by_cases is : s = r
  · subst is
    obtain ⟨_ | _ | _ | n⟩ := s <;> rfl
  · rw [Registers.get?_set_other is, Registers.get?_set_other is, same is]

-- What is put into a register is known afterwards.
theorem Agrees.assign (agrees : Agrees known flags c d) (p : Place) (v : Value) :
    Paired (Agrees (fun r => known r ∨ p = .register r) flags) (c.assign p v) (d.assign p v) := by
  have plain {e e' : Core World} (same : Agrees known flags e e') (other : ∀ r, p ≠ .register r) :
      Agrees (fun r => known r ∨ p = .register r) flags e e' :=
    same.mono (fun r is => is.resolve_right (other r)) id
  cases p with
  | register r =>
    refine .ok { agrees with registers := fun s is => get?_set_congr fun other => ?_ }
    exact agrees.registers s (is.resolve_right fun here => other (by cases here; rfl))
  | slot depth index =>
    simp only [Core.assign, agrees.read (p := .slot depth index) trivial]
    refine .after _ fun w _ => .ok (plain { agrees with scopes := ?_ } (by simp))
    simp only [putSlot, agrees.scopes]
  | host index =>
    simp only [Core.assign, agrees.cells]
    cases c.cells[index]?.join with
    | none => exact .ok (plain agrees (by simp))
    | some cell => exact .after _ fun e _ => .ok (plain { agrees with cells := rfl } (by simp))
  | constant w => exact .error _

theorem Agrees.pushScope (agrees : Agrees known flags c d) (depth size : Int) :
    Paired (Agrees known flags) (c.pushScope depth size) (d.pushScope depth size) := by
  simp only [Core.pushScope, agrees.scopes]
  exact .branch (.error _) (.branch (.error _) (.ok { agrees with scopes := rfl }))

theorem Agrees.popScope (agrees : Agrees known flags c d) (depth : Int) :
    Paired (Agrees known flags) (c.popScope depth) (d.popScope depth) := by
  simp only [Core.popScope, frame?, agrees.scopes]
  exact .branch (.error _) (.ok { agrees with scopes := rfl })

-- Registers cannot be allocated.
theorem Agrees.allocate (agrees : Agrees known flags c d) (type : Scalar) (o : Operand) :
    Paired (fun e e' => Agrees known flags e e' ∧ ∀ r, o ≠ .register r) (c.allocate type o)
      (d.allocate type o) := by
  cases o with
  | slot s =>
    simp only [Core.allocate, slotOf_of_scopes agrees.scopes]
    refine .after _ fun place _ => .ok ⟨{ agrees with scopes := ?_ }, by simp⟩
    simp only [putSlot, agrees.scopes]
  | _ => exact .error _

-- Two instructions that differ in their operands at most: what they read is the same in their own
-- core each, and what they write is the same place.
structure Supplied (c d : Core World) (i j : Instruction) : Prop where
  same : j = { i with first := j.first, second := j.second, third := j.third }
  first : i.opcode.reads 0 = true → d.resolve j.first = c.resolve i.first
  second : i.opcode.reads 1 = true → d.resolve j.second = c.resolve i.second
  target : i.opcode.writes 0 = true → j.first = i.first

theorem Agrees.supplied (agrees : Agrees known flags c d)
    (reads : ∀ r, i.reads (.register r) = true → known r) : Supplied c d i i where
  same := rfl
  first uses := agrees.resolve fun r is => reads r (Instruction.reads_of_first uses is)
  second uses := agrees.resolve fun r is => reads r (Instruction.reads_of_second uses is)
  target _ := rfl

-- An instruction that writes no register and no flags lets nothing be known.
theorem Agrees.still (agrees : Agrees known flags c d) (none : i.opcode.writes 0 = false)
    (plain : i.opcode.setsFlags = false) : Agrees (i.Learns known) (i.Settles flags) c d := by
  refine agrees.mono (fun r is => is.resolve_right ?_) fun is => is.resolve_right ?_
  · simp [Instruction.writes_register_iff, none]
  · simp [plain]

-- The effect of an instruction: it fails alike, and what it writes is known afterwards.
theorem Agrees.effect (agrees : Agrees known flags c d) (supplied : Supplied c d i j)
    (asks : i.opcode.isSet = true → flags) :
    Paired (Agrees (i.Learns known) (i.Settles flags)) (c.effect i) (d.effect j) := by
  obtain ⟨same, first, second, target⟩ := supplied
  rw [same]
  generalize j.first = a, j.second = b, j.third = z at first second target ⊢
  generalize after : Agrees (i.Learns known) (i.Settles flags) = After
  have located := locate_of_scopes agrees.scopes
  -- instructions that write no register
  have unwritten (none : i.opcode.writes 0 = false) (plain : i.opcode.setsFlags = false)
      {e e' : Core World} (along : Agrees known flags e e') : After e e' :=
    after ▸ along.still none plain
  -- instructions that put a value where their first operand says
  have assigned (plain : i.opcode.setsFlags = false) {e e' : Core World}
      (along : Agrees known flags e e') {p : Place} (w : Value) (place : c.locate i.first = .ok p) :
      Paired After (e.assign p w) (e'.assign p w) := by
    rw [← after]
    refine (along.assign p w).mono fun x y both => both.mono (fun r is => is.imp_right ?_) fun is =>
      is.resolve_right (by simp [plain])
    intro writes
    rw [(Instruction.writes_register_iff.mp writes).2] at place
    exact eq_of_locate_register place
  have reading {p : Place} (found : d.resolve a = c.resolve i.first) (place : c.locate a = .ok p)
      (is : a = i.first) : d.read p = c.read p := by
    subst is
    simpa [Core.resolve, located, place, Except.map] using found
  unfold Core.effect
  cases opcode : i.opcode with
  | exit | jump | jumpIf _ | call | ret | hostCall =>
    exact .ok (unwritten (by rw [opcode]; rfl) (by rw [opcode]; rfl) agrees)
  | compare =>
    rw [opcode] at first second
    simp only [first rfl, second rfl]
    refine .after _ fun x _ => .after _ fun y _ => .ok ?_
    rw [← after]
    refine { agrees with
      registers := fun r is => agrees.registers r (is.resolve_right ?_), flags := fun _ => rfl }
    simp [Instruction.writes_register_iff, opcode, Opcode.writes]
  | test =>
    rw [opcode] at first
    simp only [first rfl]
    refine .after _ fun x _ => .after _ fun truth _ => .ok ?_
    rw [← after]
    refine { agrees with
      registers := fun r is => agrees.registers r (is.resolve_right ?_), flags := fun _ => rfl }
    simp [Instruction.writes_register_iff, opcode, Opcode.writes]
  | setIf condition =>
    rw [opcode] at asks target
    simp only [target rfl, located, agrees.flags (asks rfl)]
    exact .after _ fun p place => assigned (by rw [opcode]; rfl) agrees _ place
  | move =>
    rw [opcode] at second target
    simp only [target rfl, located, second rfl]
    exact .after _ fun p place => .after _ fun v _ =>
      assigned (by rw [opcode]; rfl) agrees _ place
  | push =>
    rw [opcode] at first
    simp only [first rfl]
    refine .after _ fun v _ => .ok (unwritten (by rw [opcode]; rfl) (by rw [opcode]; rfl) ?_)
    exact { agrees with stack := by rw [agrees.stack] }
  | pop =>
    rw [opcode] at target
    simp only [target rfl, located, Core.pop, agrees.stack]
    refine .after _ fun p place => ?_
    rcases c.stack with _ | ⟨_ | v, rest⟩
    · exact .error _
    · exact .error _
    · refine assigned (by rw [opcode]; rfl) ?_ _ place
      exact { agrees with stack := rfl }
  | binary op =>
    rw [opcode] at first second target
    simp only [target rfl, located, second rfl]
    refine .after _ fun p place => .after _ fun v _ => ?_
    rw [reading (first rfl) (target rfl ▸ place) (target rfl)]
    exact .after _ fun w _ => assigned (by rw [opcode]; rfl) agrees _ place
  | unary op =>
    rw [opcode] at first target
    simp only [target rfl, located]
    refine .after _ fun p place => ?_
    rw [reading (first rfl) (target rfl ▸ place) (target rfl)]
    exact .after _ fun w _ => assigned (by rw [opcode]; rfl) agrees _ place
  | scopeDepth =>
    simp only [agrees.scopes]
    exact .ok (unwritten (by rw [opcode]; rfl) (by rw [opcode]; rfl) { agrees with scopes := rfl })
  | pushScope =>
    exact (agrees.pushScope _ _).mono fun _ _ =>
      unwritten (by rw [opcode]; rfl) (by rw [opcode]; rfl)
  | popScope =>
    exact (agrees.popScope _).mono fun _ _ => unwritten (by rw [opcode]; rfl) (by rw [opcode]; rfl)
  | allocate type =>
    rw [opcode] at target
    rw [target rfl, ← after]
    refine (agrees.allocate type i.first).mono fun e e' both =>
      both.1.mono (fun r is => is.resolve_right ?_) fun is => is.resolve_right ?_
    · simp [Instruction.writes_register_iff, both.2]
    · simp [opcode, Opcode.setsFlags]
  | label | debugLine | unknown _ => exact .error _

-- What is put elsewhere leaves a register alone.
theorem assign_keeps {r : Register} (other : p ≠ .register r) (v : Value) :
    Promises (fun d : Core World => d.registers.get? r = c.registers.get? r) (c.assign p v) := by
  cases p with
  | register q =>
    refine .ok (Registers.get?_set_other fun same => ?_)
    exact other (by rw [same])
  | slot depth index => exact .bind fun w _ => .ok rfl
  | host index =>
    simp only [Core.assign]
    cases c.cells[index]?.join with
    | none => exact .ok rfl
    | some cell => exact .bind fun e _ => .ok rfl
  | constant w => exact .error _

-- An instruction leaves the registers alone that it does not write.
theorem effect_keeps {r : Register} (unwritten : i.writes (.register r) = false) :
    Promises (fun d : Core World => d.registers.get? r = c.registers.get? r) (c.effect i) := by
  have elsewhere (writes : i.opcode.writes 0 = true) {p : Place}
      (place : c.locate i.first = .ok p) : p ≠ .register r := by
    rintro rfl
    rw [Instruction.writes_register_iff.mpr ⟨writes, register_of_locate place⟩] at unwritten
    cases unwritten
  unfold Core.effect
  cases opcode : i.opcode with
  | exit | jump | jumpIf _ | call | ret | hostCall | scopeDepth => exact .ok rfl
  | compare => exact .bind fun x _ => .bind fun y _ => .ok rfl
  | test => exact .bind fun x _ => .bind fun truth _ => .ok rfl
  | push => exact .bind fun v _ => .ok rfl
  | setIf condition =>
    exact .bind fun p place => assign_keeps (elsewhere (by rw [opcode]; rfl) place) _
  | move =>
    exact .bind fun p place => .bind fun v _ =>
      assign_keeps (elsewhere (by rw [opcode]; rfl) place) _
  | binary op =>
    exact .bind fun p place => .bind fun v _ => .bind fun w _ =>
      assign_keeps (elsewhere (by rw [opcode]; rfl) place) _
  | unary op =>
    exact .bind fun p place => .bind fun w _ =>
      assign_keeps (elsewhere (by rw [opcode]; rfl) place) _
  | pop =>
    intro d done
    obtain ⟨p, v, rest, place, _, done⟩ := pop_eq_ok done
    exact assign_keeps (c := { c with stack := rest }) (elsewhere (by rw [opcode]; rfl) place) v d done
  | pushScope =>
    intro d done
    obtain ⟨_, _, rfl⟩ := pushScope_eq_ok done
    rfl
  | popScope =>
    intro d done
    obtain ⟨_, _, rfl⟩ := popScope_eq_ok done
    rfl
  | allocate type =>
    intro d done
    obtain ⟨s, depth, index, slot, _, _, rfl⟩ := allocate_eq_ok done
    rfl
  | label | debugLine | unknown _ => exact .error _

end Core

end ScalarScript
