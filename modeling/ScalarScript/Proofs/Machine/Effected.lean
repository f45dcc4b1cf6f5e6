import ScalarScript.Proofs.Machine.Kept
import ScalarScript.Proofs.Symbolic.Effect
/-!
All that the effect of an instruction can be: nothing, other flags, an operand more, a value put
somewhere, or a change of the scopes. The world of the host is never among it: only host functions
change that, so what all of them keep is kept by every run.
-/
namespace ScalarScript

-- Instructions that put a value where their first operand says.
def Opcode.isAssignment : Opcode → Bool
  | .setIf _ | .move | .pop | .binary _ | .unary _ => true
  | _ => false

def Opcode.isScoping : Opcode → Bool
  | .scopeDepth | .pushScope | .popScope | .allocate _ => true
  | _ => false

theorem Opcode.isAssignment_of_isScoping {o : Opcode} (scoping : o.isScoping = true) :
    o.isAssignment = false := by
  cases o <;> simp [isScoping] at scoping <;> rfl

namespace Core

variable {World : Type} {c d : Core World} {i : Instruction}

-- The value that an instruction computes in order to assign it.
def Computes (c : Core World) (i : Instruction) (v : Value) : Prop :=
  match i.opcode with
  | .setIf condition => v = .truth (condition.holds c.flags)
  | .move => c.resolve i.second = .ok v
  | .binary op => ∃ a b, op.apply a b = .ok v
  | .unary op => ∃ a, op.apply a = .ok v
  | _ => False

inductive Effected (c : Core World) (i : Instruction) : Core World → Prop where
  | nothing (plain : i.opcode.isAssignment = false) (still : i.opcode.isScoping = false) :
      Effected c i c
  | flags (plain : i.opcode.isAssignment = false) (still : i.opcode.isScoping = false)
      (flags : Flags) : Effected c i { c with flags }
  | pushed {v : Value} (opcode : i.opcode = .push) (operand : c.resolve i.first = .ok v) :
      Effected c i { c with stack := some v :: c.stack }
  | assigned {p : Place} {v : Value} {d : Core World} (target : c.locate i.first = .ok p)
      (still : i.opcode.isScoping = false) (value : c.Computes i v) (done : c.assign p v = .ok d) :
      Effected c i d
  | popped {p : Place} {v : Value} {rest : List (Option Value)} {d : Core World}
      (target : c.locate i.first = .ok p) (still : i.opcode.isScoping = false)
      (top : c.stack = some v :: rest) (done : assign { c with stack := rest } p v = .ok d) :
      Effected c i d
  | rescoped {scopes : Array (List ScopeFrame)} (scoping : i.opcode.isScoping = true)
      (done : c.effect i = .ok { c with scopes }) : Effected c i { c with scopes }

theorem allocate_eq_ok {type : Scalar} {o : Operand} (done : c.allocate type o = .ok d) :
    ∃ s depth index slot, o = .slot s ∧ c.slotOf s = .ok (depth, index, slot) ∧
      d = c.putSlot depth index (.held (.nullOf type.ty)) := by
  cases o with
  | slot s =>
    simp only [allocate] at done
    cases found : c.slotOf s with
    | error f =>
      rw [found] at done
      cases done
    | ok place =>
      obtain ⟨depth, index, slot⟩ := place
      rw [found] at done
      cases done
      exact ⟨s, depth, index, slot, rfl, found, rfl⟩
  | _ => cases done

theorem pop_eq_ok {o : Operand} (done : c.pop o = .ok d) :
    ∃ p v rest, c.locate o = .ok p ∧ c.stack = some v :: rest ∧
      assign { c with stack := rest } p v = .ok d := by
  unfold pop at done
  cases located : c.locate o with
  | error f =>
    rw [located] at done
    cases done
  | ok p =>
    rw [located] at done
    cases top : c.stack with
    | nil =>
      rw [top] at done
      cases done
    | cons place rest =>
      rw [top] at done
      cases place with
      | none => cases done
      | some v => exact ⟨p, v, rest, rfl, rfl, done⟩

-- One case for each opcode.
theorem effected (c : Core World) (i : Instruction) : Promises (c.Effected i) (c.effect i) := by
  unfold effect
  cases opcode : i.opcode with
  | exit | jump | jumpIf _ | call | ret | hostCall =>
    exact .ok (.nothing (by rw [opcode]; rfl) (by rw [opcode]; rfl))
  | compare =>
    exact .bind fun x _ => .bind fun y _ =>
      .ok (.flags (by rw [opcode]; rfl) (by rw [opcode]; rfl) _)
  | test =>
    exact .bind fun x _ => .bind fun truth _ =>
      .ok (.flags (by rw [opcode]; rfl) (by rw [opcode]; rfl) _)
  | setIf condition =>
    exact .bind fun target located => fun d done =>
      .assigned located (by rw [opcode]; rfl) (by rw [Computes, opcode]) done
  | move =>
    exact .bind fun target located => .bind fun v given => fun d done =>
      .assigned located (by rw [opcode]; rfl) (by rw [Computes, opcode]; exact given) done
  | push => exact .bind fun v given => .ok (.pushed opcode given)
  | pop =>
    intro d done
    obtain ⟨p, v, rest, located, top, done⟩ := pop_eq_ok done
    exact .popped located (by rw [opcode]; rfl) top done
  | binary op =>
    exact .bind fun target located => .bind fun source _ => .bind fun v computed => fun d done =>
      .assigned located (by rw [opcode]; rfl)
        (by rw [Computes, opcode]; exact ⟨_, _, lift_eq_ok_iff.mp computed⟩) done
  | unary op =>
    exact .bind fun target located => .bind fun v computed => fun d done =>
      .assigned located (by rw [opcode]; rfl)
        (by rw [Computes, opcode]; exact ⟨_, lift_eq_ok_iff.mp computed⟩) done
  | scopeDepth => exact .ok (.rescoped (by rw [opcode]; rfl) (by rw [effect, opcode]))
  | pushScope =>
    intro d done
    obtain ⟨_, _, rfl⟩ := pushScope_eq_ok done
    exact .rescoped (by rw [opcode]; rfl) (by rw [effect, opcode]; exact done)
  | popScope =>
    intro d done
    obtain ⟨_, _, rfl⟩ := popScope_eq_ok done
    exact .rescoped (by rw [opcode]; rfl) (by rw [effect, opcode]; exact done)
  | allocate type =>
    intro d done
    have whole := done
    obtain ⟨s, depth, index, slot, _, _, rfl⟩ := allocate_eq_ok done
    exact .rescoped (by rw [opcode]; rfl) (by rw [effect, opcode]; exact whole)
  | label | debugLine | unknown _ => exact .error _

end Core

open Stateful

variable {World Watch : Type}

-- Results whose cores are in that world of the host.
abbrev InWorld (w : World) (r : Except RuntimeFault (Core World)) : Prop :=
  Promises (fun d => d.world = w) r

namespace Core

variable (c : Core World)

theorem inWorld_assign (p : Place) (v : Value) : InWorld c.world (c.assign p v) := by
  cases p with
  | register r => exact .ok rfl
  | slot depth index => exact .bind fun _ _ => .ok rfl
  | host index =>
    unfold assign
    dsimp only
    split
    · exact .bind fun _ _ => .ok rfl
    · exact .ok rfl
  | constant w => exact .error _

-- What an instruction does to the core leaves the world as it is.
theorem inWorld_effect (i : Instruction) : InWorld c.world (c.effect i) := by
  intro d done
  cases c.effected i d done with
  | nothing | flags | pushed | rescoped => rfl
  | assigned _ _ _ assigned => exact c.inWorld_assign _ _ d assigned
  | @popped p v rest d _ _ _ assigned =>
    exact ({ c with stack := rest } : Core World).inWorld_assign p v d assigned

end Core

-- Host functions that keep a property of the world.
def HostsKeep (P : World → Prop) (externals : Array (External World)) : Prop :=
  ∀ ext ∈ externals, ∀ f, ext.function = some f → ∀ w r, P w → P (f w r).world

namespace Exec

variable {m : Machine World Watch} {P : World → Prop}

-- Only host functions put the world at risk.
theorem preserves_world (keep : HostsKeep P m.externals) :
    Preserves (fun s => P s.world) (step m) := by
  have internal : Internal fun s : RunState World Watch => P s.world := by
    intro s t core _ holds
    rwa [core]
  refine internal.step (internal.survives ?_ ?_ ?_) ?_
  · exact fun s ext f member given holds => keep ext member f given _ _ holds
  · exact fun _ _ holds => holds
  · exact fun _ _ _ _ _ _ _ _ _ holds => holds
  · intro i _ s holds core done
    show P core.world
    rwa [s.inWorld_effect i core done]

end Exec

-- A run keeps what the host functions keep, and fails by a fault of the machine.
theorem Machine.runFrom_keeps {m : Machine World Watch} {P : World → Prop}
    (keep : HostsKeep P m.externals) {fuel : Nat} {s t : RunState World Watch}
    {outcome : Except RuntimeError Value} (holds : P s.world)
    (ran : m.runFrom fuel s = some (outcome, t)) :
    P t.world ∧ ∀ e, outcome = .error e →
      ∃ (u : RunState World Watch) (f : RuntimeFault), e = u.error f := by
  have kept := Exec.Keeps.drive (Exec.preserves_world keep) fuel s holds
  rw [Exec.runFrom_eq_drive] at ran
  cases driven : Exec.drive (Exec.step m) fuel s with
  | ok result u =>
    rw [driven] at kept ran
    cases result <;> cases ran
    exact ⟨kept, nofun⟩
  | error e u =>
    rw [driven] at kept ran
    cases ran
    obtain ⟨world, v, f, same, _⟩ := kept
    refine ⟨world, ?_⟩
    rintro _ ⟨⟩
    exact ⟨v, f, same⟩

end ScalarScript
