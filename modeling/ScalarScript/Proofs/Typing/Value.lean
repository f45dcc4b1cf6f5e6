import ScalarScript.Machine.Core
import ScalarScript.Proofs.Typing.Check
/-!
Values of a type, a null among them. Operations on values of the types they ask for never complain
about types, and give values of their own type.
-/
namespace ScalarScript

-- A null, or a value of the type.
def Value.Fits (v : Value) (t : Ty) : Prop := v.isNull = true ∨ v.type = t

-- The same, as far as the host can be trusted.
def Plan.Fits (Γ : Plan) (v : Value) (t : Ty) : Prop := Γ.trusted → v.Fits t

namespace Value

theorem Fits.into {v : Value} {given wanted : Ty} (fits : v.Fits given)
    (into : given.Into wanted) : v.Fits wanted := by
  rcases into with rfl | rfl
  · exact fits
  · rcases fits with none | typed
    · exact .inl none
    · cases v <;> simp [type] at typed
      exact .inl rfl

theorem type_nullOf (t : Scalar) : (nullOf t.ty).type = t.ty := by cases t <;> rfl

theorem condition_fault {v : Value} {f : Fault} (fits : v.Fits .bool)
    (failed : v.condition = .error f) : f.kind ≠ .type := by
  unfold condition at failed
  split at failed
  · cases failed
    rintro ⟨⟩
  · rename_i some
    rcases fits with none | typed
    · exact absurd none some
    · rcases v with _ | (_ | b) | _ | _ <;> simp_all [type, isNull]

-- What is stored has the type of what was there.
theorem store_fault {old new : Value} {f : Fault} (fits : new.Fits old.type)
    (failed : old.store new = .error f) : f.kind ≠ .type := by
  rcases fits with none | typed
  · cases old <;> cases new <;> simp_all [store, Fault.kind, isNull] <;> subst failed <;> simp
  · cases old <;> cases new <;> simp_all [store, type]
    all_goals subst failed; simp [Fault.kind]

end Value

theorem Plan.Fits.into {Γ : Plan} {v : Value} {given wanted : Ty} (fits : Γ.Fits v given)
    (into : given.Into wanted) : Γ.Fits v wanted :=
  fun trust => Value.Fits.into (fits trust) into

theorem finiteOrNull_fits (x : Float) : (finiteOrNull x).Fits .double := by
  unfold finiteOrNull
  split
  · exact .inr rfl
  · exact .inl rfl

namespace BinaryOp

theorem onNumbers_fits (op : BinaryOp) (x y : Float) : (op.onNumbers x y).Fits .double := by
  unfold onNumbers
  split
  all_goals first | exact finiteOrNull_fits _ | skip
  · split
    · exact .inl rfl
    · exact finiteOrNull_fits _
  · split
    · exact .inl rfl
    · exact finiteOrNull_fits _
  · exact .inl rfl

theorem apply_fits {op : BinaryOp} {a b v : Value} (done : op.apply a b = .ok v) :
    v.Fits op.operandType := by
  unfold apply at done
  split at done
  · cases done
  · split at done
    · cases done
      simpa only [*] using onNumbers_fits op _ _
    · cases done
      exact .inr (by simp only [*]; rfl)
    · cases done
      exact .inr (by simp only [*]; rfl)
    · cases done

theorem apply_fault {op : BinaryOp} {a b : Value} {f : Fault} (left : a.Fits op.operandType)
    (right : b.Fits op.operandType) (failed : op.apply a b = .error f) : f.kind ≠ .type := by
  unfold apply at failed
  split at failed
  · cases failed
    rintro ⟨⟩
  · rename_i some
    simp only [Bool.or_eq_true, not_or] at some
    have leftType := left.resolve_left some.1
    have rightType := right.resolve_left some.2
    have kinds : op.operandType = .double ∨ op.operandType = .bool ∨ op.operandType = .string := by
      cases op <;> simp [operandType]
    rcases kinds with kind | kind | kind <;> rw [kind] at leftType rightType <;>
      simp only [kind] at failed <;> rcases a with _ | (_ | _) | (_ | _) | (_ | _) <;>
      rcases b with _ | (_ | _) | (_ | _) | (_ | _) <;>
      simp_all [Value.type, Value.isNull]

end BinaryOp

namespace UnaryOp

theorem apply_fits {op : UnaryOp} {a v : Value} (done : op.apply a = .ok v) :
    v.Fits op.resultType := by
  cases op with
  | negate =>
    simp only [apply, Value.negate] at done
    split at done
    · cases done
    · split at done
      · cases done
        exact .inr rfl
      · cases done
  | not =>
    simp only [apply, Value.invert] at done
    split at done
    · cases done
    · split at done
      · cases done
        exact .inr rfl
      · cases done

theorem apply_fault {op : UnaryOp} {a : Value} {f : Fault} (fits : a.Fits op.resultType)
    (failed : op.apply a = .error f) : f.kind ≠ .type := by
  cases op with
  | negate =>
    simp only [apply, Value.negate] at failed
    split at failed
    · cases failed
      rintro ⟨⟩
    · rename_i some
      have typed := fits.resolve_left some
      rcases a with _ | _ | (_ | _) | _ <;> simp_all [Value.type, Value.isNull, resultType]
  | not =>
    simp only [apply, Value.invert] at failed
    split at failed
    · cases failed
      rintro ⟨⟩
    · rename_i some
      have typed := fits.resolve_left some
      rcases a with _ | (_ | _) | _ | _ <;> simp_all [Value.type, Value.isNull, resultType]

end UnaryOp

end ScalarScript
