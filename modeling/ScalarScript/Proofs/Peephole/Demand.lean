import ScalarScript.Proofs.Access.Agreement
import ScalarScript.Proofs.Machine.Proper
import ScalarScript.Proofs.Peephole.Fixpoint
import ScalarScript.Proofs.Peephole.Liveness
import Mathlib.Data.List.Chain
/-!
What code still asks for. A register, or the flags, are in demand at a point where some way on reads
them before they are written. Optimization looks for the same, and where it finds no reader there is
no demand; but it takes every register for read where a function returns, while callers ask for `eax`
only.
-/
namespace ScalarScript

-- What instructions hand on to each other besides memory and operands: the registers and the flags.
inductive Scratch where
  | register (r : Register)
  | flags
  deriving DecidableEq

namespace Scratch

variable {x : Scratch} {i : Instruction}

-- How optimization tracks it.
def effect : Scratch → Instruction → Effect
  | register r => registerEffect (.register r)
  | flags => flagEffect

-- The same, but a function leaves nothing to its caller except a value in `eax`.
def demand (x : Scratch) (i : Instruction) : Effect :=
  if i.opcode = .ret then if x = .register .eax then .read else .kill else x.effect i

theorem effect_of_read (read : x.demand i = .read) : x.effect i = .read := by
  unfold demand at read
  split at read
  · rename_i ret
    cases x <;> simp [effect, registerEffect, flagEffect, ret]
  · exact read

theorem effect_of_pass (pass : x.demand i = .pass) : x.effect i = .pass := by
  unfold demand at pass
  split at pass
  · split at pass <;> cases pass
  · exact pass

theorem effect_label (label : i.opcode = .label) : x.effect i = .pass := by
  cases x <;> simp [effect, registerEffect, flagEffect, Instruction.reads, Instruction.writes,
    Instruction.touches, Instruction.operands, Opcode.operandCount, label]

-- Whether an operand is this register.
def At (x : Scratch) (o : Operand) : Prop :=
  match x with
  | register r => o = .register r
  | flags => False

end Scratch

-- Operations that look at the flags.
def Opcode.asksFlags : Opcode → Bool
  | jumpIf _ | setIf _ => true
  | _ => false

-- Operations that touch what their operands say, and the flags; calls and returns do more.
def Opcode.isOwn : Opcode → Bool
  | call | hostCall | ret => false
  | _ => true

-- Operations that work on the core and go on to the next one.
def Opcode.isWork : Opcode → Bool
  | label | debugLine | call | hostCall | ret | exit | jump | jumpIf _ => false
  | _ => true

theorem Opcode.isOwn_of_isWork {o : Opcode} (work : o.isWork = true) : o.isOwn = true := by
  cases o <;> first | rfl | cases work

theorem Opcode.stays_of_isWork {o : Opcode} (work : o.isWork = true) :
    o ≠ .exit ∧ o ≠ .jump ∧ o.isConditionalJump = false := by
  cases o <;> simp_all [isWork, isConditionalJump]

namespace Instruction

variable {i : Instruction} {x : Scratch} {r : Register}

-- Operations read their first two operands at most.
theorem reads_register_iff : i.reads (.register r) = true ↔
    i.opcode.reads 0 = true ∧ i.first = .register r ∨
      i.opcode.reads 1 = true ∧ i.second = .register r := by
  constructor
  · intro reads
    obtain ⟨p, n, found, uses, is⟩ := touches_eq_true_iff.mp reads
    have few : n = 0 ∨ n = 1 := by
      cases opcode : i.opcode <;> simp [opcode, Opcode.reads] at uses <;> omega
    rcases few with rfl | rfl
    · rw [operands_first (Opcode.reads_lt uses)] at found
      cases found
      exact .inl ⟨uses, same_register_iff.mp is⟩
    · rw [operands_second (Opcode.reads_lt uses)] at found
      cases found
      exact .inr ⟨uses, same_register_iff.mp is⟩
  · rintro (⟨uses, is⟩ | ⟨uses, is⟩)
    · exact reads_of_first uses is
    · exact reads_of_second uses is

-- What an instruction asks for, and what it sets.
def Asks (i : Instruction) (x : Scratch) : Prop :=
  i.opcode.reads 0 = true ∧ x.At i.first ∨ i.opcode.reads 1 = true ∧ x.At i.second ∨
    x = .flags ∧ i.opcode.asksFlags = true

def Sets (i : Instruction) (x : Scratch) : Prop :=
  i.opcode.writes 0 = true ∧ x.At i.first ∨ x = .flags ∧ i.opcode.setsFlags = true

end Instruction

namespace Scratch

variable {x : Scratch} {i : Instruction}

theorem demand_eq_read_iff (own : i.opcode.isOwn = true) : x.demand i = .read ↔ i.Asks x := by
  have other : i.opcode ≠ .ret := by
    intro ret
    simp [ret, Opcode.isOwn] at own
  rw [demand, if_neg other]
  cases x with
  | register r =>
    simp only [Instruction.Asks, At, reduceCtorEq, false_and, or_false,
      ← Instruction.reads_register_iff]
    unfold effect registerEffect
    cases opcode : i.opcode <;> simp [opcode, Opcode.isOwn] at own ⊢ <;> grind
  | flags =>
    simp only [Instruction.Asks, At, and_false, true_and, false_or]
    unfold effect flagEffect
    cases opcode : i.opcode <;> simp [opcode, Opcode.isOwn, Opcode.asksFlags] at own ⊢

theorem demand_eq_kill_iff (own : i.opcode.isOwn = true) :
    x.demand i = .kill ↔ ¬ i.Asks x ∧ i.Sets x := by
  have other : i.opcode ≠ .ret := by
    intro ret
    simp [ret, Opcode.isOwn] at own
  rw [demand, if_neg other]
  cases x with
  | register r =>
    simp only [Instruction.Asks, Instruction.Sets, At, reduceCtorEq, false_and, or_false,
      ← Instruction.reads_register_iff, ← Instruction.writes_register_iff]
    unfold effect registerEffect
    cases opcode : i.opcode <;> simp [opcode, Opcode.isOwn] at own ⊢ <;> grind
  | flags =>
    simp only [Instruction.Asks, Instruction.Sets, At, and_false, true_and, false_or]
    unfold effect flagEffect
    cases opcode : i.opcode <;>
      simp [opcode, Opcode.isOwn, Opcode.asksFlags, Opcode.setsFlags] at own ⊢

theorem demand_ne_kill_iff (own : i.opcode.isOwn = true) :
    x.demand i ≠ .kill ↔ i.Asks x ∨ ¬ i.Sets x := by
  rw [Ne, demand_eq_kill_iff own]
  tauto

@[simp] theorem at_register {r : Register} : x.At (.register r) ↔ x = .register r := by
  cases x <;> simp [At, eq_comm]

theorem at_iff_of_same {o p : Operand} (same : o.same p = true) : x.At o ↔ x.At p := by
  cases x with
  | register r => cases o <;> cases p <;> simp_all [At, Operand.same]
  | flags => rfl

theorem same_of_at {o p : Operand} (is : x.At o) (both : x.At p) : o.same p = true := by
  cases x with
  | register r =>
    cases is
    cases both
    exact Instruction.same_register_iff.mpr rfl
  | flags => exact is.elim

@[simp] theorem not_at_literal (v : Value) : ¬ x.At (.literal v) := by
  cases x <;> simp [At]

@[simp] theorem not_at_ofValue (v : Value) : ¬ x.At (.ofValue v) := by
  cases x <;> cases v <;> simp [At, Operand.ofValue]

end Scratch

-- Something is in demand in front of what remains of some code.
inductive Demanded (code : List Instruction) (x : Scratch) : List Instruction → Prop where
  | here {i : Instruction} {rest : List Instruction} (read : x.demand i = .read) :
      Demanded code x (i :: rest)
  | behind {i : Instruction} {rest : List Instruction} (pass : x.demand i = .pass)
      (stays : i.opcode ≠ .exit ∧ i.opcode ≠ .jump) (later : Demanded code x rest) :
      Demanded code x (i :: rest)
  | label {i : Instruction} {rest target : List Instruction} (pass : x.demand i = .pass)
      (leads : i.opcode = .jump ∨ i.opcode.isConditionalJump = true)
      (found : seek i.target code = some target) (later : Demanded code x target) :
      Demanded code x (i :: rest)

section

variable {code pre rest : List Instruction} {i : Instruction}

-- Where labels are distinct, each of them counts.
theorem Flow.stands_of_split (unique : (labelsOf code).Nodup) (split : code = pre ++ i :: rest)
    (mark : i.opcode = .label) : Flow.Stands code.toArray i.target pre.length := by
  subst split
  rw [labelsOf_append, labelsOf_cons_label mark] at unique
  have once : i.target ∉ labelsOf rest :=
    (List.nodup_cons.mp (List.nodup_append.mp unique).2.1).1
  refine ⟨⟨i, by simp, mark, rfl⟩, ?_⟩
  intro later j behind there label same
  rw [List.getElem?_toArray, List.getElem?_append_right (by omega),
    List.getElem?_cons, if_neg (by omega)] at there
  refine once ?_
  rw [← same, labelsOf, List.mem_map]
  exact ⟨j, List.mem_filter.mpr ⟨List.mem_of_getElem? there, decide_eq_true label⟩, rfl⟩

-- What is in demand is read somewhere, so optimization takes it for live.
theorem Demanded.reaches {x : Scratch} (unique : (labelsOf code).Nodup)
    (demanded : Demanded code x rest) (split : code = pre ++ rest) :
    Flow.Reaches code.toArray x.effect pre.length := by
  induction demanded generalizing pre with
  | @here i rest read =>
    have present : code.toArray[pre.length]? = some i := by simp [split]
    exact ⟨pre.length, .refl, .reads present (Scratch.effect_of_read read)⟩
  | @behind i rest pass stays _ ih =>
    have present : code.toArray[pre.length]? = some i := by simp [split]
    have after := @ih (pre ++ [i]) (by simp [split])
    rw [List.length_append] at after
    exact after.step ⟨⟨i, present, Scratch.effect_of_pass pass⟩, .behind present stays⟩
  | @label i rest target pass leads found _ ih =>
    have present : code.toArray[pre.length]? = some i := by simp [split]
    obtain ⟨before, j, place, mark, same⟩ := seek_eq_some found
    have there : code.toArray[before.length]? = some j := by simp [place]
    have after := @ih (before ++ [j]) (by simp [place])
    rw [List.length_append] at after
    have stands := Flow.stands_of_split unique place mark
    have marked : Flow.Reaches code.toArray x.effect before.length :=
      after.step ⟨⟨j, there, Scratch.effect_label mark⟩, .behind there (by simp [mark])⟩
    exact marked.step ⟨⟨i, present, Scratch.effect_of_pass pass⟩, .label present leads (same ▸ stands)⟩

end

-- What is not live is not in demand.
theorem Demanded.live {code pre rest : List Instruction} {x : Scratch}
    (unique : (labelsOf code).Nodup) (demanded : Demanded code x rest) (split : code = pre ++ rest) :
    (Flow.of code.toArray).live pre.length x.effect = true :=
  (Flow.search_iff (by show _ < 2 * code.toArray.size + 2; omega)).mpr
    (demanded.reaches unique split)

-- Nor is it behind the label of that place.
theorem Demanded.live_label {code target : List Instruction} {x : Scratch} {label : Int} {place : Nat}
    (unique : (labelsOf code).Nodup) (stands : (Flow.of code.toArray).label? label = some place)
    (found : seek label code = some target) (demanded : Demanded code x target) :
    (Flow.of code.toArray).live place x.effect = true := by
  obtain ⟨before, j, split, mark, rfl⟩ := seek_eq_some found
  cases (Flow.label?_eq_some.mpr (Flow.stands_of_split unique split mark)).symm.trans stands
  have there : code.toArray[before.length]? = some j := by simp [split]
  have whole : code = (before ++ [j]) ++ target := by simp [split]
  have after := demanded.reaches unique whole
  rw [List.length_append] at after
  refine (Flow.search_iff (by show _ < 2 * code.toArray.size + 2; omega)).mpr ?_
  exact after.step ⟨⟨j, there, Scratch.effect_label mark⟩, .behind there (by simp [mark])⟩

namespace Demanded

variable {code rest : List Instruction} {i : Instruction} {x : Scratch}

-- In front of an instruction that works on the core it is what that asks for, and what is in demand
-- behind it and not set there.
theorem work_iff (work : i.opcode.isWork = true) :
    Demanded code x (i :: rest) ↔ i.Asks x ∨ ¬ i.Sets x ∧ Demanded code x rest := by
  have own := Opcode.isOwn_of_isWork work
  have stays := Opcode.stays_of_isWork work
  constructor
  · intro demanded
    cases demanded with
    | here read => exact .inl ((Scratch.demand_eq_read_iff own).mp read)
    | behind pass _ later =>
      have alive : x.demand i ≠ .kill := by simp [pass]
      exact ((Scratch.demand_ne_kill_iff own).mp alive).imp_right fun unset => ⟨unset, later⟩
    | label _ leads => simp [stays] at leads
  · intro asked
    cases does : x.demand i with
    | read => exact .here does
    | pass =>
      have unasked : ¬ i.Asks x := by
        rw [← Scratch.demand_eq_read_iff own, does]
        simp
      exact .behind does ⟨stays.1, stays.2.1⟩ (asked.resolve_left unasked).2
    | kill =>
      obtain ⟨unasked, set⟩ := (Scratch.demand_eq_kill_iff own).mp does
      exact absurd set (asked.resolve_left unasked).1

theorem move_iff {a b : Operand} :
    Demanded code x (.move a b :: rest) ↔ x.At b ∨ ¬ x.At a ∧ Demanded code x rest := by
  rw [work_iff rfl]
  simp [Instruction.Asks, Instruction.Sets, Instruction.move, Instruction.binary, Opcode.reads,
    Opcode.writes, Opcode.asksFlags, Opcode.setsFlags]

theorem binary_iff {op : BinaryOp} {a b : Operand} :
    Demanded code x (.binary (.binary op) a b :: rest) ↔
      x.At a ∨ x.At b ∨ ¬ x.At a ∧ Demanded code x rest := by
  rw [work_iff rfl]
  simp [Instruction.Asks, Instruction.Sets, Instruction.binary, Opcode.reads, Opcode.writes,
    Opcode.asksFlags, Opcode.setsFlags, or_assoc]

theorem exit_iff (exit : i.opcode = .exit) : Demanded code x (i :: rest) ↔ x.At i.first := by
  have asks : i.Asks x ↔ x.At i.first := by
    simp [Instruction.Asks, exit, Opcode.reads, Opcode.asksFlags]
  rw [← asks, ← Scratch.demand_eq_read_iff (by rw [exit]; rfl)]
  refine ⟨fun demanded => ?_, .here⟩
  cases demanded with
  | here read => exact read
  | behind _ stays => exact absurd exit stays.1
  | label _ leads => simp [exit, Opcode.isConditionalJump] at leads

theorem jumpIf_iff {condition : Condition} (jumps : i.opcode = .jumpIf condition) :
    Demanded code x (i :: rest) ↔ x = .flags ∨ Demanded code x rest ∨
      ∃ target, seek i.target code = some target ∧ Demanded code x target := by
  have own : i.opcode.isOwn = true := by rw [jumps]; rfl
  have asks : i.Asks x ↔ x = .flags := by
    simp [Instruction.Asks, jumps, Opcode.reads, Opcode.asksFlags]
  have alive : x.demand i ≠ .kill :=
    (Scratch.demand_ne_kill_iff own).mpr <| .inr <| by
      simp [Instruction.Sets, jumps, Opcode.writes, Opcode.setsFlags]
  rw [← asks, ← Scratch.demand_eq_read_iff own]
  constructor
  · intro demanded
    cases demanded with
    | here read => exact .inl read
    | behind _ _ later => exact .inr (.inl later)
    | label _ _ found later => exact .inr (.inr ⟨_, found, later⟩)
  · intro asked
    cases does : x.demand i with
    | read => exact .here does
    | kill => exact absurd does alive
    | pass =>
      rcases asked.resolve_left (by simp [does]) with later | ⟨target, found, later⟩
      · exact .behind does (by simp [jumps]) later
      · exact .label does (.inr (by simp [jumps, Opcode.isConditionalJump])) found later

end Demanded

section

variable {pre window others post : List Instruction}

-- The same point of a program and of another one, where a window between two parts differs. Both
-- may stand in front of the window, or behind it.
inductive Opposite (pre window others post : List Instruction) :
    List Instruction → List Instruction → Prop where
  | before {r : List Instruction} (inside : r <:+ pre) :
      Opposite pre window others post (r ++ (window ++ post)) (r ++ (others ++ post))
  | behind {r : List Instruction} (inside : r <:+ post) : Opposite pre window others post r r

-- Without labels in the windows, a label leads to the same point.
theorem seek_opposite (unlabelled : labelsOf window = []) (unlabelled' : labelsOf others = [])
    {label : Int} {target : List Instruction}
    (found : seek label (pre ++ (window ++ post)) = some target) :
    ∃ target', seek label (pre ++ (others ++ post)) = some target' ∧
      Opposite pre window others post target target' := by
  cases inside : seek label pre with
  | some r =>
    rw [seek_append_of_some inside] at found
    cases found
    obtain ⟨first, j, split, _, _⟩ := seek_eq_some inside
    exact ⟨_, seek_append_of_some inside, .before ⟨first ++ [j], by simp [split]⟩⟩
  | none =>
    rw [seek_eq_none_iff] at inside
    rw [seek_append_of_notMem inside, seek_append_of_notMem (by simp [unlabelled])] at found
    refine ⟨target, ?_, .behind ?_⟩
    · rw [seek_append_of_notMem inside, seek_append_of_notMem (by simp [unlabelled']), found]
    · obtain ⟨first, j, split, _, _⟩ := seek_eq_some found
      exact ⟨first ++ [j], by simp [split]⟩

theorem seek_none_opposite (unlabelled : labelsOf window = []) (unlabelled' : labelsOf others = [])
    {label : Int} (lost : seek label (pre ++ (window ++ post)) = none) :
    seek label (pre ++ (others ++ post)) = none := by
  rw [seek_eq_none_iff] at lost ⊢
  simpa [unlabelled, unlabelled'] using lost

-- Where others in the place of a window demand no more than the window did, nothing more is in
-- demand anywhere.
theorem Demanded.transfer (unlabelled : labelsOf window = []) (unlabelled' : labelsOf others = [])
    {x : Scratch} {l : List Instruction}
    (less : Demanded (pre ++ (window ++ post)) x (others ++ post) →
      Demanded (pre ++ (window ++ post)) x (window ++ post))
    (demanded : Demanded (pre ++ (others ++ post)) x l) :
    (l <:+ others ++ post → Demanded (pre ++ (window ++ post)) x l) ∧
      ∀ r, l = r ++ (others ++ post) → r <:+ pre →
        Demanded (pre ++ (window ++ post)) x (r ++ (window ++ post)) := by
  -- in front of the window it is in demand as soon as it is behind
  have widen {l : List Instruction} (within : l <:+ others ++ post → Demanded (pre ++ (window ++ post)) x l)
      (step : ∀ i r, l = i :: (r ++ (others ++ post)) → i :: r <:+ pre →
        Demanded (pre ++ (window ++ post)) x (i :: (r ++ (window ++ post)))) :
      (l <:+ others ++ post → Demanded (pre ++ (window ++ post)) x l) ∧
        ∀ r, l = r ++ (others ++ post) → r <:+ pre →
          Demanded (pre ++ (window ++ post)) x (r ++ (window ++ post)) := by
    refine ⟨within, fun r same inside => ?_⟩
    cases r with
    | nil => exact less (same ▸ within (same ▸ List.suffix_refl _))
    | cons i r => exact step i r same inside
  induction demanded with
  | here read =>
    refine widen (fun _ => .here read) fun i r same _ => ?_
    cases same
    exact .here read
  | behind pass stays _ ih =>
    refine widen (fun inside => .behind pass stays (ih.1 ((List.suffix_cons _ _).trans inside))) ?_
    rintro i r ⟨rfl, rfl⟩ inside
    exact .behind pass stays (ih.2 r rfl ((List.suffix_cons _ _).trans inside))
  | @label i rest target pass leads found _ ih =>
    obtain ⟨target', found', opposite⟩ := seek_opposite unlabelled' unlabelled found
    have there : Demanded (pre ++ (window ++ post)) x target' := by
      cases opposite with
      | before inside => exact ih.2 _ rfl inside
      | behind inside => exact ih.1 (inside.trans (List.suffix_append _ _))
    refine widen (fun _ => .label pass leads found' there) ?_
    rintro j r ⟨rfl, rfl⟩ _
    exact .label pass leads found' there

theorem Demanded.opposite (unlabelled : labelsOf window = []) (unlabelled' : labelsOf others = [])
    {x : Scratch} {l l' : List Instruction}
    (less : Demanded (pre ++ (window ++ post)) x (others ++ post) →
      Demanded (pre ++ (window ++ post)) x (window ++ post))
    (points : Opposite pre window others post l l')
    (demanded : Demanded (pre ++ (others ++ post)) x l') :
    Demanded (pre ++ (window ++ post)) x l := by
  have transferred := demanded.transfer unlabelled unlabelled' less
  cases points with
  | before inside => exact transferred.2 _ rfl inside
  | behind inside => exact transferred.1 (inside.trans (List.suffix_append _ _))

end

theorem Operand.exists_register {o : Operand} (is : o.isRegister = true) : ∃ r, o = .register r := by
  cases o with
  | register r => exact ⟨r, rfl⟩
  | _ => cases is

namespace Rule

variable {code pre window others post : List Instruction} {rule : Rule} {x : Scratch}

theorem live_eq_false_of_dead {f : Flow} {place : Nat} {o : Operand}
    (dead : f.registerDead place o = true) (is : x.At o) : f.live place x.effect = false := by
  cases x with
  | register r =>
    cases is
    simpa [Flow.registerDead, Scratch.effect] using dead
  | flags => exact is.elim

-- A register that optimization takes for dead behind a window is not in demand there.
theorem not_demanded_of_dead {o : Operand} (unique : (labelsOf code).Nodup)
    (split : code = pre ++ (window ++ post))
    (dead : (Flow.of code.toArray).registerDead (pre.length + window.length) o = true)
    (is : x.At o) : ¬ Demanded code x post := by
  intro demanded
  have whole : code = (pre ++ window) ++ post := by simp [split]
  have live := demanded.live unique whole
  rw [List.length_append, live_eq_false_of_dead dead is] at live
  cases live

-- Nor behind a label.
theorem not_demanded_of_dead_label {o : Operand} {label : Int} {place : Nat}
    {target : List Instruction} (unique : (labelsOf code).Nodup)
    (stands : (Flow.of code.toArray).label? label = some place)
    (dead : (Flow.of code.toArray).registerDead place o = true)
    (found : seek label code = some target) (is : x.At o) : ¬ Demanded code x target := by
  intro demanded
  have live := demanded.live_label unique stands found
  rw [live_eq_false_of_dead dead is] at live
  cases live

section

variable {i : Instruction} {old new : Operand}

theorem opcode_substitute : (substitute i old new).opcode = i.opcode := rfl

theorem first_substitute : (substitute i old new).first =
    if i.opcode.reads 0 = true ∧ i.first.same old = true then new else i.first := by
  have lt (reads : i.opcode.reads 0 = true) : 0 < i.opcode.operandCount := Opcode.reads_lt reads
  grind [substitute]

theorem second_substitute : (substitute i old new).second =
    if i.opcode.reads 1 = true ∧ i.second.same old = true then new else i.second := by
  have lt (reads : i.opcode.reads 1 = true) : 1 < i.opcode.operandCount := Opcode.reads_lt reads
  grind [substitute]

-- Where the operand is not written, the target stays.
theorem first_substitute_of_writes {r : Register} (keeps : i.writes (.register r) = false)
    (writes : i.opcode.writes 0 = true) : (substitute i (.register r) new).first = i.first := by
  rw [first_substitute, if_neg]
  rintro ⟨_, same⟩
  rw [Instruction.same_register_iff] at same
  rw [Instruction.writes_register_iff.mpr ⟨writes, same⟩] at keeps
  cases keeps

-- The register is no longer asked for, but its source is.
theorem asks_substitute {r : Register} (asked : (substitute i (.register r) new).Asks x) :
    x.At new ∨ i.Asks x ∧ x ≠ .register r := by
  have kept {o : Operand} (other : ¬ o.same (.register r) = true) (is : x.At o) :
      x ≠ .register r := by
    rintro rfl
    exact other (Instruction.same_register_iff.mpr is)
  rcases asked with ⟨reads, is⟩ | ⟨reads, is⟩ | ⟨rfl, asks⟩
  · change i.opcode.reads 0 = true at reads
    rw [first_substitute] at is
    split at is
    · exact .inl is
    · rename_i other
      exact .inr ⟨.inl ⟨reads, is⟩, kept (fun same => other ⟨reads, same⟩) is⟩
  · change i.opcode.reads 1 = true at reads
    rw [second_substitute] at is
    split at is
    · exact .inl is
    · rename_i other
      exact .inr ⟨.inr (.inl ⟨reads, is⟩), kept (fun same => other ⟨reads, same⟩) is⟩
  · exact .inr ⟨.inr (.inr ⟨rfl, asks⟩), by simp⟩

theorem sets_substitute {r : Register} (keeps : i.writes (.register r) = false) :
    (substitute i (.register r) new).Sets x ↔ i.Sets x := by
  have same : (substitute i (.register r) new).opcode = i.opcode := rfl
  simp only [Instruction.Sets, same]
  refine or_congr (and_congr_right fun writes => ?_) Iff.rfl
  rw [first_substitute_of_writes keeps writes]

-- An instruction that reads a register works on the core, unless it exits.
theorem isWork_of_reads {r : Register} (reads : i.reads (.register r) = true) :
    i.opcode = .exit ∨ i.opcode.isWork = true := by
  rw [Instruction.reads_register_iff] at reads
  cases opcode : i.opcode <;> simp [opcode, Opcode.reads, Opcode.isWork] at reads ⊢

end

section

attribute [local simp] Instruction.Asks Instruction.Sets Opcode.reads Opcode.writes Opcode.asksFlags
  Opcode.setsFlags Opcode.isWork Demanded.work_iff Demanded.move_iff Demanded.binary_iff

-- What is put in the place of a window demands no more than the window.
theorem Applies.demanded (unique : (labelsOf code).Nodup) (split : code = pre ++ (window ++ post))
    (applies : rule.Applies (.of code.toArray) pre.length window others)
    (demanded : Demanded code x (others ++ post)) : Demanded code x (window ++ post) := by
  cases applies with
  | selfMove move same _ =>
    simp [move, Scratch.at_iff_of_same same] at demanded ⊢
    tauto
  | deadStore move _ dead =>
    have gone := not_demanded_of_dead (x := x) unique split dead
    simp [move] at demanded ⊢
    tauto
  | @pushPop push pop pushes pops =>
    simp [pushes, pops] at demanded ⊢
    tauto
  | pushMovePop pushes moves pops unread unwritten =>
    simp [pushes, pops, moves] at demanded ⊢
    tauto
  | foldUnary moves constant computes register same known =>
    simp [moves, constant, computes] at demanded ⊢
    tauto
  | foldBinary loads computes stores _ _ other target back result dead =>
    have gone := not_demanded_of_dead (x := x) unique split dead
    have apart (is : x.At _) (both : x.At _) : False :=
      Bool.noConfusion (other.symm.trans (Scratch.same_of_at is both))
    simp [loads, computes, stores, Scratch.at_iff_of_same target, Scratch.at_iff_of_same back,
      Scratch.at_iff_of_same result] at demanded ⊢
    tauto
  | @propagate move next moves register reads keeps dead =>
    have gone := not_demanded_of_dead (x := x) unique split dead
    obtain ⟨r, is⟩ := Operand.exists_register register
    rw [is] at demanded gone reads keeps
    -- the instruction asks for what the other one asks for, the register apart
    have asked (asks : (substitute next (.register r) move.second).Asks x) :
        x.At move.second ∨ x ≠ .register r ∧ Demanded code x (next :: post) := by
      refine (asks_substitute asks).imp_right fun both => ⟨both.2, .here ?_⟩
      refine (Scratch.demand_eq_read_iff ?_).mpr both.1
      rcases isWork_of_reads reads with exit | work
      · rw [exit]
        rfl
      · exact Opcode.isOwn_of_isWork work
    have source : x.At move.second ∨ x ≠ .register r ∧ Demanded code x (next :: post) := by
      rcases isWork_of_reads reads with exit | work
      · rw [← @opcode_substitute next (.register r) move.second] at exit
        exact asked (.inl ⟨by rw [exit]; rfl, (Demanded.exit_iff exit).mp demanded⟩)
      · rw [← @opcode_substitute next (.register r) move.second] at work
        rcases (Demanded.work_iff work).mp demanded with asks | ⟨unset, later⟩
        · exact asked asks
        · rw [sets_substitute keeps] at unset
          refine .inr ⟨fun same => gone (by simp [same]) later, ?_⟩
          exact (Demanded.work_iff (i := next) work).mpr (.inr ⟨unset, later⟩)
    simpa [moves, is] using source
  | @fuseBranch set test jump _ place sets tests register same fused stands dead deadThere =>
    have gone := not_demanded_of_dead (x := x) unique split dead
    obtain ⟨⟨c, jumps⟩, d, rfl⟩ := fusedJump?_eq_some fused
    obtain ⟨e, opcode⟩ : ∃ e, set.opcode = .setIf e := by
      cases opcode : set.opcode <;> simp [opcode, Opcode.isSet] at sets ⊢
    have goneThere (is : x.At set.first) {there : List Instruction}
        (found : seek jump.target code = some there) : ¬ Demanded code x there :=
      not_demanded_of_dead_label unique stands deadThere found is
    rw [List.cons_append, Demanded.jumpIf_iff rfl] at demanded
    simp [opcode, tests, Demanded.jumpIf_iff jumps, Scratch.at_iff_of_same same] at demanded ⊢
    grind [Instruction.branch]

end

end Rule

-- Operands that programs are made of: registers that there are, and constants that are finite.
def Operand.Sound : Operand → Prop
  | .register r => r.index < Register.count
  | .literal v => v.Proper
  | _ => True

structure Instruction.Sound (i : Instruction) : Prop where
  first : i.first.Sound
  second : i.second.Sound

-- An argument that is taken into the slot of its parameter.
def Instruction.Receives (i : Instruction) : Prop :=
  i.opcode = .pop ∧ i.first.isRegister = false

-- Arguments are taken where the parameters were allocated, one after the other.
def Instruction.Greets (i j : Instruction) : Prop :=
  j.Receives → (∃ type, i.opcode = .allocate type) ∨ i.Receives

-- What optimization relies on without a look at it. Between callers and functions no register and no
-- flags are handed over, apart from the result in `eax`.
structure Disciplined (code : List Instruction) : Prop where
  unique : (labelsOf code).Nodup
  entries : ∀ i rest target x, i :: rest <:+ code → i.opcode = .call →
    seek i.target code = some target → ¬ Demanded code x target
  returns : ∀ i rest x, i :: rest <:+ code → i.opcode = .call → Demanded code x rest →
    x = .register .eax
  sound : ∀ i ∈ code, i.Sound
  greeted : code.IsChain Instruction.Greets

theorem Operand.sound_ofValue (v : Value) : (Operand.ofValue v).Sound := by
  cases v with
  | double x => exact Value.proper_number _
  | _ => trivial

namespace Instruction

-- Behind an instruction that takes no argument and allocates nothing, none is received.
theorem Greets.not_receives {i j : Instruction} (greets : i.Greets j)
    (other : ∀ type, i.opcode ≠ .allocate type) (taken : ¬ i.Receives) : ¬ j.Receives := by
  intro receives
  rcases greets receives with ⟨type, is⟩ | too
  · exact other type is
  · exact taken too

-- What reads an operand takes no argument, allocates nothing and calls nobody.
theorem opcode_of_reads {i : Instruction} {o : Operand} (reads : i.reads o = true) :
    i.opcode ≠ .pop ∧ i.opcode ≠ .call ∧ ∀ type, i.opcode ≠ .allocate type := by
  obtain ⟨_, n, _, uses, _⟩ := touches_eq_true_iff.mp reads
  cases opcode : i.opcode <;> simp [opcode, Opcode.reads] at uses ⊢

theorem not_receives_of_opcode {i : Instruction} (other : i.opcode ≠ .pop) : ¬ i.Receives :=
  fun receives => other receives.1

end Instruction

namespace Rule

variable {f : Flow} {place : Nat} {rule : Rule} {pre window others post : List Instruction}

theorem not_receives_behind {w : List Instruction} {z : Instruction}
    (greeted : (w ++ z :: post).IsChain Instruction.Greets)
    (other : ∀ type, z.opcode ≠ .allocate type) (taken : ¬ z.Receives) :
    ∀ j ∈ post.head?, ¬ j.Receives := by
  intro j first
  obtain ⟨rest, rfl⟩ := List.head?_eq_some_iff.mp first
  have chain := (List.isChain_append.mp greeted).2.1
  exact (List.isChain_cons_cons.mp chain).1.not_receives other taken

-- Nothing is received behind a window, nor in it.
theorem Applies.not_receives (applies : rule.Applies f place window others)
    (greeted : (window ++ post).IsChain Instruction.Greets) :
    ∀ j ∈ post.head?, ¬ j.Receives := by
  have behind {w : List Instruction} {z : Instruction} (whole : window = w ++ [z])
      (other : ∀ type, z.opcode ≠ .allocate type) (taken : ¬ z.Receives) :
      ∀ j ∈ post.head?, ¬ j.Receives := by
    rw [whole, List.append_assoc] at greeted
    exact not_receives_behind greeted other taken
  cases applies with
  | selfMove move | deadStore move =>
    exact @behind [] _ rfl (by simp [move]) (Instruction.not_receives_of_opcode (by simp [move]))
  | @pushPop push pop pushes pops =>
    have popped := (List.isChain_cons_cons.mp greeted).1.not_receives (by simp [pushes])
      (Instruction.not_receives_of_opcode (by simp [pushes]))
    exact @behind [push] _ rfl (by simp [pops]) popped
  | @pushMovePop push move pop pushes moves pops =>
    have later := (List.isChain_cons_cons.mp greeted).2
    have popped := (List.isChain_cons_cons.mp later).1.not_receives (by simp [moves])
      (Instruction.not_receives_of_opcode (by simp [moves]))
    exact @behind [push, move] _ rfl (by simp [pops]) popped
  | @foldUnary move next _ _ _ _ _ computes =>
    exact @behind [move] _ rfl (by simp [computes])
      (Instruction.not_receives_of_opcode (by simp [computes]))
  | @foldBinary load compute store _ _ _ stores =>
    exact @behind [load, compute] _ rfl (by simp [stores])
      (Instruction.not_receives_of_opcode (by simp [stores]))
  | @propagate move next _ _ reads =>
    obtain ⟨pops, _, other⟩ := Instruction.opcode_of_reads reads
    exact @behind [move] _ rfl other (Instruction.not_receives_of_opcode pops)
  | @fuseBranch set test jump _ _ _ _ _ _ fused =>
    obtain ⟨⟨condition, jumps⟩, _⟩ := fusedJump?_eq_some fused
    exact @behind [set, test] _ rfl (by simp [jumps])
      (Instruction.not_receives_of_opcode (by simp [jumps]))

theorem Applies.others_plain (applies : rule.Applies f place window others) :
    ∀ j ∈ others, j.opcode ≠ .pop ∧ j.opcode ≠ .call := by
  cases applies with
  | selfMove | deadStore => simp
  | pushPop | pushMovePop | foldUnary | foldBinary =>
    simp [Instruction.move, Instruction.binary]
  | propagate _ _ reads =>
    obtain ⟨pops, calls, _⟩ := Instruction.opcode_of_reads reads
    simpa [opcode_substitute] using ⟨pops, calls⟩
  | fuseBranch _ _ _ _ fused =>
    obtain ⟨_, condition, rfl⟩ := fusedJump?_eq_some fused
    simp [Instruction.branch]

theorem Applies.sound (applies : rule.Applies f place window others)
    (sound : ∀ i ∈ window, i.Sound) : ∀ i ∈ others, i.Sound := by
  have moves {a b : Operand} (target : a.Sound) (source : b.Sound) : (Instruction.move a b).Sound :=
    ⟨target, source⟩
  cases applies with
  | selfMove | deadStore => simp
  | pushPop => simpa using moves (sound _ (by simp)).first (sound _ (by simp)).first
  | pushMovePop =>
    obtain ⟨push, move, pop, -⟩ := by simpa only [List.forall_mem_cons] using sound
    simpa using ⟨moves pop.first push.first, moves move.first move.second⟩
  | foldUnary =>
    obtain ⟨move, next, -⟩ := by simpa only [List.forall_mem_cons] using sound
    simpa using moves move.first (Operand.sound_ofValue _)
  | foldBinary =>
    obtain ⟨load, compute, store, -⟩ := by simpa only [List.forall_mem_cons] using sound
    simpa using (⟨load.second, compute.second⟩ : Instruction.Sound (.binary _ _ _))
  | propagate =>
    obtain ⟨move, next, -⟩ := by simpa only [List.forall_mem_cons] using sound
    refine List.forall_mem_singleton.mpr ⟨?_, ?_⟩
    · rw [first_substitute]
      split
      · exact move.second
      · exact next.first
    · rw [second_substitute]
      split
      · exact move.second
      · exact next.second
  | fuseBranch => exact List.forall_mem_singleton.mpr ⟨trivial, trivial⟩

end Rule

theorem suffix_append_cases {α : Type} {l a b : List α} (inside : l <:+ a ++ b) :
    l <:+ b ∨ ∃ r, r ≠ [] ∧ r <:+ a ∧ l = r ++ b := by
  obtain ⟨t, whole⟩ := inside
  rcases List.append_eq_append_iff.mp whole with ⟨r, first, second⟩ | ⟨r, first, second⟩
  · by_cases none : r = []
    · subst none
      exact .inl ⟨[], by simpa using second⟩
    · exact .inr ⟨r, none, ⟨t, first.symm⟩, second⟩
  · exact .inl ⟨r, second.symm⟩

section

variable {rule : Rule} {pre window others post : List Instruction}

-- A call that stands in the one program stands in the other, with the same point behind it.
theorem Opposite.of_suffix {i : Instruction} {rest : List Instruction}
    (inside : i :: rest <:+ pre ++ (others ++ post)) (outside : i ∉ others) :
    ∃ rest', i :: rest' <:+ pre ++ (window ++ post) ∧ Opposite pre window others post rest' rest := by
  rcases suffix_append_cases inside with behind | ⟨r, some, before, whole⟩
  · rcases suffix_append_cases behind with later | ⟨r, some, within, whole⟩
    · refine ⟨rest, later.trans ?_, .behind ((List.suffix_cons _ _).trans later)⟩
      exact (List.suffix_append _ _).trans (List.suffix_append _ _)
    · cases r with
      | nil => exact absurd rfl some
      | cons j r =>
        cases whole
        exact absurd (within.subset List.mem_cons_self) outside
  · cases r with
    | nil => exact absurd rfl some
    | cons j r =>
      cases whole
      refine ⟨r ++ (window ++ post), ?_, .before ((List.suffix_cons _ _).trans before)⟩
      obtain ⟨t, rfl⟩ := before
      exact ⟨t, by simp⟩

theorem Opposite.symm {l l' : List Instruction} (points : Opposite pre others window post l' l) :
    Opposite pre window others post l l' := by
  cases points with
  | before inside => exact .before inside
  | behind inside => exact .behind inside

-- Optimization keeps to it.
theorem Disciplined.rewrite (disciplined : Disciplined (pre ++ (window ++ post)))
    (applies : rule.Applies (.of (pre ++ (window ++ post)).toArray) pre.length window others) :
    Disciplined (pre ++ (others ++ post)) := by
  have unlabelled : labelsOf window = [] := Peephole.Rule.labelsOf_eq_nil applies.plainWindow
  have unlabelled' : labelsOf others = [] := Peephole.Rule.labelsOf_eq_nil applies.plain
  have less {x : Scratch} : Demanded _ x (others ++ post) → Demanded _ x (window ++ post) :=
    applies.demanded disciplined.unique rfl
  have outside {i : Instruction} (call : i.opcode = .call) : i ∉ others :=
    fun member => (applies.others_plain i member).2 call
  refine ⟨?_, ?_, ?_, ?_, ?_⟩
  · have unique := disciplined.unique
    simpa [unlabelled, unlabelled'] using unique
  · intro i rest target x here call found demanded
    obtain ⟨rest', here', -⟩ := Opposite.of_suffix here (outside call)
    obtain ⟨target', found', points⟩ := seek_opposite unlabelled' unlabelled found
    exact disciplined.entries i rest' target' x here' call found'
      (demanded.opposite unlabelled unlabelled' less points.symm)
  · intro i rest x here call demanded
    obtain ⟨rest', here', points⟩ := Opposite.of_suffix here (outside call)
    exact disciplined.returns i rest' x here' call
      (demanded.opposite unlabelled unlabelled' less points)
  · have sound := disciplined.sound
    simp only [List.forall_mem_append] at sound ⊢
    exact ⟨sound.1, applies.sound sound.2.1, sound.2.2⟩
  · have greeted := disciplined.greeted
    rw [List.isChain_append] at greeted
    obtain ⟨before, later, _⟩ := greeted
    have behind := applies.not_receives later
    have inside (j : Instruction) (member : j ∈ others) : ¬ j.Receives :=
      Instruction.not_receives_of_opcode (applies.others_plain j member).1
    have plain (j : Instruction) (first : j ∈ (others ++ post).head?) : ¬ j.Receives := by
      rw [List.head?_append] at first
      cases front : others.head? with
      | none => exact behind j (by simpa [front] using first)
      | some i =>
        obtain rfl : i = j := by simpa [front] using first
        exact inside i (List.mem_of_mem_head? front)
    refine List.isChain_append.mpr ⟨before, List.isChain_append.mpr ⟨?_, ?_, ?_⟩, ?_⟩
    · refine (List.pairwise_of_forall_mem_list fun i _ j member receives => ?_).isChain
      exact absurd receives (inside j member)
    · exact (List.isChain_append.mp later).2.1
    · intro i _ j first receives
      exact absurd receives (behind j first)
    · intro i _ j first receives
      exact absurd receives (plain j first)

end

end ScalarScript
