import ScalarScript.Proofs.Peephole.Window
import ScalarScript.Proofs.Symbolic.Machine
/-!
One rewriting of a program, run symbolically. Outside of the window both programs take the same moves,
on cores that agree in what the rewritten one still asks for; at the window the one goes through what
was there and the other through what is put there, and they meet behind it.
-/
namespace ScalarScript

variable {World : Type}

namespace Core

variable {c d : Core World} {code rest : List Instruction} {i : Instruction}

-- Cores that agree in all that some code still asks for.
abbrev AgreesAt (code rest : List Instruction) : Core World → Core World → Prop :=
  Agrees (fun r => Demanded code (.register r) rest) (Demanded code .flags rest)

abbrev AlikeAt (code rest : List Instruction) :
    Except (RuntimeFault × Core World) (Core World) →
    Except (RuntimeFault × Core World) (Core World) → Prop :=
  Alike (fun r => Demanded code (.register r) rest) (Demanded code .flags rest)

theorem Agrees.at_of_demanded {after : List Instruction} (agrees : AgreesAt code rest c d)
    (more : ∀ x, Demanded code x after → Demanded code x rest) : AgreesAt code after c d :=
  agrees.mono (fun _ => more _) (more _)

-- What is demanded behind an instruction was demanded in front of it, or is set by it.
theorem Agrees.effect_at (work : i.opcode.isWork = true) (agrees : AgreesAt code (i :: rest) c d) :
    Paired (AgreesAt code rest) (c.effect i) (d.effect i) := by
  have asked (x : Scratch) : i.Asks x → Demanded code x (i :: rest) :=
    fun asks => (Demanded.work_iff work).mpr (.inl asks)
  have reads (r : Register) (uses : i.reads (.register r) = true) :
      Demanded code (.register r) (i :: rest) :=
    asked _ ((Instruction.reads_register_iff.mp uses).imp_right .inl)
  have sets (is : i.opcode.isSet = true) : Demanded code .flags (i :: rest) := by
    refine asked _ (.inr (.inr ⟨rfl, ?_⟩))
    cases opcode : i.opcode <;> simp [opcode, Opcode.isSet, Opcode.asksFlags] at is ⊢
  refine (agrees.effect (agrees.supplied reads) sets).mono fun e e' both => ?_
  have before (x : Scratch) (later : Demanded code x rest) :
      Demanded code x (i :: rest) ∨ i.Sets x := by
    by_cases set : i.Sets x
    · exact .inr set
    · exact .inl ((Demanded.work_iff work).mpr (.inr ⟨set, later⟩))
  refine both.mono (fun r later => (before _ later).imp_right ?_) fun later =>
    (before _ later).imp_right ?_
  · rintro (⟨writes, is⟩ | ⟨same, _⟩)
    · exact Instruction.writes_register_iff.mpr ⟨writes, is⟩
    · cases same
  · rintro (⟨_, is⟩ | ⟨_, sets⟩)
    · exact is.elim
    · exact sets

-- Along a stretch of work, agreement in what it and the code behind it ask for is enough.
theorem Agrees.through {w : List Instruction} (work : ∀ i ∈ w, i.opcode.isWork = true)
    (agrees : AgreesAt code (w ++ rest) c d) : AlikeAt code rest (c.through w) (d.through w) := by
  induction w generalizing c d with
  | nil => exact .ok agrees
  | cons i w ih =>
    rw [List.forall_mem_cons] at work
    have both := agrees.effect_at work.1
    cases first : c.effect i with
    | ok e =>
      rw [first] at both
      cases second : d.effect i with
      | ok e' =>
        rw [second] at both
        obtain ⟨related⟩ := both
        rw [through_cons_of_ok first, through_cons_of_ok second]
        exact ih work.2 related
      | error f =>
        rw [second] at both
        cases both
    | error f =>
      rw [first] at both
      cases second : d.effect i with
      | ok e' =>
        rw [second] at both
        cases both
      | error f' =>
        rw [second] at both
        cases both
        rw [through_cons_of_error first, through_cons_of_error second]
        exact .error agrees.cells agrees.world

end Core

namespace Demanded

variable {code rest target : List Instruction} {i : Instruction} {x : Scratch}

attribute [local simp] Scratch.demand Scratch.effect registerEffect flagEffect Instruction.reads
  Instruction.writes Instruction.touches Instruction.operands Opcode.operandCount

theorem of_mark (mark : i.opcode.isMark = true) (later : Demanded code x rest) :
    Demanded code x (i :: rest) := by
  refine .behind ?_ ?_ later
  · cases opcode : i.opcode <;> simp [opcode, Opcode.isMark] at mark
    all_goals cases x <;> simp [opcode]
  · cases opcode : i.opcode <;> simp [opcode, Opcode.isMark] at mark ⊢

theorem of_jump (jump : i.opcode = .jump) (found : seek i.target code = some target)
    (later : Demanded code x target) : Demanded code x (i :: rest) := by
  refine .label ?_ (.inl jump) found later
  cases x <;> simp [jump]

-- The host hands over its value in `eax`, and leaves the rest alone.
theorem of_hostCall (call : i.opcode = .hostCall) (other : x ≠ .register .eax)
    (later : Demanded code x rest) : Demanded code x (i :: rest) := by
  refine .behind ?_ (by simp [call]) later
  cases x with
  | register r =>
    have apart : r ≠ .eax := fun same => other (by rw [same])
    simp [call, Operand.same, apart]
  | flags => simp [call]

theorem of_ret (ret : i.opcode = .ret) : Demanded code (.register .eax) (i :: rest) :=
  .here (by simp [ret])

end Demanded

theorem Opposite.suffix {pre window others post l l' : List Instruction}
    (points : Opposite pre window others post l l') : l' <:+ pre ++ (others ++ post) := by
  cases points with
  | before inside =>
    obtain ⟨t, rfl⟩ := inside
    exact ⟨t, by simp⟩
  | behind inside =>
    exact inside.trans ((List.suffix_append _ _).trans (List.suffix_append _ _))

namespace Symbolic

variable {env : Environment World} {code rest : List Instruction} {k l : Config World}
  {i : Instruction} {c d : Core World} {returns : List (List Instruction)}

theorem deed_of_work (externals : Array (External World)) (c : Core World)
    (work : i.opcode.isWork = true) : deed externals i c =
      match c.effect i with
      | .ok after => .proceed after []
      | .error fault => .stop (.error fault) c [] := by
  cases opcode : i.opcode <;> simp only [deed, opcode] <;> first | rfl | simp [opcode, Opcode.isWork] at work

theorem move_of_work (work : i.opcode.isWork = true) : move env code ⟨i :: rest, returns, c⟩ =
      match c.effect i with
      | .ok after => .next ⟨rest, returns, after⟩ []
      | .error fault => .stop (.error fault) c [] := by
  simp only [move, deed_of_work _ _ work]
  cases c.effect i <;> rfl

-- A stretch of work that succeeds is gone through move by move.
theorem Steps.through {w : List Instruction} (work : ∀ i ∈ w, i.opcode.isWork = true)
    (done : c.through w = .ok d) : Steps env code ⟨w ++ rest, returns, c⟩ [] ⟨rest, returns, d⟩ := by
  induction w generalizing c with
  | nil =>
    cases done
    exact .refl
  | cons i w ih =>
    rw [List.forall_mem_cons] at work
    cases first : c.effect i with
    | error f =>
      rw [Core.through_cons_of_error first] at done
      cases done
    | ok e =>
      rw [Core.through_cons_of_ok first] at done
      have moved : move env code ⟨i :: (w ++ rest), returns, c⟩ = .next ⟨w ++ rest, returns, e⟩ [] := by
        rw [move_of_work work.1, first]
      exact .head moved (ih work.2 done)

-- One that fails ends the run where it fails.
theorem Steps.through_error {w : List Instruction} {f : RuntimeFault}
    (work : ∀ i ∈ w, i.opcode.isWork = true) (failed : c.through w = .error (f, d)) :
    ∃ l, Steps env code ⟨w ++ rest, returns, c⟩ [] l ∧ move env code l = .stop (.error f) d [] := by
  induction w generalizing c with
  | nil => cases failed
  | cons i w ih =>
    rw [List.forall_mem_cons] at work
    cases first : c.effect i with
    | error f' =>
      rw [Core.through_cons_of_error first] at failed
      cases failed
      exact ⟨_, .refl, by rw [List.cons_append, move_of_work work.1, first]⟩
    | ok e =>
      rw [Core.through_cons_of_ok first] at failed
      have moved : move env code ⟨i :: (w ++ rest), returns, c⟩ = .next ⟨w ++ rest, returns, e⟩ [] := by
        rw [move_of_work work.1, first]
      obtain ⟨l, path, stopped⟩ := ih work.2 failed
      exact ⟨l, .head moved path, stopped⟩

-- A run that goes on after at least one move takes fewer of them from there.
theorem Ends.of_move {calls made : List HostCall} {n : Nat} {outcome : Except RuntimeFault Value}
    {core : Core World} {q : Config World} (ends : Ends env code n k calls outcome core)
    (moved : move env code k = .next l made) (path : Steps env code l [] q) :
    ∃ m more, m < n ∧ calls = made ++ more ∧ Ends env code m q more outcome core := by
  obtain ⟨n, more, rfl, rfl, later⟩ := ends.of_next moved
  obtain ⟨m, fewer, last⟩ := later.of_silent path
  exact ⟨m, more, Nat.lt_succ_of_le fewer, rfl, last⟩

theorem Ends.of_through {w : List Instruction} {calls : List HostCall} {n : Nat}
    {outcome : Except RuntimeFault Value} {core : Core World}
    (work : ∀ i ∈ w, i.opcode.isWork = true) (some : w ≠ []) (done : c.through w = .ok d)
    (ends : Ends env code n ⟨w ++ rest, returns, c⟩ calls outcome core) :
    ∃ m < n, Ends env code m ⟨rest, returns, d⟩ calls outcome core := by
  cases w with
  | nil => exact absurd rfl some
  | cons i w =>
    rw [List.forall_mem_cons] at work
    cases first : c.effect i with
    | error f =>
      rw [Core.through_cons_of_error first] at done
      cases done
    | ok e =>
      rw [Core.through_cons_of_ok first] at done
      have moved : move env code ⟨i :: (w ++ rest), returns, c⟩ = .next ⟨w ++ rest, returns, e⟩ [] := by
        rw [move_of_work work.1, first]
      obtain ⟨m, more, fewer, rfl, last⟩ := ends.of_move moved (.through work.2 done)
      exact ⟨m, fewer, last⟩

theorem Ends.of_through_error {w : List Instruction} {f : RuntimeFault} {calls : List HostCall}
    {n : Nat} {outcome : Except RuntimeFault Value} {core : Core World}
    (work : ∀ i ∈ w, i.opcode.isWork = true) (failed : c.through w = .error (f, d))
    (ends : Ends env code n ⟨w ++ rest, returns, c⟩ calls outcome core) :
    calls = [] ∧ outcome = .error f ∧ core = d := by
  obtain ⟨l, path, stopped⟩ := Steps.through_error work failed
  obtain ⟨_, _, last⟩ := ends.of_silent path
  exact last.of_stop stopped

-- Two runs at the same point. The first program has the window, the second what is put there; the
-- cores agree in what the second program still asks for, here and behind every call.
structure Related (pre window others post : List Instruction) (k k' : Config World) : Prop where
  points : Opposite pre window others post k.rest k'.rest
  returns : List.Forall₂ (fun l l' => Opposite pre window others post l l' ∧
    ∀ x, Demanded (pre ++ (others ++ post)) x l' → x = .register .eax) k.returns k'.returns
  agrees : Core.AgreesAt (pre ++ (others ++ post)) k'.rest k.core k'.core
  scripted : Scripted k.core.scopes

-- Moves that lead to related points, or end both runs alike.
inductive Tally (R : Config World → Config World → Prop) : Move World → Move World → Prop where
  | next {l l' : Config World} {made : List HostCall} (related : R l l') :
      Tally R (.next l made) (.next l' made)
  | stop {outcome : Except RuntimeFault Value} {c c' : Core World} {made : List HostCall}
      (cells : c'.cells = c.cells) (world : c'.world = c.world) :
      Tally R (.stop outcome c made) (.stop outcome c' made)

section

variable {pre window others post r r' : List Instruction} {k k' : Config World}

-- A jump to a label where the second program asks for no more than the cores agree in.
theorem Related.goto (unlabelled : labelsOf window = []) (unlabelled' : labelsOf others = [])
    {returns returns' : List (List Instruction)} {c c' : Core World} {label : Int}
    (back : List.Forall₂ (fun l l' => Opposite pre window others post l l' ∧
      ∀ x, Demanded (pre ++ (others ++ post)) x l' → x = .register .eax) returns returns')
    (scripted : Scripted c.scopes)
    (agrees : ∀ target, seek label (pre ++ (others ++ post)) = some target →
      Core.AgreesAt (pre ++ (others ++ post)) target c c')
    (cells : c'.cells = c.cells) (world : c'.world = c.world) :
    Tally (Related pre window others post)
      (Config.goto ⟨r, returns, c⟩ (pre ++ (window ++ post)) label)
      (Config.goto ⟨r', returns', c'⟩ (pre ++ (others ++ post)) label) := by
  unfold Config.goto
  cases found : seek label (pre ++ (window ++ post)) with
  | none =>
    rw [seek_none_opposite unlabelled unlabelled' found]
    exact .stop cells world
  | some target =>
    obtain ⟨target', found', points⟩ := seek_opposite unlabelled unlabelled' found
    rw [found']
    exact .next ⟨points, back, agrees target' found', scripted⟩

-- The host is asked the same, and answers the same.
theorem hostDeed_agrees (externals : Array (External World)) (slot : Int)
    {code rest : List Instruction} {i : Instruction} {c c' : Core World}
    (call : i.opcode = .hostCall)
    (agrees : Core.AgreesAt code (i :: rest) c c') :
    (∃ d d' made, hostDeed externals slot c = .proceed d made ∧
      hostDeed externals slot c' = .proceed d' made ∧ d.scopes = c.scopes ∧
      Core.AgreesAt code rest d d') ∨
    ∃ outcome d d' made, hostDeed externals slot c = .stop outcome d made ∧
      hostDeed externals slot c' = .stop outcome d' made ∧ d'.cells = d.cells ∧
      d'.world = d.world := by
  unfold hostDeed
  cases External.function? externals slot with
  | none => exact .inr ⟨_, _, _, _, rfl, rfl, agrees.cells, agrees.world⟩
  | some pair =>
    obtain ⟨ext, f⟩ := pair
    have asked : c'.request ext.arity.toNat = c.request ext.arity.toNat := by
      simp only [Core.request, agrees.stack, agrees.cells]
    simp only [agrees.stack, agrees.world, asked]
    split
    · exact .inr ⟨_, _, _, _, rfl, rfl, agrees.cells, agrees.world⟩
    · generalize f c.world (c.request ext.arity.toNat) = reply
      cases (ext.answer reply).bind ext.checkResult with
      | error fault =>
        exact .inr ⟨_, _, _, _, rfl, rfl, by simp only [Core.answered, agrees.cells], rfl⟩
      | ok v =>
        refine .inl ⟨_, _, _, rfl, rfl, rfl, ?_⟩
        refine ⟨fun s later => ?_, fun later => ?_, ?_, ?_, ?_, rfl⟩
        · refine Core.get?_set_congr fun other => ?_
          refine agrees.registers s (.of_hostCall call (fun same => other ?_) later)
          cases same
          rfl
        · exact agrees.flags (.of_hostCall call (by simp) later)
        · simp only [Core.setRegister, Core.answered, agrees.stack]
        · simp only [Core.setRegister, Core.answered, agrees.scopes]
        · simp only [Core.setRegister, Core.answered, agrees.cells]

-- Outside of the window both programs take the same move.
theorem Related.move (disciplined : Disciplined (pre ++ (others ++ post)))
    (unlabelled : labelsOf window = []) (unlabelled' : labelsOf others = [])
    (related : Related pre window others post k k') (first : k.rest = i :: r)
    (first' : k'.rest = i :: r') (behind : Opposite pre window others post r r') :
    Tally (Related pre window others post) (move env (pre ++ (window ++ post)) k)
      (move env (pre ++ (others ++ post)) k') := by
  obtain ⟨points, back, agrees, scripted⟩ := related
  obtain ⟨_, returns, c⟩ := k
  obtain ⟨_, returns', c'⟩ := k'
  cases first
  cases first'
  have inside := points.suffix
  simp only at back agrees scripted inside
  by_cases work : i.opcode.isWork = true
  · rw [move_of_work work, move_of_work work]
    have both := agrees.effect_at work
    cases done : c.effect i with
    | ok d =>
      rw [done] at both
      cases done' : c'.effect i with
      | error f =>
        rw [done'] at both
        cases both
      | ok d' =>
        rw [done'] at both
        cases both with
        | ok related => exact .next ⟨behind, back, related, Core.scripted_effect scripted i d done⟩
    | error f =>
      rw [done] at both
      cases done' : c'.effect i with
      | error f' =>
        rw [done'] at both
        cases both
        exact .stop agrees.cells agrees.world
      | ok d' =>
        rw [done'] at both
        cases both
  · cases opcode : i.opcode with
    | label | debugLine =>
      have mark : i.opcode.isMark = true := by rw [opcode]; rfl
      simp only [Symbolic.move, deed, opcode]
      exact .next ⟨behind, back, agrees.at_of_demanded fun x => .of_mark mark, scripted⟩
    | exit =>
      have same : c'.resolve i.first = c.resolve i.first := agrees.resolve fun s is =>
        (Demanded.exit_iff opcode).mpr (by rw [is]; simp)
      simp only [Symbolic.move, deed, opcode, same]
      exact .stop agrees.cells agrees.world
    | jump =>
      simp only [Symbolic.move, deed, opcode]
      refine Related.goto unlabelled unlabelled' back scripted (fun target found => ?_)
        agrees.cells agrees.world
      exact agrees.at_of_demanded fun x => .of_jump opcode found
    | jumpIf condition =>
      have flags : c'.flags = c.flags :=
        agrees.flags ((Demanded.jumpIf_iff opcode).mpr (.inl rfl))
      simp only [Symbolic.move, deed, opcode, flags]
      cases condition.holds c.flags with
      | true =>
        refine Related.goto unlabelled unlabelled' back scripted (fun target found => ?_)
          agrees.cells agrees.world
        exact agrees.at_of_demanded fun x later =>
          (Demanded.jumpIf_iff opcode).mpr (.inr (.inr ⟨target, found, later⟩))
      | false =>
        refine .next ⟨behind, back, agrees.at_of_demanded fun x later => ?_, scripted⟩
        exact (Demanded.jumpIf_iff opcode).mpr (.inr (.inl later))
    | call =>
      simp only [Symbolic.move, deed, opcode, back.length_eq]
      split
      · exact .stop agrees.cells agrees.world
      · refine Related.goto unlabelled unlabelled' (.cons ⟨behind, ?_⟩ back) scripted
          (fun target found => ?_) agrees.cells agrees.world
        · exact fun x => disciplined.returns i r' x inside opcode
        · exact agrees.at_of_demanded fun x later =>
            absurd later (disciplined.entries i r' target x inside opcode found)
    | ret =>
      simp only [Symbolic.move, deed, opcode]
      cases back with
      | nil => exact .stop agrees.cells agrees.world
      | cons top back =>
        refine .next ⟨top.1, back, agrees.at_of_demanded fun x later => ?_, scripted⟩
        rw [top.2 x later]
        exact .of_ret opcode
    | hostCall =>
      simp only [Symbolic.move, deed, opcode]
      rcases hostDeed_agrees env.externals i.target opcode agrees with
        ⟨d, d', made, done, done', same, agrees'⟩ |
        ⟨outcome, d, d', made, done, done', cells, world⟩
      · rw [done, done']
        exact .next ⟨behind, back, agrees', same ▸ scripted⟩
      · rw [done, done']
        exact .stop cells world
    | _ => simp [opcode, Opcode.isWork] at work

end

-- How the second program carries on a run of the first one: along with it for some moves, or to its
-- end. A run that ends in an invalid operation need not be followed.
inductive Pursued (env : Environment World) (pre window others post : List Instruction) (n : Nat)
    (k' : Config World) (calls : List HostCall) (outcome : Except RuntimeFault Value)
    (core : Core World) : Prop where
  | on {m : Nat} {l l' : Config World} {made more : List HostCall} (fewer : m < n)
      (same : calls = made ++ more)
      (ends : Ends env (pre ++ (window ++ post)) m l more outcome core)
      (path : Steps env (pre ++ (others ++ post)) k' made l')
      (related : Related pre window others post l l')
  | done {n' : Nat} {core' : Core World}
      (ends : Ends env (pre ++ (others ++ post)) n' k' calls outcome core')
      (cells : core'.cells = core.cells) (world : core'.world = core.world)
  | invalid {f : RuntimeFault} (is : outcome = .error f) (invalid : f.Invalid)

section

variable {pre window others post : List Instruction} {k k' : Config World} {n : Nat}
  {calls : List HostCall} {outcome : Except RuntimeFault Value} {core : Core World}

theorem Tally.pursued {m : Nat}
    (both : Tally (Related pre window others post) (move env (pre ++ (window ++ post)) k)
      (move env (pre ++ (others ++ post)) k'))
    (ends : Ends env (pre ++ (window ++ post)) m k calls outcome core) (fewer : m ≤ n) :
    Pursued env pre window others post n k' calls outcome core := by
  generalize first : move env (pre ++ (window ++ post)) k = a at both
  generalize second : move env (pre ++ (others ++ post)) k' = b at both
  cases both with
  | next related =>
    obtain ⟨m', more, rfl, rfl, later⟩ := ends.of_next first
    exact .on fewer rfl later (.single second) related
  | stop cells world =>
    obtain ⟨rfl, rfl, rfl⟩ := ends.of_stop first
    exact .done (.stop second) cells world

end

end Symbolic

namespace Core

variable {c d : Core World} {w : List Instruction} {r : Register}

theorem scripted_through (scripted : Scripted c.scopes) (done : c.through w = .ok d) :
    Scripted d.scopes := by
  induction w generalizing c with
  | nil =>
    cases done
    exact scripted
  | cons i w ih =>
    cases first : c.effect i with
    | error f =>
      rw [through_cons_of_error first] at done
      cases done
    | ok e =>
      rw [through_cons_of_ok first] at done
      exact ih (scripted_effect scripted i e first) done

-- A flag that is stored in a register and tested there ends up in the flags again.
theorem through_setTest {set test : Instruction} {e : Condition} (sets : set.opcode = .setIf e)
    (target : set.first = .register r) (tests : test.opcode = .test)
    (source : test.first = .register r) :
    (∃ f, c.through [set, test] = .error (f, c) ∧ f.Invalid) ∨
      c.through [set, test] = .ok { c.setRegister r (.truth (e.holds c.flags)) with
        flags := { equal := !e.holds c.flags } } := by
  cases located : c.locate (.register r) with
  | error f =>
    refine .inl ⟨f, through_cons_of_error ?_ _, c.invalid_locate _ f located⟩
    rw [effect, sets, target, located]
    rfl
  | ok p =>
    cases eq_of_locate_register located
    have stored : c.effect set = .ok (c.setRegister r (.truth (e.holds c.flags))) := by
      rw [effect, sets, target, located]
      rfl
    have tested : (c.setRegister r (.truth (e.holds c.flags))).effect test =
        .ok { c.setRegister r (.truth (e.holds c.flags)) with
          flags := { equal := !e.holds c.flags } } := by
      rw [effect, tests, source, resolve, locate_setRegister, located]
      change (Fault.lift ((c.setRegister r _).read (.register r)).condition).bind _ = _
      rw [read_setRegister (valid_of_locate located)]
      rfl
    exact .inr (by rw [through_cons_of_ok stored, through_cons_of_ok tested]; rfl)

end Core

-- The fused jump asks the old flags for what the jump asked the new ones for.
theorem Rule.holds_fused {set jump : Condition} {fused : Condition} (flags : Flags)
    (both : fusedJump? (.setIf set) (.jumpIf jump) = some (.jumpIf fused)) :
    jump.holds { equal := !set.holds flags } = fused.holds flags := by
  unfold fusedJump? at both
  split at both <;> cases both <;> simp_all [Condition.holds]

-- A window that neither jumps nor exits, and what is put there, only work on the core.
theorem Rule.Applies.work {f : Flow} {place : Nat} {rule : Rule} {window others : List Instruction}
    (applies : rule.Applies f place window others) (other : rule ≠ .fuseBranch)
    (stays : ∀ i ∈ window, i.opcode ≠ .exit) :
    (∀ i ∈ window, i.opcode.isWork = true) ∧ ∀ i ∈ others, i.opcode.isWork = true := by
  cases applies with
  | propagate moves register reads =>
    obtain ⟨r, is⟩ := Operand.exists_register register
    have work := (isWork_of_reads (is ▸ reads)).resolve_left (stays _ (by simp))
    have moved : Opcode.isWork .move = true := rfl
    simp [moves, opcode_substitute, work, moved]
  | fuseBranch => exact absurd rfl other
  | _ => simp_all [Instruction.move, Instruction.binary, Opcode.isWork]

namespace Symbolic

section

variable {env : Environment World} {pre window others post : List Instruction} {k' : Config World}
  {n : Nat} {calls : List HostCall} {outcome : Except RuntimeFault Value} {core c c' : Core World}
  {returns returns' : List (List Instruction)} {rule : Rule}

-- What is dead behind the window for the first program is not asked for by the second.
theorem not_demanded_behind (disciplined : Disciplined (pre ++ (window ++ post)))
    (applies : rule.Applies (.of (pre ++ (window ++ post)).toArray) pre.length window others)
    {x : Scratch} (gone : ¬ Demanded (pre ++ (window ++ post)) x post) :
    ¬ Demanded (pre ++ (others ++ post)) x post := by
  refine fun demanded => gone ?_
  refine demanded.opposite (Peephole.Rule.labelsOf_eq_nil applies.plainWindow)
    (Peephole.Rule.labelsOf_eq_nil applies.plain) (applies.demanded disciplined.unique rfl) ?_
  exact .behind (List.suffix_refl _)

theorem Related.straight (disciplined : Disciplined (pre ++ (window ++ post)))
    (applies : rule.Applies (.of (pre ++ (window ++ post)).toArray) pre.length window others)
    (work : ∀ i ∈ window, i.opcode.isWork = true) (work' : ∀ i ∈ others, i.opcode.isWork = true)
    (related : Related pre window others post ⟨window ++ post, returns, c⟩
      ⟨others ++ post, returns', c'⟩)
    (ends : Ends env (pre ++ (window ++ post)) n ⟨window ++ post, returns, c⟩ calls outcome core) :
    Pursued env pre window others post n ⟨others ++ post, returns', c'⟩ calls outcome core := by
  have some : window ≠ [] := by
    rintro rfl
    have width := applies.width
    cases rule <;> cases width
  have alike : Core.AlikeAt (pre ++ (others ++ post)) post (c.through window)
      (c'.through others) := by
    refine .trans (applies.through_alike work related.scripted ?_ ?_ ?_) (related.agrees.through work')
    · exact fun i member => disciplined.sound i (by simp [member])
    · have greeted := disciplined.greeted
      exact (List.isChain_append.mp (List.isChain_append.mp greeted).2.1).1
    · intro r dead
      exact not_demanded_behind disciplined applies
        (Rule.not_demanded_of_dead disciplined.unique rfl dead (by simp))
  cases done : c.through window with
  | ok d =>
    rw [done] at alike
    cases done' : c'.through others with
    | error p =>
      rw [done'] at alike
      cases alike
    | ok d' =>
      rw [done'] at alike
      obtain ⟨m, fewer, later⟩ := ends.of_through work some done
      refine .on fewer rfl later (.through work' done')
        ⟨.behind (List.suffix_refl _), related.returns, ?_, Core.scripted_through related.scripted done⟩
      cases alike with
      | ok agrees => exact agrees
  | error p =>
    obtain ⟨f, d⟩ := p
    rw [done] at alike
    obtain ⟨rfl, rfl, rfl⟩ := ends.of_through_error work done
    generalize result : c'.through others = z at alike
    cases alike with
    | invalid invalid => exact .invalid rfl invalid
    | error cells world =>
      obtain ⟨l', path', stopped'⟩ := Steps.through_error work' result
      obtain ⟨n', ends'⟩ := path'.ends (.stop stopped')
      exact .done ends' cells world

-- Where the window ends in an exit, both programs exit with the same value.
theorem Related.exits {move next : Instruction} {r : Register} (moves : move.opcode = .move)
    (target : move.first = .register r) (exits : next.opcode = .exit)
    (source : next.first = .register r)
    (related : Related pre [move, next] [Rule.substitute next (.register r) move.second] post
      ⟨move :: next :: post, returns, c⟩
      ⟨Rule.substitute next (.register r) move.second :: post, returns', c'⟩)
    (ends : Ends env (pre ++ ([move, next] ++ post)) n ⟨move :: next :: post, returns, c⟩ calls
      outcome core) :
    Pursued env pre [move, next] [Rule.substitute next (.register r) move.second] post n
      ⟨Rule.substitute next (.register r) move.second :: post, returns', c'⟩ calls outcome core := by
  have work : move.opcode.isWork = true := by rw [moves]; rfl
  rcases c.effect_of_move moves with ⟨f, failed, invalid⟩ | ⟨p, v, located, given, done⟩
  · have stopped : Symbolic.move env (pre ++ ([move, next] ++ post)) ⟨move :: next :: post, returns, c⟩ =
        .stop (.error f) c [] := by rw [move_of_work work, failed]
    obtain ⟨rfl, rfl, rfl⟩ := ends.of_stop stopped
    exact .invalid rfl invalid
  · rw [target] at located
    cases Core.eq_of_locate_register located
    have moved : Symbolic.move env (pre ++ ([move, next] ++ post)) ⟨move :: next :: post, returns, c⟩ =
        .next ⟨next :: post, returns, c.setRegister r v⟩ [] := by rw [move_of_work work, done]; rfl
    obtain ⟨m, more, rfl, rfl, later⟩ := ends.of_next moved
    have substituted : (Rule.substitute next (.register r) move.second).first = move.second := by
      rw [Rule.first_substitute, if_pos ⟨by rw [exits]; rfl, by rw [source]; simp [Operand.same]⟩]
    have first : (c.setRegister r v).resolve next.first = .ok v := by
      rw [source, Core.resolve, Core.locate_setRegister, located]
      exact congrArg Except.ok (Core.read_setRegister (Core.valid_of_locate located))
    have exits' : (Rule.substitute next (.register r) move.second).opcode = .exit := exits
    have second : c'.resolve (Rule.substitute next (.register r) move.second).first = .ok v := by
      rw [← given, substituted]
      refine related.agrees.resolve fun s is => (Demanded.exit_iff exits').mpr ?_
      rw [substituted, is]
      simp
    refine Tally.pursued (k := ⟨next :: post, returns, c.setRegister r v⟩) ?_ later (Nat.le_succ m)
    simp only [Symbolic.move, deed, exits, exits', first, second]
    exact .stop related.agrees.cells related.agrees.world

-- Where the window ends in a jump on a flag that was stored and tested, the second program jumps on
-- the flag itself. The register and the flags differ from then on, and nobody asks for them.
theorem Related.fuses {set test jump : Instruction} {code : Opcode} {target : Nat} {r : Register}
    (disciplined : Disciplined (pre ++ ([set, test, jump] ++ post)))
    (applies : rule.Applies (.of (pre ++ ([set, test, jump] ++ post)).toArray) pre.length
      [set, test, jump] [.branch code jump.target])
    (sets : set.opcode.isSet = true) (tests : test.opcode = .test) (register : set.first = .register r)
    (same : test.first = .register r) (fused : Rule.fusedJump? set.opcode jump.opcode = some code)
    (stands : (Flow.of (pre ++ ([set, test, jump] ++ post)).toArray).label? jump.target = some target)
    (dead : ∀ x : Scratch, x = .register r ∨ x = .flags →
      (Flow.of (pre ++ ([set, test, jump] ++ post)).toArray).live (pre.length + 3) x.effect = false)
    (deadThere : ∀ x : Scratch, x = .register r ∨ x = .flags →
      (Flow.of (pre ++ ([set, test, jump] ++ post)).toArray).live target x.effect = false)
    (related : Related pre [set, test, jump] [.branch code jump.target] post
      ⟨set :: test :: jump :: post, returns, c⟩ ⟨.branch code jump.target :: post, returns', c'⟩)
    (ends : Ends env (pre ++ ([set, test, jump] ++ post)) n ⟨set :: test :: jump :: post, returns, c⟩
      calls outcome core) :
    Pursued env pre [set, test, jump] [.branch code jump.target] post n
      ⟨.branch code jump.target :: post, returns', c'⟩ calls outcome core := by
  obtain ⟨⟨a, jumps⟩, b, rfl⟩ := Rule.fusedJump?_eq_some fused
  obtain ⟨e, opcode⟩ : ∃ e, set.opcode = .setIf e := by
    cases opcode : set.opcode <;> simp [opcode, Opcode.isSet] at sets ⊢
  have unlabelled := Peephole.Rule.labelsOf_eq_nil applies.plainWindow
  have unlabelled' := Peephole.Rule.labelsOf_eq_nil applies.plain
  have work : ∀ i ∈ [set, test], i.opcode.isWork = true := by simp [opcode, tests, Opcode.isWork]
  -- neither the register nor the flags count on either way
  have gone (x : Scratch) (is : x = .register r ∨ x = .flags) :
      ¬ Demanded (pre ++ ([Instruction.branch (.jumpIf b) jump.target] ++ post)) x post := by
    refine not_demanded_behind disciplined applies fun demanded => ?_
    have whole : pre ++ ([set, test, jump] ++ post) = (pre ++ [set, test, jump]) ++ post := by simp
    have live := demanded.live disciplined.unique whole
    rw [List.length_append] at live
    exact Bool.noConfusion (live.symm.trans (dead x is))
  have goneThere (x : Scratch) (is : x = .register r ∨ x = .flags) {there : List Instruction}
      (found : seek jump.target (pre ++ ([Instruction.branch (.jumpIf b) jump.target] ++ post)) =
        some there) :
      ¬ Demanded (pre ++ ([Instruction.branch (.jumpIf b) jump.target] ++ post)) x there := by
    intro demanded
    obtain ⟨there', found', points⟩ := seek_opposite unlabelled' unlabelled found
    have before := demanded.opposite unlabelled unlabelled'
      (applies.demanded disciplined.unique rfl) points.symm
    have live := before.live_label disciplined.unique stands found'
    exact Bool.noConfusion (live.symm.trans (deadThere x is))
  -- what both agree in on both ways
  have agrees := related.agrees
  have jumps' : (Instruction.branch (.jumpIf b) jump.target).opcode = .jumpIf b := rfl
  have flags : c'.flags = c.flags := agrees.flags ((Demanded.jumpIf_iff jumps').mpr (.inl rfl))
  have along {there : List Instruction}
      (onward : ∀ x, Demanded (pre ++ ([Instruction.branch (.jumpIf b) jump.target] ++ post)) x there →
        Demanded (pre ++ ([Instruction.branch (.jumpIf b) jump.target] ++ post)) x
          (.branch (.jumpIf b) jump.target :: post))
      (free : ∀ x : Scratch, x = .register r ∨ x = .flags →
        ¬ Demanded (pre ++ ([Instruction.branch (.jumpIf b) jump.target] ++ post)) x there) :
      Core.AgreesAt (pre ++ ([Instruction.branch (.jumpIf b) jump.target] ++ post)) there
        { c.setRegister r (.truth (e.holds c.flags)) with flags := { equal := !e.holds c.flags } }
        c' := by
    refine ⟨fun s later => ?_, fun later => absurd later (free _ (.inr rfl)), agrees.stack,
      agrees.scopes, agrees.cells, agrees.world⟩
    rw [agrees.registers s (onward _ later)]
    refine (Registers.get?_set_other fun is => ?_).symm
    exact free _ (.inl (is ▸ rfl)) later
  rcases c.through_setTest opcode register tests same with ⟨f, failed, invalid⟩ | done
  · obtain ⟨rfl, rfl, rfl⟩ := Ends.of_through_error work failed ends
    exact .invalid rfl invalid
  · obtain ⟨m, fewer, later⟩ := Ends.of_through work (by simp) done ends
    refine Tally.pursued ?_ later (Nat.le_of_lt fewer)
    rw [opcode, jumps] at fused
    have asks := Rule.holds_fused c.flags fused
    simp only [Symbolic.move, deed, jumps, jumps', flags, asks]
    cases b.holds c.flags with
    | true =>
      refine Related.goto unlabelled unlabelled' related.returns related.scripted
        (fun there found => along (fun x later => ?_) fun x is => goneThere x is found)
        agrees.cells agrees.world
      exact (Demanded.jumpIf_iff jumps').mpr (.inr (.inr ⟨there, found, later⟩))
    | false =>
      refine .next ⟨.behind (List.suffix_refl _), related.returns, along (fun x later => ?_) gone,
        related.scripted⟩
      exact (Demanded.jumpIf_iff jumps').mpr (.inr (.inl later))

theorem Related.across (disciplined : Disciplined (pre ++ (window ++ post)))
    (applies : rule.Applies (.of (pre ++ (window ++ post)).toArray) pre.length window others)
    (related : Related pre window others post ⟨window ++ post, returns, c⟩
      ⟨others ++ post, returns', c'⟩)
    (ends : Ends env (pre ++ (window ++ post)) n ⟨window ++ post, returns, c⟩ calls outcome core) :
    Pursued env pre window others post n ⟨others ++ post, returns', c'⟩ calls outcome core := by
  by_cases straight : rule ≠ .fuseBranch ∧ ∀ i ∈ window, i.opcode ≠ .exit
  · have work := applies.work straight.1 straight.2
    exact related.straight disciplined applies work.1 work.2 ends
  · have applied := applies
    cases applies with
    | @propagate move next moves register reads =>
      obtain ⟨r, is⟩ := Operand.exists_register register
      rw [is] at reads related ⊢
      have exits : next.opcode = .exit := by
        by_contra other
        exact straight ⟨by simp, by simp [moves, other]⟩
      refine related.exits moves is exits ?_ ends
      rcases Instruction.reads_register_iff.mp reads with ⟨_, source⟩ | ⟨second, _⟩
      · exact source
      · simp [exits, Opcode.reads] at second
    | fuseBranch sets tests register same fused stands dead deadThere flags flagsThere =>
      obtain ⟨r, is⟩ := Operand.exists_register register
      rw [is] at same dead deadThere
      refine related.fuses disciplined applied sets tests is (Instruction.same_register_iff.mp same)
        fused stands ?_ ?_ ends
      · rintro x (rfl | rfl)
        · exact Rule.live_eq_false_of_dead dead rfl
        · simpa [Flow.flagsDead, Scratch.effect] using flags
      · rintro x (rfl | rfl)
        · exact Rule.live_eq_false_of_dead deadThere rfl
        · simpa [Flow.flagsDead, Scratch.effect] using flagsThere
    | selfMove | deadStore | pushPop | pushMovePop | foldUnary | foldBinary =>
      refine absurd ⟨by simp, ?_⟩ straight
      simp_all

-- A run of the first program that ends, unless in an invalid operation, is one of the second.
theorem Related.ends (disciplined : Disciplined (pre ++ (window ++ post)))
    (applies : rule.Applies (.of (pre ++ (window ++ post)).toArray) pre.length window others)
    {k k' : Config World} (related : Related pre window others post k k')
    (ends : Ends env (pre ++ (window ++ post)) n k calls outcome core)
    (valid : ∀ f, outcome = .error f → ¬ f.Invalid) :
    ∃ n' core', Ends env (pre ++ (others ++ post)) n' k' calls outcome core' ∧
      core'.cells = core.cells ∧ core'.world = core.world := by
  have disciplined' := disciplined.rewrite applies
  have unlabelled := Peephole.Rule.labelsOf_eq_nil applies.plainWindow
  have unlabelled' := Peephole.Rule.labelsOf_eq_nil applies.plain
  induction n using Nat.strong_induction_on generalizing k k' calls with
  | _ n ih =>
    have pursued : Pursued env pre window others post n k' calls outcome core := by
      obtain ⟨rest, returns, c⟩ := k
      obtain ⟨rest', returns', c'⟩ := k'
      have lockstep {i : Instruction} {r r' : List Instruction} (first : rest = i :: r)
          (first' : rest' = i :: r') (behind : Opposite pre window others post r r') :
          Pursued env pre window others post n ⟨rest', returns', c'⟩ calls outcome core :=
        (related.move disciplined' unlabelled unlabelled' first first' behind).pursued ends
          (Nat.le_refl n)
      cases related.points with
      | @before r inside =>
        cases r with
        | nil => exact related.across disciplined applies ends
        | cons i r => exact lockstep rfl rfl (.before ((List.suffix_cons _ _).trans inside))
      | behind inside =>
        cases rest with
        | nil =>
          obtain ⟨rfl, rfl, rfl⟩ := ends.of_stop rfl
          exact .done (.stop rfl) related.agrees.cells related.agrees.world
        | cons i r => exact lockstep rfl rfl (.behind ((List.suffix_cons _ _).trans inside))
    cases pursued with
    | on fewer same later path related =>
      subst same
      obtain ⟨n', core', last, memory⟩ := ih _ fewer related later
      obtain ⟨n'', whole⟩ := path.ends last
      exact ⟨n'', core', whole, memory⟩
    | done whole cells world => exact ⟨_, _, whole, cells, world⟩
    | invalid is invalid => exact absurd invalid (valid _ is)

end

-- Whatever the one program ends in, unless in an invalid operation, the other one ends in as well, with
-- the same host calls on the way and the same memory of the host.
structure Refines (code code' : List Instruction) : Prop where
  ends : ∀ {World : Type} (env : Environment World) {c core : Core World} {n : Nat}
    {calls : List HostCall} {outcome : Except RuntimeFault Value}, Scripted c.scopes →
    (∀ f, outcome = .error f → ¬ f.Invalid) → Ends env code n ⟨code, [], c⟩ calls outcome core →
    ∃ n' core', Ends env code' n' ⟨code', [], c⟩ calls outcome core' ∧ core'.cells = core.cells ∧
      core'.world = core.world

theorem Refines.refl (code : List Instruction) : Refines code code :=
  ⟨fun _ _ _ _ _ _ _ _ ends => ⟨_, _, ends, rfl, rfl⟩⟩

theorem Refines.trans {a b c : List Instruction} (first : Refines a b) (second : Refines b c) :
    Refines a c where
  ends env _ _ _ _ _ scripted valid ends := by
    obtain ⟨n', last', ends', cells, world⟩ := first.ends env scripted valid ends
    obtain ⟨n'', last'', ends'', cells', world'⟩ := second.ends env scripted valid ends'
    exact ⟨n'', last'', ends'', cells'.trans cells, world'.trans world⟩

end Symbolic

namespace Peephole

open Symbolic

-- A state whose flow is that of its code, which keeps to the conventions.
def State.Sane (s : State) : Prop := s.flow = .of s.flow.code ∧ Disciplined s.flow.code.toList

theorem Rewrites.refines {s t : State} (sane : s.Sane) (rewrites : Rewrites s t) :
    t.Sane ∧ Refines s.flow.code.toList t.flow.code.toList := by
  obtain ⟨flow, disciplined⟩ := sane
  cases rewrites with
  | @apply rule pre window post others split applies =>
    have whole : s.flow.code = (pre ++ (window ++ post)).toArray := by
      rw [← List.append_assoc, ← split, Array.toArray_toList]
    rw [flow, whole] at applies
    rw [whole] at disciplined ⊢
    rw [List.append_assoc]
    refine ⟨⟨rfl, disciplined.rewrite applies⟩, ⟨fun env c _ _ _ _ scripted valid ends => ?_⟩⟩
    have related : Related pre window others post ⟨pre ++ (window ++ post), [], c⟩
        ⟨pre ++ (others ++ post), [], c⟩ :=
      ⟨.before (List.suffix_refl _), .nil, .refl _ _ _, scripted⟩
    exact related.ends disciplined applies ends valid

theorem Reworks.refines {s t : State} (sane : s.Sane) (reworks : Reworks s t) :
    t.Sane ∧ Refines s.flow.code.toList t.flow.code.toList := by
  induction reworks with
  | refl => exact ⟨sane, Refines.refl _⟩
  | tail _ rewrites ih =>
    obtain ⟨later, refines⟩ := rewrites.refines ih.1
    exact ⟨later, ih.2.trans refines⟩

end Peephole

end ScalarScript
