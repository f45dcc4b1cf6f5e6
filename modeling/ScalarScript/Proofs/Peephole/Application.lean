import ScalarScript.Proofs.Control.Peephole
/-!
What each rule replaces by what, and when: the window of instructions that it applies to, and all
that it has made sure of.
-/
namespace ScalarScript.Rule

variable {f : Flow} {place : Nat}

-- A rule applies to a window at a place, and puts others there.
inductive Applies (f : Flow) (place : Nat) : Rule → List Instruction → List Instruction → Prop where
  | selfMove {i : Instruction} (move : i.opcode = .move) (same : i.first.same i.second = true)
      (free : removable i.first = true) : Applies f place .selfMove [i] []
  | deadStore {i : Instruction} (move : i.opcode = .move) (register : i.first.isRegister = true)
      (dead : f.registerDead (place + 1) i.first = true) : Applies f place .deadStore [i] []
  | pushPop {push pop : Instruction} (pushes : push.opcode = .push) (pops : pop.opcode = .pop) :
      Applies f place .pushPop [push, pop] [.move pop.first push.first]
  | pushMovePop {push move pop : Instruction} (pushes : push.opcode = .push)
      (moves : move.opcode = .move) (pops : pop.opcode = .pop)
      (unread : pop.first.same move.second = false) (unwritten : pop.first.same move.first = false) :
      Applies f place .pushMovePop [push, move, pop]
        [.move pop.first push.first, .move move.first move.second]
  | foldUnary {move next : Instruction} {v folded : Value} {op : UnaryOp}
      (moves : move.opcode = .move) (constant : move.second = .literal v)
      (computes : next.opcode = .unary op) (register : move.first.isRegister = true)
      (same : next.first.same move.first = true) (known : op.apply v = .ok folded) :
      Applies f place .foldUnary [move, next] [.move move.first (.ofValue folded)]
  | foldBinary {load compute store : Instruction} {op : BinaryOp} (loads : load.opcode = .move)
      (computes : compute.opcode = .binary op) (stores : store.opcode = .move)
      (register : load.first.isRegister = true) (varies : load.second.isLiteral = false)
      (other : compute.second.same load.first = false)
      (target : compute.first.same load.first = true)
      (back : store.first.same load.second = true) (result : store.second.same load.first = true)
      (dead : f.registerDead (place + 3) load.first = true) :
      Applies f place .foldBinary [load, compute, store]
        [.binary (.binary op) load.second compute.second]
  | propagate {move next : Instruction} (moves : move.opcode = .move)
      (register : move.first.isRegister = true) (reads : next.reads move.first = true)
      (keeps : next.writes move.first = false)
      (dead : f.registerDead (place + 2) move.first = true) :
      Applies f place .propagate [move, next] [substitute next move.first move.second]
  | fuseBranch {set test jump : Instruction} {code : Opcode} {target : Nat}
      (sets : set.opcode.isSet = true) (tests : test.opcode = .test)
      (register : set.first.isRegister = true) (same : test.first.same set.first = true)
      (fused : fusedJump? set.opcode jump.opcode = some code)
      (stands : f.label? jump.target = some target)
      (dead : f.registerDead (place + 3) set.first = true)
      (deadThere : f.registerDead target set.first = true)
      (flags : f.flagsDead (place + 3) = true) (flagsThere : f.flagsDead target = true) :
      Applies f place .fuseBranch [set, test, jump] [.branch code jump.target]

theorem Applies.width {rule : Rule} {window others : List Instruction}
    (applies : Applies f place rule window others) : window.length = rule.width := by
  cases applies <;> rfl

section

variable {a b c : Instruction} {others : List Instruction}

theorem selfMove?_applies (swapped : selfMove? a = some others) :
    Applies f place .selfMove [a] others := by
  unfold selfMove? at swapped
  split at swapped
  · rename_i applies
    cases swapped
    simp only [Bool.and_eq_true, decide_eq_true_eq] at applies
    obtain ⟨⟨move, same⟩, free⟩ := applies
    exact .selfMove move same free
  · cases swapped

theorem deadStore?_applies (swapped : deadStore? f place a = some others) :
    Applies f place .deadStore [a] others := by
  unfold deadStore? at swapped
  split at swapped
  · rename_i applies
    cases swapped
    simp only [Bool.and_eq_true, decide_eq_true_eq] at applies
    obtain ⟨⟨move, register⟩, dead⟩ := applies
    exact .deadStore move register dead
  · cases swapped

theorem pushPop?_applies (swapped : pushPop? a b = some others) :
    Applies f place .pushPop [a, b] others := by
  unfold pushPop? at swapped
  split at swapped
  · rename_i applies
    cases swapped
    simp only [Bool.and_eq_true, decide_eq_true_eq] at applies
    exact .pushPop applies.1 applies.2
  · cases swapped

theorem pushMovePop?_applies (swapped : pushMovePop? a b c = some others) :
    Applies f place .pushMovePop [a, b, c] others := by
  unfold pushMovePop? at swapped
  split at swapped
  · rename_i applies
    cases swapped
    simp only [Bool.and_eq_true, decide_eq_true_eq, Bool.not_eq_true'] at applies
    obtain ⟨⟨⟨⟨pushes, moves⟩, pops⟩, unread⟩, unwritten⟩ := applies
    exact .pushMovePop pushes moves pops unread unwritten
  · cases swapped

theorem foldUnary?_applies (swapped : foldUnary? a b = some others) :
    Applies f place .foldUnary [a, b] others := by
  unfold foldUnary? at swapped
  split at swapped
  · rename_i moves constant computes
    split at swapped
    · rename_i applies
      simp only [Bool.and_eq_true] at applies
      split at swapped
      · rename_i known
        cases swapped
        exact .foldUnary moves constant computes applies.1 applies.2 known
      · cases swapped
    · cases swapped
  · cases swapped

theorem foldBinary?_applies (swapped : foldBinary? f place a b c = some others) :
    Applies f place .foldBinary [a, b, c] others := by
  unfold foldBinary? at swapped
  split at swapped
  · rename_i loads computes stores
    dsimp only at swapped
    split at swapped
    · rename_i applies
      cases swapped
      simp only [Bool.and_eq_true, Bool.not_eq_true'] at applies
      obtain ⟨⟨⟨⟨⟨⟨register, varies⟩, other⟩, target⟩, back⟩, result⟩, dead⟩ := applies
      exact .foldBinary loads computes stores register varies other target back result dead
    · cases swapped
  · cases swapped

theorem propagate?_applies (swapped : propagate? f place a b = some others) :
    Applies f place .propagate [a, b] others := by
  unfold propagate? at swapped
  dsimp only at swapped
  split at swapped
  · rename_i applies
    cases swapped
    simp only [Bool.and_eq_true, decide_eq_true_eq, Bool.not_eq_true'] at applies
    obtain ⟨⟨⟨⟨moves, register⟩, reads⟩, keeps⟩, dead⟩ := applies
    exact .propagate moves register reads keeps dead
  · cases swapped

theorem fuseBranch?_applies (swapped : fuseBranch? f place a b c = some others) :
    Applies f place .fuseBranch [a, b, c] others := by
  simp only [fuseBranch?, Option.bind_eq_bind, Option.bind_eq_some_iff, Option.guard_eq_some',
    Option.pure_def, Option.some.injEq, Bool.and_eq_true, decide_eq_true_eq] at swapped
  obtain ⟨_, ⟨⟨⟨sets, tests⟩, register⟩, same⟩, code, fused, target, stands, _, ⟨dead, deadThere⟩, _,
    ⟨flags, flagsThere⟩, rfl⟩ := swapped
  exact .fuseBranch sets tests register same fused stands dead deadThere flags flagsThere

end

-- Instructions found one behind the other stand in the list.
theorem split_of_found {code : Array Instruction} {window : List Instruction}
    (inside : place ≤ code.size)
    (found : ∀ n < window.length, code[place + n]? = window[n]?) :
    ∃ pre rest, code.toList = pre ++ window ++ rest ∧ pre.length = place := by
  refine ⟨code.toList.take place, code.toList.drop (place + window.length), ?_, ?_⟩
  · have middle : (code.toList.drop place).take window.length = window := by
      refine List.ext_getElem? fun n => ?_
      rw [List.getElem?_take]
      split
      · rename_i less
        rw [List.getElem?_drop, Array.getElem?_toList, found n less]
      · rw [List.getElem?_eq_none (by omega)]
    calc code.toList = code.toList.take place ++ code.toList.drop place :=
          (List.take_append_drop ..).symm
      _ = code.toList.take place ++ ((code.toList.drop place).take window.length ++
            (code.toList.drop place).drop window.length) :=
          congrArg (code.toList.take place ++ ·) (List.take_append_drop ..).symm
      _ = _ := by rw [middle, List.drop_drop, List.append_assoc]
  · rw [List.length_take, Array.length_toList]
    omega

theorem replacement?_applies {rule : Rule} {others : List Instruction}
    (swapped : rule.replacement? f place = some others) :
    ∃ pre window rest, f.code.toList = pre ++ window ++ rest ∧ pre.length = place ∧
      Applies f place rule window others := by
  obtain ⟨a, first, swapped⟩ := Option.bind_eq_some_iff.mp swapped
  have inside : place ≤ f.code.size := (Array.getElem?_eq_some_iff.mp first).1.le
  have build {window : List Instruction}
      (found : ∀ n < window.length, f.code[place + n]? = window[n]?)
      (applies : Applies f place rule window others) :
      ∃ pre window rest, f.code.toList = pre ++ window ++ rest ∧ pre.length = place ∧
        Applies f place rule window others := by
    obtain ⟨pre, rest, split, length⟩ := split_of_found inside found
    exact ⟨pre, window, rest, split, length, applies⟩
  have one : ∀ n < [a].length, f.code[place + n]? = [a][n]? := by
    rintro (_ | n) less
    · exact first
    · simp only [List.length_cons, List.length_nil] at less
      omega
  have two {b : Instruction} (second : f.code[place + 1]? = some b) :
      ∀ n < [a, b].length, f.code[place + n]? = [a, b][n]? := by
    rintro (_ | _ | n) less
    · exact first
    · exact second
    · simp only [List.length_cons, List.length_nil] at less
      omega
  have three {b c : Instruction} (second : f.code[place + 1]? = some b)
      (third : f.code[place + 2]? = some c) :
      ∀ n < [a, b, c].length, f.code[place + n]? = [a, b, c][n]? := by
    rintro (_ | _ | _ | n) less
    · exact first
    · exact second
    · exact third
    · simp only [List.length_cons, List.length_nil] at less
      omega
  cases rule with
  | selfMove => exact build one (selfMove?_applies swapped)
  | deadStore => exact build one (deadStore?_applies swapped)
  | pushPop =>
    obtain ⟨b, second, swapped⟩ := Option.bind_eq_some_iff.mp swapped
    exact build (two second) (pushPop?_applies swapped)
  | foldUnary =>
    obtain ⟨b, second, swapped⟩ := Option.bind_eq_some_iff.mp swapped
    exact build (two second) (foldUnary?_applies swapped)
  | propagate =>
    obtain ⟨b, second, swapped⟩ := Option.bind_eq_some_iff.mp swapped
    exact build (two second) (propagate?_applies swapped)
  | pushMovePop =>
    obtain ⟨b, second, c, third, swapped⟩ := by simpa [Option.bind_eq_some_iff] using swapped
    exact build (three second third) (pushMovePop?_applies swapped)
  | foldBinary =>
    obtain ⟨b, second, c, third, swapped⟩ := by simpa [Option.bind_eq_some_iff] using swapped
    exact build (three second third) (foldBinary?_applies swapped)
  | fuseBranch =>
    obtain ⟨b, second, c, third, swapped⟩ := by simpa [Option.bind_eq_some_iff] using swapped
    exact build (three second third) (fuseBranch?_applies swapped)

end ScalarScript.Rule
