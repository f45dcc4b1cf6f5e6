import ScalarScript.Proofs.Reference.Statement
import ScalarScript.Proofs.Typing.Host
/-!
Calls do what the functions called do. The host answers for its functions; the others have a
definition in the program, whose code gets the arguments from the stack and gives the value back.
-/
namespace ScalarScript

open Symbolic Compile Evaluation

variable {World : Type}

namespace Simulates

variable {env : Environment World} {whole rest : List Instruction} {marks : Nat → Bool}
  {floor bound place : Nat} {k : Config World}

theorem allocated (r : Routine) {ps : List (Param × Nat)}
    (first : k.rest = ps.map (fun (p, i) => Instruction.unary (.allocate p.type) (r.slot i p)) ++
      rest)
    (lies : LiesAt whole place k.rest) (quiet : Quiet marks place (place + ps.length)) :
    Simulates env whole marks floor bound k
      (fun (_ : PUnit) m l => l = ⟨rest, k.returns, k.core.onto m⟩)
      ((ps.forM fun (p, i) => change (·.allocate p.type (r.slot i p))) k.core.storage) := by
  induction ps generalizing k place with
  | nil => exact .here (by rw [← show k.rest = rest from first]; rfl)
  | cons q ps ih =>
    rw [List.length_cons] at quiet
    have effect := (k.core.effect_allocate q.1.type (r.slot q.2 q.1)).trans
      (k.core.allocate_slot q.1.type _)
    have run : Simulates env whole marks floor bound k _ _ :=
      changed (f := (·.allocate q.1.type (r.slot q.2 q.1))) first (by rintro ⟨⟩) lies rfl effect
    rw [named_of_quiet (quiet _ (by omega) (by omega)), Outcome.behind_nil] at run
    refine run.bind fun _ m l there => ?_
    subst there
    exact ih (k := ⟨_, k.returns, k.core.onto m⟩) rfl (lies.behind (a := [_]) first)
      (quiet.mono (by simp) (by simp; omega))

-- Values from the stack go to their variables.
theorem received (r : Routine) {ps : List ((Param × Nat) × Value)} {stack : List (Option Value)}
    (first : k.rest = ps.map (fun q => Instruction.pop (r.slot q.1.2 q.1.1)) ++ rest)
    (lies : LiesAt whole place k.rest) (quiet : Quiet marks place (place + ps.length))
    (given : k.core.stack = ps.map (some ·.2) ++ stack) :
    Simulates env whole marks floor bound k
      (fun (_ : PUnit) m l => l = ⟨rest, k.returns, { k.core with stack }.onto m⟩)
      ((ps.forM fun q => change (·.write (r.slot q.1.2 q.1.1) q.2)) k.core.storage) := by
  induction ps generalizing k place with
  | nil =>
    refine .here ?_
    rw [← show k.rest = rest from first, ← show k.core.stack = stack from given]
    rfl
  | cons q ps ih =>
    rw [List.length_cons] at quiet
    let popped : Core World := { k.core with stack := ps.map (some ·.2) ++ stack }
    have effect := (k.core.effect_receive (o := r.slot q.1.2 q.1.1) given).trans
      (popped.assign_slot _ _)
    have run : Simulates env whole marks floor bound k _ _ :=
      changed (f := (·.write (r.slot q.1.2 q.1.1) q.2)) first (by rintro ⟨⟩) lies rfl effect
    rw [named_of_quiet (quiet _ (by omega) (by omega)), Outcome.behind_nil] at run
    refine run.bind fun _ m l there => ?_
    subst there
    exact ih (k := ⟨_, k.returns, popped.onto m⟩) rfl (lies.behind (a := [_]) first)
      (quiet.mono (by simp) (by simp; omega)) rfl

-- A host function answers.
theorem hosted {slot : Int} {name : String} {values : List Value} {stack : List (Option Value)}
    {ext : External World} {f : HostFunction World}
    (first : k.rest = .hostCall slot name :: rest) (lies : LiesAt whole place k.rest)
    (given : k.core.stack = onStack values stack)
    (offered : External.function? env.externals slot = some (ext, f))
    (arity : ext.arity = values.length) :
    Simulates env whole marks floor bound k (Yields k.returns stack rest)
      ((callHost env.externals slot values k.core.storage).behind (named marks place)) := by
  have count : ext.arity.toNat = (values.reverse.map some).length := by simp [arity]
  have asked : k.core.request ext.arity.toNat = ⟨values.reverse, ⟨Core.alreadyRunning, k.core.cells⟩⟩ := by
    rw [Core.request, given, onStack, count, List.take_left, List.map_map]
    simp [Function.comp_def]
  have enough : ¬ (k.core.stack.length : Int) < ext.arity := by
    simp only [given, onStack, arity, List.length_append, List.length_map, List.length_reverse]
    omega
  have dropped : k.core.stack.drop ext.arity.toNat = stack := by
    rw [given, onStack, count, List.drop_left]
  have does : deed env.externals (.hostCall slot name) k.core =
      hostDeed env.externals slot k.core := rfl
  simp only [hostDeed, offered, if_neg enough, asked] at does
  simp only [callHost, offered]
  have world : k.core.storage.world = k.core.world := rfl
  have cells : k.core.storage.cells = k.core.cells := rfl
  rw [world, cells]
  cases answer : (ext.answer (f k.core.world ⟨values.reverse, ⟨Core.alreadyRunning, k.core.cells⟩⟩)).bind
      ext.checkResult with
  | ok v =>
    rw [answer] at does
    let after := (k.core.answered ext.arity.toNat
      (f k.core.world ⟨values.reverse, ⟨Core.alreadyRunning, k.core.cells⟩⟩)).setRegister .eax v
    have moved : Symbolic.move env whole k = .next ⟨rest, k.returns, after⟩
        [⟨ext.name, values.reverse⟩] := by
      simp only [Symbolic.move, first, does]
      rfl
    have reached : Simulates env whole marks floor (bound - 1) ⟨rest, k.returns, after⟩
        (Yields k.returns stack rest) (.done v after.storage []) :=
      .here ⟨rfl, rfl, rfl, rfl, dropped⟩
    have run := reached.move first (by rintro ⟨⟩) lies moved id
    rw [Outcome.behind, List.append_nil] at run
    exact run
  | error fault =>
    rw [answer] at does
    have ended : Simulates env whole marks floor bound k (Yields k.returns stack rest) _ :=
      stop first lies does
    exact ended

-- A call goes to the code of the function.
theorem entered {α : Type} {there : α → Storage World → Config World → Prop} {label : Int}
    {name : String} {target : List Instruction} {x : Outcome World α}
    (first : k.rest = .call label name :: rest) (lies : LiesAt whole place k.rest)
    (room : ¬ env.maxCallDepth ≤ k.returns.length) (found : seek label whole = some target)
    (onward : Simulates env whole marks floor (bound - 1)
      ⟨target, rest :: k.returns, k.core⟩ there x) :
    Simulates env whole marks floor bound k there (x.behind (named marks place)) := by
  have does : deed env.externals (.call label name) k.core = .enter := rfl
  have moved : Symbolic.move env whole k = .next ⟨target, rest :: k.returns, k.core⟩ [] := by
    simp only [Symbolic.move, first, does, if_neg room, Config.goto]
    rw [show (Instruction.call label name).target = label from rfl, found]
  simpa using onward.move first (by rintro ⟨⟩) lies moved Nat.le_succ_of_le

-- The code of a function ends with a return.
theorem returned {α : Type} {there : α → Storage World → Config World → Prop}
    {back : List Instruction} {returns : List (List Instruction)} {x : Outcome World α}
    (first : k.rest = .plain .ret :: rest) (lies : LiesAt whole place k.rest)
    (quiet : marks place = false) (top : k.returns = back :: returns)
    (deep : floor ≤ returns.length)
    (onward : Simulates env whole marks floor bound ⟨back, returns, k.core⟩ there x) :
    Simulates env whole marks floor bound k there x := by
  have does : deed env.externals (.plain .ret) k.core = .leave := rfl
  have moved : Symbolic.move env whole k = .next ⟨back, returns, k.core⟩ [] := by
    simp only [Symbolic.move, first, does, top]
  have run := move first (by rintro ⟨⟩) lies moved (fun _ => deep)
    (onward.mono (Nat.sub_le bound 1))
  simpa [named_of_quiet quiet] using run

end Simulates

namespace Routine

variable (r : Routine)

theorem length_receive : r.receive.length = r.params.length + r.params.length := by
  simp [receive]

theorem receive_zip {r : Routine} {values : List Value}
    (same : r.params.zipIdx.length = values.length) :
    r.receive =
      r.params.zipIdx.map (fun (p, i) => Instruction.unary (.allocate p.type) (r.slot i p)) ++
        (r.params.zipIdx.zip values).reverse.map fun q => Instruction.pop (r.slot q.1.2 q.1.1) := by
  have pops : r.params.zipIdx.map (fun (p, i) => Instruction.pop (r.slot i p)) =
      (r.params.zipIdx.zip values).map fun q => Instruction.pop (r.slot q.1.2 q.1.1) := by
    conv_lhs => rw [← List.map_fst_zip same.le]
    rw [List.map_map]
    rfl
  rw [receive, pops, List.map_reverse]

end Routine

theorem onStack_zip {α : Type} {names : List α} {values : List Value}
    (same : names.length = values.length) (stack : List (Option Value)) :
    onStack values stack = (names.zip values).reverse.map (some ·.2) ++ stack := by
  have held : values.map some = (names.zip values).map (some ·.2) := by
    conv_lhs => rw [← List.map_snd_zip same.ge]
    rw [List.map_map]
    rfl
  rw [onStack, List.map_reverse, held, List.map_reverse]

-- The code of a function, in the whole program.
structure Definition.Held (whole : List Instruction) (marks : Nat → Bool) (o : Outline)
    (d : Definition) : Prop where
  lies : ∃ rest, LiesAt whole d.place ((Stmt.function d.routine d.body).code ++ rest)
  spared : Spared marks d.place (Stmt.function d.routine d.body).begins
  ok : ∃ chain before, (Stmt.function d.routine d.body).Ok o chain before []

section

variable {env : Environment World} {whole : List Instruction} {marks : Nat → Bool}
  {floor bound : Nat}
  {o : Outline} {call : Symbol → List Value → Evaluation World Value} {d : Definition}

-- The arguments are taken from the stack to a new frame.
theorem Definition.enter_simulated {k : Config World} {rest : List Instruction}
    {values : List Value} {stack : List (Option Value)} {place : Nat}
    (first : k.rest = .pushScope d.routine.depth (d.routine.params.length + d.body.count) ::
      (d.routine.receive ++ rest)) (lies : LiesAt whole place k.rest)
    (quiet : Quiet marks place (place + 1 + d.routine.receive.length))
    (given : k.core.stack = onStack values stack)
    (count : values.length = d.routine.params.length) :
    Simulates env whole marks floor bound k (fun _ => Standing k.returns stack rest)
      (d.enter values k.core.storage) := by
  have pushed := (k.core.effect_pushScope d.routine.depth _).trans
    (k.core.pushScope_natCast d.routine.depth (d.routine.params.length + d.body.count))
  have same : d.routine.params.zipIdx.length = values.length := by simp [count]
  rw [d.routine.length_receive] at quiet
  rw [d.routine.receive_zip same, List.append_assoc] at first
  rw [onStack_zip same] at given
  have run : Simulates env whole marks floor bound k _ _ := Simulates.changed
    (f := (·.pushFrame d.routine.depth (d.routine.params.length + d.body.count)))
    first (by rintro ⟨⟩) lies rfl pushed
  rw [named_of_quiet (quiet _ (by omega) (by omega)), Outcome.behind_nil] at run
  rw [Definition.enter, bind_apply]
  refine run.bind fun _ m l there => ?_
  subst there
  have behind : LiesAt whole (place + 1) (d.routine.params.zipIdx.map _ ++ _) :=
    lies.behind (a := [_]) first
  rw [bind_apply]
  refine (Simulates.allocated (k := ⟨_, k.returns, k.core.onto m⟩) d.routine rfl behind
    (quiet.mono (by omega) (by simp only [List.length_zipIdx]; omega))).bind fun _ m l there => ?_
  subst there
  have next := behind.behind rfl
  rw [List.length_map, List.length_zipIdx] at next
  refine (Simulates.received (k := ⟨_, k.returns, k.core.onto m⟩) d.routine rfl next
    (quiet.mono (by omega) (by simp; omega)) given).extend fun _ m l there => ?_
  subst there
  exact .here ⟨rfl, rfl, rfl, rfl⟩

-- The value of a body is in `eax` where its frame is dropped.
theorem Definition.concluded {k : Config World} {chain : Chain} {f : Body}
    {back rest : List Instruction} {returns : List (List Instruction)}
    {stack : List (Option Value)} {flow : Ending} {m : Storage World} {place : Nat}
    (unique : (labelsOf whole).Nodup)
    (lies : LiesAt whole place (Stmt.conclude d.routine ++ rest))
    (quiet : Quiet marks place (place + 5)) (around : f.enclosing = some d.routine.enclosing)
    (deep : floor ≤ returns.length)
    (there : Arrives whole (f :: chain) [] (back :: returns) stack
      (Stmt.conclude d.routine ++ rest) flow m k) :
    Simulates env whole marks floor bound k (Yields returns stack back)
      ((do change (·.popFrame d.routine.depth); return flow.value : Evaluation World Value) m) := by
  have result : LiesAt whole (place + 1) (.label d.routine.result :: _) :=
    lies.behind (a := [_]) rfl
  have popping := result.behind (a := [_]) rfl
  have popped (l : Config World) (next : l.rest = .popScope d.routine.depth :: .plain .ret ::
      .label d.routine.skip :: rest) (inside : l.returns = back :: returns)
      (value : l.core.registers.eax = flow.value) (storage : l.core.storage = m)
      (given : l.core.stack = stack) :
      Simulates env whole marks floor bound l (Yields returns stack back)
        ((do change (·.popFrame d.routine.depth); return flow.value :
          Evaluation World Value) m) := by
    have effect := (l.core.effect_popScope d.routine.depth).trans
      (l.core.popScope_natCast d.routine.depth)
    have run : Simulates env whole marks floor bound l _ _ := Simulates.changed
      (f := (·.popFrame d.routine.depth)) next (by rintro ⟨⟩) (next ▸ popping) rfl effect
    rw [named_of_quiet (quiet _ (by simp; omega) (by simp)), Outcome.behind_nil, storage] at run
    refine run.bind fun _ m l there => ?_
    subst there
    exact Simulates.returned rfl (popping.behind (a := [_]) rfl)
      (quiet _ (by simp; omega) (by simp)) inside deep (.here ⟨rfl, rfl, value, rfl, given⟩)
  obtain ⟨leads, inside, storage, given⟩ := there
  cases flow with
  | next =>
    have does : deed env.externals (.move eax .null) k.core =
        .proceed (k.core.setRegister .eax .null) [] := rfl
    refine Simulates.work leads (by rintro ⟨⟩) (leads.symm ▸ lies) (quiet _ (by omega) (by omega))
      does (Simulates.label rfl ?_)
    exact popped _ rfl inside rfl storage given
  | leave =>
    obtain ⟨done, around, _⟩ := leads
    cases around
  | give v =>
    obtain ⟨value, g, enclosing, found⟩ := leads
    obtain rfl : d.routine.enclosing = g := by simpa [around] using enclosing
    have here := (result.seek unique).symm.trans found
    exact popped _ (Option.some_inj.mp here).symm inside value storage given

-- A call of a function of the program runs its definition.
theorem Definition.run_simulated {chain : Chain} {k : Config World}
    {back rest : List Instruction} {returns : List (List Instruction)} {values : List Value}
    {stack : List (Option Value)} (unique : (labelsOf whole).Nodup)
    (lies : LiesAt whole d.place ((Stmt.function d.routine d.body).code ++ rest))
    (spared : Spared marks d.place (Stmt.function d.routine d.body).begins)
    (inner : d.body.Simulated env whole marks floor bound (back :: returns) call
      (d.routine.frame d.body :: chain) [])
    (found : seek d.routine.entry whole = some k.rest) (inside : k.returns = back :: returns)
    (given : k.core.stack = onStack values stack)
    (count : values.length = d.routine.params.length) (deep : floor ≤ returns.length) :
    Simulates env whole marks floor bound k (Yields returns stack back)
      (d.run call marks bound values k.core.storage) := by
  have split : (Stmt.function d.routine d.body).code ++ rest =
      .branch .jump d.routine.skip :: .label d.routine.entry ::
        .pushScope d.routine.depth (d.routine.params.length + d.body.count) ::
          (d.routine.receive ++ (d.body.code ++ (Stmt.conclude d.routine ++ rest))) := by
    simp [Stmt.code]
  have start : LiesAt whole (d.place + 2) (_ :: _) := lies.behind (a := [_, _]) split
  have opens := Option.some_inj.mp
    (found.symm.trans ((lies.behind (a := [_]) split).seek unique))
  have place : d.place + 2 + (d.routine.receive.length + 1) = d.inner := by
    rw [Definition.inner]
    omega
  have body := place ▸ start.behind (a := _ :: d.routine.receive) rfl
  have quiet := spared.left.left.quiet
  have marked : Spared marks d.inner d.body.begins := by
    have here := spared.left.right
    rwa [List.length_replicate, ← Nat.add_assoc] at here
  have last : Quiet marks (d.inner + d.body.code.length) (d.inner + d.body.code.length + 5) := by
    have here := spared.right
    rw [List.length_append, List.length_replicate, d.body.length_begins, ← Nat.add_assoc,
      ← Nat.add_assoc] at here
    exact here.quiet
  rw [Definition.run, bind_apply]
  refine (d.enter_simulated opens (opens ▸ start) (quiet.mono (by omega) (by omega)) given
    count).bind fun _ m l there => ?_
  obtain ⟨next, inside', storage, given'⟩ := there
  rw [bind_apply, ← storage]
  refine (inner next (next ▸ body) marked (inside'.trans inside)).bind fun flow m l there => ?_
  rw [given'] at there
  exact d.concluded unique (body.behind rfl) last rfl deep there

-- The definitions of the functions that a program knows of, by their labels.
def Library (whole : List Instruction) (marks : Nat → Bool) (o : Outline)
    (functions : Int → Option Definition) : Prop :=
  ∀ label signature, o.functions label = some signature →
    ∃ d, functions label = some d ∧ d.routine.entry = label ∧
      d.routine.params.length = signature.params.length ∧ d.Held whole marks o

theorem dispatch_answers {functions : Int → Option Definition}
    {run : List Value → Definition → Evaluation World Value} {returns : List (List Instruction)}
    {chain : Chain} {ready : Ready} {s : Symbol} (defined : BranchesDefined whole)
    (offers : Offers o.hosts env.externals) (library : Library whole marks o functions)
    (fits : s.Fits o chain ready) (callable : s.isFunction = true)
    (runs : ∀ d, d.Held whole marks o → ∀ (k : Config World) back stack values,
      seek d.routine.entry whole = some k.rest → k.returns = back :: returns →
      k.core.stack = onStack values stack → values.length = d.routine.params.length →
      floor ≤ returns.length → Simulates env whole marks floor (bound - 1) k
        (Yields returns stack back) (run values d k.core.storage)) :
    Answers env whole marks floor bound returns
      (fun s values => dispatch env functions returns.length s values (run values)) s := by
  intro k place rest values stack first lies inside given count
  subst inside
  unfold Symbol.Fits at fits
  by_cases host : s.depth = 0
  · have outer : s.isExternal = true := by simp [Symbol.isExternal, host]
    rw [if_pos host] at fits
    obtain ⟨i, declared, index, found, typed, signature⟩ := fits
    have function : declared.type = .function := by
      rw [typed]
      simpa [Symbol.isFunction] using callable
    obtain ⟨ext, f, offered, arity, _⟩ := offers i declared found function
    rw [Symbol.callInstruction, if_pos outer] at first
    simp only [dispatch, if_pos outer]
    refine Simulates.hosted first lies given (by rwa [index]) ?_
    rw [arity, (signature callable).1, count]
  · have inner : ¬ s.isExternal = true := by simpa [Symbol.isExternal] using host
    rw [if_neg host, if_pos callable] at fits
    obtain ⟨_, body, f, before, known, _⟩ := fits
    obtain ⟨d, here, entry, params, held⟩ := library _ _ known
    rw [Symbol.callInstruction, if_neg inner] at first
    by_cases room : env.maxCallDepth ≤ k.returns.length
    · have does : deed env.externals (.call s.label s.name) k.core = .enter := rfl
      have stopped : Symbolic.move env whole k =
          .stop (.error (.callOverflow k.returns.length)) k.core [] := by
        simp only [Symbolic.move, first, does, if_pos room]
      have ended : Simulates env whole marks floor bound k (Yields k.returns stack rest) _ :=
        fun _ => .halted .refl first lies stopped
      simp only [dispatch, if_neg inner, if_pos room]
      simpa [Outcome.behind] using ended
    · simp only [dispatch, if_neg inner, if_neg room, here]
      obtain ⟨target, found⟩ := lies.target first rfl defined
      refine fun deep => Simulates.entered first lies room found ?_ deep
      exact runs d held _ rest stack values (entry ▸ found) rfl given (count.trans params.symm) deep

theorem invoke_answers {functions : Int → Option Definition} (unique : (labelsOf whole).Nodup)
    (defined : BranchesDefined whole) (offers : Offers o.hosts env.externals)
    (library : Library whole marks o functions) (bound : Nat) (returns : List (List Instruction))
    (chain : Chain) (ready : Ready) (s : Symbol) (fits : s.Fits o chain ready)
    (callable : s.isFunction = true) :
    Answers env whole marks floor bound returns
      (invoke env functions marks bound returns.length) s := by
  induction bound generalizing returns chain ready s with
  | zero =>
    refine dispatch_answers defined offers library fits callable ?_
    intro d held k back stack values _ _ _ _ _
    exact fun _ => .spent .refl (Nat.le_refl 0)
  | succ bound ih =>
    refine dispatch_answers defined offers library fits callable ?_
    intro d held k back stack values found inside given count deep
    obtain ⟨⟨rest, lies⟩, spared, chain, before, ok⟩ := held
    have inner := d.body.simulated unique defined
      (fun chain ready s fits callable => ih (back :: returns) chain ready s fits callable)
        ok.2.2.2.2
    exact d.run_simulated unique lies spared inner found inside given count deep

end

end ScalarScript
