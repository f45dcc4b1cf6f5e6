import ScalarScript.Proofs.Reference.Call
import ScalarScript.Proofs.Typing.Plan
/-!
The code of a whole program does what the program does.
-/
namespace ScalarScript

open Symbolic Compile Evaluation

variable {World : Type}

namespace Stmt

-- The functions known by their entries and the definitions are the same, in the same order.
theorem functions_definitions (t : Stmt) (chain : Chain) (before : Ready) (place : Nat) :
    List.Forall₂ (fun f d => f.1 = d.routine.entry ∧
        f.2.params.length = d.routine.params.length)
      (t.functions chain before) (t.definitions place) := by
  induction t generalizing chain before place with
  | seq a b left right => exact List.rel_append (left _ _ _) (right _ _ _)
  | block a inner => exact inner _ _ _
  | function r body inner =>
    exact .cons ⟨rfl, by simp [Routine.signature, Routine.paramTypes]⟩ (inner _ _ _)
  | ifThen e a otherwise inner => exact inner _ _ _
  | ifElse e a b otherwise done left right => exact List.rel_append (left _ _ _) (right _ _ _)
  | whileLoop e a top done inner => exact inner _ _ _
  | forLoop init e a step top done _ inner _ => exact inner _ _ _
  | loopWhile a e top done inner => exact inner _ _ _
  | skip | expr e | assign s e | declare type s e | leave done | yield e result | exit e =>
    exact .nil

-- Every definition is where its code lies.
theorem definitions_held {whole : List Instruction} {marks : Nat → Bool} {o : Outline} {t : Stmt}
    {chain : Chain} {before : Ready} {loops : List Int} {place : Nat} {rest : List Instruction}
    (ok : t.Ok o chain before loops) (lies : LiesAt whole place (t.code ++ rest))
    (spared : Spared marks place t.begins) :
    ∀ d ∈ t.definitions place, d.Held whole marks o := by
  induction t generalizing chain before loops place rest with
  | seq a b left right =>
    rw [code, List.append_assoc] at lies
    intro d member
    rcases List.mem_append.mp member with first | second
    · exact left ok.1 lies spared.left d first
    · exact right ok.2 (lies.behind rfl) (a.length_begins ▸ spared.right) d second
  | block a inner => exact inner ok lies spared
  | function r body inner =>
    have body' :
        LiesAt whole (place + 3 + r.receive.length) (body.code ++ (conclude r ++ rest)) := by
      have split : (function r body).code ++ rest = .branch .jump r.skip :: .label r.entry ::
          .pushScope r.depth (r.params.length + body.count) ::
            (r.receive ++ (body.code ++ (conclude r ++ rest))) := by
        simp [code]
      exact (lies.behind (a := [_, _, _]) split).behind rfl
    have marked : Spared marks (place + 3 + r.receive.length) body.begins := by
      have here := spared.left.right
      rwa [List.length_replicate, ← Nat.add_assoc] at here
    intro d member
    rcases List.mem_cons.mp member with rfl | deeper
    · exact ⟨⟨rest, lies⟩, spared, chain, before, ok⟩
    · exact inner ok.2.2.2.2 body' marked d deeper
  | ifThen e a otherwise inner =>
    simp only [code, List.append_assoc] at lies
    have marked := spared.left.right
    rw [length_stepOf] at marked
    exact inner ok.2.2 (lies.guard rfl) marked
  | ifElse e a b otherwise done left right =>
    simp only [code, List.append_assoc] at lies
    have marked := spared.left
    simp only [List.append_assoc] at marked
    have first := marked.right
    rw [length_stepOf] at first
    have second := (a.length_begins ▸ first.right).right (a := [false, false])
    have body := lies.guard rfl
    intro d member
    rcases List.mem_append.mp member with inThen | inElse
    · exact left ok.2.2.1 body first.left d inThen
    · exact right ok.2.2.2 ((body.behind rfl).behind (a := [_, _]) rfl) second d inElse
  | whileLoop e a top done inner =>
    simp only [code, List.append_assoc, List.cons_append] at lies
    have marked := spared.left.cons.right
    rw [length_stepOf] at marked
    exact inner ok.2.2 ((lies.behind (a := [_]) rfl).guard rfl) marked
  | forLoop init e a step top done _ inner _ =>
    simp only [code, List.append_assoc, List.cons_append] at lies
    simp only [begins, List.append_assoc, List.cons_append] at spared
    have marked := (init.length_begins ▸ spared.right).cons.right
    rw [length_stepOf] at marked
    exact inner ok.2.2.1 (((lies.behind rfl).behind (a := [_]) rfl).guard rfl) marked.left
  | loopWhile a e top done inner =>
    simp only [code, List.append_assoc, List.cons_append] at lies
    simp only [begins, List.append_assoc, List.cons_append] at spared
    exact inner ok.1 (lies.behind (a := [_]) rfl) spared.cons.left
  | skip | expr e | assign s e | declare type s e | leave done | yield e result | exit e =>
    rintro d ⟨⟩

-- The definitions are what calls find.
theorem library {whole : List Instruction} {marks : Nat → Bool} {t : Stmt}
    {hosts : List Declaration} {exitType : Option Ty} {depths place : Nat} {rest : List Instruction}
    (ok : t.Ok (t.outline hosts exitType depths) [t.frame] [] [])
    (lies : LiesAt whole place (t.code ++ rest)) (spared : Spared marks place t.begins) :
    Library whole marks (t.outline hosts exitType depths) (t.functionAt place) := by
  intro label signature known
  have held := definitions_held ok lies spared
  have same := t.functions_definitions [t.frame] [] place
  have known : (t.functions [t.frame] []).lookup label = some signature := known
  unfold functionAt
  generalize t.definitions place = ds at held same
  generalize t.functions [t.frame] [] = fs at known same
  induction same with
  | nil => cases known
  | @cons f d fs ds here _ ih =>
    rw [List.lookup_cons] at known
    by_cases found : label = f.1
    · simp only [found, beq_self_eq_true, Option.some.injEq] at known
      subst known
      refine ⟨d, ?_, here.1.symm.trans found.symm, here.2.symm, held d List.mem_cons_self⟩
      rw [List.find?_cons_of_pos (by simpa [found] using here.1.symm)]
    · rw [beq_false_of_ne found] at known
      obtain ⟨e, later, rest⟩ := ih (fun d member => held d (List.mem_cons_of_mem _ member)) known
      refine ⟨e, ?_, rest⟩
      rw [List.find?_cons_of_neg (by simpa [← here.1] using Ne.symm found)]
      exact later

theorem spared_steps (t : Stmt) : Spared t.steps 0 t.outset := by
  intro i found
  simp [steps, found]

-- Behind the first instructions of a program stands the code of its tree.
theorem opened {env : Environment World} {whole rest : List Instruction} {marks : Nat → Bool}
    {floor bound : Nat} {k : Config World} (t : Stmt)
    (first : k.rest = (if t.count = 0 then [] else [Instruction.pushScope 1 t.count]) ++ rest)
    (lies : LiesAt whole 1 k.rest) (quiet : Quiet marks 0 t.opening) :
    Simulates env whole marks floor bound k (fun _ => Standing k.returns k.core.stack rest)
      (t.openFrame k.core.storage) := by
  unfold openFrame
  by_cases empty : t.count = 0
  · rw [if_pos empty]
    rw [if_pos empty] at first
    exact .here ⟨first, rfl, rfl, rfl⟩
  · rw [if_neg empty]
    rw [if_neg empty] at first
    have effect := (k.core.effect_pushScope 1 t.count).trans (k.core.pushScope_natCast 1 t.count)
    have run : Simulates env whole marks floor bound k _ _ :=
      Simulates.changed (f := (·.pushFrame 1 t.count)) first (by rintro ⟨⟩) lies rfl effect
    rw [named_of_quiet (quiet 1 (by omega) (by simp [opening, empty])), Outcome.behind_nil] at run
    refine run.extend fun _ m l there => ?_
    subst there
    exact .here ⟨rfl, rfl, rfl, rfl⟩

-- A run of the code of a program goes as the run of its tree.
theorem run_simulated {env : Environment World} {t : Stmt} {hosts : List Declaration}
    {exitType : Option Ty} {depths deepest : Nat} (unique : (labelsOf (t.program depths)).Nodup)
    (defined : BranchesDefined (t.program depths)) (offers : Offers hosts env.externals)
    {marks : Nat → Bool} (spared : Spared marks 0 t.outset)
    (ok : t.Ok (t.outline hosts exitType deepest) [t.frame] [] []) (bound : Nat)
    (core : Core World) :
    Simulates env (t.program depths) marks 0 bound ⟨t.program depths, [], core⟩
      (fun _ _ _ => False) (t.run depths env marks bound core.storage) := by
  have all : LiesAt (t.program depths) 0 (t.program depths) := ⟨[], rfl, rfl⟩
  have split : t.program depths = Instruction.scopeDepth depths ::
      ((if t.count = 0 then [] else [Instruction.pushScope 1 t.count]) ++
        (t.code ++ [Instruction.unary .exit .null])) := by
    simp [program]
  have opens := all.behind (a := [_]) split
  have body : LiesAt (t.program depths) t.opening (t.code ++ [Instruction.unary .exit .null]) := by
    have here := opens.behind rfl
    unfold opening
    split at here
    · rwa [if_pos ‹_›]
    · rwa [if_neg ‹_›]
  have quiet := spared.left.left.quiet
  have marked := spared.left.right
  have last : marks (t.opening + t.code.length) = false := by
    have here := spared.right 0 rfl
    simpa [t.length_begins] using here
  simp only [Nat.zero_add, List.length_replicate] at quiet marked
  have deepened : core.effect (.scopeDepth depths) =
      (Except.ok (core.storage.deepen depths)).map core.onto := rfl
  have run : Simulates env (t.program depths) marks 0 bound ⟨t.program depths, [], core⟩ _ _ :=
    Simulates.changed (f := fun m => .ok (m.deepen depths)) split (by rintro ⟨⟩) all rfl deepened
  rw [named_of_quiet (quiet 0 (by omega) (by unfold opening; split <;> omega)),
    Outcome.behind_nil] at run
  rw [Stmt.run, bind_apply]
  refine run.bind fun _ m l there => ?_
  subst there
  rw [bind_apply]
  refine (t.opened rfl opens quiet).bind fun _ m l there => ?_
  obtain ⟨next, inside, storage, _⟩ := there
  have served := @invoke_answers _ env _ marks 0 _ _ unique defined offers (library ok body marked)
    bound []
  rw [bind_apply, ← storage]
  refine (t.simulated unique defined served ok next (next ▸ body) marked inside).bind
    fun flow m l there => ?_
  obtain ⟨leads, _, storage, _⟩ := there
  cases flow with
  | next =>
    have does : deed env.externals (.unary .exit .null) l.core = .stop (.ok .null) l.core [] := rfl
    have ended : Simulates env (t.program depths) marks 0 bound l (fun (_ : Unit) _ _ => False) _ :=
      Simulates.stop leads (leads.symm ▸ body.behind rfl) does
    rwa [storage, named_of_quiet last] at ended
  | leave =>
    obtain ⟨done, around, _⟩ := leads
    cases around
  | give v =>
    obtain ⟨_, f, around, _⟩ := leads
    cases around

end Stmt

end ScalarScript
