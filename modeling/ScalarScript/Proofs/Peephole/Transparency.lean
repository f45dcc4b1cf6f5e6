import ScalarScript.Proofs.Control.Confined
import ScalarScript.Proofs.Layout.Program
import ScalarScript.Proofs.Peephole.Convention
import ScalarScript.Proofs.Peephole.Simulation
/-!
Optimization is transparent. A program that was compiled from a source and the same program after any
number of passes cannot be told apart by a host: where the run of the first one ends, unless in an
invalid operation, the run of the second one ends alike, with the same calls of the host on the way and
the same values in its variables.
-/
namespace ScalarScript

open Symbolic

variable {World Watch : Type}

section

variable {tokens : List Token} {declarations : List Declaration} {exitType : Option Ty} {p : Program}
  {t : Stmt} {depths : Nat} {maxPasses : Int} {o : Optimization}

theorem optimize_stage (done : optimize p maxPasses = .ok o) : o.program.stage = .optimized := by
  unfold optimize at done
  split at done
  · cases done
  · cases done
    rfl

-- Every rewriting that optimization makes refines the program before it.
theorem Compiled.refines (compiled : Compiled tokens declarations exitType p t depths)
    (plain : PlainTypes declarations exitType) (done : optimize p maxPasses = .ok o) :
    Refines (strip p.code.toList) (strip o.program.code.toList) := by
  obtain ⟨o', done', -, code, -⟩ := optimize_eq compiled.stage maxPasses
  cases done.symm.trans done'
  have sane : Peephole.State.Sane { flow := .of (p.code.filter (·.opcode ≠ .debugLine)) } := by
    refine ⟨rfl, ?_⟩
    show Disciplined (p.code.filter (·.opcode ≠ .debugLine)).toList
    rw [toList_stripped, compiled.code]
    exact t.disciplined plain compiled.deep compiled.unique compiled.ok
  obtain ⟨-, refines⟩ := (allPasses_finished p maxPasses).reworks.refines sane
  have bare : strip o.program.code.toList = o.program.code.toList := by
    rw [code, strip, List.filter_eq_self]
    simpa using (allPasses_accounted p maxPasses).unmarked
  rw [bare, code, ← toList_stripped]
  exact refines

end

-- At the start there is no frame but the host's.
theorem Machine.scripted_start (around : Surroundings World Watch) (context : Context) :
    Scripted (Machine.start around context).scopes := by
  intro depth frames inner found
  cases depth with
  | zero => cases inner
  | succ depth => cases found

-- An optimized program links, and whatever a run of the program that it was made from ends in, a run
-- of it ends in as well. The host answers by its world, which may be all that it was asked so far.
theorem Accepted.optimized_transparent {bindings : List (Binding World)} {source exitName : String}
    {bound : Bound World} {exitType : Option Ty} {p : Program}
    (accepted : Accepted bindings source exitName bound exitType p) (maxPasses : Int) :
    ∃ o, optimize p maxPasses = .ok o ∧ (∃ q log, link o.program = .ok (q, log)) ∧
      ∀ {Watch : Type} {m n : Machine World Watch} {first second : RunState World Watch},
        m.Loads bound p → n.Loads bound o.program → n.maxCallDepth = m.maxCallDepth →
        bound.Starts first → bound.Starts second → second.world = first.world →
        Undisturbed m first → Undisturbed n second →
        ∀ fuel seen s, m.runFrom fuel first = some (seen, s) →
          (∀ e, seen = .error e → e.code ≠ .invalidOperation) →
          ∃ fuel' seen' s', n.runFrom fuel' second = some (seen', s') ∧ SameEnd seen seen' ∧
            n.hostCalls fuel' second = m.hostCalls fuel first ∧ s'.cells = s.cells ∧
            s'.world = s.world := by
  obtain ⟨tokens, t, depths, -, compiled⟩ := accepted.tree
  obtain ⟨o, done, -⟩ := optimize_eq compiled.stage maxPasses
  have enclosed := compiled.optimized_enclosed done
  have unlinked : o.program.stage ≠ .ready := by simp [optimize_stage done]
  have plain : PlainTypes bound.declarations exitType :=
    ⟨(Binding.resolve_ok accepted.resolved).plain, Script.exitType_plain accepted.exits⟩
  refine ⟨o, done, ⟨_, _, (link_eq_ok_iff unlinked).mpr ⟨enclosed.unique, enclosed.defined, rfl, rfl⟩⟩, ?_⟩
  rintro Watch m n _ _ loads loads' depth ⟨world, watch, context, rfl⟩ ⟨world', watch', context', rfl⟩
    same quiet quiet' fuel seen s ran valid
  have runs := loads.runs compiled.stage accepted.resolved
  have runs' := loads'.runs_of_unlinked unlinked accepted.resolved
  have environment : n.environment = m.environment := by
    simp only [Machine.environment, loads.externals, loads'.externals, depth]
  -- both runs start with the same core
  have core : (Machine.start ⟨bound.cells.toArray, world', watch', []⟩ context').toCore =
      (Machine.start ⟨bound.cells.toArray, world, watch, []⟩ context).toCore := by
    simp only [Machine.start] at same ⊢
    rw [same]
  obtain ⟨k, outcome, ends, reports⟩ := Linked.At.ends runs (Linked.at_start _ _ _) quiet ran
  have sound : ∀ f, outcome = .error f → ¬ f.Invalid := by
    rintro f rfl invalid
    cases seen with
    | ok v => exact reports
    | error e => exact valid e rfl (Eq.trans reports invalid)
  obtain ⟨k', last, ends', cells, world⟩ := (compiled.refines plain done).ends m.environment
    (Machine.scripted_start _ _) sound ends
  rw [← environment, ← core] at ends'
  obtain ⟨fuel', seen', s', ran', made, final, reports'⟩ :=
    Linked.At.runs runs' (Linked.at_start _ _ _) quiet' ends'
  refine ⟨fuel', seen', s', ran', reports.sameEnd reports', made, ?_, ?_⟩
  · rw [← final] at cells
    exact cells
  · rw [← final] at world
    exact world

namespace Sample

def optimized : Program := ((optimize program 0).toOption.map (·.program)).getD {}

def optimizedMachine : Machine Unit Unit where
  code := ((link optimized).toOption.map (·.1.code)).getD #[]
  externals := bound.externals.toArray

-- The truth value that a run of a hundred steps exits with.
def answer : Option Bool :=
  match machine.runFrom 100 first with
  | some (.ok (.bool truth), _) => truth
  | _ => none

-- Optimized, the program is shorter and it links; what is computed of the run is that of the other.
theorem optimized_computed :
    optimized.code.size < program.code.size ∧ (link optimized).isOk = true ∧ answer = some false ∧
      (machine.hostCalls 100 first).map (·.name) = ["rate"] := by
  decide +kernel

end Sample

-- Optimized, the sample still calls its host once and exits with a comparison that does not hold.
theorem Sample.optimized_alike :
    Sample.optimized.code.size < Sample.program.code.size ∧
      ∃ fuel s, Sample.optimizedMachine.runFrom fuel Sample.first = some (.ok (.truth false), s) ∧
        (Sample.optimizedMachine.hostCalls fuel Sample.first).map (·.name) = ["rate"] := by
  obtain ⟨shorter, links, answered, asked⟩ := Sample.optimized_computed
  refine ⟨shorter, ?_⟩
  obtain ⟨o, done, -, alike⟩ := Accepted.optimized_transparent Sample.accepted 0
  have same : Sample.optimized = o.program := by
    unfold Sample.optimized
    rw [done]
    rfl
  have loads : Sample.optimizedMachine.Loads Sample.bound o.program :=
    same ▸ .of_linkable links (by simp only [Sample.optimizedMachine]) rfl
  have quiet (m : Machine Unit Unit) (bare : m.observer = none) (free : m.instructionLimit = 0) :
      Undisturbed m Sample.first := ⟨bare, free.le, .inl rfl⟩
  unfold Sample.answer at answered
  split at answered
  · rename_i s ran
    rw [answered] at ran
    obtain ⟨fuel, seen, s', ran', ends, made, -⟩ := alike Sample.loads loads rfl Sample.starts
      Sample.starts rfl (quiet _ rfl rfl) (quiet _ rfl rfl) 100 _ s ran (by simp)
    cases seen with
    | error e => exact ends.elim
    | ok v =>
      cases ends
      exact ⟨fuel, s', ran', by rw [made, asked]⟩
  · cases answered

end ScalarScript
