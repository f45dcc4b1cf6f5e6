import ScalarScript.Proofs.Reference.Interpreter
import ScalarScript.Proofs.Symbolic.Marks
/-!
Runs of labelled code that follow an evaluation: every event of the one is an event of the other, in
the same order, and where the evaluation ends the run arrives, or ends alike. An evaluation that
reaches its bound has a run of at least as many moves.
-/
namespace ScalarScript

open Symbolic

variable {World α β : Type}

-- Code that lies at a place of the whole.
def LiesAt (whole : List Instruction) (place : Nat) (code : List Instruction) : Prop :=
  ∃ pre, whole = pre ++ code ∧ pre.length = place

namespace LiesAt

variable {whole a b : List Instruction} {place : Nat}

theorem place_eq (lies : LiesAt whole place a) : whole.length - a.length = place := by
  obtain ⟨pre, rfl, rfl⟩ := lies
  simp

theorem skip (lies : LiesAt whole place (a ++ b)) : LiesAt whole (place + a.length) b := by
  obtain ⟨pre, rfl, rfl⟩ := lies
  exact ⟨pre ++ a, by simp, by simp⟩

theorem behind {code : List Instruction} (lies : LiesAt whole place code) (split : code = a ++ b) :
    LiesAt whole (place + a.length) b := by
  subst split
  exact lies.skip

theorem seek {label : Int} (lies : LiesAt whole place (.label label :: a))
    (unique : (labelsOf whole).Nodup) : ScalarScript.seek label whole = some a := by
  obtain ⟨pre, rfl, _⟩ := lies
  exact seek_of_split unique rfl rfl rfl

-- Branches lead to labels of the whole.
theorem target {code rest : List Instruction} {i : Instruction} (lies : LiesAt whole place code)
    (first : code = i :: rest) (branches : i.opcode.isBranch = true)
    (defined : BranchesDefined whole) :
    ∃ target, ScalarScript.seek i.target whole = some target := by
  obtain ⟨pre, rfl, _⟩ := lies
  have member : i ∈ pre ++ code := by simp [first]
  refine Option.ne_none_iff_exists'.mp fun absent => ?_
  exact seek_eq_none_iff.mp absent (defined i member branches)

end LiesAt

-- Moves of a run, with what can be seen of them. Labels are passed without a move. On the way there
-- are never fewer calls than told.
inductive Path (env : Environment World) (whole : List Instruction) (marks : Nat → Bool)
    (floor : Nat) : Nat → Config World → List Event → Config World → Prop where
  | refl {k : Config World} : Path env whole marks floor 0 k [] k
  | label {n : Nat} {k l : Config World} {i : Instruction} {rest : List Instruction}
      {seen : List Event} (first : k.rest = i :: rest) (is : i.opcode = .label)
      (later : Path env whole marks floor n { k with rest } seen l) :
      Path env whole marks floor n k seen l
  | head {n place : Nat} {k l m : Config World} {i : Instruction} {rest : List Instruction}
      {made : List HostCall} {seen : List Event} (first : k.rest = i :: rest)
      (active : i.opcode ≠ .label) (lies : LiesAt whole place k.rest)
      (moved : move env whole k = .next l made) (deep : floor ≤ l.returns.length)
      (later : Path env whole marks floor n l seen m) :
      Path env whole marks floor (n + 1) k (named marks place ++ made.map .call ++ seen) m

namespace Path

variable {env : Environment World} {whole : List Instruction} {marks : Nat → Bool} {floor : Nat}
  {k l j : Config World}

theorem trans {n m : Nat} {seen more : List Event} (first : Path env whole marks floor n k seen l)
    (second : Path env whole marks floor m l more j) :
    Path env whole marks floor (n + m) k (seen ++ more) j := by
  induction first with
  | refl => simpa using second
  | label here is _ ih => exact .label here is (ih second)
  | @head n place _ _ _ _ _ _ _ here active lies moved deep _ ih =>
    rw [Nat.add_right_comm, List.append_assoc]
    exact .head here active lies moved deep (ih second)

theorem deep {n : Nat} {seen : List Event} (path : Path env whole marks floor n k seen l)
    (first : floor ≤ k.returns.length) : floor ≤ l.returns.length := by
  induction path with
  | refl => exact first
  | label _ _ _ ih => exact ih first
  | head _ _ _ _ deep _ ih => exact ih deep

-- A branch that is taken where no step of interest starts.
theorem branch {place : Nat} {i : Instruction} {rest target : List Instruction}
    (first : k.rest = i :: rest) (active : i.opcode ≠ .label) (lies : LiesAt whole place k.rest)
    (quiet : marks place = false) (done : deed env.externals i k.core = .branch)
    (found : seek i.target whole = some target) (deep : floor ≤ k.returns.length) :
    Path env whole marks floor 1 k [] { k with rest := target } := by
  have moved : move env whole k = .next { k with rest := target } [] := by
    simp only [move, first, done, Config.goto, found]
  have path : Path env whole marks floor 1 k _ { k with rest := target } :=
    .head first active lies moved deep .refl
  simpa [named, quiet] using path

end Path

-- A run from a state that follows an evaluation with some outcome.
inductive Accords (env : Environment World) (whole : List Instruction) (marks : Nat → Bool)
    (floor bound : Nat) (k : Config World) (there : α → Storage World → Config World → Prop) :
    Outcome World α → Prop where
  | done {n : Nat} {a : α} {after : Storage World} {seen : List Event} {l : Config World}
      (path : Path env whole marks floor n k seen l) (reached : there a after l) :
      Accords env whole marks floor bound k there (.done a after seen)
  | halted {n place : Nat} {result : Except RuntimeFault Value} {core : Core World}
      {seen : List Event} {l : Config World} {i : Instruction} {rest : List Instruction}
      {made : List HostCall} (path : Path env whole marks floor n k seen l)
      (first : l.rest = i :: rest) (lies : LiesAt whole place l.rest)
      (stopped : move env whole l = .stop result core made) :
      Accords env whole marks floor bound k there
        (.halted result core.storage (seen ++ (named marks place ++ made.map .call)))
  | spent {n : Nat} {seen : List Event} {l : Config World}
      (path : Path env whole marks floor n k seen l) (long : bound ≤ n) :
      Accords env whole marks floor bound k there (.spent seen)

-- The same from any state inside enough calls.
def Simulates (env : Environment World) (whole : List Instruction) (marks : Nat → Bool)
    (floor bound : Nat) (k : Config World) (there : α → Storage World → Config World → Prop)
    (x : Outcome World α) : Prop :=
  floor ≤ k.returns.length → Accords env whole marks floor bound k there x

namespace Simulates

variable {env : Environment World} {whole : List Instruction} {marks : Nat → Bool}
  {floor bound : Nat} {k l : Config World} {there : α → Storage World → Config World → Prop}

theorem here {a : α} {m : Storage World} (reached : there a m k) :
    Simulates env whole marks floor bound k there (.done a m []) := fun _ => .done .refl reached

-- Moves in front of a run that follows an evaluation.
theorem after {n : Nat} {seen : List Event} {x : Outcome World α}
    (path : floor ≤ k.returns.length → Path env whole marks floor n k seen l)
    (simulates : Simulates env whole marks floor (bound - n) l there x) :
    Simulates env whole marks floor bound k there (x.behind seen) := by
  intro deep
  have path := path deep
  cases simulates (path.deep deep) with
  | done more reached => exact .done (path.trans more) reached
  | halted more first lies stopped =>
    have run : Accords env whole marks floor bound k there _ :=
      .halted (path.trans more) first lies stopped
    rwa [List.append_assoc] at run
  | spent more long => exact .spent (path.trans more) (by omega)

theorem mono {less : Nat} {x : Outcome World α} (fewer : less ≤ bound)
    (simulates : Simulates env whole marks floor bound k there x) :
    Simulates env whole marks floor less k there x := by
  intro deep
  cases simulates deep with
  | done path reached => exact .done path reached
  | halted path first lies stopped => exact .halted path first lies stopped
  | spent path long => exact .spent path (fewer.trans long)

theorem bind {x : Outcome World α} {f : α → Storage World → Outcome World β}
    {onward : β → Storage World → Config World → Prop}
    (first : Simulates env whole marks floor bound k there x)
    (second : ∀ a m l, there a m l → Simulates env whole marks floor bound l onward (f a m)) :
    Simulates env whole marks floor bound k onward (x.bind f) := by
  intro deep
  cases first deep with
  | done path reached =>
    exact after (fun _ => path) ((second _ _ _ reached).mono (Nat.sub_le _ _)) deep
  | halted path here lies stopped => exact .halted path here lies stopped
  | spent path long => exact .spent path long

-- The run goes on without any event.
theorem extend {x : Outcome World α} {onward : α → Storage World → Config World → Prop}
    (first : Simulates env whole marks floor bound k there x)
    (further : ∀ a m l, there a m l →
      Simulates env whole marks floor bound l onward (.done a m [])) :
    Simulates env whole marks floor bound k onward x := by
  have run := first.bind further
  rwa [Outcome.bind_done] at run

-- A label in front makes no difference.
theorem label {id : Int} {rest : List Instruction} {x : Outcome World α}
    (first : k.rest = .label id :: rest)
    (simulates : Simulates env whole marks floor bound { k with rest } there x) :
    Simulates env whole marks floor bound k there x := by
  intro deep
  cases simulates deep with
  | done path reached => exact .done (.label first rfl path) reached
  | halted path first' lies stopped => exact .halted (.label first rfl path) first' lies stopped
  | spent path long => exact .spent (.label first rfl path) long

variable {place : Nat} {i : Instruction} {rest : List Instruction}

theorem move {made : List HostCall} {x : Outcome World α} (first : k.rest = i :: rest)
    (active : i.opcode ≠ .label) (lies : LiesAt whole place k.rest)
    (moved : Symbolic.move env whole k = .next l made)
    (deep : floor ≤ k.returns.length → floor ≤ l.returns.length)
    (simulates : Simulates env whole marks floor (bound - 1) l there x) :
    Simulates env whole marks floor bound k there
      (x.behind (named marks place ++ made.map .call)) := by
  refine simulates.after fun inside => ?_
  have one : Path env whole marks floor 1 k (named marks place ++ made.map .call ++ []) l :=
    .head first active lies moved (deep inside) .refl
  simpa using one

-- An instruction that works on the core, where no step of interest starts.
theorem work {core : Core World} {x : Outcome World α} (first : k.rest = i :: rest)
    (active : i.opcode ≠ .label) (lies : LiesAt whole place k.rest) (quiet : marks place = false)
    (done : deed env.externals i k.core = .proceed core [])
    (simulates : Simulates env whole marks floor bound { k with rest, core } there x) :
    Simulates env whole marks floor bound k there x := by
  have moved : Symbolic.move env whole k = .next { k with rest, core } [] := by
    simp only [Symbolic.move, first, done]
  have run := move first active lies moved id (simulates.mono (Nat.sub_le bound 1))
  simpa [named, quiet] using run

theorem jump {target : List Instruction} {x : Outcome World α} (first : k.rest = i :: rest)
    (active : i.opcode ≠ .label) (lies : LiesAt whole place k.rest) (quiet : marks place = false)
    (done : deed env.externals i k.core = .branch) (found : seek i.target whole = some target)
    (simulates : Simulates env whole marks floor bound { k with rest := target } there x) :
    Simulates env whole marks floor bound k there x := by
  have run := (simulates.mono (Nat.sub_le bound 1)).after
    (Path.branch first active lies quiet done found)
  rwa [Outcome.behind_nil] at run

theorem stop {made : List HostCall} {result : Except RuntimeFault Value} {core : Core World}
    (first : k.rest = i :: rest) (lies : LiesAt whole place k.rest)
    (done : deed env.externals i k.core = .stop result core made) :
    Simulates env whole marks floor bound k there
      (.halted result core.storage (named marks place ++ made.map .call)) := by
  have stopped : Symbolic.move env whole k = .stop result core made := by
    simp only [Symbolic.move, first, done]
  exact fun _ => .halted .refl first lies stopped

end Simulates

end ScalarScript
