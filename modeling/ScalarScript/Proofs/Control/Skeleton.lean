import ScalarScript.Proofs.Symbolic.Linked
/-!
The skeleton of a program: its labels, its branches, and where functions begin and end. It tells
which functions stand around a place, and whether control keeps to them.
-/
namespace ScalarScript

-- What an instruction means for where control may go. The condition of a jump does not matter.
inductive Control where
  | label (id : Int)
  -- always taken
  | jump (id : Int)
  -- taken or not
  | branch (id : Int)
  | call (id : Int)
  | frame
  | ret
  deriving DecidableEq

def Instruction.control? (i : Instruction) : Option Control :=
  match i.opcode with
  | .label => some (.label i.target)
  | .jump => some (.jump i.target)
  | .jumpIf _ => some (.branch i.target)
  | .call => some (.call i.target)
  | .pushScope => some .frame
  | .ret => some .ret
  | _ => none

def skeleton (code : List Instruction) : List Control := code.filterMap Instruction.control?

@[simp] theorem skeleton_nil : skeleton [] = [] := rfl

@[simp] theorem skeleton_append (a b : List Instruction) :
    skeleton (a ++ b) = skeleton a ++ skeleton b := by simp [skeleton]

theorem skeleton_cons (i : Instruction) (rest : List Instruction) :
    skeleton (i :: rest) = i.control?.toList ++ skeleton rest := by
  unfold skeleton
  rw [List.filterMap_cons]
  cases i.control? <;> rfl

theorem skeleton_cons_of_some {i : Instruction} {c : Control} (is : i.control? = some c)
    (rest : List Instruction) : skeleton (i :: rest) = c :: skeleton rest := by
  rw [skeleton_cons, is]
  rfl

theorem skeleton_cons_of_none {i : Instruction} (plain : i.control? = none)
    (rest : List Instruction) : skeleton (i :: rest) = skeleton rest := by
  rw [skeleton_cons, plain]
  rfl

-- Line markers are no part of it.
theorem skeleton_strip (code : List Instruction) : skeleton (strip code) = skeleton code := by
  induction code with
  | nil => rfl
  | cons i rest ih =>
    by_cases mark : i.opcode = .debugLine
    · have plain : i.control? = none := by simp [Instruction.control?, mark]
      rw [strip_cons_debugLine mark, skeleton_cons_of_none plain, ih]
    · rw [strip_cons_other mark, skeleton_cons, skeleton_cons, ih]

theorem Instruction.opcode_of_control?_label {i : Instruction} {id : Int}
    (is : i.control? = some (.label id)) : i.opcode = .label ∧ i.target = id := by
  unfold control? at is
  split at is
  all_goals cases is
  exact ⟨‹_›, rfl⟩

-- An instruction of the skeleton comes from one of the program.
theorem split_of_skeleton {code : List Instruction} {pre rest : List Control} {c : Control}
    (split : skeleton code = pre ++ c :: rest) :
    ∃ (before : List Instruction) (i : Instruction) (behind : List Instruction),
      code = before ++ i :: behind ∧ i.control? = some c ∧ skeleton before = pre := by
  obtain ⟨before, tail, whole, first, second⟩ := List.filterMap_eq_append_iff.mp split
  obtain ⟨passed, i, behind, parts, none, is, _⟩ := List.filterMap_eq_cons_iff.mp second
  refine ⟨before ++ passed, i, behind, by rw [whole, parts, List.append_assoc], is, ?_⟩
  have silent : skeleton passed = [] := List.filterMap_eq_nil_iff.mpr none
  rw [skeleton_append, silent, List.append_nil]
  exact first

namespace Control

-- The labels at which functions start: what follows them makes a frame.
def entries : List Control → List Int
  | [] => []
  | .label id :: rest => if rest.head? = some .frame then id :: entries rest else entries rest
  | _ :: rest => entries rest

def label? : Control → Option Int
  | .label id => some id
  | _ => none

def target? : Control → Option Int
  | .jump id | .branch id => some id
  | _ => none

section

variable (starts : List Int)

-- The functions around what follows, innermost first, each by its entry.
def cross (outer : List Int) : Control → List Int
  | .label id => if id ∈ starts then id :: outer else outer
  | .ret => outer.tail
  | _ => outer

def around (outer : List Int) (cs : List Control) : List Int := cs.foldl (cross starts) outer

-- The labels that are no entries.
def spot? : Control → Option Int
  | .label id => if id ∈ starts then none else some id
  | _ => none

-- What is picked, each with the functions around what follows it.
def sites (pick : Control → Option Int) : List Int → List Control → List (Int × List Int)
  | _, [] => []
  | outer, c :: rest =>
    ((pick c).map (·, cross starts outer c)).toList ++ sites pick (cross starts outer c) rest

variable {starts} {outer : List Int} {pick : Control → Option Int}

@[simp] theorem around_nil : around starts outer [] = outer := rfl

@[simp] theorem around_cons (c : Control) (rest : List Control) :
    around starts outer (c :: rest) = around starts (cross starts outer c) rest := rfl

@[simp] theorem around_append (a b : List Control) :
    around starts outer (a ++ b) = around starts (around starts outer a) b := List.foldl_append

@[simp] theorem sites_nil : sites starts pick outer [] = [] := rfl

@[simp] theorem sites_append (a b : List Control) :
    sites starts pick outer (a ++ b) =
      sites starts pick outer a ++ sites starts pick (around starts outer a) b := by
  induction a generalizing outer with
  | nil => rfl
  | cons c a ih => simp [sites, ih]

theorem mem_sites {p : Int × List Int} {cs : List Control} :
    p ∈ sites starts pick outer cs ↔ ∃ pre c rest, cs = pre ++ c :: rest ∧ pick c = some p.1 ∧
      p.2 = around starts outer (pre ++ [c]) := by
  induction cs generalizing outer with
  | nil => simp
  | cons d cs ih =>
    rw [sites, List.mem_append, ih]
    constructor
    · rintro (here | ⟨pre, c, rest, rfl, picked, same⟩)
      · cases picked : pick d with
        | none => simp [picked] at here
        | some id =>
          rw [picked] at here
          obtain rfl := List.mem_singleton.mp here
          exact ⟨[], d, cs, rfl, picked, rfl⟩
      · exact ⟨d :: pre, c, rest, rfl, picked, same⟩
    · rintro ⟨pre, c, rest, split, picked, same⟩
      cases pre with
      | nil =>
        cases split
        refine .inl ?_
        rw [picked]
        exact List.mem_singleton.mpr (Prod.ext rfl same)
      | cons e pre =>
        cases split
        exact .inr ⟨pre, c, rest, rfl, picked, same⟩

end

-- Code that starts no frame adds its own entries.
theorem entries_append (a : List Control) {b : List Control} (unframed : b.head? ≠ some .frame) :
    entries (a ++ b) = entries a ++ entries b := by
  induction a with
  | nil => rfl
  | cons c a ih =>
    cases c with
    | label id =>
      have same : (a ++ b).head? = some .frame ↔ a.head? = some .frame := by
        cases a with
        | nil => simpa using unframed
        | cons d a => rfl
      simp only [List.cons_append, entries, same, ih]
      split <;> rfl
    | _ => exact ih

theorem mem_filterMap_of_mem_entries {id : Int} {cs : List Control} (member : id ∈ entries cs) :
    id ∈ cs.filterMap label? := by
  induction cs with
  | nil => cases member
  | cons c cs ih =>
    cases c with
    | label other =>
      rw [List.filterMap_cons_some (by rfl : label? (.label other) = some other)]
      rw [entries] at member
      split at member
      · rcases List.mem_cons.mp member with rfl | later
        · exact List.mem_cons_self
        · exact List.mem_cons_of_mem _ (ih later)
      · exact List.mem_cons_of_mem _ (ih member)
    | _ => exact ih member

end Control

open Control

theorem labelsOf_eq_skeleton (code : List Instruction) :
    labelsOf code = (skeleton code).filterMap label? := by
  induction code with
  | nil => rfl
  | cons i rest ih =>
    by_cases is : i.opcode = .label
    · have control : i.control? = some (.label i.target) := by simp [Instruction.control?, is]
      rw [labelsOf_cons_label is, skeleton_cons_of_some control, ih]
      rfl
    · rw [labelsOf_cons_other is, ih, skeleton_cons, List.filterMap_append]
      have none : i.control?.toList.filterMap label? = [] := by
        unfold Instruction.control?
        split <;> first | contradiction | rfl
      rw [none, List.nil_append]

-- The entries of the functions of a program.
def functionEntries (code : List Instruction) : List Int := entries (skeleton code)

-- The functions around what follows a part of a program, innermost first, each by its entry. There
-- are none at the top level.
def functionsBehind (code pre : List Instruction) : List Int :=
  around (functionEntries code) [] (skeleton pre)

-- Control keeps to the bodies of functions unless it calls or returns.
structure Enclosed (code : List Instruction) : Prop where
  -- every label stands at one place
  unique : (labelsOf code).Nodup
  defined : BranchesDefined code
  calls : ∀ i ∈ code, i.opcode = .call → i.target ∈ functionEntries code
  -- a jump leads to a label in the same body, and to no entry
  jumps : ∀ pre (i : Instruction) rest, code = pre ++ i :: rest → i.opcode.isBranch = true →
    i.opcode ≠ .call →
    i.target ∉ functionEntries code ∧
    ∃ (before : List Instruction) (j : Instruction) (behind : List Instruction),
      code = before ++ j :: behind ∧ j.opcode = .label ∧ j.target = i.target ∧
        functionsBehind code (before ++ [j]) = functionsBehind code pre
  -- no function is entered from what stands in front of it
  fenced : ∀ (pre : List Instruction) (j : Instruction) rest, code = pre ++ j :: rest →
    j.opcode = .label → j.target ∈ functionEntries code → ∃ i ∈ pre.getLast?, i.opcode = .jump
  -- every function that begins ends
  closed : functionsBehind code code = []

-- The part of it that is a matter of the skeleton.
structure Control.Sealed (cs : List Control) : Prop where
  unique : (cs.filterMap label?).Nodup
  calls : ∀ id, .call id ∈ cs → id ∈ entries cs
  jumps : sites (entries cs) target? [] cs ⊆ sites (entries cs) (spot? (entries cs)) [] cs
  closed : around (entries cs) [] cs = []

-- The rest of it.
def Fenced (code : List Instruction) : Prop :=
  ∀ (pre : List Instruction) (j : Instruction) rest, code = pre ++ j :: rest →
    j.opcode = .label → j.target ∈ functionEntries code → ∃ i ∈ pre.getLast?, i.opcode = .jump

namespace Enclosed

theorem jumps_of_sealed {code : List Instruction} (whole : Sealed (skeleton code))
    {pre rest : List Instruction} {i : Instruction} (split : code = pre ++ i :: rest)
    (branch : i.opcode.isBranch = true) (other : i.opcode ≠ .call) :
    i.target ∉ functionEntries code ∧
    ∃ (before : List Instruction) (j : Instruction) (behind : List Instruction),
      code = before ++ j :: behind ∧ j.opcode = .label ∧ j.target = i.target ∧
        functionsBehind code (before ++ [j]) = functionsBehind code pre := by
  have jump : ∃ c, i.control? = some c ∧ c.target? = some i.target ∧
      ∀ outer, cross (functionEntries code) outer c = outer := by
    cases opcode : i.opcode <;> simp [opcode, Opcode.isBranch] at branch other
    · exact ⟨.jump i.target, by simp [Instruction.control?, opcode], rfl, fun _ => rfl⟩
    · exact ⟨.branch i.target, by simp [Instruction.control?, opcode], rfl, fun _ => rfl⟩
  obtain ⟨c, is, leads, stays⟩ := jump
  have parts : skeleton code = skeleton pre ++ c :: skeleton rest := by
    rw [split, skeleton_append, skeleton_cons_of_some is]
  have asked : (i.target, functionsBehind code pre) ∈
      sites (functionEntries code) target? [] (skeleton code) := by
    refine mem_sites.mpr ⟨skeleton pre, c, skeleton rest, parts, leads, ?_⟩
    rw [around_append, around_cons, stays]
    rfl
  obtain ⟨front, d, tail, place, spot, same⟩ := mem_sites.mp (whole.jumps asked)
  cases d with
  | label id =>
    simp only [spot?] at spot
    split at spot
    · cases spot
    · rename_i entry
      cases spot
      obtain ⟨before, j, behind, parts, is, front⟩ := split_of_skeleton place
      obtain ⟨label, target⟩ := Instruction.opcode_of_control?_label is
      refine ⟨entry, before, j, behind, parts, label, target, ?_⟩
      rw [functionsBehind, skeleton_append, skeleton_cons_of_some is, front]
      exact same.symm
  | _ => cases spot

theorem of_skeleton {code : List Instruction} (whole : Sealed (skeleton code))
    (fenced : Fenced code) : Enclosed code := by
  have calls : ∀ i ∈ code, i.opcode = .call → i.target ∈ functionEntries code := by
    intro i member call
    refine whole.calls i.target (List.mem_filterMap.mpr ⟨i, member, ?_⟩)
    simp [Instruction.control?, call]
  refine ⟨labelsOf_eq_skeleton code ▸ whole.unique, ?_, calls,
    fun pre i rest => jumps_of_sealed whole, fenced, whole.closed⟩
  intro i member branch
  by_cases call : i.opcode = .call
  · rw [labelsOf_eq_skeleton]
    exact mem_filterMap_of_mem_entries (calls i member call)
  · obtain ⟨pre, rest, split⟩ := List.append_of_mem member
    obtain ⟨_, before, j, behind, parts, label, target, _⟩ :=
      jumps_of_sealed whole split branch call
    rw [← target, parts, labelsOf_append, labelsOf_cons_label label]
    simp

end Enclosed

-- The parts of a program that end at a label of it are determined by the label.
theorem eq_of_label {code a b c d : List Instruction} {i j : Instruction}
    (unique : (labelsOf code).Nodup) (one : code = a ++ i :: b) (two : code = c ++ j :: d)
    (first : i.opcode = .label) (second : j.opcode = .label) (same : i.target = j.target) :
    a = c ∧ i = j ∧ b = d := by
  have rest : b = d := Option.some.inj <|
    (seek_of_split unique one first same).symm.trans (seek_of_split unique two second rfl)
  subst rest
  have fronts : a ++ [i] = c ++ [j] := by
    rw [one] at two
    exact (List.append_left_inj b).mp (by simpa using two)
  obtain ⟨pre, last⟩ := List.append_inj' fronts rfl
  exact ⟨pre, List.head_eq_of_cons_eq last, rfl⟩

-- A fence in front of every entry is all it takes where labels are distinct.
theorem Fenced.of_fences {code : List Instruction} (unique : (labelsOf code).Nodup)
    (fences : ∀ entry ∈ functionEntries code, ∃ skip,
      [Instruction.branch .jump skip, .label entry] <:+: code) : Fenced code := by
  intro pre j rest split label entry
  obtain ⟨skip, front, behind, parts⟩ := fences j.target entry
  have parts : code = (front ++ [Instruction.branch .jump skip]) ++ .label j.target :: behind := by
    rw [← parts]
    simp
  obtain ⟨rfl, _, _⟩ := eq_of_label unique split parts label rfl rfl
  exact ⟨.branch .jump skip, by simp, rfl⟩

-- Line markers change nothing where they lead.
theorem Fenced.of_strip {code : List Instruction} (lead : MarkersLead code)
    (fenced : Fenced (strip code)) : Fenced code := by
  intro pre j rest split label entry
  have plain : j.opcode ≠ .debugLine := by simp [label]
  have parts : strip code = strip pre ++ j :: strip rest := by
    rw [split, strip_append, strip_cons_other plain]
  rw [functionEntries, ← skeleton_strip] at entry
  obtain ⟨i, last, jump⟩ := fenced (strip pre) j (strip rest) parts label entry
  rcases List.eq_nil_or_concat' pre with rfl | ⟨front, k, rfl⟩
  · cases last
  · by_cases mark : k.opcode = .debugLine
    · have leads : MarkersLead (k :: j :: rest) := by
        rw [split, List.append_assoc] at lead
        clear parts fenced entry split last
        induction front with
        | nil => exact lead
        | cons _ _ ih => exact ih lead.2
      obtain ⟨_, ⟨rfl⟩, active⟩ := leads.1 mark
      rw [label] at active
      exact absurd rfl active
    · rw [strip_append, strip_cons_other mark] at last
      simp only [strip_nil, List.getLast?_append, List.getLast?_singleton, Option.some_or,
        Option.mem_def, Option.some.injEq] at last
      exact ⟨k, by simp, last ▸ jump⟩

end ScalarScript
