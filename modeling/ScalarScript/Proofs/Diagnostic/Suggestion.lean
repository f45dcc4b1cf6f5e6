import ScalarScript.Proofs.Diagnostic.Distance
import ScalarScript.Proofs.Token.Stream
import ScalarScript.Scope.Chain
import Mathlib.Data.List.Nodup
/-!
Suggestions are the nearest names. Of the names that are near enough, the first in the order of
distance and name are suggested, three at most, and the names that are offered are those in sight.
-/
namespace ScalarScript

namespace Suggestion

-- Nearer, or as near and earlier in the order of names.
def Precedes (a b : Suggestion) : Prop :=
  a.distance < b.distance ∨ (a.distance = b.distance ∧ a.name < b.name)

theorem before_iff {a b : Suggestion} : before a b = true ↔ Precedes a b ∨ a = b := by
  obtain ⟨n, d⟩ := a
  obtain ⟨m, e⟩ := b
  simp only [before, Precedes, Bool.or_eq_true, Bool.and_eq_true, decide_eq_true_eq, beq_iff_eq,
    Bool.not_eq_true', decide_eq_false_iff_not, String.not_lt, mk.injEq]
  constructor
  · rintro (less | ⟨same, up⟩)
    · exact .inl (.inl less)
    · by_cases equal : n = m
      · exact .inr ⟨equal, same⟩
      · refine .inl (.inr ⟨same, String.not_le.mp fun down => ?_⟩)
        exact equal (String.le_antisymm up down)
  · rintro ((less | ⟨same, up⟩) | ⟨rfl, rfl⟩)
    · exact .inl less
    · exact .inr ⟨same, String.not_lt.mp (String.lt_asymm up)⟩
    · exact .inr ⟨rfl, String.le_refl _⟩

theorem before_trans (a b c : Suggestion) (first : before a b = true) (second : before b c = true) :
    before a c = true := by
  simp only [before, Bool.or_eq_true, Bool.and_eq_true, decide_eq_true_eq, beq_iff_eq,
    Bool.not_eq_true', decide_eq_false_iff_not, String.not_lt] at first second ⊢
  rcases first with less | ⟨same, up⟩ <;> rcases second with less' | ⟨same', up'⟩
  · exact .inl (Nat.lt_trans less less')
  · exact .inl (same' ▸ less)
  · exact .inl (same ▸ less')
  · exact .inr ⟨same.trans same', String.le_trans up up'⟩

theorem before_total (a b : Suggestion) : (before a b || before b a) = true := by
  simp only [before, Bool.or_eq_true, Bool.and_eq_true, decide_eq_true_eq, beq_iff_eq,
    Bool.not_eq_true', decide_eq_false_iff_not, String.not_lt]
  rcases Nat.lt_trichotomy a.distance b.distance with less | same | more
  · exact .inl (.inl less)
  · rcases String.le_total a.name b.name with up | down
    · exact .inl (.inr ⟨same, up⟩)
    · exact .inr (.inr ⟨same.symm, down⟩)
  · exact .inr (.inl more)

-- How far two names are apart, letter case aside.
def apart (name other : String) : Nat :=
  levenshtein (Text.lower name).toList (Text.lower other).toList

-- A name that may be suggested for another.
structure Eligible (name other : String) : Prop where
  given : other ≠ ""
  differs : Text.lower other ≠ Text.lower name
  near : apart name other ≤ threshold (Text.lower name).length

theorem candidate?_eq_some {name other : String} {s : Suggestion} :
    candidate? (Text.lower name) other = some s ↔
      Eligible name other ∧ s = ⟨other, apart name other⟩ := by
  simp only [candidate?, editDistance_eq]
  split
  · rename_i refused
    simp only [reduceCtorEq, false_iff, not_and]
    rintro ⟨given, differs, _⟩
    simp [given, differs] at refused
  · rename_i accepted
    have parts : other ≠ "" ∧ Text.lower other ≠ Text.lower name := by simpa using accepted
    split
    · rename_i near
      rw [Option.some.injEq, eq_comm]
      exact ⟨fun same => ⟨⟨parts.1, parts.2, near⟩, same⟩, And.right⟩
    · rename_i far
      simp only [reduceCtorEq, false_iff, not_and]
      exact fun eligible => absurd eligible.near far

-- The candidates among some names, the best first.
def ranked (name : String) (names : List String) : List Suggestion :=
  (names.filterMap (candidate? (Text.lower name))).mergeSort before

theorem similar_eq {name : String} (given : name ≠ "") (names : List String) :
    similar name names = (ranked name names).take most := by
  have some : name.isEmpty = false := by simpa using given
  rw [similar, some]
  rfl

theorem mem_ranked {name : String} {names : List String} {s : Suggestion} :
    s ∈ ranked name names ↔
      s.name ∈ names ∧ Eligible name s.name ∧ s.distance = apart name s.name := by
  simp only [ranked, List.mem_mergeSort, List.mem_filterMap, candidate?_eq_some]
  constructor
  · rintro ⟨n, member, eligible, rfl⟩
    exact ⟨member, eligible, rfl⟩
  · rintro ⟨member, eligible, same⟩
    exact ⟨s.name, member, eligible, by rw [← same]⟩

theorem nodup_ranked {name : String} {names : List String} (distinct : names.Nodup) :
    (ranked name names).Nodup := by
  rw [ranked, (List.mergeSort_perm _ _).nodup_iff]
  refine List.Nodup.filterMap (fun n m s first second => ?_) distinct
  obtain ⟨_, rfl⟩ := candidate?_eq_some.mp first
  obtain ⟨_, same⟩ := candidate?_eq_some.mp second
  exact congrArg Suggestion.name same

theorem pairwise_ranked {name : String} {names : List String} (distinct : names.Nodup) :
    (ranked name names).Pairwise Precedes := by
  have sorted : (ranked name names).Pairwise fun a b => before a b = true :=
    List.pairwise_mergeSort before_trans before_total _
  exact (sorted.and (nodup_ranked distinct)).imp fun ⟨first, other⟩ =>
    (before_iff.mp first).resolve_right other

-- What is left out of the first few of a sorted list comes behind all of them.
theorem behind_take {r : Suggestion → Suggestion → Prop} {l : List Suggestion} (sorted : l.Pairwise r)
    {n : Nat} {s : Suggestion} (member : s ∈ l) (out : s ∉ l.take n) :
    (l.take n).length = n ∧ ∀ t ∈ l.take n, r t s := by
  have parts : l.take n ++ l.drop n = l := List.take_append_drop n l
  have later : s ∈ l.drop n := by
    rw [← parts] at member
    exact (List.mem_append.mp member).resolve_left out
  have long : n ≤ l.length := by
    by_contra short
    rw [List.drop_of_length_le (by omega)] at later
    cases later
  refine ⟨by rw [List.length_take]; omega, fun t first => ?_⟩
  rw [← parts] at sorted
  exact (List.pairwise_append.mp sorted).2.2 t first s later

-- What suggestions for a name are, where some names can be seen.
structure Nearest (name : String) (visible : List String) (suggested : List Suggestion) : Prop where
  few : suggested.length ≤ 3
  eligible : ∀ s ∈ suggested, s.name ∈ visible ∧ Eligible name s.name ∧
    s.distance = apart name s.name
  ordered : suggested.Pairwise Precedes
  -- what is left out is no better, and only left out where there is no room
  best : ∀ other ∈ visible, Eligible name other → (∀ s ∈ suggested, s.name ≠ other) →
    suggested.length = 3 ∧ ∀ s ∈ suggested, Precedes s ⟨other, apart name other⟩

theorem similar_nearest {name : String} (given : name ≠ "") {visible : List String}
    (distinct : visible.Nodup) : Nearest name visible (similar name visible) := by
  rw [similar_eq given]
  refine ⟨List.length_take_le .., fun s member => mem_ranked.mp (List.mem_of_mem_take member),
    (pairwise_ranked distinct).take, fun other member eligible out => ?_⟩
  refine behind_take (pairwise_ranked distinct) (mem_ranked.mpr ⟨member, eligible, rfl⟩) ?_
  exact fun inside => out _ inside rfl

end Suggestion

namespace Text

-- A sorted list loses its repetitions, and only those.
theorem eraseReps_loop (a : String) (rest found : List String) :
    List.eraseRepsBy.loop (· == ·) a rest found =
      found.reverse ++ List.eraseRepsBy.loop (· == ·) a rest [] := by
  induction rest generalizing a found with
  | nil => simp [List.eraseRepsBy.loop]
  | cons b rest ih =>
    unfold List.eraseRepsBy.loop
    split
    · exact ih a found
    · rw [ih b (a :: found), ih b [a]]
      simp

theorem mem_eraseReps_loop {a x : String} {rest : List String} :
    x ∈ List.eraseRepsBy.loop (· == ·) a rest [] ↔ x = a ∨ x ∈ rest := by
  induction rest generalizing a with
  | nil => simp [List.eraseRepsBy.loop]
  | cons b rest ih =>
    unfold List.eraseRepsBy.loop
    split
    · rename_i same
      rw [ih, List.mem_cons, beq_iff_eq.mp same, or_self_left]
    · rw [eraseReps_loop, List.mem_append, ih, List.mem_cons]
      simp

theorem nodup_eraseReps_loop {a : String} {rest : List String}
    (sorted : (a :: rest).Pairwise (· ≤ ·)) :
    (List.eraseRepsBy.loop (· == ·) a rest []).Nodup := by
  induction rest generalizing a with
  | nil => simp [List.eraseRepsBy.loop]
  | cons b rest ih =>
    obtain ⟨least, later⟩ := List.pairwise_cons.mp sorted
    unfold List.eraseRepsBy.loop
    split
    · refine ih (List.pairwise_cons.mpr ⟨fun x member => least x (List.mem_cons_of_mem _ member), ?_⟩)
      exact (List.pairwise_cons.mp later).2
    · rename_i differs
      rw [eraseReps_loop, List.reverse_singleton, List.singleton_append, List.nodup_cons]
      refine ⟨fun again => ?_, ih later⟩
      -- a repetition would stand in between
      have between : b ≤ a := by
        rcases mem_eraseReps_loop.mp again with same | member
        · exact same ▸ String.le_refl _
        · exact (List.pairwise_cons.mp later).1 a member
      have same : a = b := String.le_antisymm (least b List.mem_cons_self) between
      simp [same] at differs

theorem mem_sorted {x : String} {names : List String} : x ∈ sorted names ↔ x ∈ names := by
  have merged : x ∈ names.mergeSort (fun a b => !decide (b < a)) ↔ x ∈ names := List.mem_mergeSort
  rw [sorted, ← merged]
  cases names.mergeSort fun a b => !decide (b < a) with
  | nil => rfl
  | cons a rest => exact mem_eraseReps_loop.trans List.mem_cons.symm

theorem nodup_sorted (names : List String) : (sorted names).Nodup := by
  have ordered : (names.mergeSort fun a b => !decide (b < a)).Pairwise (· ≤ ·) := by
    refine (List.pairwise_mergeSort ?_ ?_ names).imp fun up => ?_
    · intro a b c first second
      simp only [Bool.not_eq_true', decide_eq_false_iff_not, String.not_lt] at first second ⊢
      exact String.le_trans first second
    · intro a b
      simp only [Bool.or_eq_true, Bool.not_eq_true', decide_eq_false_iff_not, String.not_lt]
      exact String.le_total a b
    · simpa only [Bool.not_eq_true', decide_eq_false_iff_not, String.not_lt] using up
  rw [sorted]
  cases merged : names.mergeSort fun a b => !decide (b < a) with
  | nil => exact List.nodup_nil
  | cons a rest => exact nodup_eraseReps_loop (merged ▸ ordered)

end Text

-- The names offered are those that mean something, once each.
theorem Scope.nodup_names (s : Scope) : s.names.Nodup := Text.nodup_sorted _

theorem Scope.mem_names {s : Scope} {name : String} :
    name ∈ s.names ↔ (s.resolve? name).isSome = true := by
  simp only [names, Text.mem_sorted, List.mem_flatMap, List.mem_map, resolve?, Table.get?,
    List.isSome_findSome?, List.isSome_find?, List.any_eq_true, beq_iff_eq]

-- A name that was read from a source is not empty.
theorem Spells.named {lexeme : List Char} {kind : Kind} {literal : String}
    (spells : Spells lexeme kind literal) (name : kind = .identifier) : literal ≠ "" := by
  cases spells with
  | word => exact fun empty => List.cons_ne_nil _ _ (String.ofList_eq_empty_iff.mp empty)
  | numeral | quoted => cases name
  | operator known =>
    have kinds : Kind.identifier ∉ Kind.operators := by decide
    exact absurd (name ▸ known) kinds

theorem named_of_laid {passages : List Passage} (laid : Passage.Laid passages) (before : List Char) :
    ∀ t ∈ Passage.tokens before passages, t.kind = .identifier → t.literal ≠ "" := by
  induction laid generalizing before with
  | done => exact List.forall_mem_nil _
  | blank space more ih => exact ih _
  | comment closed more ih => exact ih _
  | word spells solid longest more ih =>
    exact List.forall_mem_cons.mpr ⟨fun name => spells.named name, ih _⟩

theorem named_of_tokenize {source : String} {tokens : List Token}
    (read : tokenize source = .ok tokens) :
    ∀ t ∈ tokens, t.kind = .identifier → t.literal ≠ "" := by
  intro t member name
  obtain ⟨passages, -, laid, words⟩ := (streams_of_tokenize read).cuts.passages
  have real : t.isMark = false := by simp [Token.isMark, name]
  have word : t ∈ Passage.tokens [] passages := words ▸ List.mem_filter.mpr ⟨member, by simp [real]⟩
  exact named_of_laid laid [] t word name

open Suggestion

-- The distance computed is the recursive one, and suggestions are the nearest of the names in sight.
-- The compiler offers each name that means something once, and no name in a source is empty.
theorem suggestions_nearest (name : String) (visible : List String) (given : name ≠ "")
    (distinct : visible.Nodup) :
    (∀ a b, editDistance a b = levenshtein a b ∧ editDistance a b = editDistance b a) ∧
      Nearest name visible (similar name visible) ∧
      (∀ s : Scope, s.names.Nodup ∧ ∀ n, n ∈ s.names ↔ (s.resolve? n).isSome = true) ∧
      ∀ source tokens, tokenize source = .ok tokens →
        ∀ t ∈ tokens, t.kind = .identifier → t.literal ≠ "" := by
  refine ⟨fun a b => ⟨editDistance_eq a b, ?_⟩, similar_nearest given distinct,
    fun s => ⟨s.nodup_names, fun n => Scope.mem_names⟩, fun _ _ => named_of_tokenize⟩
  rw [editDistance_eq, editDistance_eq, levenshtein_symm]

-- Four names are near enough; of the two at distance two the later one is left out.
theorem prnt_nearest :
    "prnt" ≠ "" ∧ ["PRINT", "print", "sqrt", "point", "printd"].Nodup ∧
      similar "prnt" ["PRINT", "print", "sqrt", "point", "printd"] =
        [⟨"PRINT", 1⟩, ⟨"print", 1⟩, ⟨"point", 2⟩] ∧
      Nearest "prnt" ["PRINT", "print", "sqrt", "point", "printd"]
        [⟨"PRINT", 1⟩, ⟨"print", 1⟩, ⟨"point", 2⟩] := by
  have distinct : ["PRINT", "print", "sqrt", "point", "printd"].Nodup := by decide
  have near : ["PRINT", "print", "sqrt", "point", "printd"].filterMap
      (candidate? (Text.lower "prnt")) =
        [⟨"PRINT", 1⟩, ⟨"print", 1⟩, ⟨"point", 2⟩, ⟨"printd", 2⟩] := by decide +kernel
  have same : similar "prnt" ["PRINT", "print", "sqrt", "point", "printd"] =
      [⟨"PRINT", 1⟩, ⟨"print", 1⟩, ⟨"point", 2⟩] := by
    rw [similar_eq (by decide), ranked, near, List.mergeSort_of_pairwise (by decide +kernel)]
    rfl
  exact ⟨by decide, distinct, same, same ▸ (suggestions_nearest "prnt" _ (by decide) distinct).2.1⟩

end ScalarScript
