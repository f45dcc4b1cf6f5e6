import ScalarScript.Diagnostic.Suggestion
import Mathlib.Data.Nat.Basic
import Mathlib.Order.MinMax
/-!
Edit distances. The distance is defined by recursion on both texts; it is the least number of
insertions, omissions and replacements, so it does not matter which text comes first or whether
both are read backwards. The rows of the computation hold the distances of prefixes.
-/
namespace ScalarScript.Suggestion

-- Where both texts start alike nothing is to be done, else the best of leaving out, inserting and
-- replacing a character.
def levenshtein : List Char → List Char → Nat
  | [], b => b.length
  | a, [] => a.length
  | x :: a, y :: b =>
    if x = y then levenshtein a b
    else min (min (levenshtein a (y :: b)) (levenshtein (x :: a) b)) (levenshtein a b) + 1
termination_by a b => a.length + b.length

-- A text becomes another by that many edits.
inductive Edits : Nat → List Char → List Char → Prop where
  | done : Edits 0 [] []
  | keep {n : Nat} {a b : List Char} (x : Char) (rest : Edits n a b) : Edits n (x :: a) (x :: b)
  | leave {n : Nat} {a b : List Char} (x : Char) (rest : Edits n a b) : Edits (n + 1) (x :: a) b
  | insert {n : Nat} {a b : List Char} (y : Char) (rest : Edits n a b) : Edits (n + 1) a (y :: b)
  | replace {n : Nat} {a b : List Char} (x y : Char) (rest : Edits n a b) :
      Edits (n + 1) (x :: a) (y :: b)

namespace Edits

variable {n m : Nat} {a b c d : List Char}

theorem append (first : Edits n a b) (second : Edits m c d) : Edits (n + m) (a ++ c) (b ++ d) := by
  induction first with
  | done => simpa using second
  | keep x _ ih => exact .keep x ih
  | leave x _ ih => exact Nat.succ_add _ _ ▸ .leave x ih
  | insert y _ ih => exact Nat.succ_add _ _ ▸ .insert y ih
  | replace x y _ ih => exact Nat.succ_add _ _ ▸ .replace x y ih

theorem reverse (edits : Edits n a b) : Edits n a.reverse b.reverse := by
  induction edits with
  | done => exact .done
  | keep x _ ih => simpa using ih.append (.keep x .done)
  | leave x _ ih => simpa using ih.append (.leave x .done)
  | insert y _ ih => simpa using ih.append (.insert y .done)
  | replace x y _ ih => simpa using ih.append (.replace x y .done)

theorem symm (edits : Edits n a b) : Edits n b a := by
  induction edits with
  | done => exact .done
  | keep x _ ih => exact .keep x ih
  | leave x _ ih => exact .insert x ih
  | insert y _ ih => exact .leave y ih
  | replace x y _ ih => exact .replace y x ih

theorem length_le (edits : Edits n a b) : b.length ≤ a.length + n := by
  induction edits with
  | done => simp
  | keep | leave | insert | replace =>
    simp only [List.length_cons]
    omega

theorem insertAll (b : List Char) : Edits b.length [] b := by
  induction b with
  | nil => exact .done
  | cons y b ih => exact .insert y ih

-- Without its first character a text takes one more edit at most.
theorem tail {y : Char} (edits : Edits n a (y :: b)) : ∃ m ≤ n + 1, Edits m a b := by
  generalize whole : y :: b = t at edits
  induction edits with
  | done => cases whole
  | keep _ rest _ =>
    cases whole
    exact ⟨_, Nat.le_refl _, .leave y rest⟩
  | leave x rest ih =>
    obtain ⟨m, few, rest⟩ := ih whole
    exact ⟨m + 1, by omega, .leave x rest⟩
  | insert y rest _ =>
    cases whole
    exact ⟨_, by omega, rest⟩
  | replace x y rest _ =>
    cases whole
    exact ⟨_, by omega, .leave x rest⟩

-- A character in common need not be touched.
theorem common {x : Char} (edits : Edits n (x :: a) (x :: b)) : ∃ m ≤ n, Edits m a b := by
  cases edits with
  | keep _ rest => exact ⟨_, Nat.le_refl _, rest⟩
  | leave _ rest => exact rest.tail
  | insert _ rest =>
    obtain ⟨m, few, rest⟩ := rest.symm.tail
    exact ⟨m, few, rest.symm⟩
  | replace _ _ rest => exact ⟨_, Nat.le_succ _, rest⟩

end Edits

-- The distance can be reached by edits, and not by fewer.
theorem edits_levenshtein (a b : List Char) : Edits (levenshtein a b) a b := by
  fun_induction levenshtein a b with
  | case1 b => exact .insertAll b
  | case2 a => exact (Edits.insertAll a).symm
  | case3 a x b ih => exact .keep x ih
  | case4 x a y b other leaves inserts replaces =>
    rcases min_choice (min (levenshtein a (y :: b)) (levenshtein (x :: a) b)) (levenshtein a b) with
      outer | outer
    · rw [outer]
      rcases min_choice (levenshtein a (y :: b)) (levenshtein (x :: a) b) with inner | inner
      · rw [inner]
        exact .leave x leaves
      · rw [inner]
        exact .insert y inserts
    · rw [outer]
      exact .replace x y replaces

theorem levenshtein_le {n : Nat} {a b : List Char} (edits : Edits n a b) : levenshtein a b ≤ n := by
  fun_induction levenshtein a b generalizing n with
  | case1 b => simpa using edits.length_le
  | case2 a => simpa using edits.symm.length_le
  | case3 a x b ih =>
    obtain ⟨m, few, rest⟩ := edits.common
    exact Nat.le_trans (ih rest) few
  | case4 x a y b other leaves inserts replaces =>
    cases edits with
    | keep => exact absurd rfl other
    | leave _ rest =>
      have := leaves rest
      omega
    | insert _ rest =>
      have := inserts rest
      omega
    | replace _ _ rest =>
      have := replaces rest
      omega

-- Distances are compared by the edits that they stand for.
theorem levenshtein_eq {n : Nat} {a b : List Char} (reached : Edits n a b)
    (least : ∀ m, Edits m a b → n ≤ m) : levenshtein a b = n :=
  Nat.le_antisymm (levenshtein_le reached) (least _ (edits_levenshtein a b))

theorem levenshtein_symm (a b : List Char) : levenshtein a b = levenshtein b a :=
  levenshtein_eq (edits_levenshtein b a).symm fun _ edits => levenshtein_le edits.symm

theorem levenshtein_reverse (a b : List Char) :
    levenshtein a.reverse b.reverse = levenshtein a b :=
  levenshtein_eq (edits_levenshtein a b).reverse fun _ edits =>
    levenshtein_le (by simpa using edits.reverse)

-- One step of the recursion with all three ways, whether both texts start alike or not.
theorem levenshtein_cons (x y : Char) (a b : List Char) :
    levenshtein (x :: a) (y :: b) =
      min (min (levenshtein a (y :: b) + 1) (levenshtein (x :: a) b + 1))
        (levenshtein a b + if x = y then 0 else 1) := by
  by_cases same : x = y
  · subst same
    obtain ⟨m, few, rest⟩ := (edits_levenshtein a (x :: b)).tail
    obtain ⟨k, fewer, rest'⟩ := (edits_levenshtein (x :: a) b).symm.tail
    have first := Nat.le_trans (levenshtein_le rest) few
    have second := Nat.le_trans (levenshtein_le rest'.symm) fewer
    rw [levenshtein, if_pos rfl, if_pos rfl]
    omega
  · rw [levenshtein, if_neg same, if_neg same]
    omega

-- The same step at the ends of the texts.
theorem levenshtein_concat (x y : Char) (a b : List Char) :
    levenshtein (a ++ [x]) (b ++ [y]) =
      min (min (levenshtein a (b ++ [y]) + 1) (levenshtein (a ++ [x]) b + 1))
        (levenshtein a b + if x = y then 0 else 1) := by
  have step := levenshtein_cons x y a.reverse b.reverse
  simpa only [← levenshtein_reverse a, ← levenshtein_reverse (a ++ [x]), List.reverse_append,
    List.reverse_cons, List.reverse_nil, List.nil_append, List.cons_append] using step

-- The distances of a text from what comes behind a prefix of a word, prefix by prefix.
def entries (text : List Char) : List Char → List Char → List Nat
  | _, [] => []
  | before, x :: word => levenshtein (before ++ [x]) text :: entries text (before ++ [x]) word

-- The row of a word: the distances of its prefixes from a text.
def row (word text : List Char) : List Nat := levenshtein [] text :: entries text [] word

theorem entries_nil (before word : List Char) :
    entries [] before word = List.range' (before.length + 1) word.length := by
  induction word generalizing before with
  | nil => rfl
  | cons x word ih =>
    rw [entries, ih, List.length_cons, List.range'_succ, List.length_append, List.length_singleton]
    congr 1
    cases before <;> simp [levenshtein]

theorem row_nil (word : List Char) : row word [] = List.range (word.length + 1) := by
  rw [row, entries_nil, List.range_eq_range', List.range'_succ]
  simp [levenshtein]

-- Behind some prefix of the word: of the row before, the entry of the prefix is the diagonal one and
-- the others are left; of the new row, the entry of the prefix is there.
theorem rowTail_entries (c : Char) (text before word : List Char) :
    rowTail c word (levenshtein before text) (levenshtein before (text ++ [c]))
        (entries text before word) =
      entries (text ++ [c]) before word := by
  induction word generalizing before with
  | nil => rfl
  | cons x word ih =>
    have head := levenshtein_concat x c before text
    simp only [entries, rowTail]
    rw [← ih (before ++ [x]), head, Nat.min_comm (levenshtein before (text ++ [c]) + 1)]

theorem nextRow_row (word text : List Char) (c : Char) :
    nextRow word (row word text) c = row word (text ++ [c]) := by
  have first (t : List Char) : levenshtein [] t = t.length := by rw [levenshtein]
  have next : levenshtein [] text + 1 = levenshtein [] (text ++ [c]) := by
    rw [first, first, List.length_append, List.length_singleton]
  rw [row, nextRow, next, rowTail_entries, row]

-- After any part of the text, the row is that of this part.
theorem foldl_nextRow (word before text : List Char) :
    text.foldl (nextRow word) (row word before) = row word (before ++ text) := by
  induction text generalizing before with
  | nil => rw [List.append_nil, List.foldl_nil]
  | cons c text ih => rw [List.foldl_cons, nextRow_row, ih, List.append_assoc, List.singleton_append]

theorem getLastD_entries (text before word : List Char) :
    (entries text before word).getLastD (levenshtein before text) =
      levenshtein (before ++ word) text := by
  induction word generalizing before with
  | nil => simp [entries]
  | cons x word ih =>
    rw [entries, List.getLastD_cons, ih, List.append_assoc, List.singleton_append]

-- The computation gives the distance, whichever text is the shorter one.
theorem editDistance_eq (a b : List Char) : editDistance a b = levenshtein a b := by
  have computed (short long : List Char) :
      (long.foldl (nextRow short) (List.range (short.length + 1))).getLastD 0 =
        levenshtein short long := by
    rw [← row_nil, foldl_nextRow, List.nil_append, row, List.getLastD_cons, getLastD_entries,
      List.nil_append]
  rw [editDistance]
  split
  rename_i short long parts
  rw [computed]
  split at parts <;> cases parts
  · exact levenshtein_symm b a
  · rfl

end ScalarScript.Suggestion
