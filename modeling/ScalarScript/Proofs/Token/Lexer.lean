import ScalarScript.Token.Lexer
import Mathlib.Data.List.TakeDrop
import Mathlib.Order.Basic
/-!
The lexer goes on until the end of its text: every token takes a character, but for the mark of the
last line and the end itself.
-/
namespace ScalarScript.Lexer

theorem dropWhile_length (p : Char → Bool) (cs : List Char) :
    (cs.dropWhile p).length ≤ cs.length := (List.dropWhile_sublist p).length_le

theorem skip_length (inside : Bool) (cs : List Char) : (skip inside cs).2.length ≤ cs.length := by
  fun_induction skip inside cs with
  | case5 rest =>
    have comment := dropWhile_length (· ≠ '\n') rest
    simp only [List.length_cons]
    omega
  | _ => simp_all <;> omega

-- A word that takes so many characters that at most that many are left.
def Reading.Leaves (r : Reading) (n : Nat) : Prop :=
  ∀ kind literal, r.result = .ok (kind, literal) → r.rest.length ≤ n ∧ kind ≠ .finish

theorem Reading.Leaves.fault {n : Nat} (f : LexFault) (rest : List Char) :
    Reading.Leaves ⟨.error f, rest⟩ n := nofun

theorem Reading.Leaves.word {n : Nat} {kind : Kind} (literal : String) {rest : List Char}
    (few : rest.length ≤ n) (real : kind ≠ .finish) :
    Reading.Leaves ⟨.ok (kind, literal), rest⟩ n := by
  rintro _ _ ⟨⟩
  exact ⟨few, real⟩

theorem ofWord_ne (name : String) : Kind.ofWord name ≠ .finish := by
  have keywords : ∀ word ∈ Kind.keywords, word.2 ≠ .finish := by decide
  unfold Kind.ofWord
  cases found : Kind.keywords.lookup name with
  | none => simp
  | some kind =>
    obtain ⟨before, after, split, _⟩ := List.lookup_eq_some_iff.mp found
    exact keywords (name, kind) (by simp [split])

theorem word_leaves {c : Char} {rest : List Char} (starts : isNameStart c = true) :
    (word (c :: rest)).Leaves rest.length := by
  have part : isNamePart c = true := by simp [isNamePart, starts]
  simp only [word, List.dropWhile_cons_of_pos part]
  exact .word _ (dropWhile_length _ _) (ofWord_ne _)

theorem exponentMark_length (cs : List Char) : (exponentMark cs).2.length ≤ cs.length := by
  unfold exponentMark
  split
  · split
    · split <;> simp
      omega
    · simp
  · split <;> simp
  · simp

theorem decimalPart_length {c : Char} {rest : List Char} (starts : startsNumeral c rest = true) :
    (decimalPart (c :: rest)).2.length ≤ rest.length := by
  unfold decimalPart
  by_cases digit : c.isDigit = true
  · have fewer : ((c :: rest).dropWhile Char.isDigit).length ≤ rest.length := by
      rw [List.dropWhile_cons_of_pos digit]
      exact dropWhile_length _ _
    split
    · rename_i more here
      rw [here, List.length_cons] at fewer
      have digits := dropWhile_length Char.isDigit more
      dsimp only
      omega
    · exact fewer
  · have point : c = '.' := by
      simp only [startsNumeral, digit, Bool.false_or, Bool.and_eq_true, beq_iff_eq] at starts
      exact starts.1
    subst point
    exact dropWhile_length _ _

theorem numeral_leaves {c : Char} {rest : List Char} (starts : startsNumeral c rest = true) :
    (numeral (c :: rest)).Leaves rest.length := by
  have decimal := decimalPart_length starts
  have mark := exponentMark_length (decimalPart (c :: rest)).2
  have digits := dropWhile_length Char.isDigit (exponentMark (decimalPart (c :: rest)).2).2
  have left : (if (exponentMark (decimalPart (c :: rest)).2).1.isEmpty then
      (exponentMark (decimalPart (c :: rest)).2).2
    else (exponentMark (decimalPart (c :: rest)).2).2.dropWhile Char.isDigit).length ≤
      rest.length := by
    split <;> omega
  unfold numeral
  dsimp only
  generalize (if (exponentMark (decimalPart (c :: rest)).2).1.isEmpty then
    (exponentMark (decimalPart (c :: rest)).2).2 else _) = after at left ⊢
  by_cases bare : (!(exponentMark (decimalPart (c :: rest)).2).1.isEmpty &&
    (if (exponentMark (decimalPart (c :: rest)).2).1.isEmpty then []
      else (exponentMark (decimalPart (c :: rest)).2).2.takeWhile Char.isDigit).isEmpty) = true
  · rw [if_pos bare]
    exact .fault _ _
  · rw [if_neg bare]
    cases after with
    | nil => exact .word _ left (by decide)
    | cons next after =>
      dsimp only
      split
      · exact .fault _ _
      · exact .word _ left (by decide)

theorem stringBody_leaves (quote : Char) (text rest : List Char) :
    (stringBody quote text rest).Leaves rest.length := by
  fun_induction stringBody quote text rest with
  | case4 text c rest d known ih =>
    intro kind literal fine
    obtain ⟨few, real⟩ := ih kind literal fine
    exact ⟨by simp only [List.length_cons]; omega, real⟩
  | case6 text rest => exact .word _ (by simp) (by decide)
  | case7 text c rest _ _ _ _ ih =>
    intro kind literal fine
    obtain ⟨few, real⟩ := ih kind literal fine
    exact ⟨by simp only [List.length_cons]; omega, real⟩
  | _ => exact .fault _ _

theorem single?_ne {c : Char} {kind : Kind} (known : single? c = some kind) : kind ≠ .finish := by
  unfold single? at known
  split at known <;> cases known <;> decide

theorem double?_ne {c d : Char} {kind : Kind} (known : double? c d = some kind) :
    kind ≠ .finish := by
  unfold double? at known
  split at known <;> cases known <;> decide

theorem singleOperator_leaves (c : Char) (rest : List Char) :
    (singleOperator c rest).Leaves rest.length := by
  unfold singleOperator
  split
  · exact .word _ (Nat.le_refl _) (single?_ne ‹_›)
  · split <;> exact .fault _ _

theorem operator_leaves (c : Char) (rest : List Char) : (operator c rest).Leaves rest.length := by
  unfold operator
  split
  · split
    · exact .word _ (by simp) (double?_ne ‹_›)
    · exact singleOperator_leaves _ _
  · exact singleOperator_leaves _ _

-- A word takes the character that it starts with at least.
theorem read_leaves (c : Char) (rest : List Char) : (read c rest).Leaves rest.length := by
  unfold read
  split
  · exact word_leaves ‹_›
  · split
    · exact numeral_leaves ‹_›
    · split
      · exact stringBody_leaves _ _ _
      · exact operator_leaves _ _

-- What is left to read: the characters, and the mark of the last line.
def left (l : Lexer) : Nat := l.rest.length + if l.finished then 0 else 1

-- The end is reached only behind the mark of the last line, and every other token leaves less.
inductive Passes (l : Lexer) (t : Token) (after : Lexer) : Prop where
  | finish (marked : l.finished = true) (last : t.kind = .finish)
  | word (real : t.kind ≠ .finish) (same : after.finished = l.finished) (less : after.left < l.left)
  | mark (line : t.kind = .lineMark) (less : after.left < l.left)

theorem next_ok {l after : Lexer} {t : Token} (read : l.next = (.ok t, after)) :
    Passes l t after := by
  have shorter := skip_length l.inComment l.rest
  unfold next at read
  split at read
  · rename_i inside rest here
    cases read
    rw [here, List.length_cons] at shorter
    refine .mark rfl ?_
    simp only [left]
    omega
  · cases read
  · split at read
    · cases read
      exact .finish ‹_› rfl
    · rename_i unmarked
      cases read
      refine .mark rfl ?_
      simp [left, unmarked]
  · rename_i c rest _ here
    simp only at read
    split at read
    · rename_i kind literal fine
      cases read
      obtain ⟨few, real⟩ := read_leaves c rest kind literal fine
      rw [here, List.length_cons] at shorter
      refine .word real rfl ?_
      simp only [left]
      omega
    · cases read

end ScalarScript.Lexer
