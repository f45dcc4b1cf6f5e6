import ScalarScript.Proofs.Token.Lexer
/-!
Numerals: digits with at most one point in or beside them, and at most one exponent. The reader of
numerals takes the longest one.
-/
namespace ScalarScript

-- Digits, and nothing else.
def Digits (cs : List Char) : Prop := ∀ c ∈ cs, c.isDigit = true

-- Digits with or without a point in them, which may stand on either side of them.
inductive IsDecimal : List Char → Prop where
  | whole {digits : List Char} (some : digits ≠ []) (all : Digits digits) : IsDecimal digits
  | pointed {digits fraction : List Char} (some : digits ≠ [] ∨ fraction ≠ []) (all : Digits digits)
      (others : Digits fraction) : IsDecimal (digits ++ '.' :: fraction)

inductive IsSign : List Char → Prop where
  | none : IsSign []
  | plus : IsSign ['+']
  | minus : IsSign ['-']

inductive IsExponent : List Char → Prop where
  | none : IsExponent []
  | some {e : Char} {sign digits : List Char} (mark : e = 'e' ∨ e = 'E') (signed : IsSign sign)
      (some : digits ≠ []) (all : Digits digits) : IsExponent (e :: (sign ++ digits))

inductive IsNumeral : List Char → Prop where
  | of {decimal exponent : List Char} (first : IsDecimal decimal) (second : IsExponent exponent) :
      IsNumeral (decimal ++ exponent)

namespace Lexer

-- The characters that open no name.
theorem isNameStart_of_ascii {c : Char} (ascii : c.toNat < 128) :
    isNameStart c = (c == '_' || c.isAlpha) := by
  simp [isNameStart, Text.isLetter, ascii]

theorem isDigit_iff {c : Char} : c.isDigit = true ↔ 48 ≤ c.toNat ∧ c.toNat ≤ 57 := by
  simp only [Char.isDigit, Bool.and_eq_true, decide_eq_true_eq, UInt32.le_iff_toNat_le]
  exact Iff.rfl

theorem isNameStart_of_isDigit {c : Char} (digit : c.isDigit = true) : isNameStart c = false := by
  obtain ⟨low, high⟩ := isDigit_iff.mp digit
  have line : c ≠ '_' := by
    rintro rfl
    exact absurd high (by decide)
  have letter : c.isAlpha = false := by
    have range : c.val.toNat ≤ 57 := high
    change (decide (65 ≤ c.val ∧ c.val ≤ 90) || (decide (97 ≤ c.val) && decide (c.val ≤ 122))) = false
    simp only [Bool.or_eq_false_iff, Bool.and_eq_false_iff, decide_eq_false_iff_not,
      UInt32.le_iff_toNat_le]
    change ¬(65 ≤ c.val.toNat ∧ c.val.toNat ≤ 90) ∧ (¬97 ≤ c.val.toNat ∨ ¬c.val.toNat ≤ 122)
    omega
  rw [isNameStart_of_ascii (by omega), letter]
  simpa using line

-- A beginning that has only such characters lies within the longest one.
theorem prefix_takeWhile {p : Char → Bool} {part cs : List Char} (all : ∀ c ∈ part, p c = true)
    (starts : part <+: cs) : part <+: cs.takeWhile p := by
  obtain ⟨more, rfl⟩ := starts
  rw [List.takeWhile_append_of_pos all]
  exact List.prefix_append _ _

theorem all_takeWhile (p : Char → Bool) (cs : List Char) : ∀ c ∈ cs.takeWhile p, p c = true :=
  List.all_eq_true.mp List.all_takeWhile

-- What follows does not go on with a character of a kind.
def Halts (p : Char → Bool) (cs : List Char) : Prop := ∀ c ∈ cs.head?, p c = false

theorem halts_dropWhile (p : Char → Bool) (cs : List Char) : Halts p (cs.dropWhile p) := by
  intro c first
  cases left : cs.dropWhile p with
  | nil => simp [left] at first
  | cons d rest =>
    rw [left, List.head?_cons, Option.mem_some_iff] at first
    subst first
    have fails := List.head_dropWhile_not p (l := cs) (by simp [left])
    simpa [left] using fails

theorem takeWhile_append_halts {p : Char → Bool} {part more : List Char}
    (all : ∀ c ∈ part, p c = true) (halts : Halts p more) :
    (part ++ more).takeWhile p = part ∧ (part ++ more).dropWhile p = more := by
  rw [List.takeWhile_append_of_pos all, List.dropWhile_append_of_pos all]
  cases more with
  | nil => simp
  | cons c rest =>
    have stops : p c = false := halts c rfl
    simp [stops]

section Numeral

theorem isDigit_point : Char.isDigit '.' = false := by decide

theorem decimalPart_split (cs : List Char) : (decimalPart cs).1 ++ (decimalPart cs).2 = cs := by
  have whole := List.takeWhile_append_dropWhile (p := Char.isDigit) (l := cs)
  unfold decimalPart
  split
  · rename_i rest here
    rw [here] at whole
    simpa using whole
  · exact whole

theorem decimalPart_pointed {digits more : List Char} (all : Digits digits) :
    decimalPart (digits ++ '.' :: more) =
      (digits ++ '.' :: more.takeWhile Char.isDigit, more.dropWhile Char.isDigit) := by
  have halts : Halts Char.isDigit ('.' :: more) := by
    rintro _ ⟨⟩
    exact isDigit_point
  obtain ⟨taken, left⟩ := takeWhile_append_halts all halts
  simp only [decimalPart, left, taken]

-- Where the digits are not followed by a point.
theorem decimalPart_whole {digits more : List Char} (all : Digits digits)
    (halts : Halts Char.isDigit more) (bare : ∀ rest, more ≠ '.' :: rest) :
    decimalPart (digits ++ more) = (digits, more) := by
  obtain ⟨taken, left⟩ := takeWhile_append_halts all halts
  unfold decimalPart
  rw [taken, left]
  split
  · rename_i rest
    exact absurd rfl (bare rest)
  · rfl

theorem isDecimal_decimalPart {c : Char} {rest : List Char} (starts : startsNumeral c rest = true) :
    IsDecimal (decimalPart (c :: rest)).1 := by
  have digits := all_takeWhile Char.isDigit (c :: rest)
  unfold decimalPart
  by_cases digit : c.isDigit = true
  · have some : (c :: rest).takeWhile Char.isDigit ≠ [] := by simp [digit]
    split
    · exact .pointed (.inl some) digits (all_takeWhile _ _)
    · exact .whole some digits
  · simp only [startsNumeral, digit, Bool.false_or, Bool.and_eq_true, beq_iff_eq] at starts
    obtain ⟨rfl, more⟩ := starts
    cases rest with
    | nil => cases more
    | cons d rest =>
      have some : (d :: rest).takeWhile Char.isDigit ≠ [] := by simp [show d.isDigit = true from more]
      have none : Digits [] := List.forall_mem_nil _
      exact .pointed (.inr some) none (all_takeWhile _ _)

-- No decimal goes further.
theorem prefix_decimalPart {decimal cs : List Char} (isDecimal : IsDecimal decimal)
    (starts : decimal <+: cs) : decimal <+: (decimalPart cs).1 := by
  cases isDecimal with
  | whole some all =>
    refine (prefix_takeWhile all starts).trans ?_
    unfold decimalPart
    split
    · exact List.prefix_append _ _
    · exact List.prefix_rfl
  | @pointed digits fraction some all others =>
    obtain ⟨more, rfl⟩ := starts
    rw [List.append_assoc, List.cons_append, decimalPart_pointed all,
      List.takeWhile_append_of_pos others]
    exact ⟨more.takeWhile Char.isDigit, by simp⟩

theorem decimalPart_append {decimal more : List Char} (isDecimal : IsDecimal decimal)
    (halts : Halts Char.isDigit more) (bare : ∀ rest, more ≠ '.' :: rest) :
    decimalPart (decimal ++ more) = (decimal, more) := by
  cases isDecimal with
  | whole some all => exact decimalPart_whole all halts bare
  | pointed some all others =>
    obtain ⟨taken, left⟩ := takeWhile_append_halts others halts
    rw [List.append_assoc, List.cons_append, decimalPart_pointed all, taken, left]

-- The mark of an exponent with its sign, if there is one.
inductive MarksExponent : List Char → List Char → List Char → Prop where
  | none {cs : List Char} (other : ∀ c ∈ cs.head?, c ≠ 'e' ∧ c ≠ 'E') : MarksExponent cs [] cs
  | some {e : Char} {sign rest : List Char} (mark : e = 'e' ∨ e = 'E') (signed : IsSign sign) :
      MarksExponent (e :: (sign ++ rest)) (e :: sign) rest

theorem marks_exponentMark (cs : List Char) :
    MarksExponent cs (exponentMark cs).1 (exponentMark cs).2 := by
  unfold exponentMark
  split
  · rename_i e s rest
    split
    · rename_i mark
      have mark : e = 'e' ∨ e = 'E' := by simpa using mark
      split
      · rename_i sign
        have sign : s = '+' ∨ s = '-' := by simpa using sign
        rcases sign with rfl | rfl
        · exact .some mark .plus
        · exact .some mark .minus
      · exact .some mark .none
    · rename_i other
      exact .none (by simpa using other)
  · rename_i e
    split
    · rename_i mark
      exact .some (by simpa using mark) .none
    · rename_i other
      exact .none (by simpa using other)
  · exact .none (by simp)

theorem exponentMark_none {cs : List Char} (other : ∀ c ∈ cs.head?, c ≠ 'e' ∧ c ≠ 'E') :
    exponentMark cs = ([], cs) := by
  have marks := marks_exponentMark cs
  generalize exponentMark cs = split at marks
  obtain ⟨mark, rest⟩ := split
  cases marks with
  | none => rfl
  | some mark signed =>
    obtain ⟨small, large⟩ := other _ rfl
    rcases mark with rfl | rfl
    · exact absurd rfl small
    · exact absurd rfl large

-- Digits follow the whole mark.
theorem exponentMark_some {e d : Char} {sign more : List Char} (mark : e = 'e' ∨ e = 'E')
    (signed : IsSign sign) (digit : d.isDigit = true) :
    exponentMark (e :: (sign ++ d :: more)) = (e :: sign, d :: more) := by
  have plain : ¬ (d = '+' ∨ d = '-') := by
    rintro (rfl | rfl) <;> exact absurd digit (by decide)
  cases signed with
  | none => simp [exponentMark, mark, plain]
  | plus => simp [exponentMark, mark]
  | minus => simp [exponentMark, mark]

-- The numeral at the start of a text, and what is left behind it.
inductive ReadsNumeral (cs : List Char) : List Char → List Char → Prop where
  | plain {text after : List Char} (decimal : decimalPart cs = (text, after))
      (bare : exponentMark after = ([], after)) : ReadsNumeral cs text after
  | exponent {decimal afterDecimal mark afterMark : List Char}
      (first : decimalPart cs = (decimal, afterDecimal))
      (second : exponentMark afterDecimal = (mark, afterMark)) (marked : mark ≠ [])
      (some : afterMark.takeWhile Char.isDigit ≠ []) :
      ReadsNumeral cs (decimal ++ mark ++ afterMark.takeWhile Char.isDigit)
        (afterMark.dropWhile Char.isDigit)

-- A numeral that does not run into a name.
def closeNumeral (text rest : List Char) : Reading :=
  match rest with
  | c :: _ =>
    if isNameStart c then ⟨.error (.invalidNumber (String.ofList (text ++ [c]))), rest⟩
    else ⟨.ok (.number, String.ofList text), rest⟩
  | [] => ⟨.ok (.number, String.ofList text), rest⟩

theorem closeNumeral_eq_ok_iff {text rest after : List Char} {kind : Kind} {literal : String} :
    closeNumeral text rest = ⟨.ok (kind, literal), after⟩ ↔
      kind = .number ∧ literal = String.ofList text ∧ after = rest ∧ Halts isNameStart rest := by
  cases rest with
  | nil =>
    constructor
    · rintro ⟨⟩
      exact ⟨rfl, rfl, rfl, nofun⟩
    · rintro ⟨rfl, rfl, rfl, _⟩
      rfl
  | cons c rest =>
    unfold closeNumeral
    dsimp only
    constructor
    · intro read
      by_cases name : isNameStart c = true
      · rw [if_pos name] at read
        cases read
      · rw [if_neg name] at read
        cases read
        refine ⟨rfl, rfl, rfl, ?_⟩
        rintro _ ⟨⟩
        exact Bool.eq_false_iff.mpr name
    · rintro ⟨rfl, rfl, rfl, halts⟩
      rw [halts c rfl]
      rfl

theorem numeral_of_plain {cs text after : List Char} (decimal : decimalPart cs = (text, after))
    (bare : exponentMark after = ([], after)) : numeral cs = closeNumeral text after := by
  simp only [numeral, decimal, bare, List.isEmpty_nil, Bool.not_true, Bool.false_and,
    Bool.false_eq_true, if_false, if_true, List.append_nil]
  rfl

theorem numeral_of_exponent {cs decimal afterDecimal mark afterMark : List Char}
    (first : decimalPart cs = (decimal, afterDecimal))
    (second : exponentMark afterDecimal = (mark, afterMark)) (marked : mark ≠ []) :
    numeral cs = if afterMark.takeWhile Char.isDigit = [] then
        ⟨.error (.invalidNumber (String.ofList (decimal ++ mark))), afterMark.dropWhile Char.isDigit⟩
      else closeNumeral (decimal ++ mark ++ afterMark.takeWhile Char.isDigit)
        (afterMark.dropWhile Char.isDigit) := by
  have isEmpty : mark.isEmpty = false := by simpa using marked
  simp only [numeral, first, second, isEmpty, Bool.not_false, Bool.true_and, Bool.false_eq_true,
    if_false, List.isEmpty_iff]
  split
  · rename_i none
    rw [none, List.append_nil]
  · rfl

theorem ReadsNumeral.numeral_eq {cs text after : List Char} (reads : ReadsNumeral cs text after) :
    numeral cs = closeNumeral text after := by
  cases reads with
  | plain decimal bare => exact numeral_of_plain decimal bare
  | exponent first second marked some => rw [numeral_of_exponent first second marked, if_neg some]

theorem readsNumeral_of_ok {cs after : List Char} {kind : Kind} {literal : String}
    (read : numeral cs = ⟨.ok (kind, literal), after⟩) :
    ∃ text, ReadsNumeral cs text after ∧ kind = .number ∧ literal = String.ofList text := by
  have first : decimalPart cs = ((decimalPart cs).1, (decimalPart cs).2) := rfl
  have marks := marks_exponentMark (decimalPart cs).2
  have second : exponentMark (decimalPart cs).2 =
    ((exponentMark (decimalPart cs).2).1, (exponentMark (decimalPart cs).2).2) := rfl
  generalize (decimalPart cs).1 = decimal at first
  generalize (decimalPart cs).2 = afterDecimal at first second marks
  generalize (exponentMark afterDecimal).1 = mark at second marks
  generalize (exponentMark afterDecimal).2 = afterMark at second marks
  cases marks with
  | none other =>
    rw [numeral_of_plain first second, closeNumeral_eq_ok_iff] at read
    obtain ⟨number, same, rfl, _⟩ := read
    exact ⟨decimal, .plain first second, number, same⟩
  | some marked signed =>
    rw [numeral_of_exponent first second (by simp)] at read
    split at read
    · cases read
    · rename_i some
      rw [closeNumeral_eq_ok_iff] at read
      obtain ⟨number, same, rfl, _⟩ := read
      exact ⟨_, .exponent first second (by simp) some, number, same⟩

namespace ReadsNumeral

variable {cs text after : List Char}

theorem split (reads : ReadsNumeral cs text after) : cs = text ++ after := by
  cases reads with
  | plain decimal bare =>
    have whole := decimalPart_split cs
    rw [decimal] at whole
    exact whole.symm
  | @exponent _ afterDecimal _ _ first second marked some =>
    have whole := decimalPart_split cs
    have marks := marks_exponentMark afterDecimal
    rw [first] at whole
    rw [second] at marks
    cases marks with
    | none => exact absurd rfl marked
    | some mark signed =>
      rw [← whole]
      simp only [List.append_assoc, List.cons_append, List.takeWhile_append_dropWhile]

theorem isNumeral {c : Char} {rest : List Char} (starts : startsNumeral c rest = true)
    (reads : ReadsNumeral (c :: rest) text after) : IsNumeral text := by
  have isDecimal := isDecimal_decimalPart starts
  cases reads with
  | plain decimal bare =>
    rw [decimal] at isDecimal
    simpa using IsNumeral.of isDecimal .none
  | @exponent _ afterDecimal _ _ first second marked some =>
    have marks := marks_exponentMark afterDecimal
    rw [first] at isDecimal
    rw [second] at marks
    cases marks with
    | none => exact absurd rfl marked
    | some mark signed =>
      rw [List.append_assoc]
      exact .of isDecimal (.some mark signed some (all_takeWhile _ _))

theorem decimal_prefix (reads : ReadsNumeral cs text after) : (decimalPart cs).1 <+: text := by
  cases reads with
  | plain decimal bare => simp [decimal]
  | exponent first second marked some =>
    rw [first, List.append_assoc]
    exact List.prefix_append _ _

end ReadsNumeral

-- A decimal with its exponent is taken apart at the mark.
theorem decimalPart_exponent {decimal digits : List Char} {e : Char} {sign : List Char}
    (isDecimal : IsDecimal decimal) (mark : e = 'e' ∨ e = 'E') (signed : IsSign sign)
    (some : digits ≠ []) (all : Digits digits) (more : List Char) :
    decimalPart (decimal ++ e :: (sign ++ digits) ++ more) =
        (decimal, e :: (sign ++ (digits ++ more))) ∧
      exponentMark (e :: (sign ++ (digits ++ more))) = (e :: sign, digits ++ more) := by
  constructor
  · rw [List.append_assoc, List.cons_append, List.append_assoc]
    refine decimalPart_append isDecimal ?_ ?_
    · rintro _ ⟨⟩
      rcases mark with rfl | rfl <;> decide
    · rintro rest ⟨⟩
      rcases mark with same | same <;> exact absurd same (by decide)
  · obtain ⟨d, digits, rfl⟩ := List.exists_cons_of_ne_nil some
    exact exponentMark_some mark signed (all d List.mem_cons_self)

namespace ReadsNumeral

variable {cs text after : List Char}

-- No numeral goes further.
theorem longest {longer : List Char} (isNumeral : IsNumeral longer) (starts : longer <+: cs)
    (reads : ReadsNumeral cs text after) : longer <+: text := by
  cases isNumeral with
  | @of decimal exponent isDecimal isExponent =>
    cases isExponent with
    | none =>
      rw [List.append_nil] at starts ⊢
      exact (prefix_decimalPart isDecimal starts).trans reads.decimal_prefix
    | @some e sign digits mark signed some all =>
      obtain ⟨more, rfl⟩ := starts
      obtain ⟨cut, taken⟩ := decimalPart_exponent isDecimal mark signed some all more
      cases reads with
      | plain first bare =>
        rw [cut] at first
        cases first
        rw [taken] at bare
        cases bare
      | exponent first second marked _ =>
        rw [cut] at first
        cases first
        rw [taken] at second
        cases second
        rw [List.takeWhile_append_of_pos all]
        exact ⟨more.takeWhile Char.isDigit, by simp⟩

-- A numeral is read whole where nothing goes on with it.
theorem of_isNumeral {numeral : List Char} (isNumeral : IsNumeral numeral)
    (halts : Halts (fun c => c.isDigit || c == '.' || c == 'e' || c == 'E') after) :
    ReadsNumeral (numeral ++ after) numeral after := by
  have digitless : Halts Char.isDigit after := fun c first => by
    have other := halts c first
    simp only [Bool.or_eq_false_iff] at other
    exact other.1.1.1
  cases isNumeral with
  | @of decimal exponent isDecimal isExponent =>
    cases isExponent with
    | none =>
      rw [List.append_nil]
      refine .plain (decimalPart_append isDecimal digitless ?_) (exponentMark_none ?_)
      · rintro rest rfl
        exact absurd (halts '.' rfl) (by decide)
      · intro c first
        have other := halts c first
        simp only [Bool.or_eq_false_iff, beq_eq_false_iff_ne] at other
        exact ⟨other.1.2, other.2⟩
    | @some e sign digits mark signed some all =>
      obtain ⟨cut, taken⟩ := decimalPart_exponent isDecimal mark signed some all after
      obtain ⟨whole, left⟩ := takeWhile_append_halts all digitless
      have reads := ReadsNumeral.exponent cut taken (by simp) (by rwa [whole])
      rw [whole, left] at reads
      simpa using reads

end ReadsNumeral

end Numeral

end Lexer

end ScalarScript
