import ScalarScript.Proofs.Token.Numeral
import Mathlib.Data.List.Basic
/-!
The spellings of tokens. A reader takes the longest spelling that starts where it stands, and takes
it for what it spells.
-/
namespace ScalarScript

-- The kinds that are spelled by their names.
def Kind.operators : List Kind :=
  [.and, .assign, .star, .bang, .caret, .colon, .comma, .equal, .greater, .greaterEqual, .leftBrace,
    .leftParen, .less, .lessEqual, .minus, .percent, .notEqual, .or, .plus, .question, .rightBrace,
    .rightParen, .semicolon, .slash]

-- What stands between quotes, and the text that it means.
inductive Quotes (quote : Char) : List Char → List Char → Prop where
  | done : Quotes quote [] []
  | plain {c : Char} {body text : List Char} (inside : c ≠ quote) (bare : c ≠ '\\')
      (inLine : c ≠ '\n') (more : Quotes quote body text) : Quotes quote (c :: body) (c :: text)
  | escaped {c d : Char} {body text : List Char} (known : Lexer.unescape? c = some d)
      (more : Quotes quote body text) : Quotes quote ('\\' :: c :: body) (d :: text)

-- The characters of a token, with its kind and its literal.
inductive Spells : List Char → Kind → String → Prop where
  | word {c : Char} {cs : List Char} (starts : Lexer.isNameStart c = true)
      (parts : ∀ d ∈ cs, Lexer.isNamePart d = true) :
      Spells (c :: cs) (Kind.ofWord (String.ofList (c :: cs))) (String.ofList (c :: cs))
  | numeral {cs : List Char} (numeral : IsNumeral cs) : Spells cs .number (String.ofList cs)
  | operator {kind : Kind} (known : kind ∈ Kind.operators) : Spells kind.name.toList kind kind.name
  | quoted {quote : Char} {body text : List Char} (either : quote = '"' ∨ quote = '\'')
      (quotes : Quotes quote body text) :
      Spells (quote :: body ++ [quote]) .string (String.ofList text)

namespace Lexer

section Quotes

variable {quote : Char} {body text : List Char}

theorem stringBody_plain {c : Char} (bare : c ≠ '\\') (inLine : c ≠ '\n') (text rest : List Char) :
    stringBody quote text (c :: rest) =
      if c = quote then ⟨.ok (.string, String.ofList text.reverse), rest⟩
      else stringBody quote (c :: text) rest := by
  rw [stringBody.eq_def]
  split <;> simp_all

theorem ne_of_quote (either : quote = '"' ∨ quote = '\'') : quote ≠ '\\' ∧ quote ≠ '\n' := by
  rcases either with rfl | rfl <;> decide

-- Inside quotes the text goes on to the closing one.
theorem stringBody_of_quotes (either : quote = '"' ∨ quote = '\'') (quotes : Quotes quote body text)
    (before after : List Char) :
    stringBody quote before (body ++ quote :: after) =
      ⟨.ok (.string, String.ofList (before.reverse ++ text)), after⟩ := by
  induction quotes generalizing before with
  | done =>
    obtain ⟨bare, inLine⟩ := ne_of_quote either
    rw [List.nil_append, stringBody_plain bare inLine, if_pos rfl, List.append_nil]
  | plain inside bare inLine more ih =>
    rw [List.cons_append, stringBody_plain bare inLine, if_neg inside, ih]
    simp
  | escaped known more ih =>
    rw [List.cons_append, List.cons_append, stringBody, known]
    dsimp only
    rw [ih]
    simp

theorem quotes_of_stringBody {before cs after : List Char} {kind : Kind} {literal : String}
    (read : stringBody quote before cs = ⟨.ok (kind, literal), after⟩) :
    kind = .string ∧ ∃ body text, cs = body ++ quote :: after ∧ Quotes quote body text ∧
      literal = String.ofList (before.reverse ++ text) := by
  fun_induction stringBody quote before cs with
  | case4 before c rest d known ih =>
    obtain ⟨string, body, text, split, quotes, same⟩ := ih read
    exact ⟨string, '\\' :: c :: body, d :: text, by simp [split], .escaped known quotes,
      by simp [same]⟩
  | case6 before rest =>
    cases read
    exact ⟨rfl, [], [], rfl, .done, by simp⟩
  | case7 before c rest inLine alone escape inside ih =>
    obtain ⟨string, body, text, split, quotes, same⟩ := ih read
    have bare : c ≠ '\\' := by
      rintro rfl
      cases rest with
      | nil => exact alone rfl rfl
      | cons d rest => exact escape d rest rfl rfl
    exact ⟨string, c :: body, c :: text, by simp [split],
      .plain inside bare (fun same => inLine same) quotes, by simp [same]⟩
  | _ => cases read

-- The closing quote is the first one that stands bare.
theorem body_eq_of_quotes {body' text' after after' : List Char} (quotes : Quotes quote body text)
    (either : quote = '"' ∨ quote = '\'') (others : Quotes quote body' text')
    (same : body ++ quote :: after = body' ++ quote :: after') : body = body' := by
  have one := stringBody_of_quotes either quotes [] after
  have two := stringBody_of_quotes either others [] after'
  rw [same, two] at one
  have left : after' = after := congrArg Reading.rest one
  rw [left] at same
  exact List.append_cancel_right same

end Quotes

section Operators

theorem single?_spells {c : Char} {kind : Kind} (known : single? c = some kind) :
    kind ∈ Kind.operators ∧ kind.name = c.toString := by
  unfold single? at known
  split at known <;> cases known <;> decide

theorem double?_spells {c d : Char} {kind : Kind} (known : double? c d = some kind) :
    kind ∈ Kind.operators ∧ kind.name = String.ofList [c, d] := by
  unfold double? at known
  split at known <;> cases known <;> decide

theorem operator_spells {c : Char} {rest after : List Char} {kind : Kind} {literal : String}
    (read : operator c rest = ⟨.ok (kind, literal), after⟩) :
    kind ∈ Kind.operators ∧ literal = kind.name ∧ c :: rest = kind.name.toList ++ after := by
  have single (rest : List Char) (read : singleOperator c rest = ⟨.ok (kind, literal), after⟩) :
      kind ∈ Kind.operators ∧ literal = kind.name ∧ c :: rest = kind.name.toList ++ after := by
    unfold singleOperator at read
    split at read
    · rename_i known
      cases read
      obtain ⟨member, name⟩ := single?_spells known
      exact ⟨member, name.symm, by simp [name]⟩
    · split at read <;> cases read
  unfold operator at read
  split at read
  · split at read
    · rename_i d rest kind' known
      cases read
      obtain ⟨member, name⟩ := double?_spells known
      exact ⟨member, name.symm, by rw [name]; simp⟩
    · exact single _ read
  · exact single _ read

-- An operator has one character or two.
theorem operator_form {kind : Kind} (known : kind ∈ Kind.operators) :
    (∃ c, kind.name.toList = [c] ∧ single? c = some kind) ∨
      ∃ c d, kind.name.toList = [c, d] ∧ double? c d = some kind := by
  have forms : ∀ kind ∈ Kind.operators,
      kind.name.toList.length = 1 ∧ kind.name.toList.head?.bind single? = some kind ∨
        kind.name.toList.length = 2 ∧
          (kind.name.toList.head?.bind fun c => kind.name.toList.getLast?.bind (double? c)) =
            some kind := by decide
  rcases forms kind known with ⟨one, form⟩ | ⟨two, form⟩
  · obtain ⟨c, split⟩ := List.length_eq_one_iff.mp one
    exact .inl ⟨c, split, by simpa [split] using form⟩
  · obtain ⟨c, d, split⟩ := List.length_eq_two.mp two
    exact .inr ⟨c, d, split, by simpa [split] using form⟩

-- What opens no other word.
structure Bare (c : Char) : Prop where
  name : isNameStart c = false
  digit : c.isDigit = false
  point : c ≠ '.'
  quote : ¬ (c = '"' ∨ c = '\'')

theorem single?_bare {c : Char} {kind : Kind} (known : single? c = some kind) : Bare c := by
  unfold single? at known
  split at known <;> cases known <;> constructor <;> decide

theorem double?_bare {c d : Char} {kind : Kind} (known : double? c d = some kind) : Bare c := by
  unfold double? at known
  split at known <;> cases known <;> constructor <;> decide

-- The second characters of operators.
theorem double?_second {c d : Char} {kind : Kind} (known : double? c d = some kind) :
    d = '=' ∨ d = '&' ∨ d = '|' := by
  unfold double? at known
  split at known <;> cases known <;> decide

theorem operator_bare {kind : Kind} {c : Char} {cs : List Char} (known : kind ∈ Kind.operators)
    (form : kind.name.toList = c :: cs) : Bare c := by
  rcases operator_form known with ⟨d, one, single⟩ | ⟨d, e, two, double⟩
  · rw [form] at one
    cases one
    exact single?_bare single
  · rw [form] at two
    cases two
    exact double?_bare double

-- No operator goes further.
theorem operator_longest {c : Char} {rest after : List Char} {kind longer : Kind} {literal : String}
    (read : operator c rest = ⟨.ok (kind, literal), after⟩) (known : longer ∈ Kind.operators)
    (starts : longer.name.toList <+: c :: rest) : longer.name.toList <+: kind.name.toList := by
  obtain ⟨member, _, split⟩ := operator_spells read
  have here : kind.name.toList <+: c :: rest := ⟨after, split.symm⟩
  refine List.prefix_of_prefix_length_le starts here ?_
  rcases operator_form known with ⟨d, one, _⟩ | ⟨d, e, two, double⟩
  · rcases operator_form member with ⟨d', one', _⟩ | ⟨d', e', two', _⟩
    · simp [one, one']
    · simp [one, two']
  · rw [two] at starts
    obtain ⟨more, same⟩ := starts
    cases same
    simp only [operator, List.append_eq, List.cons_append, double] at read
    cases read
    exact Nat.le_refl _

theorem operator_of_halts {kind : Kind} {c : Char} {cs after : List Char}
    (known : kind ∈ Kind.operators) (form : kind.name.toList = c :: cs)
    (halts : ∀ d ∈ after.head?, d ≠ '=' ∧ d ≠ '&' ∧ d ≠ '|') :
    operator c (cs ++ after) = ⟨.ok (kind, kind.name), after⟩ := by
  rcases operator_form known with ⟨d, one, single⟩ | ⟨d, e, two, double⟩
  · rw [form] at one
    cases one
    have name := (single?_spells single).2
    have alone : singleOperator c after = ⟨.ok (kind, kind.name), after⟩ := by
      rw [singleOperator, single, name]
    cases after with
    | nil => exact alone
    | cons e after =>
      rw [List.nil_append, operator]
      cases double : double? c e with
      | none => exact alone
      | some other =>
        obtain ⟨first, second, third⟩ := halts e rfl
        rcases double?_second double with same | same | same
        · exact absurd same first
        · exact absurd same second
        · exact absurd same third
  · rw [form] at two
    cases two
    have name := (double?_spells double).2
    rw [List.cons_append, operator, double, name]
    rfl

end Operators

section Spellings

variable {c : Char} {cs rest after : List Char} {kind : Kind} {literal : String}

theorem isNumeral_ne_nil {cs : List Char} (isNumeral : IsNumeral cs) : cs ≠ [] := by
  cases isNumeral with
  | of isDecimal _ =>
    cases isDecimal with
    | whole some all => simp [some]
    | pointed some all others => simp

theorem starts_of_isNumeral (isNumeral : IsNumeral (c :: cs)) (starts : cs <+: rest) :
    startsNumeral c rest = true := by
  obtain ⟨more, rfl⟩ := starts
  generalize same : c :: cs = numeral at isNumeral
  cases isNumeral with
  | @of decimal exponent isDecimal _ =>
    have digit {d : Char} {ds tail : List Char} (all : Digits (d :: ds)) (split : c :: cs = d :: tail) :
        startsNumeral c (cs ++ more) = true := by
      simp [startsNumeral, (List.cons.inj split).1, all d List.mem_cons_self]
    cases isDecimal with
    | whole some all =>
      obtain ⟨d, ds, rfl⟩ := List.exists_cons_of_ne_nil some
      exact digit all same
    | @pointed digits fraction some all others =>
      cases digits with
      | cons d ds => exact digit all same
      | nil =>
        obtain ⟨d, ds, rfl⟩ := List.exists_cons_of_ne_nil (some.resolve_left fun no => no rfl)
        obtain ⟨rfl, rfl⟩ := List.cons.inj same
        simp [startsNumeral, others d List.mem_cons_self]

theorem first_of_startsNumeral (starts : startsNumeral c rest = true) :
    c.isDigit = true ∨ c = '.' := by
  simp only [startsNumeral, Bool.or_eq_true, Bool.and_eq_true, beq_iff_eq] at starts
  exact starts.imp id And.left

theorem isNameStart_of_startsNumeral (starts : startsNumeral c rest = true) :
    isNameStart c = false := by
  rcases first_of_startsNumeral starts with digit | rfl
  · exact isNameStart_of_isDigit digit
  · decide

theorem bare_of_quote (either : c = '"' ∨ c = '\'') (rest : List Char) :
    isNameStart c = false ∧ startsNumeral c rest = false := by
  rcases either with rfl | rfl <;> exact ⟨by decide, rfl⟩

theorem Bare.startsNumeral (bare : Bare c) : startsNumeral c rest = false := by
  by_contra starts
  rcases first_of_startsNumeral ((Bool.not_eq_false _).mp starts) with digit | point
  · rw [bare.digit] at digit
    cases digit
  · exact bare.point point

-- The first character of a spelling tells what is spelled.
inductive SpellsFrom (c : Char) (cs : List Char) : Kind → String → Prop where
  | word (starts : isNameStart c = true) (parts : ∀ d ∈ cs, isNamePart d = true) :
      SpellsFrom c cs (Kind.ofWord (String.ofList (c :: cs))) (String.ofList (c :: cs))
  | numeral (isNumeral : IsNumeral (c :: cs)) : SpellsFrom c cs .number (String.ofList (c :: cs))
  | quoted {body text : List Char} (either : c = '"' ∨ c = '\'') (quotes : Quotes c body text)
      (form : cs = body ++ [c]) : SpellsFrom c cs .string (String.ofList text)
  | operator {kind : Kind} (known : kind ∈ Kind.operators) (form : kind.name.toList = c :: cs) :
      SpellsFrom c cs kind kind.name

theorem spellsFrom_of_spells {lexeme : List Char} (spells : Spells lexeme kind literal) :
    ∃ c cs, lexeme = c :: cs ∧ SpellsFrom c cs kind literal := by
  cases spells with
  | word starts parts => exact ⟨_, _, rfl, .word starts parts⟩
  | numeral isNumeral =>
    obtain ⟨c, cs, rfl⟩ := List.exists_cons_of_ne_nil (isNumeral_ne_nil isNumeral)
    exact ⟨c, cs, rfl, .numeral isNumeral⟩
  | operator known =>
    rcases operator_form known with ⟨c, form, _⟩ | ⟨c, d, form, _⟩
    · exact ⟨c, [], form, .operator known form⟩
    · exact ⟨c, [d], form, .operator known form⟩
  | quoted either quotes => exact ⟨_, _, rfl, .quoted either quotes rfl⟩

theorem isNamePart_of_isNameStart (starts : isNameStart c = true) : isNamePart c = true := by
  simp [isNamePart, starts]

-- How the reader chooses.
theorem read_word (starts : isNameStart c = true) : read c rest = word (c :: rest) := by
  rw [read, if_pos starts]

theorem read_numeral (starts : startsNumeral c rest = true) : read c rest = numeral (c :: rest) := by
  rw [read, if_neg (by simp [isNameStart_of_startsNumeral starts]), if_pos starts]

theorem read_quoted (either : c = '"' ∨ c = '\'') : read c rest = stringBody c [] rest := by
  obtain ⟨name, numeral⟩ := bare_of_quote either rest
  simp only [read, name, numeral, Bool.false_eq_true, if_false]
  rw [if_pos (by simpa using either)]

theorem read_operator (bare : Bare c) : read c rest = operator c rest := by
  simp only [read, bare.name, bare.startsNumeral, Bool.false_eq_true, if_false]
  rw [if_neg (by simpa using bare.quote)]

-- What a reader finds: a spelling, with none at the same place that goes further.
structure Finds (cs lexeme : List Char) (kind : Kind) (literal : String) (after : List Char) :
    Prop where
  split : cs = lexeme ++ after
  spells : Spells lexeme kind literal
  longest : ∀ longer kind' literal', Spells longer kind' literal' → longer <+: cs →
    longer <+: lexeme

theorem word_finds (starts : isNameStart c = true)
    (read : word (c :: rest) = ⟨.ok (kind, literal), after⟩) :
    ∃ lexeme, Finds (c :: rest) lexeme kind literal after := by
  have part := isNamePart_of_isNameStart starts
  cases read
  refine ⟨(c :: rest).takeWhile isNamePart, List.takeWhile_append_dropWhile.symm, ?_, ?_⟩
  · rw [List.takeWhile_cons_of_pos part]
    exact .word starts (all_takeWhile isNamePart rest)
  · intro longer kind' literal' spells beginning
    obtain ⟨d, cs, rfl, opens⟩ := spellsFrom_of_spells spells
    obtain ⟨rfl, inside⟩ := List.cons_prefix_cons.mp beginning
    cases opens with
    | word _ parts => exact prefix_takeWhile (List.forall_mem_cons.mpr ⟨part, parts⟩) beginning
    | numeral isNumeral =>
      have other := isNameStart_of_startsNumeral (starts_of_isNumeral isNumeral inside)
      exact absurd starts (by simp [other])
    | quoted either quotes form =>
      have other := (bare_of_quote either rest).1
      exact absurd starts (by simp [other])
    | operator known form => exact absurd starts (by simp [(operator_bare known form).name])

theorem numeral_finds (starts : startsNumeral c rest = true)
    (read : numeral (c :: rest) = ⟨.ok (kind, literal), after⟩) :
    ∃ lexeme, Finds (c :: rest) lexeme kind literal after := by
  have name := isNameStart_of_startsNumeral starts
  obtain ⟨lexeme, reads, rfl, rfl⟩ := readsNumeral_of_ok read
  refine ⟨lexeme, reads.split, .numeral (reads.isNumeral starts), ?_⟩
  intro longer kind' literal' spells beginning
  obtain ⟨d, cs, rfl, opens⟩ := spellsFrom_of_spells spells
  obtain ⟨rfl, inside⟩ := List.cons_prefix_cons.mp beginning
  cases opens with
  | word other _ => exact absurd other (by simp [name])
  | numeral isNumeral => exact reads.longest isNumeral beginning
  | quoted either quotes form =>
    have other := (bare_of_quote either rest).2
    exact absurd starts (by simp [other])
  | operator known form => exact absurd starts (by simp [(operator_bare known form).startsNumeral])

theorem quoted_finds (either : c = '"' ∨ c = '\'')
    (read : stringBody c [] rest = ⟨.ok (kind, literal), after⟩) :
    ∃ lexeme, Finds (c :: rest) lexeme kind literal after := by
  obtain ⟨name, numeral⟩ := bare_of_quote either rest
  obtain ⟨rfl, body, text, rfl, quotes, rfl⟩ := quotes_of_stringBody read
  refine ⟨c :: body ++ [c], by simp, .quoted either quotes, ?_⟩
  intro longer kind' literal' spells beginning
  obtain ⟨d, cs, rfl, opens⟩ := spellsFrom_of_spells spells
  obtain ⟨rfl, inside⟩ := List.cons_prefix_cons.mp beginning
  cases opens with
  | word other _ => exact absurd other (by simp [name])
  | numeral isNumeral => exact absurd (starts_of_isNumeral isNumeral inside) (by simp [numeral])
  | quoted _ others form =>
    obtain ⟨more, same⟩ := inside
    rw [form, List.append_assoc] at same
    rw [form, body_eq_of_quotes quotes either others same.symm]
    exact List.prefix_rfl
  | operator known form => exact absurd either (operator_bare known form).quote

theorem operator_finds (read : operator c rest = ⟨.ok (kind, literal), after⟩) :
    ∃ lexeme, Finds (c :: rest) lexeme kind literal after := by
  obtain ⟨member, rfl, split⟩ := operator_spells read
  have bare : Bare c := by
    rcases operator_form member with ⟨d, form, _⟩ | ⟨d, e, form, _⟩ <;>
      · have here := form
        rw [form] at split
        cases split
        exact operator_bare member here
  refine ⟨kind.name.toList, split, .operator member, ?_⟩
  intro longer kind' literal' spells beginning
  obtain ⟨d, cs, rfl, opens⟩ := spellsFrom_of_spells spells
  obtain ⟨rfl, inside⟩ := List.cons_prefix_cons.mp beginning
  cases opens with
  | word other _ => exact absurd other (by simp [bare.name])
  | numeral isNumeral =>
    exact absurd (starts_of_isNumeral isNumeral inside) (by simp [bare.startsNumeral])
  | quoted either quotes form => exact absurd either bare.quote
  | operator known form =>
    rw [← form] at beginning ⊢
    exact operator_longest read known beginning

-- A reader takes the longest spelling.
theorem read_finds (read : read c rest = ⟨.ok (kind, literal), after⟩) :
    ∃ lexeme, Finds (c :: rest) lexeme kind literal after := by
  unfold Lexer.read at read
  split at read
  · exact word_finds ‹_› read
  · split at read
    · exact numeral_finds ‹_› read
    · split at read
      · rename_i either
        exact quoted_finds (by simpa using either) read
      · exact operator_finds read

-- What may stand behind a word without becoming a part of it.
def Apart (after : List Char) : Prop :=
  Halts (fun c => isNamePart c || c == '.' || c == '=' || c == '&' || c == '|') after

theorem Apart.isNamePart (apart : Apart after) : Halts isNamePart after := fun c first => by
  have other := apart c first
  simp only [Bool.or_eq_false_iff] at other
  exact other.1.1.1.1

theorem Apart.isNameStart (apart : Apart after) : Halts isNameStart after := fun c first => by
  have other := apart.isNamePart c first
  rw [Lexer.isNamePart, Bool.or_eq_false_iff] at other
  exact other.1

theorem Apart.numeral (apart : Apart after) :
    Halts (fun c => c.isDigit || c == '.' || c == 'e' || c == 'E') after := fun c first => by
  have other := apart c first
  have name := apart.isNameStart c first
  have digit := apart.isNamePart c first
  simp only [Lexer.isNamePart, Bool.or_eq_false_iff] at digit
  have letter : c ≠ 'e' ∧ c ≠ 'E' := by
    constructor <;> rintro rfl <;> exact absurd name (by decide)
  simp only [Bool.or_eq_false_iff] at other ⊢
  exact ⟨⟨⟨digit.2, other.1.1.1.2⟩, by simpa using letter.1⟩, by simpa using letter.2⟩

theorem Apart.operator (apart : Apart after) : ∀ c ∈ after.head?, c ≠ '=' ∧ c ≠ '&' ∧ c ≠ '|' := by
  intro c first
  have other := apart c first
  simp only [Bool.or_eq_false_iff, beq_eq_false_iff_ne] at other
  exact ⟨other.1.1.2, other.1.2, other.2⟩

-- A spelling that stands apart is read as what it spells.
theorem SpellsFrom.read_eq (opens : SpellsFrom c cs kind literal) (apart : Apart after) :
    read c (cs ++ after) = ⟨.ok (kind, literal), after⟩ := by
  cases opens with
  | word starts others =>
    have all : ∀ d ∈ c :: cs, isNamePart d = true :=
      List.forall_mem_cons.mpr ⟨isNamePart_of_isNameStart starts, others⟩
    obtain ⟨taken, left⟩ := takeWhile_append_halts all apart.isNamePart
    rw [read_word starts, Lexer.word, ← List.cons_append, taken, left]
  | numeral isNumeral =>
    rw [read_numeral (starts_of_isNumeral isNumeral (List.prefix_append _ _)), ← List.cons_append,
      (ReadsNumeral.of_isNumeral isNumeral apart.numeral).numeral_eq, closeNumeral_eq_ok_iff]
    exact ⟨rfl, rfl, rfl, apart.isNameStart⟩
  | quoted either quotes form =>
    rw [read_quoted either, form, List.append_assoc]
    exact stringBody_of_quotes either quotes [] after
  | operator known form =>
    rw [read_operator (operator_bare known form)]
    exact operator_of_halts known form apart.operator

end Spellings

end Lexer

end ScalarScript
