import ScalarScript.Proofs.Token.Stream
/-!
Tokens printed and read again. A word that stands apart from what follows is read as what it spells,
so words printed with spaces between them are read back, and a text between quotes is the text that
its characters are escaped from.
-/
namespace ScalarScript

-- How a character is written between quotes.
def Lexer.escape (c : Char) : List Char :=
  match c with
  | '\n' => ['\\', 'n']
  | '\t' => ['\\', 't']
  | '\r' => ['\\', 'r']
  | '\\' => ['\\', '\\']
  | '"' => ['\\', '"']
  | '\'' => ['\\', '\'']
  | c => [c]

def Lexer.quoted (quote : Char) (text : List Char) : List Char :=
  quote :: text.flatMap escape ++ [quote]

-- A string is printed between quotes of either kind, and all else as it was written.
inductive Token.Prints (t : Token) : List Char → Prop where
  | plain (other : t.kind ≠ .string) : Prints t t.literal.toList
  | quoted {quote : Char} (string : t.kind = .string) (either : quote = '"' ∨ quote = '\'') :
      Prints t (Lexer.quoted quote t.literal.toList)

-- A way to write a token where it is no part of a comment.
structure Token.Written (t : Token) (text : List Char) : Prop where
  spells : Spells text t.kind t.literal
  solid : Solid text

-- The marks and the line that printed tokens are read with.
def Token.inLine (tokens : List Token) (text : List Char) : List Token :=
  tokens.map (fun t => { t with line := 1 }) ++ [⟨.lineMark, String.ofList (Text.trimChars text), 1⟩]

section Written

variable {lexeme text after rest : List Char} {kind : Kind} {literal : String}

theorem spells_ne_nil (spells : Spells lexeme kind literal) : lexeme ≠ [] := by
  obtain ⟨c, cs, rfl, _⟩ := Lexer.spellsFrom_of_spells spells
  simp

-- Behind a word a space opens no comment.
theorem Solid.apart (solid : Solid (lexeme ++ rest)) (some : lexeme ≠ [])
    (ends : ∀ c ∈ after.head?, c = ' ') : Solid (lexeme ++ after) := by
  obtain ⟨c, cs, rfl⟩ := List.exists_cons_of_ne_nil some
  obtain ⟨blank, line, block⟩ := solid
  have opens {d : Char} (mark : d ≠ ' ') (starts : ['/', d] <+: c :: cs ++ after) :
      ['/', d] <+: c :: cs ++ rest := by
    cases cs with
    | nil =>
      obtain ⟨more, same⟩ := starts
      cases same
      exact absurd (ends d rfl) mark
    | cons e cs =>
      obtain ⟨more, same⟩ := starts
      cases same
      exact ⟨_, rfl⟩
  exact ⟨blank, fun starts => line (opens (by decide) starts),
    fun starts => block (opens (by decide) starts)⟩

theorem solid_quoted {quote : Char} (either : quote = '"' ∨ quote = '\'') (text : List Char) :
    Solid (Lexer.quoted quote text) := by
  rcases either with rfl | rfl <;> simp [Solid, Lexer.quoted] <;> decide

-- A character is written as an escape that means it, or as itself where it needs none.
theorem escape_cases (c : Char) : (∃ d, Lexer.escape c = ['\\', d] ∧ Lexer.unescape? d = some c) ∨
    (Lexer.escape c = [c] ∧ c ≠ '\\' ∧ c ≠ '\n' ∧ ¬ (c = '"' ∨ c = '\'')) := by
  unfold Lexer.escape
  split
  case h_7 newline tab carriage bare double single =>
    exact .inr ⟨rfl, bare, newline, fun either => either.elim double single⟩
  all_goals exact .inl ⟨_, rfl, rfl⟩

theorem quotes_escape {quote : Char} (either : quote = '"' ∨ quote = '\'') (text : List Char) :
    Quotes quote (text.flatMap Lexer.escape) text := by
  induction text with
  | nil => exact .done
  | cons c text ih =>
    rw [List.flatMap_cons]
    rcases escape_cases c with ⟨d, escape, known⟩ | ⟨escape, bare, inLine, inside⟩
    · rw [escape]
      exact .escaped known ih
    · rw [escape]
      refine .plain ?_ bare inLine ih
      rintro rfl
      exact inside either

theorem spells_quoted {quote : Char} (either : quote = '"' ∨ quote = '\'') (text : String) :
    Spells (Lexer.quoted quote text.toList) .string text := by
  simpa [Lexer.quoted] using Spells.quoted either (quotes_escape either text.toList)

-- All but strings are spelled by their literals.
theorem eq_literal_of_spells (spells : Spells lexeme kind literal) (other : kind ≠ .string) :
    lexeme = literal.toList := by
  cases spells with
  | quoted => exact absurd rfl other
  | _ => simp

theorem Token.Prints.written {t : Token} (prints : t.Prints text) (written : t.Written lexeme) :
    t.Written text := by
  cases prints with
  | plain other => rwa [← eq_literal_of_spells written.spells other]
  | quoted string either => exact ⟨string ▸ spells_quoted either _, solid_quoted either _⟩

-- Every word of a text is written somewhere in it.
theorem written_of_laid {passages : List Passage} (laid : Passage.Laid passages) (before : List Char) :
    ∀ t ∈ Passage.tokens before passages, ∃ lexeme, t.Written lexeme := by
  induction laid generalizing before with
  | done => exact List.forall_mem_nil _
  | blank space more ih => exact ih _
  | comment closed more ih => exact ih _
  | word spells solid longest more ih =>
    refine List.forall_mem_cons.mpr ⟨⟨_, spells, ?_⟩, ih _⟩
    have alone := solid.apart (spells_ne_nil spells) (fun c (first : c ∈ [].head?) => nomatch first)
    simpa using alone

end Written

namespace Lexer

variable {l : Lexer} {c : Char} {text after : List Char} {t : Token}

theorem skip_solid (solid : Solid (c :: after)) : skip false (c :: after) = (false, c :: after) := by
  obtain ⟨blank, line, block⟩ := solid
  have blank : Text.isBlank c = false := blank c rfl
  rw [skip.eq_def]
  split <;> simp_all

-- A word that stands apart is the next token.
theorem next_of_written (written : t.Written text) (ends : ∀ c ∈ after.head?, c = ' ')
    (skipped : skip l.inComment l.rest = skip false (text ++ after)) :
    l.next = (.ok { t with line := l.line }, { l with rest := after, inComment := false }) := by
  obtain ⟨c, cs, rfl, opens⟩ := spellsFrom_of_spells written.spells
  have solid : Solid (c :: (cs ++ after)) :=
    ((List.append_nil (c :: cs)).symm ▸ written.solid).apart (by simp) ends
  have inLine : c ≠ '\n' := fun same => newline_of_spells written.spells (same ▸ List.mem_cons_self)
  have apart : Apart after := fun d first => by
    rw [ends d first]
    decide
  have reading := opens.read_eq apart
  rw [List.cons_append, skip_solid solid] at skipped
  unfold next
  rw [skipped]
  split
  · simp_all
  · simp_all
  · simp_all
  · rename_i same
    cases same
    rw [reading]

-- What follows a text among others that have spaces between them.
theorem intercalate_cons (text : List Char) (texts : List (List Char)) :
    ∃ after, [' '].intercalate (text :: texts) = text ++ after ∧ (∀ c ∈ after.head?, c = ' ') ∧
      (after = [' '].intercalate texts ∨ after = ' ' :: [' '].intercalate texts) := by
  cases texts with
  | nil => exact ⟨[], by simp [List.intercalate], by simp, .inl rfl⟩
  | cons other texts =>
    exact ⟨' ' :: [' '].intercalate (other :: texts), by simp [List.intercalate], by simp, .inr rfl⟩

theorem skip_space (cs : List Char) : skip false (' ' :: cs) = skip false cs := by
  rw [skip]
  · rw [if_pos (by decide)]
  all_goals simp

section Printed

variable {tokens : List Token} {texts : List (List Char)}

-- Words with spaces between them are read one by one.
theorem collect_printed {steps : Nat} {given : List Token} (going : l.finished = false)
    (printed : List.Forall₂ Token.Written tokens texts) (enough : tokens.length < steps)
    (skipped : skip l.inComment l.rest = skip false ([' '].intercalate texts)) :
    l.collect steps given = .ok (given.reverse ++ tokens.map (fun t => { t with line := l.line }) ++
      [⟨.lineMark, l.lineText, l.line⟩]) := by
  induction printed generalizing l given steps with
  | nil =>
    obtain ⟨steps, rfl⟩ := Nat.exists_eq_add_one_of_ne_zero (Nat.ne_of_gt enough)
    have next : l.next = (.ok ⟨.lineMark, l.lineText, l.line⟩,
        { l with rest := [], inComment := false, finished := true }) := by
      simp [next, skipped, skip, going, List.intercalate]
    rw [collect, next]
    dsimp only
    rw [if_neg (by simp), collect_finished rfl rfl rfl]
    simp
  | @cons t text tokens texts written more ih =>
    obtain ⟨steps, rfl⟩ := Nat.exists_eq_add_one_of_ne_zero (Nat.ne_of_gt (Nat.zero_lt_of_lt enough))
    obtain ⟨after, split, ends, form⟩ := intercalate_cons text texts
    have rest : skip false after = skip false ([' '].intercalate texts) := by
      rcases form with rfl | rfl
      · rfl
      · exact skip_space _
    rw [split] at skipped
    rw [collect, next_of_written written ends skipped]
    dsimp only
    rw [if_neg (kind_of_spells written.spells).2,
      ih (l := { l with rest := after, inComment := false }) going (by simpa using enough) rest]
    simp [lineText]

theorem newline_of_printed (printed : List.Forall₂ Token.Written tokens texts) :
    '\n' ∉ [' '].intercalate texts := by
  induction printed with
  | nil => simp [List.intercalate]
  | @cons t text tokens texts written more ih =>
    obtain ⟨after, split, _, form⟩ := intercalate_cons text texts
    rw [split, List.mem_append, not_or]
    refine ⟨newline_of_spells written.spells, ?_⟩
    rcases form with rfl | rfl
    · exact ih
    · simpa using ih

theorem length_of_printed (printed : List.Forall₂ Token.Written tokens texts) :
    tokens.length ≤ ([' '].intercalate texts).length := by
  induction printed with
  | nil => exact Nat.zero_le _
  | @cons t text tokens texts written more ih =>
    obtain ⟨after, split, _, form⟩ := intercalate_cons text texts
    have some := List.length_pos_iff.mpr (spells_ne_nil written.spells)
    rw [split, List.length_append, List.length_cons]
    rcases form with rfl | rfl
    · omega
    · rw [List.length_cons]
      omega

end Printed

end Lexer

-- A line of words is read as those words.
theorem tokenize_written {tokens : List Token} {texts : List (List Char)}
    (printed : List.Forall₂ Token.Written tokens texts) :
    tokenize (String.ofList ([' '].intercalate texts)) =
      .ok (Token.inLine tokens ([' '].intercalate texts)) := by
  have enough := Lexer.length_of_printed printed
  have line := takeWhile_line (Lexer.newline_of_printed printed)
    fun c (first : c ∈ [].head?) => nomatch first
  rw [List.append_nil] at line
  rw [tokenize, Lexer.collect_printed rfl printed]
  · simp only [Lexer.start, Lexer.lineText, String.toList_ofList, line, List.reverse_nil,
      List.nil_append, Token.inLine]
  · rw [String.length_ofList]
    omega
  · simp only [Lexer.start, String.toList_ofList]

theorem written_of_prints {tokens : List Token} {texts : List (List Char)}
    (prints : List.Forall₂ Token.Prints tokens texts)
    (found : ∀ t ∈ tokens, ∃ lexeme, t.Written lexeme) : List.Forall₂ Token.Written tokens texts := by
  induction prints with
  | nil => exact .nil
  | cons print more ih =>
    obtain ⟨⟨lexeme, written⟩, others⟩ := List.forall_mem_cons.mp found
    exact .cons (print.written written) (ih others)

theorem written_of_tokenize {source : String} {tokens : List Token}
    (read : tokenize source = .ok tokens) :
    ∀ t ∈ tokens.filter (!·.isMark), ∃ lexeme, t.Written lexeme := by
  obtain ⟨passages, _, laid, words⟩ := (streams_of_tokenize read).cuts.passages
  rw [words]
  exact written_of_laid laid []

-- What is found in a text is found again where it is printed with spaces between, and every text is
-- found again where it stands between quotes.
theorem tokenize_printed :
    (∀ source tokens texts, tokenize source = .ok tokens →
      List.Forall₂ Token.Prints (tokens.filter (!·.isMark)) texts →
      tokenize (String.ofList ([' '].intercalate texts)) =
        .ok (Token.inLine (tokens.filter (!·.isMark)) ([' '].intercalate texts))) ∧
    ∀ quote text, quote = '"' ∨ quote = '\'' →
      tokenize (String.ofList (Lexer.quoted quote text.toList)) =
        .ok (Token.inLine [⟨.string, text, 1⟩] (Lexer.quoted quote text.toList)) := by
  constructor
  · intro source tokens texts read prints
    exact tokenize_written (written_of_prints prints (written_of_tokenize read))
  · intro quote text either
    have written : Token.Written ⟨.string, text, 1⟩ (Lexer.quoted quote text.toList) :=
      ⟨spells_quoted either text, solid_quoted either _⟩
    have line := tokenize_written (.cons written .nil)
    simpa [List.intercalate] using line

theorem printed_quotes :
    tokenize "s=\"it's\"/2." = .ok [⟨.identifier, "s", 1⟩, ⟨.assign, "=", 1⟩, ⟨.string, "it's", 1⟩,
        ⟨.slash, "/", 1⟩, ⟨.number, "2.", 1⟩, ⟨.lineMark, "s=\"it's\"/2.", 1⟩] ∧
      tokenize "s = 'it\\'s' / 2." = .ok [⟨.identifier, "s", 1⟩, ⟨.assign, "=", 1⟩,
        ⟨.string, "it's", 1⟩, ⟨.slash, "/", 1⟩, ⟨.number, "2.", 1⟩,
        ⟨.lineMark, "s = 'it\\'s' / 2.", 1⟩] := by
  have read : tokenize "s=\"it's\"/2." = .ok [⟨.identifier, "s", 1⟩, ⟨.assign, "=", 1⟩,
      ⟨.string, "it's", 1⟩, ⟨.slash, "/", 1⟩, ⟨.number, "2.", 1⟩,
      ⟨.lineMark, "s=\"it's\"/2.", 1⟩] := by decide +kernel
  have again := tokenize_printed.1 _ _ [['s'], ['='], Lexer.quoted '\'' "it's".toList, ['/'], ['2', '.']]
    read (.cons (.plain (by decide)) (.cons (.plain (by decide))
      (.cons (.quoted rfl (.inr rfl)) (.cons (.plain (by decide)) (.cons (.plain (by decide)) .nil)))))
  have text : String.ofList ([' '].intercalate [['s'], ['='], Lexer.quoted '\'' "it's".toList, ['/'],
      ['2', '.']]) = "s = 'it\\'s' / 2." := by decide +kernel
  rw [text] at again
  exact ⟨read, again.trans (by decide +kernel)⟩

end ScalarScript
