import ScalarScript.Proofs.Token.Lexeme
import ScalarScript.Text.Cut
import Mathlib.Data.List.Forall2
/-!
The token stream of a text: a mark for each of its lines, behind the tokens that start on the line,
and the text itself, cut into the lexemes of the other tokens, white space and comments.
-/
namespace ScalarScript

-- A comment, with what follows it: up to the end of its line, or up to the first closing mark.
inductive IsComment : List Char → List Char → Prop where
  | line {body rest : List Char} (inLine : '\n' ∉ body) (ends : ∀ c ∈ rest.head?, c = '\n') :
      IsComment ('/' :: '/' :: body) rest
  | block {body rest : List Char} (first : ¬ ['*', '/'] <:+: body ++ ['*']) :
      IsComment ('/' :: '*' :: body ++ ['*', '/']) rest

-- Neither white space nor a comment starts here.
def Solid (cs : List Char) : Prop :=
  (∀ c ∈ cs.head?, Text.isBlank c = false) ∧ ¬ ['/', '/'] <+: cs ∧ ¬ ['/', '*'] <+: cs

inductive Passage where
  | blank (c : Char)
  | comment (text : List Char)
  | word (lexeme : List Char) (kind : Kind) (literal : String)

namespace Passage

def text : Passage → List Char
  | blank c => [c]
  | comment text => text
  | word lexeme _ _ => lexeme

-- The tokens of the words behind a text. Each has the line that it starts on.
def tokens (before : List Char) : List Passage → List Token
  | [] => []
  | word lexeme kind literal :: passages =>
    ⟨kind, literal, before.count '\n' + 1⟩ :: tokens (before ++ lexeme) passages
  | passage :: passages => tokens (before ++ passage.text) passages

-- Every passage is what it says, where it stands, and a word goes as far as it can.
inductive Laid : List Passage → Prop where
  | done : Laid []
  | blank {c : Char} {passages : List Passage} (space : Text.isBlank c = true) (more : Laid passages) :
      Laid (blank c :: passages)
  | comment {cs : List Char} {passages : List Passage} (closed : IsComment cs (passages.flatMap text))
      (more : Laid passages) : Laid (comment cs :: passages)
  | word {lexeme : List Char} {kind : Kind} {literal : String} {passages : List Passage}
      (spells : Spells lexeme kind literal) (solid : Solid (lexeme ++ passages.flatMap text))
      (longest : ∀ longer kind' literal', Spells longer kind' literal' →
        longer <+: lexeme ++ passages.flatMap text → longer <+: lexeme)
      (more : Laid passages) : Laid (word lexeme kind literal :: passages)

end Passage

namespace Token

def isMark (t : Token) : Bool := t.kind = .lineMark

-- The mark of a line: the number of the line, and its text between the white space at its ends.
structure Marks (line : List Char × Nat) (t : Token) : Prop where
  kind : t.kind = .lineMark
  number : t.line = line.2
  text : Text.Trims line.1 t.literal.toList

-- In the order of the lines that they start on, with a mark behind everything on its line.
def Ordered (t u : Token) : Prop := t.line ≤ u.line ∧ (t.isMark = true → t.line < u.line)

end Token

section Lines

variable {before after : List Char}

theorem split_line (inLine : '\n' ∉ before) : Text.split '\n' before = [before] := by
  induction before with
  | nil => rfl
  | cons c cs ih =>
    rw [List.mem_cons, not_or] at inLine
    rw [Text.split, if_neg (Ne.symm inLine.1), ih inLine.2]

theorem split_lines (inLine : '\n' ∉ before) :
    Text.split '\n' (before ++ '\n' :: after) = before :: Text.split '\n' after := by
  induction before with
  | nil => rw [List.nil_append, Text.split, if_pos rfl]
  | cons c cs ih =>
    rw [List.mem_cons, not_or] at inLine
    rw [List.cons_append, Text.split, if_neg (Ne.symm inLine.1), ih inLine.2]

theorem takeWhile_line (inLine : '\n' ∉ before) (ends : ∀ c ∈ after.head?, c = '\n') :
    (before ++ after).takeWhile (· ≠ '\n') = before := by
  refine (Lexer.takeWhile_append_halts (fun c inside => ?_) fun c first => ?_).1
  · exact decide_eq_true fun same => inLine (same ▸ inside)
  · simp [ends c first]

end Lines

section Spellings

variable {lexeme : List Char} {kind : Kind} {literal : String}

theorem newline_of_isNumeral (isNumeral : IsNumeral lexeme) : '\n' ∉ lexeme := by
  have digits {cs : List Char} (all : Digits cs) : '\n' ∉ cs := fun inside =>
    absurd (all _ inside) (by decide)
  cases isNumeral with
  | of isDecimal isExponent =>
    rw [List.mem_append, not_or]
    constructor
    · cases isDecimal with
      | whole some all => exact digits all
      | pointed some all others => simpa using ⟨digits all, digits others⟩
    · cases isExponent with
      | none => simp
      | some mark signed some all =>
        rcases mark with rfl | rfl <;> cases signed <;> simpa using digits all

theorem newline_of_quotes {quote : Char} {body text : List Char} (quotes : Quotes quote body text) :
    '\n' ∉ body := by
  induction quotes with
  | done => simp
  | plain inside bare inLine more ih => simpa using ⟨Ne.symm inLine, ih⟩
  | @escaped c d body text known more ih =>
    have inLine : c ≠ '\n' := by
      rintro rfl
      cases known
    simpa using ⟨Ne.symm inLine, ih⟩

-- A word lies on one line.
theorem newline_of_spells (spells : Spells lexeme kind literal) : '\n' ∉ lexeme := by
  cases spells with
  | @word c cs starts parts =>
    have all : ∀ d ∈ c :: cs, Lexer.isNamePart d = true :=
      List.forall_mem_cons.mpr ⟨Lexer.isNamePart_of_isNameStart starts, parts⟩
    exact fun inside => absurd (all _ inside) (by decide)
  | numeral isNumeral => exact newline_of_isNumeral isNumeral
  | operator known =>
    have names : ∀ kind ∈ Kind.operators, '\n' ∉ kind.name.toList := by decide
    exact names kind known
  | quoted either quotes =>
    have inside := newline_of_quotes quotes
    rcases either with rfl | rfl <;> simpa using inside

theorem ofWord_mem (word : String) :
    Kind.ofWord word ∈ Kind.identifier :: Kind.keywords.map Prod.snd := by
  unfold Kind.ofWord
  cases found : Kind.keywords.lookup word with
  | none => exact List.mem_cons_self
  | some kind =>
    obtain ⟨before, after, split, _⟩ := List.lookup_eq_some_iff.mp found
    exact List.mem_cons_of_mem _ (List.mem_map.mpr ⟨(word, kind), by simp [split], rfl⟩)

-- No word is a mark or the end.
theorem kind_of_spells (spells : Spells lexeme kind literal) : kind ≠ .lineMark ∧ kind ≠ .finish := by
  cases spells with
  | word starts parts =>
    have kinds : ∀ kind ∈ Kind.identifier :: Kind.keywords.map Prod.snd,
        kind ≠ .lineMark ∧ kind ≠ .finish := by decide
    exact kinds _ (ofWord_mem _)
  | numeral => decide
  | operator known =>
    have kinds : ∀ kind ∈ Kind.operators, kind ≠ .lineMark ∧ kind ≠ .finish := by decide
    exact kinds kind known
  | quoted => decide

end Spellings

namespace Lexer

-- The words that a text is cut into behind another, which may end inside a block comment.
inductive Cuts : Bool → List Char → List Char → List Token → Prop where
  | code {before : List Char} {passages : List Passage} (laid : Passage.Laid passages) :
      Cuts false before (passages.flatMap Passage.text) (Passage.tokens before passages)
  | comment {before body : List Char} {passages : List Passage}
      (first : ¬ ['*', '/'] <:+: body ++ ['*']) (laid : Passage.Laid passages) :
      Cuts true before (body ++ '*' :: '/' :: passages.flatMap Passage.text)
        (Passage.tokens (before ++ body ++ ['*', '/']) passages)

namespace Cuts

variable {before cs rest : List Char} {tokens : List Token}

theorem blank {c : Char} (space : Text.isBlank c = true)
    (cuts : Cuts false (before ++ [c]) rest tokens) : Cuts false before (c :: rest) tokens := by
  cases cuts with
  | code laid => exact .code (.blank space laid)

theorem lineComment {body : List Char} (inLine : '\n' ∉ body) (ends : ∀ c ∈ rest.head?, c = '\n')
    (cuts : Cuts false (before ++ '/' :: '/' :: body) rest tokens) :
    Cuts false before ('/' :: '/' :: body ++ rest) tokens := by
  cases cuts with
  | code laid => exact .code (.comment (.line inLine ends) laid)

theorem opened (cuts : Cuts true (before ++ ['/', '*']) rest tokens) :
    Cuts false before ('/' :: '*' :: rest) tokens := by
  cases cuts with
  | @comment _ body passages first laid =>
    have block : IsComment ('/' :: '*' :: body ++ ['*', '/']) (passages.flatMap Passage.text) :=
      .block first
    have whole : Cuts false before _ _ := .code (.comment block laid)
    simpa [Passage.tokens, Passage.text] using whole

theorem closed (cuts : Cuts false (before ++ ['*', '/']) rest tokens) :
    Cuts true before ('*' :: '/' :: rest) tokens := by
  cases cuts with
  | @code _ passages laid =>
    have whole : Cuts true before ([] ++ _) _ := .comment (by decide) laid
    simpa using whole

-- Inside a comment anything may stand but the closing mark.
theorem inside {c : Char} (goesOn : ¬ ['*', '/'] <+: c :: rest)
    (cuts : Cuts true (before ++ [c]) rest tokens) : Cuts true before (c :: rest) tokens := by
  cases cuts with
  | @comment _ body passages first laid =>
    have further : ¬ ['*', '/'] <:+: c :: body ++ ['*'] := by
      rw [List.cons_append, List.infix_cons_iff, not_or]
      refine ⟨fun starts => goesOn (starts.trans ?_), first⟩
      exact ⟨'/' :: passages.flatMap Passage.text, by simp⟩
    have whole : Cuts true before _ _ := .comment further laid
    simpa using whole

theorem word {lexeme : List Char} {kind : Kind} {literal : String}
    (finds : Finds cs lexeme kind literal rest) (solid : Solid cs)
    (cuts : Cuts false (before ++ lexeme) rest tokens) :
    Cuts false before cs (⟨kind, literal, before.count '\n' + 1⟩ :: tokens) := by
  obtain ⟨rfl, spells, longest⟩ := finds
  cases cuts with
  | code laid => exact .code (.word spells solid longest laid)

theorem passages (cuts : Cuts false before cs tokens) :
    ∃ passages, cs = passages.flatMap Passage.text ∧ Passage.Laid passages ∧
      tokens = Passage.tokens before passages := by
  cases cuts with
  | code laid => exact ⟨_, rfl, laid, rfl⟩

theorem lineBreak {inside : Bool} (cuts : Cuts inside (before ++ ['\n']) rest tokens) :
    Cuts inside before ('\n' :: rest) tokens := by
  cases inside with
  | false => exact .blank (by decide) cuts
  | true => exact .inside (by simp) cuts

end Cuts

-- What is skipped lies on the line, and belongs to no word.
structure Skips (inside : Bool) (cs passed : List Char) (inside' : Bool) (rest : List Char) :
    Prop where
  split : cs = passed ++ rest
  inLine : '\n' ∉ passed
  cuts : ∀ before tokens, Cuts inside' (before ++ passed) rest tokens →
    Cuts inside before cs tokens

theorem Skips.nothing (inside : Bool) (cs : List Char) : Skips inside cs [] inside cs where
  split := rfl
  inLine := List.not_mem_nil
  cuts before tokens cuts := by simpa using cuts

theorem skip_skips (inside : Bool) (cs : List Char) :
    ∃ passed, Skips inside cs passed (skip inside cs).1 (skip inside cs).2 := by
  fun_induction skip inside cs with
  | case1 => exact ⟨[], .nothing _ _⟩
  | case2 => exact ⟨[], .nothing _ _⟩
  | case3 rest ih =>
    obtain ⟨passed, split, inLine, cuts⟩ := ih
    refine ⟨'*' :: '/' :: passed, by simp [← split], by simpa using inLine, fun before tokens more => ?_⟩
    exact .closed (cuts _ _ (by simpa using more))
  | case4 c rest notBreak goesOn ih =>
    obtain ⟨passed, split, inLine, cuts⟩ := ih
    refine ⟨c :: passed, by simp [← split], ?_, fun before tokens more => ?_⟩
    · simpa using ⟨fun same => notBreak same.symm, inLine⟩
    · refine .inside ?_ (cuts _ _ (by simpa using more))
      rintro ⟨tail, same⟩
      cases same
      exact goesOn tail rfl rfl
  | case5 rest =>
    have inLine : '\n' ∉ rest.takeWhile (· ≠ '\n') := fun inside =>
      absurd (all_takeWhile (· ≠ '\n') rest _ inside) (by simp)
    refine ⟨'/' :: '/' :: rest.takeWhile (· ≠ '\n'), by simp, by simpa using inLine,
      fun before tokens more => ?_⟩
    have whole := Cuts.lineComment inLine (fun c first => ?_) more
    · simpa using whole
    · simpa using halts_dropWhile (· ≠ '\n') rest c first
  | case6 rest ih =>
    obtain ⟨passed, split, inLine, cuts⟩ := ih
    refine ⟨'/' :: '*' :: passed, by simp [← split], by simpa using inLine, fun before tokens more => ?_⟩
    exact .opened (cuts _ _ (by simpa using more))
  | case7 c rest notBreak _ _ space ih =>
    obtain ⟨passed, split, inLine, cuts⟩ := ih
    refine ⟨c :: passed, by simp [← split], ?_, fun before tokens more => ?_⟩
    · simpa using ⟨fun same => notBreak same.symm, inLine⟩
    · exact .blank space (cuts _ _ (by simpa using more))
  | case8 => exact ⟨[], .nothing _ _⟩

-- Where nothing more is skipped a word is to be read.
theorem solid_of_skip {inside : Bool} {cs rest : List Char} {c : Char}
    (skipped : skip inside cs = (false, c :: rest)) (inLine : c ≠ '\n') : Solid (c :: rest) := by
  fun_induction skip inside cs with
  | case1 => cases skipped
  | case2 =>
    cases skipped
    exact absurd rfl inLine
  | case5 more =>
    have stops := halts_dropWhile (· ≠ '\n') more
    rw [(Prod.mk.inj skipped).2] at stops
    exact absurd (by simpa using stops c rfl) inLine
  | case8 d more notBreak noLine noBlock solid =>
    cases skipped
    refine ⟨?_, ?_, ?_⟩
    · rintro _ ⟨⟩
      exact Bool.eq_false_iff.mpr solid
    · rintro ⟨tail, same⟩
      cases same
      exact noLine tail rfl rfl
    · rintro ⟨tail, same⟩
      cases same
      exact noBlock tail rfl rfl
  | case3 _ ih => exact ih skipped
  | case4 _ _ _ _ ih => exact ih skipped
  | case6 _ ih => exact ih skipped
  | case7 _ _ _ _ _ _ ih => exact ih skipped

-- A step that gives a token: it passes the token, with what is skipped before it.
inductive Moves (l : Lexer) : Token → Lexer → Prop where
  | lineBreak {passed rest : List Char} {inside : Bool}
      (skips : Skips l.inComment l.rest passed inside ('\n' :: rest)) :
      Moves l ⟨.lineMark, l.lineText, l.line⟩
        { l with rest := rest, lineRest := rest, line := l.line + 1, inComment := inside }
  | lastLine {passed : List Char} (going : l.finished = false)
      (skips : Skips l.inComment l.rest passed false []) :
      Moves l ⟨.lineMark, l.lineText, l.line⟩
        { l with rest := [], inComment := false, finished := true }
  | finish {after : Lexer} (finished : l.finished = true) : Moves l ⟨.finish, "", l.line⟩ after
  | word {passed cs lexeme rest : List Char} {kind : Kind} {literal : String}
      (skips : Skips l.inComment l.rest passed false cs) (solid : Solid cs)
      (finds : Finds cs lexeme kind literal rest) :
      Moves l ⟨kind, literal, l.line⟩ { l with rest := rest, inComment := false }

theorem next_moves {l after : Lexer} {t : Token} (read : l.next = (.ok t, after)) :
    Moves l t after := by
  obtain ⟨passed, skips⟩ := skip_skips l.inComment l.rest
  unfold next at read
  split at read
  · rename_i inside rest skipped
    cases read
    rw [skipped] at skips
    exact .lineBreak skips
  · cases read
  · rename_i skipped
    rw [skipped] at skips
    split at read
    · cases read
      exact .finish ‹_›
    · cases read
      exact .lastLine (Bool.eq_false_iff.mpr ‹_›) skips
  · rename_i c rest notBreak skipped
    rw [skipped] at skips
    have solid := solid_of_skip skipped notBreak
    dsimp only at read
    split at read
    · rename_i kind literal fine
      cases read
      have found : Lexer.read c rest = ⟨.ok (kind, literal), (Lexer.read c rest).rest⟩ := by rw [← fine]
      obtain ⟨lexeme, finds⟩ := read_finds found
      exact .word skips solid finds
    · cases read

-- Where a lexer stands that has read `before`.
structure Stands (l : Lexer) (before : List Char) : Prop where
  going : l.finished = false
  line : l.line = before.count '\n' + 1
  here : ∃ passed, '\n' ∉ passed ∧ l.lineRest = passed ++ l.rest

-- What a run gives that starts there.
structure Streams (l : Lexer) (before : List Char) (tokens : List Token) : Prop where
  marks : List.Forall₂ Token.Marks ((Text.split '\n' l.lineRest).zipIdx l.line)
    (tokens.filter Token.isMark)
  ordered : tokens.Pairwise Token.Ordered
  later : ∀ t ∈ tokens, l.line ≤ t.line
  cuts : Cuts l.inComment before l.rest (tokens.filter (!·.isMark))

section Steps

variable {l : Lexer} {before passed cs lexeme rest : List Char} {inside : Bool} {tokens : List Token}
  {kind : Kind} {literal : String}

-- The whole line that a lexer stands on, and its mark.
theorem lineText_of_skips (stands : Stands l before) (ends : ∀ c ∈ cs.head?, c = '\n')
    (skips : Skips l.inComment l.rest passed inside cs) :
    ∃ line, '\n' ∉ line ∧ l.lineRest = line ++ cs ∧
      Token.Marks (line, l.line) ⟨.lineMark, l.lineText, l.line⟩ := by
  obtain ⟨start, inLine, split⟩ := stands.here
  have whole : '\n' ∉ start ++ passed := by simpa using ⟨inLine, skips.inLine⟩
  rw [skips.split, ← List.append_assoc] at split
  refine ⟨start ++ passed, whole, split, rfl, rfl, ?_⟩
  rw [lineText, split, takeWhile_line whole ends, String.toList_ofList]
  exact Text.trims_trimChars _

theorem Stands.lineBreak (stands : Stands l before)
    (skips : Skips l.inComment l.rest passed inside ('\n' :: rest)) :
    Stands { l with rest := rest, lineRest := rest, line := l.line + 1, inComment := inside }
      (before ++ passed ++ ['\n']) where
  going := stands.going
  line := by simp [stands.line, List.count_eq_zero_of_not_mem skips.inLine]
  here := ⟨[], List.not_mem_nil, rfl⟩

theorem Streams.lineBreak (stands : Stands l before)
    (skips : Skips l.inComment l.rest passed inside ('\n' :: rest))
    (more : Streams { l with rest := rest, lineRest := rest, line := l.line + 1, inComment := inside }
      (before ++ passed ++ ['\n']) tokens) :
    Streams l before (⟨.lineMark, l.lineText, l.line⟩ :: tokens) := by
  obtain ⟨line, inLine, split, mark⟩ := lineText_of_skips stands (by simp) skips
  refine ⟨?_, ?_, ?_, ?_⟩
  · rw [List.filter_cons_of_pos rfl, split, split_lines inLine, List.zipIdx_cons]
    exact .cons mark more.marks
  · refine List.pairwise_cons.mpr ⟨fun t member => ?_, more.ordered⟩
    have below : l.line + 1 ≤ t.line := more.later t member
    exact ⟨by dsimp only; omega, fun _ => below⟩
  · refine List.forall_mem_cons.mpr ⟨Nat.le_refl _, fun t member => ?_⟩
    have below : l.line + 1 ≤ t.line := more.later t member
    omega
  · rw [List.filter_cons_of_neg (by simp [Token.isMark])]
    exact skips.cuts _ _ more.cuts.lineBreak

theorem Streams.lastLine (stands : Stands l before)
    (skips : Skips l.inComment l.rest passed false []) :
    Streams l before [⟨.lineMark, l.lineText, l.line⟩] := by
  obtain ⟨line, inLine, split, mark⟩ := lineText_of_skips stands (by simp) skips
  refine ⟨?_, List.pairwise_singleton _ _, by simp, ?_⟩
  · rw [split, List.append_nil, split_line inLine]
    exact .cons mark .nil
  · exact skips.cuts _ _ (.code .done)

theorem Stands.word (stands : Stands l before) (skips : Skips l.inComment l.rest passed false cs)
    (finds : Finds cs lexeme kind literal rest) :
    Stands { l with rest := rest, inComment := false } (before ++ passed ++ lexeme) where
  going := stands.going
  line := by
    simp [stands.line, List.count_eq_zero_of_not_mem skips.inLine,
      List.count_eq_zero_of_not_mem (newline_of_spells finds.spells)]
  here := by
    obtain ⟨start, inLine, split⟩ := stands.here
    refine ⟨start ++ passed ++ lexeme, ?_, ?_⟩
    · simpa using ⟨inLine, skips.inLine, newline_of_spells finds.spells⟩
    · simp [split, skips.split, finds.split]

theorem Streams.word (stands : Stands l before) (skips : Skips l.inComment l.rest passed false cs)
    (solid : Solid cs) (finds : Finds cs lexeme kind literal rest)
    (more : Streams { l with rest := rest, inComment := false } (before ++ passed ++ lexeme) tokens) :
    Streams l before (⟨kind, literal, l.line⟩ :: tokens) := by
  have real : Token.isMark ⟨kind, literal, l.line⟩ = false := by
    simp [Token.isMark, (kind_of_spells finds.spells).1]
  have line : l.line = (before ++ passed).count '\n' + 1 := by
    simp [stands.line, List.count_eq_zero_of_not_mem skips.inLine]
  refine ⟨?_, ?_, ?_, ?_⟩
  · rw [List.filter_cons_of_neg (by simp [real])]
    exact more.marks
  · refine List.pairwise_cons.mpr ⟨fun t member => ⟨more.later t member, ?_⟩, more.ordered⟩
    rw [real]
    nofun
  · exact List.forall_mem_cons.mpr ⟨Nat.le_refl _, more.later⟩
  · rw [List.filter_cons_of_pos (by simp [real]), line]
    exact skips.cuts _ _ (.word finds solid more.cuts)

end Steps

theorem collect_finished {l : Lexer} (ended : l.rest = []) (code : l.inComment = false)
    (finished : l.finished = true) (steps : Nat) (given : List Token) :
    l.collect steps given = .ok given.reverse := by
  cases steps with
  | zero => rfl
  | succ steps =>
    have next : l.next = (.ok ⟨.finish, "", l.line⟩, { l with rest := [], inComment := false }) := by
      simp [Lexer.next, ended, code, skip, finished]
    rw [collect, next]
    rfl

-- A run, step by step.
theorem collect_streams {steps : Nat} {l : Lexer} {before : List Char} {given tokens : List Token}
    (enough : l.left < steps) (stands : Stands l before)
    (read : l.collect steps given = .ok tokens) :
    ∃ more, tokens = given.reverse ++ more ∧ Streams l before more := by
  induction steps generalizing l before given with
  | zero => omega
  | succ steps ih =>
    unfold collect at read
    split at read
    · cases read
    · rename_i t after next
      have passes := next_ok next
      have less (real : t.kind ≠ .finish) : after.left < l.left := by
        cases passes with
        | finish _ last => exact absurd last real
        | word _ _ less => exact less
        | mark _ less => exact less
      cases next_moves next with
      | lineBreak skips =>
        rw [if_neg (by simp)] at read
        obtain ⟨more, split, streams⟩ := ih (by have := less (by simp); omega)
          (stands.lineBreak skips) read
        exact ⟨_ :: more, by simp [split], .lineBreak stands skips streams⟩
      | lastLine going skips =>
        rw [if_neg (by simp), collect_finished rfl rfl rfl] at read
        cases read
        exact ⟨_, List.reverse_cons, .lastLine stands skips⟩
      | finish finished => exact absurd finished (by simp [stands.going])
      | word skips solid finds =>
        obtain ⟨_, real⟩ := kind_of_spells finds.spells
        rw [if_neg real] at read
        obtain ⟨more, split, streams⟩ := ih (by have := less real; omega) (stands.word skips finds) read
        exact ⟨_ :: more, by simp [split], .word stands skips solid finds streams⟩

end Lexer

theorem Spells.isNumeral {lexeme : List Char} {kind : Kind} {literal : String}
    (spells : Spells lexeme kind literal) (number : kind = .number) : IsNumeral literal.toList := by
  cases spells with
  | word starts parts =>
    have kinds : Kind.number ∉ Kind.identifier :: Kind.keywords.map Prod.snd := by decide
    exact absurd (number ▸ ofWord_mem _) kinds
  | numeral isNumeral => simpa using isNumeral
  | operator known =>
    have kinds : Kind.number ∉ Kind.operators := by decide
    exact absurd (number ▸ known) kinds
  | quoted => cases number

theorem isNumeral_of_laid {passages : List Passage} (laid : Passage.Laid passages) (before : List Char) :
    ∀ t ∈ Passage.tokens before passages, t.kind = .number → IsNumeral t.literal.toList := by
  induction laid generalizing before with
  | done => exact List.forall_mem_nil _
  | blank space more ih => exact ih _
  | comment closed more ih => exact ih _
  | word spells solid longest more ih =>
    exact List.forall_mem_cons.mpr ⟨fun number => spells.isNumeral number, ih _⟩

theorem streams_of_tokenize {source : String} {tokens : List Token}
    (read : tokenize source = .ok tokens) : (Lexer.start source).Streams [] tokens := by
  have stands : (Lexer.start source).Stands [] := ⟨rfl, rfl, [], List.not_mem_nil, rfl⟩
  obtain ⟨more, same, streams⟩ :=
    Lexer.collect_streams (by simp [Lexer.left, Lexer.start, String.length_toList]) stands read
  obtain rfl : tokens = more := same
  exact streams

-- What the tokens of a text are.
structure Token.Streamed (source : String) (tokens : List Token) : Prop where
  -- one mark for each line, with its text and number
  marks : ∃ lines, source.toList = ['\n'].intercalate lines ∧ (∀ line ∈ lines, '\n' ∉ line) ∧
    List.Forall₂ Token.Marks (lines.zipIdx 1) (tokens.filter Token.isMark)
  count : (tokens.filter Token.isMark).length = source.toList.count '\n' + 1
  -- a mark stands behind the tokens of its line
  ordered : tokens.Pairwise Token.Ordered
  -- the others are the words of the text
  words : ∃ passages, source.toList = passages.flatMap Passage.text ∧ Passage.Laid passages ∧
    tokens.filter (!·.isMark) = Passage.tokens [] passages
  numerals : ∀ t ∈ tokens, t.kind = .number → IsNumeral t.literal.toList

-- Nothing of a text is lost, and nothing is read twice.
theorem tokenize_streamed {source : String} {tokens : List Token}
    (read : tokenize source = .ok tokens) : Token.Streamed source tokens := by
  have streams := streams_of_tokenize read
  have marks : List.Forall₂ Token.Marks ((Text.split '\n' source.toList).zipIdx 1)
      (tokens.filter Token.isMark) := streams.marks
  obtain ⟨passages, split, laid, words⟩ := streams.cuts.passages
  refine ⟨⟨_, (Text.join_split _ _).symm, fun _ => Text.notMem_split, marks⟩, ?_, streams.ordered,
    ⟨passages, split, laid, words⟩, fun t member number => ?_⟩
  · rw [← marks.length_eq, List.length_zipIdx, Text.length_split]
  · have real : t.isMark = false := by simp [Token.isMark, number]
    have word : t ∈ Passage.tokens [] passages := words ▸ List.mem_filter.mpr ⟨member, by simp [real]⟩
    exact isNumeral_of_laid laid [] t word number

-- Indented lines, a comment over two of them, and a point that ends a numeral.
theorem streamed_comment :
    tokenize "  a = 1. /* b \n\t*/ + .5e1 \t" = .ok [⟨.identifier, "a", 1⟩, ⟨.assign, "=", 1⟩,
        ⟨.number, "1.", 1⟩, ⟨.lineMark, "a = 1. /* b", 1⟩, ⟨.plus, "+", 2⟩, ⟨.number, ".5e1", 2⟩,
        ⟨.lineMark, "*/ + .5e1", 2⟩] ∧
      Token.Streamed "  a = 1. /* b \n\t*/ + .5e1 \t" [⟨.identifier, "a", 1⟩, ⟨.assign, "=", 1⟩,
        ⟨.number, "1.", 1⟩, ⟨.lineMark, "a = 1. /* b", 1⟩, ⟨.plus, "+", 2⟩, ⟨.number, ".5e1", 2⟩,
        ⟨.lineMark, "*/ + .5e1", 2⟩] := by
  have read : tokenize "  a = 1. /* b \n\t*/ + .5e1 \t" = .ok [⟨.identifier, "a", 1⟩,
      ⟨.assign, "=", 1⟩, ⟨.number, "1.", 1⟩, ⟨.lineMark, "a = 1. /* b", 1⟩, ⟨.plus, "+", 2⟩,
      ⟨.number, ".5e1", 2⟩, ⟨.lineMark, "*/ + .5e1", 2⟩] := by decide +kernel
  exact ⟨read, tokenize_streamed read⟩

end ScalarScript
