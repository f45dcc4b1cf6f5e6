import ScalarScript.Proofs.Source.Declaration
import ScalarScript.Proofs.Source.Function
/-!
Two compilations side by side, of sources that differ only in their layout. Their states are twins:
the same words lie ahead, the same names are in scope, and the code is the same but for line markers.
Twins take the same moves and fail with the same errors.
-/
namespace ScalarScript

open Stateful Compile

-- What of a token does not depend on layout.
def Token.word (t : Token) : Kind × String := (t.kind, t.literal)

-- The same error, apart from where it is reported.
structure CompileError.Same (e f : CompileError) : Prop where
  code : e.code = f.code
  message : e.message = f.message
  suggestions : e.suggestions = f.suggestions

-- Compilers at the same place of two layouts, with at most so many words ahead. Since certain code
-- was there, both have added the same code.
structure Twin (a b : List Instruction) (n : Nat) (c d : Compiler) : Prop where
  words : c.words.map Token.word = d.words.map Token.word
  left : c.words.length ≤ n
  here : c.Settled
  there : d.Settled
  code : ∃ new more, c.program.code.toList = a ++ new ∧ d.program.code.toList = b ++ more ∧
    strip new = strip more
  free : d.free = c.free
  stage : d.program.stage = c.program.stage
  scope : d.scope = c.scope
  maxDepth : d.maxDepth = c.maxDepth
  setting : d.setting = c.setting

-- Twins with fewer words ahead than that.
def Fewer (a b : List Instruction) (n : Nat) (c d : Compiler) : Prop :=
  ∃ m, n = m + 1 ∧ Twin a b m c d

-- Whether an error only says that the recursion went too deep.
def CompileFault.exhausts : CompileFault → Bool
  | .exhausted => true
  | _ => false

theorem CompileFault.ne_exhausted {f : CompileFault} (real : f.exhausts = false) :
    f ≠ .exhausted := by
  rintro rfl
  cases real

-- An error that says what is wrong with the source, not that the recursion went too deep.
def CompileError.Objects (e : CompileError) : Prop :=
  ∃ f : CompileFault, f ≠ .exhausted ∧ e.code = f.code ∧ e.message = f.message

-- Results that agree: both are there, or both are the same error about the source.
inductive Agree {α β : Type} (Q : α → β → Prop) (S : Compiler → Compiler → Prop) :
    EStateM.Result CompileError Compiler α → EStateM.Result CompileError Compiler β → Prop where
  | ok {x : α} {y : β} {c d : Compiler} (values : Q x y) (states : S c d) :
      Agree Q S (.ok x c) (.ok y d)
  | error {e f : CompileError} {c d : Compiler} (same : e.Same f) (objects : e.Objects) :
      Agree Q S (.error e c) (.error f d)

namespace Agree

section

variable {α β γ δ : Type} {Q : α → β → Prop} {Q' : γ → δ → Prop}
  {R S : Compiler → Compiler → Prop} {c d : Compiler}

theorem bind {x : Compile α} {y : Compile β} {f : α → Compile γ} {g : β → Compile δ}
    (first : Agree Q R (x c) (y d))
    (second : ∀ u v c d, Q u v → R c d → Agree Q' S (f u c) (g v d)) :
    Agree Q' S ((x >>= f) c) ((y >>= g) d) := by
  rw [bind_apply, bind_apply]
  generalize x c = one at first
  generalize y d = two at first
  cases first with
  | ok values states => exact second _ _ _ _ values states
  | error same objects => exact .error same objects

-- A first step that is known.
theorem step {x : Compile α} {y : Compile β} {f : α → Compile γ} {g : β → Compile δ} {u : α}
    {v : β} {m n : Compiler} (one : x c = .ok u m) (two : y d = .ok v n)
    (rest : Agree Q' S (f u m) (g v n)) : Agree Q' S ((x >>= f) c) ((y >>= g) d) := by
  rwa [bind_of_ok one, bind_of_ok two]

theorem mono {first : EStateM.Result CompileError Compiler α}
    {second : EStateM.Result CompileError Compiler β} (agree : Agree Q R first second)
    (more : ∀ c d, R c d → S c d) : Agree Q S first second := by
  cases agree with
  | ok values states => exact .ok values (more _ _ states)
  | error same objects => exact .error same objects

theorem ite {p : Prop} [Decidable p] {x x' : Compile α} {y y' : Compile β}
    (holds : p → Agree Q S (x c) (y d)) (fails : ¬ p → Agree Q S (x' c) (y' d)) :
    Agree Q S ((if p then x else x') c) ((if p then y else y') d) := by
  by_cases h : p
  · simpa only [if_pos h] using holds h
  · simpa only [if_neg h] using fails h

theorem failAt {l l' : Nat} {f g : CompileFault} (code : f.code = g.code)
    (message : f.message = g.message) (real : f.exhausts = false) :
    Agree Q S ((Compile.failAt l f : Compile α) c) ((Compile.failAt l' g : Compile β) d) :=
  .error ⟨code, message, rfl⟩ ⟨f, f.ne_exhausted real, rfl, rfl⟩

theorem fail {f g : CompileFault} (code : f.code = g.code) (message : f.message = g.message)
    (real : f.exhausts = false) :
    Agree Q S ((Compile.fail f : Compile α) c) ((Compile.fail g : Compile β) d) :=
  .error ⟨code, message, rfl⟩ ⟨f, f.ne_exhausted real, rfl, rfl⟩

-- Both refuse, or neither.
theorem refuseAt {p : Prop} [Decidable p] {l l' : Nat} {f : CompileFault} {g : γ → Compile α}
    {h : δ → Compile β} {x : Compile α} {y : Compile β}
    (real : f.exhausts = false) (rest : ¬ p → Agree Q S (x c) (y d)) :
    Agree Q S ((if p then (Compile.failAt l f >>= g) else x) c)
      ((if p then (Compile.failAt l' f >>= h) else y) d) :=
  ite (fun _ => bind (Q := fun _ _ => False) (failAt (S := S) rfl rfl real)
    fun _ _ _ _ never _ => never.elim) rest

-- A failure in front of other steps.
theorem stop {f f' : CompileFault} (code : f.code = f'.code) (message : f.message = f'.message)
    (real : f.exhausts = false) {g : γ → Compile α} {h : δ → Compile β} :
    Agree Q S ((Compile.fail f >>= g) c) ((Compile.fail f' >>= h) d) :=
  bind (Q := fun _ _ => False) (fail (S := S) code message real)
    (fun _ _ _ _ never _ => never.elim)

theorem failUndefined {l l' : Nat} (name : String) (f : CompileFault) (scope : d.scope = c.scope)
    (real : f.exhausts = false) :
    Agree Q S ((Compile.failUndefined l name f : Compile α) c)
      ((Compile.failUndefined l' name f : Compile β) d) :=
  .error ⟨rfl, rfl, by rw [scope]⟩ ⟨f, f.ne_exhausted real, rfl, rfl⟩

end

end Agree

namespace Compiler

theorem current_word {c : Compiler} (settled : c.Settled) :
    c.current.word = (c.words.map Token.word).headD (.finish, "") := by
  unfold current words
  cases ahead : c.ahead with
  | nil => rfl
  | cons t rest =>
    have real : t.kind ≠ .lineMark := settled t (by simp [ahead])
    simp [real]

theorem following_word {c : Compiler} (settled : c.Settled) :
    c.following = ((c.words.map Token.word).tail.head?.map Prod.fst).getD .finish := by
  unfold following words
  cases ahead : c.ahead with
  | nil => rfl
  | cons t rest =>
    have real : t.kind ≠ .lineMark := settled t (by simp [ahead])
    rw [List.tail_cons, List.filter_cons_of_pos (by simpa using real), List.map_cons,
      List.tail_cons, List.head?_map, List.head?_filter]
    cases rest.find? (·.kind ≠ .lineMark) <;> rfl

@[simp] theorem push_current (c : Compiler) (i : Instruction) : (c.push i).current = c.current :=
  rfl

@[simp] theorem labelled_current (c : Compiler) : c.labelled.current = c.current := rfl

@[simp] theorem emitted_current (c : Compiler) (i : Instruction) :
    (c.emitted i).current = c.current := by
  unfold emitted
  cases c.pending <;> rfl

theorem tail_words {c : Compiler} (settled : c.Settled) : c.advanced.words = c.words.tail := by
  rw [words_advanced, words]
  cases ahead : c.ahead with
  | nil => rfl
  | cons t rest =>
    have real : t.kind ≠ .lineMark := settled t (by simp [ahead])
    rw [List.filter_cons_of_pos (by simpa using real), List.tail_cons, List.tail_cons]

end Compiler

namespace Twin

variable {a b : List Instruction} {n : Nat} {c d : Compiler}

theorem mono {m : Nat} (twin : Twin a b n c d) (more : n ≤ m) : Twin a b m c d :=
  { twin with left := twin.left.trans more }

-- Both stand at the same word.
theorem current (twin : Twin a b n c d) :
    d.current = ⟨c.current.kind, c.current.literal, d.current.line⟩ := by
  have same : d.current.word = c.current.word := by
    rw [Compiler.current_word twin.there, Compiler.current_word twin.here, twin.words]
  obtain ⟨kind, literal⟩ := Prod.mk.inj same
  cases at_ : d.current
  rw [at_] at kind literal
  cases kind
  cases literal
  rfl

theorem kind (twin : Twin a b n c d) : d.current.kind = c.current.kind := by rw [twin.current]

theorem literal (twin : Twin a b n c d) : d.current.literal = c.current.literal := by
  rw [twin.current]

theorem following (twin : Twin a b n c d) : d.following = c.following := by
  rw [Compiler.following_word twin.there, Compiler.following_word twin.here, twin.words]

-- Only the words ahead have changed, those of both in the same way.
theorem moved {m : Nat} (twin : Twin a b n c d) {c' d' : Compiler}
    (first : EmitsInScope c c' []) (second : EmitsInScope d d' [])
    (firstFree : c'.free = c.free) (secondFree : d'.free = d.free)
    (firstDepth : c'.maxDepth = c.maxDepth) (secondDepth : d'.maxDepth = d.maxDepth)
    (here : c'.Settled) (there : d'.Settled)
    (words : c'.words.map Token.word = d'.words.map Token.word) (left : c'.words.length ≤ m) :
    Twin a b m c' d' := by
  obtain ⟨new, more, one, two, same⟩ := twin.code
  obtain ⟨newer, first', none, _⟩ := first.added
  obtain ⟨later, second', none', _⟩ := second.added
  refine ⟨words, left, here, there, ⟨new ++ newer, more ++ later, ?_, ?_, ?_⟩, ?_, ?_, ?_, ?_, ?_⟩
  · rw [first', one, List.append_assoc]
  · rw [second', two, List.append_assoc]
  · rw [strip_append, strip_append, same, none, none']
  · rw [firstFree, secondFree, twin.free]
  · rw [first.stage, second.stage, twin.stage]
  · rw [first.scope, second.scope, twin.scope]
  · rw [firstDepth, secondDepth, twin.maxDepth]
  · rw [first.setting, second.setting, twin.setting]

theorem settle_maxDepth (c : Compiler) (tokens : List Token) :
    (c.settle tokens).maxDepth = c.maxDepth := by
  obtain ⟨_, _, same⟩ := c.settle_eq tokens
  rw [same]

-- Going to places with the same words ahead.
theorem settle {m : Nat} (twin : Twin a b n c d) {tokens others : List Token}
    (same : (tokens.filter (·.kind ≠ .lineMark)).map Token.word =
      (others.filter (·.kind ≠ .lineMark)).map Token.word)
    (left : (tokens.filter (·.kind ≠ .lineMark)).length ≤ m) :
    Twin a b m (c.settle tokens) (d.settle others) := by
  refine twin.moved (.settle c tokens) (.settle d others) (c.free_settle _) (d.free_settle _)
    (settle_maxDepth c _) (settle_maxDepth d _) (c.settled_settle _) (d.settled_settle _) ?_ ?_
  · rw [Compiler.words_settle, Compiler.words_settle, same]
  · rwa [Compiler.words_settle]

-- Passing whatever stands there.
theorem onward (twin : Twin a b n c d) : Twin a b n c.advanced d.advanced := by
  refine twin.moved (.advance c) (.advance d) c.free_advanced d.free_advanced
    (settle_maxDepth c _) (settle_maxDepth d _) c.settled_advanced d.settled_advanced ?_ ?_
  · rw [Compiler.tail_words twin.here, Compiler.tail_words twin.there, List.map_tail,
      List.map_tail, twin.words]
  · rw [Compiler.tail_words twin.here, List.length_tail]
    exact (Nat.sub_le _ _).trans twin.left

-- Passing a word leaves one less.
theorem advanced (twin : Twin a b n c d) (real : c.current.kind ≠ .finish) :
    Fewer a b n c.advanced d.advanced := by
  have left := twin.left
  rw [Compiler.words_eq_cons twin.here real, List.length_cons] at left
  exact ⟨n - 1, by omega, { twin.onward with left := by omega }⟩

theorem emitted {i : Instruction} (twin : Twin a b n c d) (active : ¬ i.opcode.isMark = true) :
    Twin a b n (c.emitted i) (d.emitted i) := by
  obtain ⟨new, more, one, two, same⟩ := twin.code
  have first := EmitsInScope.emitted active c
  have second := EmitsInScope.emitted active d
  obtain ⟨newer, first', none, _⟩ := first.added
  obtain ⟨later, second', none', _⟩ := second.added
  refine ⟨by simpa using twin.words, by simpa using twin.left, twin.here.emitted i,
    twin.there.emitted i, ⟨new ++ newer, more ++ later, ?_, ?_, ?_⟩, by simpa using twin.free,
    ?_, by simpa using twin.scope, ?_, by simpa using twin.setting⟩
  · rw [first', one, List.append_assoc]
  · rw [second', two, List.append_assoc]
  · rw [strip_append, strip_append, same, none, none']
  · rw [first.stage, second.stage, twin.stage]
  · rw [Compiler.emitted_maxDepth, Compiler.emitted_maxDepth, twin.maxDepth]

theorem push (twin : Twin a b n c d) (i : Instruction) : Twin a b n (c.push i) (d.push i) := by
  obtain ⟨new, more, one, two, same⟩ := twin.code
  refine ⟨twin.words, twin.left, twin.here, twin.there, ⟨new ++ [i], more ++ [i], ?_, ?_, ?_⟩,
    twin.free, twin.stage, twin.scope, twin.maxDepth, twin.setting⟩
  · simp [Compiler.push, one]
  · simp [Compiler.push, two]
  · rw [strip_append, strip_append, same]

theorem labelled (twin : Twin a b n c d) : Twin a b n c.labelled d.labelled :=
  ⟨twin.words, twin.left, twin.here, twin.there, twin.code, congrArg (· + 1) twin.free, twin.stage,
    twin.scope, twin.maxDepth, twin.setting⟩

-- Twins with a common change of scope.
theorem rescoped (twin : Twin a b n c d) (scope : Scope) (depth : Nat) :
    Twin a b n { c with scope, maxDepth := depth } { d with scope, maxDepth := depth } :=
  ⟨twin.words, twin.left, twin.here, twin.there, twin.code, twin.free, twin.stage, rfl, rfl,
    twin.setting⟩

theorem inside (twin : Twin a b n c d) (table : Table) :
    Twin a b n (c.inside table) (d.inside table) := by
  have entered := twin.rescoped (table :: c.scope) (max c.maxDepth table.depth)
  unfold Compiler.inside
  rw [twin.scope, twin.maxDepth]
  exact entered

theorem outside (twin : Twin a b n c d) : Twin a b n c.outside d.outside := by
  have left := twin.rescoped c.scope.tail c.maxDepth
  unfold Compiler.outside
  rw [twin.scope]
  exact { left with maxDepth := twin.maxDepth }

-- Twins put in the same place.
theorem placed (twin : Twin a b n c d) (loops : List Int) (enclosing : Option Enclosing) :
    Twin a b n { c with loops, enclosing } { d with loops, enclosing } :=
  have exitType : d.exitType = c.exitType := congrArg Setting.exitType twin.setting
  { twin with setting := congrArg (Setting.mk loops enclosing) exitType }

-- Twins whose loops change in the same way.
theorem looping (twin : Twin a b n c d) (f : List Int → List Int) :
    Twin a b n { c with loops := f c.loops } { d with loops := f d.loops } :=
  { twin with
    setting := congrArg (fun S : Setting => { S with loops := f S.loops }) twin.setting }

-- The same instruction put in the place of one emitted earlier.
theorem amended {m : Nat} {i j : Instruction} {c' d' : Compiler} (twin : Twin a b n c d)
    (active : ¬ j.opcode.isMark = true)
    (later : Twin (c.emitted i).program.code.toList (d.emitted i).program.code.toList m c' d') :
    Twin a b m (c'.amended ((c.emitted i).program.size - 1) j)
      (d'.amended ((d.emitted i).program.size - 1) j) := by
  obtain ⟨old, older, here, there, same⟩ := twin.code
  obtain ⟨new, newer, one, two, alike⟩ := later.code
  obtain ⟨marks, first, silent, _⟩ := Compiler.amended_code one j
  obtain ⟨others, second, silent', _⟩ := Compiler.amended_code two j
  have plain := Compiler.ne_debugLine_of_active active
  refine { later with code := ⟨old ++ (marks ++ j :: new), older ++ (others ++ j :: newer), ?_⟩ }
  refine ⟨?_, ?_, ?_⟩
  · rw [first, here, List.append_assoc]
  · rw [second, there, List.append_assoc]
  · simp only [strip_append, silent, silent', strip_cons_other plain, same, alike]

-- From here on, both have added nothing.
theorem rebase (twin : Twin a b n c d) : Twin c.program.code.toList d.program.code.toList n c d :=
  { twin with code := ⟨[], [], by simp, by simp, rfl⟩ }

end Twin

-- Actions that take twins with at most so many words ahead to twins.
def Parallel {α : Type} (n : Nat) (x y : Compile α) : Prop :=
  ∀ ⦃m : Nat⦄, m ≤ n → ∀ ⦃a b : List Instruction⦄ ⦃c d : Compiler⦄, Twin a b m c d →
    Agree Eq (Twin a b m) (x c) (y d)

-- Actions that do the same, and pass a word at least.
def Forward (n : Nat) (x y : Compile Unit) : Prop :=
  ∀ ⦃m : Nat⦄, m ≤ n → ∀ ⦃a b : List Instruction⦄ ⦃c d : Compiler⦄, Twin a b m c d →
    Agree Eq (Fewer a b m) (x c) (y d)

theorem Fewer.twin {a b : List Instruction} {n : Nat} {c d : Compiler} (fewer : Fewer a b n c d) :
    Twin a b n c d := by
  obtain ⟨m, rfl, twin⟩ := fewer
  exact twin.mono (Nat.le_succ m)

theorem Forward.parallel {n : Nat} {x y : Compile Unit} (forward : Forward n x y) :
    Parallel n x y :=
  fun _ small _ _ _ _ twin => (forward small twin).mono fun _ _ => Fewer.twin

theorem Parallel.mono {α : Type} {m n : Nat} {x y : Compile α} (parallel : Parallel n x y)
    (fewer : m ≤ n) : Parallel m x y :=
  fun _ small _ _ _ _ twin => parallel (small.trans fewer) twin

section

variable {α β γ : Type} {Q : β → γ → Prop} {S : Compiler → Compiler → Prop}
  {a b : List Instruction} {n : Nat} {c d : Compiler}

namespace Agree

theorem token {f : Token → Compile β} {g : Token → Compile γ} (twin : Twin a b n c d)
    (rest : Agree Q S (f c.current c) (g ⟨c.current.kind, c.current.literal, d.current.line⟩ d)) :
    Agree Q S ((Compile.token >>= f) c) ((Compile.token >>= g) d) :=
  .step (token_apply c) (token_apply d) (by rwa [twin.current])

theorem line {f : Nat → Compile β} {g : Nat → Compile γ}
    (rest : Agree Q S (f c.current.line c) (g d.current.line d)) :
    Agree Q S ((Compile.line >>= f) c) ((Compile.line >>= g) d) :=
  .step (line_apply c) (line_apply d) rest

theorem get {f : Compiler → Compile β} {g : Compiler → Compile γ}
    (rest : Agree Q S (f c c) (g d d)) :
    Agree Q S ((MonadState.get >>= f) c) ((MonadState.get >>= g) d) :=
  .step (get_apply c) (get_apply d) rest

theorem altered {m k : Compiler → Compiler} {f : PUnit → Compile β} {g : PUnit → Compile γ}
    (rest : Agree Q S (f ⟨⟩ (m c)) (g ⟨⟩ (k d))) :
    Agree Q S (((modify m : Compile PUnit) >>= f) c) (((modify k : Compile PUnit) >>= g) d) :=
  .step (modify_apply m c) (modify_apply k d) rest

theorem advance {f : Unit → Compile β} {g : Unit → Compile γ} (twin : Twin a b n c d)
    (rest : Twin a b n c.advanced d.advanced →
      Agree Q S (f ⟨⟩ c.advanced) (g ⟨⟩ d.advanced)) :
    Agree Q S ((Compile.advance >>= f) c) ((Compile.advance >>= g) d) :=
  .step (advance_apply c) (advance_apply d) (rest twin.onward)

-- Past a word, there is one less ahead.
theorem take {f : Unit → Compile β} {g : Unit → Compile γ} (twin : Twin a b n c d)
    (real : c.current.kind ≠ .finish)
    (rest : ∀ m, n = m + 1 → Twin a b m c.advanced d.advanced →
      Agree Q S (f ⟨⟩ c.advanced) (g ⟨⟩ d.advanced)) :
    Agree Q S ((Compile.advance >>= f) c) ((Compile.advance >>= g) d) := by
  obtain ⟨m, fewer, later⟩ := twin.advanced real
  exact .step (advance_apply c) (advance_apply d) (rest m fewer later)

theorem emit {i : Instruction} {f : Unit → Compile β} {g : Unit → Compile γ}
    (twin : Twin a b n c d) (active : ¬ i.opcode.isMark = true)
    (rest : Twin a b n (c.emitted i) (d.emitted i) →
      Agree Q S (f ⟨⟩ (c.emitted i)) (g ⟨⟩ (d.emitted i))) :
    Agree Q S ((Compile.emit i >>= f) c) ((Compile.emit i >>= g) d) :=
  .step (emit_apply i c) (emit_apply i d) (rest (twin.emitted active))

theorem emitLabel {label : Int} {f : Unit → Compile β} {g : Unit → Compile γ}
    (twin : Twin a b n c d)
    (rest : Twin a b n (c.push (.label label)) (d.push (.label label)) →
      Agree Q S (f ⟨⟩ (c.push (.label label))) (g ⟨⟩ (d.push (.label label)))) :
    Agree Q S ((Compile.emitLabel label >>= f) c) ((Compile.emitLabel label >>= g) d) :=
  .step (emitLabel_apply label c) (emitLabel_apply label d) (rest (twin.push _))

theorem emitJump {o : Opcode} {label : Int} {f : Unit → Compile β} {g : Unit → Compile γ}
    (twin : Twin a b n c d)
    (rest : Twin a b n (c.push (.branch o label)) (d.push (.branch o label)) →
      Agree Q S (f ⟨⟩ (c.push (.branch o label))) (g ⟨⟩ (d.push (.branch o label)))) :
    Agree Q S ((Compile.emitJump o label >>= f) c) ((Compile.emitJump o label >>= g) d) :=
  .step (emitJump_apply o label c) (emitJump_apply o label d) (rest (twin.push _))

-- Twins give out the same labels.
theorem freshLabel {f : Int → Compile β} {g : Int → Compile γ} (twin : Twin a b n c d)
    (rest : Twin a b n c.labelled d.labelled →
      Agree Q S (f (c.free : Int) c.labelled) (g (c.free : Int) d.labelled)) :
    Agree Q S ((Compile.freshLabel >>= f) c) ((Compile.freshLabel >>= g) d) :=
  .step (freshLabel_apply c) (freshLabel_apply d) (by rw [twin.free]; exact rest twin.labelled)

theorem resolve? {name : String} {f : Option Symbol → Compile β} {g : Option Symbol → Compile γ}
    (twin : Twin a b n c d)
    (rest : Agree Q S (f (c.scope.resolve? name) c) (g (c.scope.resolve? name) d)) :
    Agree Q S ((Compile.resolve? name >>= f) c) ((Compile.resolve? name >>= g) d) :=
  .step (resolve?_apply name c) (resolve?_apply name d) (by rwa [twin.scope])

theorem innermost {f : Table → Compile β} {g : Table → Compile γ} (twin : Twin a b n c d)
    (rest : Agree Q S (f c.scope.top c) (g c.scope.top d)) :
    Agree Q S ((Compile.innermost >>= f) c) ((Compile.innermost >>= g) d) :=
  .step (innermost_apply c) (innermost_apply d) (by rwa [twin.scope])

end Agree

namespace Twin

theorem expect (twin : Twin a b n c d) {kind : Kind} (real : kind ≠ .finish) :
    Agree Eq (Fewer a b n) (expect kind c) (expect kind d) := by
  unfold Compile.expect
  refine .token twin ?_
  refine .ite (fun here => ?_) fun _ => .ite (fun _ => .fail rfl rfl rfl) fun _ =>
    .fail rfl rfl rfl
  rw [advance_apply, advance_apply]
  exact .ok rfl (twin.advanced (by rwa [here]))

theorem accept (twin : Twin a b n c d) {kind : Kind} (real : kind ≠ .finish) :
    (∃ m, n = m + 1 ∧ Compile.accept kind c = .ok true c.advanced ∧
      Compile.accept kind d = .ok true d.advanced ∧ Twin a b m c.advanced d.advanced) ∨
    (Compile.accept kind c = .ok false c ∧ Compile.accept kind d = .ok false d) := by
  by_cases here : c.current.kind = kind
  · obtain ⟨m, rfl, later⟩ := twin.advanced (by rwa [here])
    refine .inl ⟨m, rfl, ?_, ?_, later⟩
    · exact accept_eq_ok_iff.mpr (.inl ⟨here, rfl, rfl⟩)
    · exact accept_eq_ok_iff.mpr (.inl ⟨twin.kind.trans here, rfl, rfl⟩)
  · refine .inr ⟨?_, ?_⟩
    · exact accept_eq_ok_iff.mpr (.inr ⟨here, rfl, rfl⟩)
    · exact accept_eq_ok_iff.mpr (.inr ⟨by rwa [twin.kind], rfl, rfl⟩)

theorem expectName (twin : Twin a b n c d) :
    Agree Eq (Fewer a b n) (expectName c) (expectName d) := by
  unfold Compile.expectName
  refine .token twin ?_
  refine .ite (fun here => ?_) fun _ => .fail rfl rfl rfl
  refine .take twin (by rw [here]; decide) fun m fewer later => ?_
  exact .ok rfl ⟨m, fewer, later⟩

theorem onScope (twin : Twin a b n c d) (l l' : Nat) (fault : SymbolError → CompileFault)
    (f : Scope → Except SymbolError (Symbol × Scope))
    (real : ∀ e, (fault e).exhausts = false) :
    Agree Eq (Twin a b n) (onScope l fault f c) (onScope l' fault f d) := by
  unfold Compile.onScope
  refine .get ?_
  rw [twin.scope]
  cases f c.scope with
  | error e => exact .failAt rfl rfl (real e)
  | ok declared =>
    obtain ⟨symbol, scope⟩ := declared
    exact .ok rfl { twin.rescoped scope c.maxDepth with maxDepth := twin.maxDepth }

-- A scope of its own for an action.
theorem within {m : Nat} (twin : Twin a b n c d) (table : Table) {x y : Compile α}
    (acts : Twin a b n (c.inside table) (d.inside table) →
      Agree Eq (Twin a b m) (x (c.inside table)) (y (d.inside table))) :
    Agree Eq (Twin a b m) (within table x c) (within table y d) := by
  have inner := acts (twin.inside table)
  have one : (do Compile.enter table; x : Compile α) c = x (c.inside table) := rfl
  have two : (do Compile.enter table; y : Compile α) d = y (d.inside table) := rfl
  unfold Compile.within
  rw [one, two]
  generalize x (c.inside table) = first at inner
  generalize y (d.inside table) = second at inner
  cases inner with
  | ok same states => exact .ok same states.outside
  | error same objects => exact .error same objects

end Twin

namespace Agree

-- A word that may stand there.
theorem accept (twin : Twin a b n c d) {kind : Kind} {f : Bool → Compile β} {g : Bool → Compile γ}
    (real : kind ≠ .finish)
    (taken : ∀ m, n = m + 1 → Twin a b m c.advanced d.advanced →
      Agree Q S (f true c.advanced) (g true d.advanced))
    (left : Agree Q S (f false c) (g false d)) :
    Agree Q S ((Compile.accept kind >>= f) c) ((Compile.accept kind >>= g) d) := by
  rcases twin.accept real with ⟨m, fewer, one, two, later⟩ | ⟨one, two⟩
  · exact .step one two (taken m fewer later)
  · exact .step one two left

-- A word that must stand there.
theorem expect (twin : Twin a b n c d) {kind : Kind} {f : Unit → Compile β} {g : Unit → Compile γ}
    (real : kind ≠ .finish)
    (rest : ∀ m c d, n = m + 1 → Twin a b m c d → Agree Q S (f ⟨⟩ c) (g ⟨⟩ d)) :
    Agree Q S ((Compile.expect kind >>= f) c) ((Compile.expect kind >>= g) d) := by
  refine .bind (twin.expect real) ?_
  rintro _ _ c d rfl ⟨m, fewer, later⟩
  exact rest m c d fewer later

end Agree

end

end ScalarScript
