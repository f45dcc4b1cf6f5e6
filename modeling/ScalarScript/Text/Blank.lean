import ScalarScript.Text.CodeSet
/-!
White space: the characters that separate tokens and are trimmed from source lines.
-/
namespace ScalarScript.Text

-- The characters with the Unicode property White_Space.
def blanks : CodeSet where
  bounds := [9, 14, 32, 33, 133, 134, 160, 161, 5760, 5761, 8192, 8203, 8232, 8234, 8239, 8240,
    8287, 8288, 12288, 12289]

def isBlank (c : Char) : Bool :=
  if c.toNat < 128 then c == ' ' || (9 ≤ c.toNat && c.toNat ≤ 13) else blanks.contains c

def trimCharsLeft (cs : List Char) : List Char := cs.dropWhile isBlank

def trimCharsRight (cs : List Char) : List Char := (trimCharsLeft cs.reverse).reverse

def trimChars (cs : List Char) : List Char := trimCharsRight (trimCharsLeft cs)

-- The text without the white space at its two ends.
def trim (s : String) : String := String.ofList (trimChars s.toList)

-- Only white space was cut off, and none is left at the ends.
structure Trims (cs text : List Char) : Prop where
  cut : ∃ before after, cs = before ++ text ++ after ∧ ∀ c ∈ before ++ after, isBlank c = true
  first : ∀ c ∈ text.head?, isBlank c = false
  last : ∀ c ∈ text.getLast?, isBlank c = false

theorem trimCharsLeft_cut (cs : List Char) :
    ∃ before, cs = before ++ trimCharsLeft cs ∧ ∀ c ∈ before, isBlank c = true :=
  ⟨cs.takeWhile isBlank, List.takeWhile_append_dropWhile.symm,
    List.all_eq_true.mp List.all_takeWhile⟩

theorem trimCharsLeft_first (cs : List Char) : ∀ c ∈ (trimCharsLeft cs).head?, isBlank c = false := by
  intro c first
  have stops := List.head?_dropWhile_not isBlank cs
  rw [trimCharsLeft] at first
  rw [first] at stops
  exact stops

theorem trimCharsLeft_blank {before text : List Char} (blank : ∀ c ∈ before, isBlank c = true) :
    trimCharsLeft (before ++ text) = trimCharsLeft text :=
  List.dropWhile_append_of_pos blank

theorem trimCharsLeft_of_first {text : List Char} (first : ∀ c ∈ text.head?, isBlank c = false) :
    trimCharsLeft text = text := by
  cases text with
  | nil => rfl
  | cons c cs => exact List.dropWhile_cons_of_neg (by simp [first c rfl])

theorem trims_trimChars (cs : List Char) : Trims cs (trimChars cs) := by
  obtain ⟨before, left, blank⟩ := trimCharsLeft_cut cs
  obtain ⟨after, right, blank'⟩ := trimCharsLeft_cut (trimCharsLeft cs).reverse
  have middle : trimCharsLeft cs = trimChars cs ++ after.reverse := by
    rw [← List.reverse_reverse (trimCharsLeft cs), right, List.reverse_append]
    simp [trimChars, trimCharsRight]
  refine ⟨⟨before, after.reverse, ?_, ?_⟩, fun c first => ?_, ?_⟩
  · rw [List.append_assoc, ← middle]
    exact left
  · intro c member
    rcases List.mem_append.mp member with early | late
    · exact blank c early
    · exact blank' c (List.mem_reverse.mp late)
  · refine trimCharsLeft_first cs c ?_
    rw [Option.mem_def] at first ⊢
    rw [middle, List.head?_append, first]
    rfl
  · rw [trimChars, trimCharsRight, List.getLast?_reverse]
    exact trimCharsLeft_first _

-- What is left is determined by the text.
theorem trims_iff {cs text : List Char} : Trims cs text ↔ text = trimChars cs := by
  refine ⟨?_, fun same => same ▸ trims_trimChars cs⟩
  rintro ⟨⟨before, after, rfl, blank⟩, first, last⟩
  have front : ∀ c ∈ before, isBlank c = true := fun c member =>
    blank c (List.mem_append_left _ member)
  have back : ∀ c ∈ after.reverse, isBlank c = true := fun c member =>
    blank c (List.mem_append_right _ (List.mem_reverse.mp member))
  rw [trimChars, List.append_assoc, trimCharsLeft_blank front]
  cases text with
  | nil =>
    have none : trimCharsLeft (after ++ []) = [] :=
      trimCharsLeft_blank fun c member => back c (List.mem_reverse.mpr member)
    rw [List.append_nil] at none
    rw [List.nil_append, none]
    rfl
  | cons c cs =>
    have whole : trimCharsLeft (c :: cs ++ after) = c :: cs ++ after :=
      trimCharsLeft_of_first (by simpa using first)
    rw [whole, trimCharsRight, List.reverse_append, trimCharsLeft_blank back,
      trimCharsLeft_of_first (by rwa [List.head?_reverse]), List.reverse_reverse]

end ScalarScript.Text
