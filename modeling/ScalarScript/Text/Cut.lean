/-!
Cutting texts: at a separator, into lines, and off their ends.
-/
namespace ScalarScript.Text

-- The pieces between the separators.
def split (separator : Char) : List Char → List (List Char)
  | [] => [[]]
  | c :: rest =>
    if c = separator then [] :: split separator rest
    else match split separator rest with
      | [] => [[c]]
      | piece :: pieces => (c :: piece) :: pieces

-- There is one piece more than there are separators.
theorem length_split (separator : Char) (cs : List Char) :
    (split separator cs).length = cs.count separator + 1 := by
  induction cs with
  | nil => rfl
  | cons c rest ih =>
    unfold split
    by_cases h : c = separator
    · simp [h, ih]
    · cases hs : split separator rest with
      | nil => simp [hs] at ih
      | cons piece pieces => simp [h, ← ih, hs]

-- The pieces of a text, with the separator between them, are the text.
theorem join_split (separator : Char) (cs : List Char) :
    [separator].intercalate (split separator cs) = cs := by
  induction cs with
  | nil => rfl
  | cons c rest ih =>
    unfold split
    have pieces := length_split separator rest
    cases parts : split separator rest with
    | nil => simp [parts] at pieces
    | cons piece others =>
      rw [parts] at ih
      by_cases here : c = separator
      · rw [if_pos here, List.intercalate_cons_cons]
        simp [ih, here]
      · rw [if_neg here]
        cases others with
        | nil => simpa using ih
        | cons next others =>
          rw [List.intercalate_cons_cons] at ih ⊢
          simp [← ih]

-- No piece has a separator in it.
theorem notMem_split {separator : Char} {cs piece : List Char}
    (member : piece ∈ split separator cs) : separator ∉ piece := by
  induction cs generalizing piece with
  | nil =>
    rw [split, List.mem_singleton] at member
    rw [member]
    exact List.not_mem_nil
  | cons c rest ih =>
    unfold split at member
    split at member
    · rcases List.mem_cons.mp member with rfl | later
      · exact List.not_mem_nil
      · exact ih later
    · rename_i other
      split at member
      · rw [List.mem_singleton.mp member, List.mem_singleton]
        exact Ne.symm other
      · rename_i first pieces parts
        rcases List.mem_cons.mp member with rfl | later
        · rw [List.mem_cons, not_or]
          exact ⟨Ne.symm other, ih (parts ▸ List.mem_cons_self)⟩
        · exact ih (parts ▸ List.mem_cons_of_mem _ later)

def splitText (separator : Char) (s : String) : List String :=
  (split separator s.toList).map String.ofList

def lines (s : String) : List String := splitText '\n' s

-- What stands before and after the first separator, if there is one.
def cut? (separator : Char) (s : String) : Option (String × String) :=
  match s.toList.dropWhile (· ≠ separator) with
  | [] => none
  | _ :: rest => some (String.ofList (s.toList.takeWhile (· ≠ separator)), String.ofList rest)

def startsWith (start s : String) : Bool := start.toList.isPrefixOf s.toList

def endsWith (ending s : String) : Bool := ending.toList.isSuffixOf s.toList

def withoutStart (start s : String) : String :=
  if startsWith start s then String.ofList (s.toList.drop start.length) else s

def withoutEnding (ending s : String) : String :=
  if endsWith ending s then String.ofList (s.toList.take (s.length - ending.length)) else s

end ScalarScript.Text
