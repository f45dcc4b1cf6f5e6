/-!
Search patterns: alternatives, each a row of pieces that match one character or a place. There are
literal characters, the point, character sets and the anchors.
-/
namespace ScalarScript

inductive Piece where
  | char (c : Char)
  | any
  -- one of, or none of, the characters in some ranges
  | set (negated : Bool) (ranges : List (Char × Char))
  | start
  | finish
  deriving DecidableEq, Repr

structure Pattern where
  alternatives : List (List Piece)
  deriving DecidableEq, Repr

inductive PatternError where
  | unclosedGroup (pattern : String)
  -- a set, from its bracket on
  | unclosedSet (rest : String)
  deriving DecidableEq, Repr

def PatternError.message (e : PatternError) : String :=
  let (missing, place) := match e with
    | unclosedGroup pattern => (")", pattern)
    | unclosedSet rest => ("]", rest)
  "error parsing regexp: missing closing " ++ missing ++ ": `" ++ place ++ "`"

namespace Piece

def inRanges (c : Char) (ranges : List (Char × Char)) : Bool :=
  ranges.any fun (low, high) => low ≤ c && c ≤ high

def accepts (p : Piece) (c : Char) : Bool :=
  match p with
  | char d => c == d
  | any => c ≠ '\n'
  | set negated ranges => inRanges c ranges != negated
  | start | finish => false

-- Whether the pieces match at the head of a text. `first` tells that the text begins there.
def matchAt : List Piece → Bool → List Char → Bool
  | [], _, _ => true
  | start :: ps, first, cs => first && matchAt ps first cs
  | finish :: ps, first, cs => cs.isEmpty && matchAt ps first cs
  | _ :: _, _, [] => false
  | p :: ps, _, c :: cs => p.accepts c && matchAt ps false cs

end Piece

namespace Pattern

-- Whether the pattern matches somewhere from here on.
def occursFrom (p : Pattern) (first : Bool) : List Char → Bool
  | [] => p.alternatives.any (Piece.matchAt · first [])
  | c :: rest =>
    p.alternatives.any (Piece.matchAt · first (c :: rest)) || p.occursFrom false rest

def occursIn (p : Pattern) (s : String) : Bool := p.occursFrom true s.toList

-- The ranges of a set up to its end. A bracket that comes first is a character, and so is a dash
-- that comes last.
def parseRanges : Bool → List Char → Option (List (Char × Char) × List Char)
  | true, ']' :: rest => some ([], rest)
  | _, low :: '-' :: ']' :: rest => some ([(low, low), ('-', '-')], rest)
  | _, low :: '-' :: high :: rest =>
    (parseRanges true rest).map fun (ranges, rest) => ((low, high) :: ranges, rest)
  | _, low :: rest => (parseRanges true rest).map fun (ranges, rest) => ((low, low) :: ranges, rest)
  | _, [] => none

def parseSet : List Char → Option (Piece × List Char)
  | '^' :: rest => (parseRanges false rest).map fun (ranges, rest) => (.set true ranges, rest)
  | cs => (parseRanges false cs).map fun (ranges, rest) => (.set false ranges, rest)

-- Puts a piece in front of the first alternative.
def prepend (p : Piece) : List (List Piece) → List (List Piece)
  | [] => [[p]]
  | a :: rest => (p :: a) :: rest

-- The alternatives of the rest of a pattern.
def parseFrom (whole : String) : Nat → List Char → Except PatternError (List (List Piece))
  | 0, _ | _, [] => .ok [[]]
  | steps + 1, c :: rest =>
    match c with
    | '|' => return [] :: (← parseFrom whole steps rest)
    | '(' => .error (.unclosedGroup whole)
    | '[' =>
      match parseSet rest with
      | none => .error (.unclosedSet (String.ofList (c :: rest)))
      | some (p, rest) => return prepend p (← parseFrom whole steps rest)
    | '.' => return prepend .any (← parseFrom whole steps rest)
    | '^' => return prepend .start (← parseFrom whole steps rest)
    | '$' => return prepend .finish (← parseFrom whole steps rest)
    | c => return prepend (.char c) (← parseFrom whole steps rest)

def parse (s : String) : Except PatternError Pattern :=
  (parseFrom s s.length s.toList).map Pattern.mk

end Pattern

end ScalarScript
