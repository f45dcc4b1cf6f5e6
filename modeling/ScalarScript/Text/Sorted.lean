/-!
Names in the order of their characters.
-/
namespace ScalarScript.Text

-- Sorted, and once each.
def sorted (names : List String) : List String :=
  (names.mergeSort fun a b => !(b < a)).eraseReps

end ScalarScript.Text
