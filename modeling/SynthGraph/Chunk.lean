/-!
# Chunks of a list
-/

namespace SynthGraph

/-- The list in pieces of `size` elements; the last one may be shorter. -/
def chunks {α : Type} (size : Nat) (list : List α) : List (List α) :=
  if _h : size = 0 ∨ list = [] then []
  else list.take size :: chunks size (list.drop size)
termination_by list.length
decreasing_by
  have : list.length ≠ 0 := by simp_all
  simp only [List.length_drop]
  omega

end SynthGraph
