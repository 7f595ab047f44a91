import SortedRewriting.Symbolic.Value

/-!
# Witnesses

A `Witness` is a run of a transition system, frame by frame: the values of the state variables, and
those of the input variables that lead to the next frame. The last frame has no inputs.
-/

namespace SortedRewriting

/-- The values of state and input variables at one step. -/
structure WitnessFrame where
  state : Env
  inputs : Env
  deriving DecidableEq

/-- A run as a list of frames. -/
structure Witness where
  frames : List WitnessFrame
  deriving DecidableEq

namespace Witness

/-- The number of transitions. -/
def length (w : Witness) : Nat := w.frames.length - 1

def isEmpty (w : Witness) : Bool := w.length == 0

end Witness

end SortedRewriting
