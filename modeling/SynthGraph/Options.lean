/-!
# Build options
-/

namespace SynthGraph

/-- How a graph is compiled. -/
structure Options where
  /-- Drop dead generators. -/
  optimize : Bool := true
  /-- Fold equal pure generators as well, if `optimize` is set. -/
  fold : Bool := false
  /-- Ignore the name and go by the digest of the content. -/
  anonymous : Bool := false
  name : Option String := none
  deriving DecidableEq, Repr, Inhabited

/-- The name a definition gets. -/
def Options.effectiveName (o : Options) : Option String := if o.anonymous then none else o.name

end SynthGraph
