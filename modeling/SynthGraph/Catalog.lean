import SynthGraph.Catalog.Buffers
import SynthGraph.Catalog.Buses
import SynthGraph.Catalog.Delays
import SynthGraph.Catalog.Envelopes
import SynthGraph.Catalog.Filters
import SynthGraph.Catalog.Noise
import SynthGraph.Catalog.Oscillators
import SynthGraph.Catalog.Panners
import SynthGraph.Catalog.Spectra
import SynthGraph.Catalog.Synthesized

/-!
# The full catalog

All known descriptors, those of the compiler first. Class names are unique, so the order matters
only where descriptors are listed.
-/

namespace SynthGraph.Catalog

/-- Every descriptor: what the compiler makes, sources, processors, then envelopes, buses and
buffers. -/
def full : Catalog :=
  synthesized ++ oscillators ++ noise ++ filters ++ delays ++ spectra ++ panners ++ envelopes ++
    buses ++ buffers

def inCategory (catalog : Catalog) (category : Category) : Catalog :=
  catalog.filter (·.category == category)

/-- A one-line summary of a catalog. -/
def summary (catalog : Catalog) : String :=
  s!"UGenRegistry \x7b len: {catalog.length} \x7d"

end SynthGraph.Catalog
