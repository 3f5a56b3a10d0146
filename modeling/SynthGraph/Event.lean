/-!
# Events

Compiling, writing and reading definitions report their progress as events. Each function that
reports has a companion that lists its events, so the results themselves stay plain values.
-/

namespace SynthGraph

/-- What compilation, writing and reading report while they run. -/
inductive Event where
  | build (nodes : Nat) (name : Option String)
  | controls (parameters count slots : Nat)
  | chains (inserted : Nat)
  | localBuffers (count : Nat)
  | folded (count : Nat)
  | sorted (count : Nat)
  | dropped (count : Nat)
  | encoded (bytes definitions : Nat)
  | decoded (definitions bytes : Nat)
  | catalog (descriptors : Nat)
  deriving DecidableEq, Repr

namespace Event

def message : Event → String
  | build nodes name =>
    let shown := name.getD "<anonymous>"
    s!"synthdef_build: {nodes} nodes, name={shown}"
  | controls parameters count slots =>
    s!"synthdef_controls: {parameters} parameters in {count} controls, {slots} slots"
  | chains inserted => s!"synthdef_rewrite: inserted {inserted} ugens for shared PV chains"
  | localBuffers count => s!"synthdef_rewrite: {count} local buffers"
  | folded count => s!"synthdef_optimize: merged {count} duplicate ugens"
  | sorted count => s!"synthdef_sort: {count} ugens in topo order"
  | dropped count => s!"synthdef_optimize: removed {count}"
  | encoded bytes definitions => s!"synthdef_encode: {bytes} bytes, {definitions} synthdefs"
  | decoded definitions bytes => s!"synthdef_decode: {definitions} synthdefs from {bytes} bytes"
  | catalog descriptors => s!"ugen_registry: {descriptors} descriptors"

end Event

end SynthGraph
