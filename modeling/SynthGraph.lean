import SynthGraph.Arithmetic
import SynthGraph.Builder
import SynthGraph.Catalog
import SynthGraph.Catalog.Buffers
import SynthGraph.Catalog.Buses
import SynthGraph.Catalog.Delays
import SynthGraph.Catalog.Envelopes
import SynthGraph.Catalog.Filters
import SynthGraph.Catalog.Noise
import SynthGraph.Catalog.Oscillators
import SynthGraph.Catalog.Panners
import SynthGraph.Catalog.Spectra
import SynthGraph.Catalog.Synthesized
import SynthGraph.Chunk
import SynthGraph.Compile
import SynthGraph.Construct
import SynthGraph.Definition
import SynthGraph.Definition.Dot
import SynthGraph.Definition.Dump
import SynthGraph.Descriptor
import SynthGraph.Disk
import SynthGraph.Envelope
import SynthGraph.Event
import SynthGraph.Expansion
import SynthGraph.Fault
import SynthGraph.Graph
import SynthGraph.Graph.Chains
import SynthGraph.Graph.Controls
import SynthGraph.Graph.Folding
import SynthGraph.Graph.Liveness
import SynthGraph.Graph.LocalBuffers
import SynthGraph.Graph.Order
import SynthGraph.Library
import SynthGraph.Node
import SynthGraph.Operator
import SynthGraph.Options
import SynthGraph.Options.Toml
import SynthGraph.Proofs.Acceptance
import SynthGraph.Proofs.Accesses
import SynthGraph.Proofs.Accounting
import SynthGraph.Proofs.Addressing
import SynthGraph.Proofs.Arena
import SynthGraph.Proofs.Attempts
import SynthGraph.Proofs.Basic
import SynthGraph.Proofs.Building
import SynthGraph.Proofs.Built
import SynthGraph.Proofs.Canonical
import SynthGraph.Proofs.Catalogued
import SynthGraph.Proofs.Chains
import SynthGraph.Proofs.Channels
import SynthGraph.Proofs.ChosenRates
import SynthGraph.Proofs.Circles
import SynthGraph.Proofs.Compilation
import SynthGraph.Proofs.Controls
import SynthGraph.Proofs.Countdown
import SynthGraph.Proofs.Culling
import SynthGraph.Proofs.Cycles
import SynthGraph.Proofs.Draws
import SynthGraph.Proofs.Dropping
import SynthGraph.Proofs.Envelopes
import SynthGraph.Proofs.Evaluation
import SynthGraph.Proofs.Execution
import SynthGraph.Proofs.Expanding
import SynthGraph.Proofs.Failures
import SynthGraph.Proofs.Faithful
import SynthGraph.Proofs.Folding
import SynthGraph.Proofs.Forward
import SynthGraph.Proofs.Frames
import SynthGraph.Proofs.Gliding
import SynthGraph.Proofs.Guards
import SynthGraph.Proofs.Interning
import SynthGraph.Proofs.Layout
import SynthGraph.Proofs.Liveness
import SynthGraph.Proofs.LocalBuffers
import SynthGraph.Proofs.Mixing
import SynthGraph.Proofs.Naming
import SynthGraph.Proofs.Numbering
import SynthGraph.Proofs.Order
import SynthGraph.Proofs.Outlets
import SynthGraph.Proofs.Precedence
import SynthGraph.Proofs.Pruning
import SynthGraph.Proofs.Quotients
import SynthGraph.Proofs.Rates
import SynthGraph.Proofs.Reachability
import SynthGraph.Proofs.Reading
import SynthGraph.Proofs.Recovery
import SynthGraph.Proofs.Registered
import SynthGraph.Proofs.Registering
import SynthGraph.Proofs.Requests
import SynthGraph.Proofs.Roots
import SynthGraph.Proofs.RoundTrip
import SynthGraph.Proofs.Schedule
import SynthGraph.Proofs.Sharing
import SynthGraph.Proofs.Sizes
import SynthGraph.Proofs.Sorting
import SynthGraph.Proofs.Studios
import SynthGraph.Proofs.Tables
import SynthGraph.Proofs.Writing
import SynthGraph.Rate
import SynthGraph.Scgf
import SynthGraph.Scgf.Decode
import SynthGraph.Scgf.Encode
import SynthGraph.Sha256
import SynthGraph.Signal
import SynthGraph.Single
import SynthGraph.Single.Decimal
import SynthGraph.Studio
import SynthGraph.Toml
import SynthGraph.Toml.Parse
import SynthGraph.Toml.Quote
