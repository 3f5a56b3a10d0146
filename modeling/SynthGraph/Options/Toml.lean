import SynthGraph.Fault
import SynthGraph.Options
import SynthGraph.Toml.Parse
import SynthGraph.Toml.Quote

/-!
# Options as text

Options are kept as a TOML document. Keys that are missing take their defaults, and keys that are
not known are ignored.
-/

namespace SynthGraph.Options

/-- The truth value under a key, or the default if there is none. -/
def flag? (entries : Toml.Entries) (key : String) (default : Bool) : Option Bool :=
  match entries.lookup key with
  | some (.boolean value) => some value
  | some _ => none
  | none => some default

/-- The text under a key, if there is one. -/
def text? (entries : Toml.Entries) (key : String) : Option (Option String) :=
  match entries.lookup key with
  | some (.string value) => some (some value)
  | some _ => none
  | none => some none

def ofEntries? (entries : Toml.Entries) : Option Options := do
  return {
    optimize := ← flag? entries "optimize" true
    fold := ← flag? entries "fold_common_subexpressions" false
    anonymous := ← flag? entries "use_anonymous_name" false
    name := ← text? entries "name" }

/-- Read options from a document. -/
def ofToml (text : String) : Except Fault Options :=
  match (Toml.Entries.ofText? text).bind ofEntries? with
  | some options => .ok options
  | none => .error .optionsText

/-- Write options as a document. -/
def toToml (o : Options) : String :=
  let name := (o.name.map fun name => "name = " ++ Toml.quoted name ++ "\n").getD ""
  s!"optimize = {o.optimize}\nfold_common_subexpressions = {o.fold}\n" ++
    s!"use_anonymous_name = {o.anonymous}\n" ++ name

end SynthGraph.Options
