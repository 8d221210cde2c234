import SchemaForms.CommandLine.Command
import SchemaForms.Form.Document
import SchemaForms.Form.Encode
import SchemaForms.Json.Printer
import SchemaForms.Schema.Loader
import SchemaForms.Text.Utf8
import SchemaForms.Xml.Reader

/-!
Running commands.  Files and the clock are reached through `Surroundings` in any monad; what a run
says is its `Report`.
-/

namespace SchemaForms.CommandLine

/-- The files and the clock around a run.  What cannot be read or written is answered with the
system's reason. -/
structure Surroundings (m : Type → Type) where
  read : String → m (Except String (List UInt8))
  write : String → String → m (Except String Unit)
  time : m String

/-- The exit code and what goes to standard output and standard error. -/
structure Report where
  code : Nat := 0
  output : String := ""
  messages : List String := []
  deriving DecidableEq, Repr

/-- How the program is called. -/
def usage : List String :=
  ["Usage: xsdform [--verbose] generate SCHEMA --root NAME [OPTIONS]",
    "       xsdform [--verbose] hierarchy SCHEMA [--json]"]

namespace Report

def wrongUsage : Report := { code := 2, messages := usage }

/-- A fault ends the run; warnings given before it stand. -/
def failed (warnings : List String) (fault : Fault) : Report :=
  { code := 1, messages := warnings ++ ["Error: " ++ fault.message] }

end Report

variable {m : Type → Type} [Monad m]

/-- Faults that stop a run before it writes anything. -/
abbrev Attempt (m : Type → Type) := ExceptT Fault m

def readFile (w : Surroundings m) (path : String) : Attempt m (List UInt8) :=
  ExceptT.mk do return (← w.read path).mapError Fault.unreadable

def loadSchema (w : Surroundings m) (path : String) : Attempt m Schema := do
  let bytes ← readFile w path
  ExceptT.mk (pure (Schema.ofBytes bytes))

/-- The settings in a file, or the usual ones. -/
def loadSettings (w : Surroundings m) : Option String → Attempt m Settings
  | none => return Settings.default
  | some path => do
    let bytes ← readFile w path
    match Utf8.decode bytes with
    | none => throw (.unreadable "stream did not contain valid UTF-8")
    | some text => ExceptT.mk (pure (Settings.parse text))

/-- The root element of the instance in a file. -/
def loadInstance (w : Surroundings m) : Option String → Attempt m (Option Xml.Element)
  | none => return none
  | some path => do
    let bytes ← readFile w path
    match ← ExceptT.mk (pure (Xml.readBytes bytes)) with
    | none => throw .instanceWithoutRoot
    | some root => return some root

/-- Reads all files and makes the form. -/
def makeForm (w : Surroundings m) (o : GenerateOptions) : Attempt m Form := do
  let schema ← loadSchema w o.schema
  let settings ← loadSettings w o.settingsPath
  let root ← loadInstance w o.instancePath
  let time ← w.time
  let request : Request :=
    { root := o.root
      instanceRoot := root
      action := o.action
      method := o.method
      base := o.base
      schemaUri := some o.schema }
  let layout := if o.plain then some Layout.plain else none
  ExceptT.mk (pure ((Generator.ofSchema schema settings layout).generate time request))

def generate (w : Surroundings m) (o : GenerateOptions) : m Report := do
  match ← makeForm w o with
  | .error fault => return .failed [] fault
  | .ok form =>
    let warnings := form.anomalies.map fun a => "Warning: " ++ a.message
    let text := if o.json then form.toJson.pretty 0 else form.toXml
    match o.outputPath with
    | none => return { output := text ++ "\n", messages := warnings }
    | some path =>
      match ← w.write path text with
      | .error reason => return .failed warnings (.unwritable reason)
      | .ok () => return { messages := warnings }

/-- The substitutes of each type, a type a line. -/
def hierarchyText (named : Table String (List String)) : String :=
  let line : String × List String → String
    | (base, []) => "  " ++ base ++ "\n"
    | (base, derived) => "  " ++ base ++ " <- " ++ String.intercalate ", " derived ++ "\n"
  "xsdform v" ++ toolVersion ++ "\n\nType hierarchy (" ++ toString named.size ++ " types):\n" ++
    String.join (named.entries.map line)

def hierarchyJson (named : Table String (List String)) : Json :=
  .record (named.entries.map fun (base, derived) => (base, .ofList Json.text derived))

def hierarchy (w : Surroundings m) (path : String) (json : Bool) : m Report := do
  match ← loadSchema w path with
  | .error fault => return .failed [] fault
  | .ok schema =>
    let named := (Substitutes.ofSchema schema).named schema
    if json then return { output := (hierarchyJson named).pretty 0 ++ "\n" }
    else return { output := hierarchyText named }

/-- Does what the arguments ask for. -/
def run (w : Surroundings m) (args : List String) : m Report :=
  match Command.ofArgs? args with
  | none => return .wrongUsage
  | some .version => return { output := "xsdform " ++ toolVersion ++ "\n" }
  | some (.hierarchy schema json) => hierarchy w schema json
  | some (.generate options) => generate w options

end SchemaForms.CommandLine
