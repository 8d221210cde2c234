import SchemaForms.CommandLine.Arguments

/-!
Commands: what the program is asked to do.  Arguments that ask for nothing it can do are wrong
usage, which is `none` here.
-/

namespace SchemaForms.CommandLine

structure GenerateOptions where
  schema : String
  /-- The local name of the root element. -/
  root : String
  instancePath : Option String := none
  action : Option String := none
  method : Option String := none
  base : Option String := none
  settingsPath : Option String := none
  /-- Whether the form goes into a bare envelope and not into a page. -/
  plain : Bool := false
  json : Bool := false
  /-- The file to write; standard output if there is none. -/
  outputPath : Option String := none
  deriving DecidableEq, Repr

inductive Command where
  | generate (options : GenerateOptions)
  | hierarchy (schema : String) (json : Bool)
  | version
  deriving DecidableEq, Repr

/-- Accepted everywhere, and without effect on what is written. -/
def verboseOption : OptionSpec := ⟨"verbose", some 'v', false⟩

def jsonOption : OptionSpec := ⟨"json", some 'j', false⟩

def generateSpecs : List OptionSpec :=
  [⟨"root", some 'r', true⟩, ⟨"instance", some 'i', true⟩, ⟨"action", some 'a', true⟩,
    ⟨"method", some 'm', true⟩, ⟨"base", some 'b', true⟩, ⟨"config", some 'c', true⟩,
    ⟨"plain", none, false⟩, jsonOption, ⟨"output", some 'o', true⟩, verboseOption]

def hierarchySpecs : List OptionSpec := [jsonOption, verboseOption]

/-- The schema: the one operand, which has to be a path. -/
def schemaOperand (a : Arguments) : Option String :=
  match a.operands with
  | [path] => if path = "" then none else some path
  | _ => none

/-- Whether no option that names a file is empty. -/
def pathsGiven (a : Arguments) : Bool :=
  ["instance", "config", "output"].all fun name => a.value? name != some ""

def generateOf (a : Arguments) : Option Command := do
  let schema ← schemaOperand a
  let root ← a.value? "root"
  if pathsGiven a then
    return .generate
      { schema := schema
        root := root
        instancePath := a.value? "instance"
        action := a.value? "action"
        method := a.value? "method"
        base := a.value? "base"
        settingsPath := a.value? "config"
        plain := a.has "plain"
        json := a.has "json"
        outputPath := a.value? "output" }
  else none

def hierarchyOf (a : Arguments) : Option Command :=
  (schemaOperand a).map fun schema => .hierarchy schema (a.has "json")

/-- What the letters before a command ask for. -/
inductive Preamble where
  | version
  | verbose (given : Bool)
  deriving DecidableEq, Repr

/-- Reads the letters of one argument before the command, up to one that asks for the version. -/
def preambleLetters (verbose : Bool) : List Char → Option Preamble
  | [] => some (.verbose verbose)
  | 'V' :: _ => some .version
  | 'v' :: cs => if verbose then none else preambleLetters true cs
  | _ => none

/-- One argument before the command. -/
def preamble (verbose : Bool) (arg : String) : Option Preamble :=
  if arg = "--version" then some .version
  else if arg = "--verbose" then if verbose then none else some (.verbose true)
  else
    match arg.toList with
    | '-' :: c :: cs => preambleLetters verbose (c :: cs)
    | _ => none

namespace Command

/-- Reads the arguments up to the command, and its own with the options it has. -/
def read (verbose : Bool) : List String → Option Command
  | [] => none
  | arg :: rest =>
    if arg = "generate" then (Arguments.ofList? generateSpecs rest).bind generateOf
    else if arg = "hierarchy" then (Arguments.ofList? hierarchySpecs rest).bind hierarchyOf
    else
      match preamble verbose arg with
      | some .version => some .version
      | some (.verbose given) => read given rest
      | none => none

/-- The command that arguments ask for. -/
def ofArgs? (args : List String) : Option Command := read false args

end Command

end SchemaForms.CommandLine
