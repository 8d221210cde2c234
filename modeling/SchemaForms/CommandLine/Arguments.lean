/-!
Command-line arguments: options with and without a value, and the operands between them.  An
option may be given once; after `--` every argument is an operand.
-/

namespace SchemaForms.CommandLine

structure OptionSpec where
  name : String
  /-- The letter of the short form. -/
  letter : Option Char
  takesValue : Bool
  deriving DecidableEq, Repr

/-- What was given: options by name, with an empty value where they take none, and operands. -/
structure Arguments where
  options : List (String × String) := []
  operands : List String := []
  deriving DecidableEq, Repr

namespace Arguments

def value? (a : Arguments) (name : String) : Option String :=
  (a.options.find? (·.1 == name)).map (·.2)

def has (a : Arguments) (name : String) : Bool := (a.value? name).isSome

/-- Records an option, unless it was given already. -/
def give (a : Arguments) (name value : String) : Option Arguments :=
  if a.has name then none else some { a with options := a.options ++ [(name, value)] }

def addOperand (a : Arguments) (operand : String) : Arguments :=
  { a with operands := a.operands ++ [operand] }

/-- Reads the letters behind one dash.  The letter of an option with a value ends them: the value
is what is left, or else the next argument, for which the option's name is given back. -/
def letters (specs : List OptionSpec) (a : Arguments) :
    List Char → Option (Arguments × Option String)
  | [] => some (a, none)
  | c :: cs => do
    let spec ← specs.find? (·.letter == some c)
    if spec.takesValue then
      match cs with
      | [] => return (a, some spec.name)
      | '=' :: value => return (← a.give spec.name (String.ofList value), none)
      | value => return (← a.give spec.name (String.ofList value), none)
    else letters specs (← a.give spec.name "") cs

/-- Reads what stands behind two dashes: a name, perhaps with a value after an equals sign. -/
def long (specs : List OptionSpec) (a : Arguments) (cs : List Char) :
    Option (Arguments × Option String) := do
  let name := String.ofList (cs.takeWhile (· ≠ '='))
  let spec ← specs.find? (·.name == name)
  match spec.takesValue, cs.dropWhile (· ≠ '=') with
  | true, [] => return (a, some name)
  | true, _ :: value => return (← a.give name (String.ofList value), none)
  | false, [] => return (← a.give name "", none)
  | false, _ :: _ => none

/-- Whether an argument can be no value: it is longer than its dash. -/
def looksLikeOption : List Char → Bool
  | '-' :: _ :: _ => true
  | _ => false

/-- Reads arguments one by one.  `pending` names the option whose value comes next; when `escaped`,
all that follows are operands. -/
def read (specs : List OptionSpec) (a : Arguments) (pending : Option String) (escaped : Bool) :
    List String → Option Arguments
  | [] => if pending.isSome then none else some a
  | arg :: rest =>
    match pending with
    | some name =>
      if looksLikeOption arg.toList then none
      else (a.give name arg).bind fun a => read specs a none false rest
    | none =>
      if escaped then read specs (a.addOperand arg) none true rest
      else
        match arg.toList with
        | ['-', '-'] => read specs a none true rest
        | '-' :: '-' :: cs =>
          (long specs a cs).bind fun (a, pending) => read specs a pending false rest
        | '-' :: c :: cs =>
          (letters specs a (c :: cs)).bind fun (a, pending) => read specs a pending false rest
        | _ => read specs (a.addOperand arg) none false rest

/-- Reads all arguments of a command; none if they do not fit its options. -/
def ofList? (specs : List OptionSpec) (args : List String) : Option Arguments :=
  read specs {} none false args

theorem value?_give {a b : Arguments} {name value : String} (h : a.give name value = some b) :
    b.value? name = some value := by
  unfold give at h
  split at h
  · contradiction
  next ha =>
    cases h
    have hn : a.options.find? (·.1 == name) = none := by
      cases hf : a.options.find? (·.1 == name) with
      | none => rfl
      | some o => simp [has, value?, hf] at ha
    simp only [value?, List.find?_append, hn, List.find?_singleton, beq_self_eq_true, if_true,
      Option.none_or, Option.map_some]

end Arguments

end SchemaForms.CommandLine
