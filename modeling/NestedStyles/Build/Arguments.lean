import NestedStyles.Text.Lead

/-!
# Arguments of the command line

Options may stand before, between and behind the inputs; `--` ends them. An option with a value
takes it from behind `=`, from behind its letter or from the next argument. A value in an argument
of its own is settled when the next option or input is read, so an option that is not known is
reported before it.
-/

namespace NestedStyles

/-- What the command line asks for. -/
structure Arguments where
  /-- The style files, at least one. -/
  inputs : List String
  /-- The configuration file. -/
  config : Option String
  /-- The directory that stylesheets are written to. -/
  directory : String
  /-- Every stylesheet is a layer, and a main stylesheet imports them. -/
  layers : Bool
  /-- The name of the main stylesheet. -/
  main : String
  /-- The theme that custom properties are made from. -/
  theme : Option String
deriving DecidableEq

/-- Why the arguments cannot be used. -/
inductive UsageError where
  /-- There is no input. -/
  | missingInput
  /-- Help is asked for. -/
  | help
  /-- An option is not known. -/
  | unknownOption
  /-- An option is given twice. -/
  | repeatedOption
  /-- An option or input has no value. -/
  | missingValue
  /-- An option that takes no value has one. -/
  | needlessValue
deriving DecidableEq

namespace Arguments

/-- An option that takes a value. -/
inductive Valued where
  | config
  | directory
  | main
  | theme
deriving DecidableEq

/-- The arguments read so far. -/
structure Gathered where
  inputs : List String
  values : List (Valued × String)
  layers : Bool
  /-- Inputs that are not settled yet. -/
  newInputs : List String
  /-- An option that waits for a value, or to be settled with the value behind it. -/
  pending : Option (Valued × Option String)

namespace Gathered

/-- Nothing read yet. -/
def start : Gathered := ⟨[], [], false, [], none⟩

/-- Settles an option with its value. Only the name of the main stylesheet may be empty. -/
def set (state : Gathered) (option : Valued) (value : String) : Except UsageError Gathered :=
  if state.values.any (·.1 == option) then .error .repeatedOption
  else if value == "" && option != .main then .error .missingValue
  else .ok { state with values := state.values ++ [(option, value)] }

/-- Settles what was read before. -/
def settle (state : Gathered) : Except UsageError Gathered :=
  if state.newInputs.contains "" then .error .missingValue
  else
    let state := { state with inputs := state.inputs ++ state.newInputs, newInputs := [] }
    match state.pending with
    | none => .ok state
    | some (_, none) => .error .missingValue
    | some (option, some value) => { state with pending := none }.set option value

/-- Reads an option that takes a value, which may be attached to it. -/
def readValued (state : Gathered) (option : Valued) (attached : Option String) :
    Except UsageError Gathered := do
  let state ← state.settle
  match attached with
  | some value => state.set option value
  | none => return { state with pending := some (option, none) }

/-- Reads an option that takes no value. -/
def readLayers (state : Gathered) : Except UsageError Gathered := do
  let state ← state.settle
  if state.layers then .error .repeatedOption else return { state with layers := true }

/-- Reads an input. -/
def readInput (state : Gathered) (input : String) : Except UsageError Gathered := do
  let state ← if state.pending.isSome then state.settle else pure state
  return { state with newInputs := state.newInputs ++ [input] }

/-- The option of a long name that takes a value. -/
def long? (name : String) : Option Valued :=
  match name with
  | "config" => some .config
  | "out-dir" => some .directory
  | "main" => some .main
  | "variables" => some .theme
  | _ => none

/-- Reads an option with a long name, given without the hyphens before it. -/
def readLong (state : Gathered) (text : List Char) : Except UsageError Gathered :=
  let name := String.ofList (text.takeWhile (· != '='))
  let attached :=
    match text.dropWhile (· != '=') with
    | [] => none
    | _ :: value => some (String.ofList value)
  match long? name with
  | some option => state.readValued option attached
  | none =>
    if name == "layers" then
      if attached.isSome then .error .needlessValue else state.readLayers
    else if name == "help" then
      if attached.isSome then .error .needlessValue
      else state.settle.bind fun _ => .error .help
    else .error .unknownOption

/-- Reads an option with a letter, given without the hyphen before it. -/
def readShort (state : Gathered) (letter : Char) (text : List Char) : Except UsageError Gathered :=
  let attached :=
    match text with
    | [] => none
    | '=' :: value => some (String.ofList value)
    | value => some (String.ofList value)
  match letter with
  | 'c' => state.readValued .config attached
  | 'o' => state.readValued .directory attached
  | 'h' => state.settle.bind fun _ => .error .help
  | _ => .error .unknownOption

/-- Reads the arguments before `--`, and those behind it as inputs. -/
def readAll : Gathered → List String → Except UsageError Gathered
  | state, [] => state.settle
  | state, argument :: rest =>
    match argument.toList with
    | ['-', '-'] =>
      match state.pending with
      | some (_, none) => .error .missingValue
      | _ => (rest.foldlM readInput state).bind settle
    | '-' :: '-' :: text => (state.readLong text).bind (readAll · rest)
    | '-' :: letter :: text => (state.readShort letter text).bind (readAll · rest)
    | _ =>
      match state.pending with
      | some (option, none) => readAll { state with pending := some (option, some argument) } rest
      | _ => (state.readInput argument).bind (readAll · rest)

/-- The value of an option. -/
def value? (state : Gathered) (option : Valued) : Option String :=
  (state.values.find? (·.1 == option)).map Prod.snd

end Gathered

/-- Reads the arguments behind the name of the program. -/
def read (arguments : List String) : Except UsageError Arguments := do
  let state ← Gathered.start.readAll arguments
  if state.inputs.isEmpty then .error .missingInput
  else return {
    inputs := state.inputs
    config := state.value? .config
    directory := (state.value? .directory).getD "."
    layers := state.layers
    main := (state.value? .main).getD "styles.css"
    theme := state.value? .theme }

end Arguments

end NestedStyles
