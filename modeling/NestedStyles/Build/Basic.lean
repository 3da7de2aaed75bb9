import NestedStyles.Build.Arguments
import NestedStyles.Build.Files
import NestedStyles.Build.Path
import NestedStyles.Options.Json
import NestedStyles.Stylesheet
import NestedStyles.Tree.Json
import NestedStyles.Variables

/-!
# Building stylesheets

A build reads style files and writes a stylesheet for each, named after the file. It may read a
configuration, write the custom properties of a theme and, with layers, a main stylesheet that
imports the others. The first failure ends it.
-/

namespace NestedStyles

/-- What a file is read for. -/
inductive Source where
  | config
  | style
  | theme
deriving DecidableEq

/-- Why a build fails. -/
inductive BuildError where
  /-- No stylesheet can be named after the file. -/
  | unnamed (path : String)
  /-- Two files have stylesheets of one name. -/
  | sameName (first second name : String)
  | reading (source : Source) (path : String) (cause : FileError)
  | parsing (source : Source) (path : String) (cause : Json.Fault)
  | compiling (path : String) (cause : CompileError)
  | flattening (path : String) (cause : CompileError)
  | makingDirectory (path : String) (cause : FileError)
  | writing (path : String) (cause : FileError)
deriving DecidableEq

/-- A file in words. -/
def Source.description : Source → String
  | .config => "config file"
  | .style => "style file"
  | .theme => "variables file"

/-- The error in words. -/
def BuildError.message : BuildError → String
  | .unnamed path => "cannot derive a stylesheet name from " ++ path
  | .sameName first second name =>
    first ++ " and " ++ second ++ " both compile to " ++ name ++ ".css"
  | .reading source path cause =>
    "reading " ++ source.description ++ " " ++ path ++ ": " ++ cause.message
  | .parsing source path cause =>
    "parsing " ++ source.description ++ " " ++ path ++ ": " ++ cause.message
  | .compiling path cause => "compiling " ++ path ++ ": " ++ cause.message
  | .flattening path cause => "flattening " ++ path ++ ": " ++ cause.message
  | .makingDirectory path cause => "creating output directory " ++ path ++ ": " ++ cause.message
  | .writing path cause => "writing " ++ path ++ ": " ++ cause.message

/-- A stylesheet that was written. -/
structure Output where
  /-- The name of the stylesheet, and of its layer. -/
  layer : String
  /-- The name of its file. -/
  file : String
deriving DecidableEq

/-- The stylesheets of a build and its warnings. -/
structure Built where
  outputs : List Output
  warnings : List String

namespace Build

/-- The name of the stylesheet of a file. -/
def layerName (path : String) : Except BuildError String :=
  match Path.stem? path with
  | some name => .ok name
  | none => .error (.unnamed path)

/-- The output of a file. -/
def outputOf (name : String) : Output := ⟨name, name ++ ".css"⟩

/-- Names the stylesheets of files after those of other files, and fails at the first file without
a name or with one that is taken. `taken` has the names so far with their files. -/
def checkNames : (taken : Entries String) → List String → Except BuildError Unit
  | _, [] => .ok ()
  | taken, path :: rest => do
    let name ← layerName path
    match taken.get? name with
    | some first => .error (.sameName first path name)
    | none => checkNames (taken.insert name path) rest

/-- The stylesheets of files all have names of their own. -/
def distinctNames (paths : List String) : Except BuildError Unit := checkNames [] paths

/-- The stylesheet that gives the order of the layers and imports them. -/
def mainStylesheet (outputs : List Output) : String :=
  let order := "@layer " ++ ", ".intercalate (outputs.map Output.layer) ++ ";"
  "\n".intercalate (order :: outputs.map fun output => "@import '" ++ output.file ++ "';")

/-- The text of the stylesheet of a style file, and its warnings. -/
def stylesheetOf (options : Options) (layers : Bool) (path name text : String) :
    Except BuildError (String × List String) := do
  let tree ← (StyleTree.ofText text).mapError (.parsing .style path)
  let sheet ← (tree.compile options).mapError (.compiling path)
  let css := if layers then Layout.block ("@layer " ++ name) sheet.css else sheet.css
  return (css, sheet.diagnostics.map Diagnostic.warning)

/-- The text of the custom properties of a theme. -/
def themeOf (root path text : String) : Except BuildError String := do
  let theme ← (StyleTree.ofText text).mapError (.parsing .theme path)
  let properties ← (CustomProperties.ofTheme none theme).mapError (.flattening path)
  return properties.rule root

universe u

variable {m : Type → Type u} [Monad m] (files : Files m)

/-- The result of a step that touches no file. -/
def given {α : Type} (result : Except BuildError α) : ExceptT BuildError m α :=
  ExceptT.mk (pure result)

/-- The result of a step that touches a file, with its error told as one of the build. -/
def done {α : Type} (cause : FileError → BuildError) (step : m (Except FileError α)) :
    ExceptT BuildError m α :=
  ExceptT.mk ((·.mapError cause) <$> step)

/-- Reads a file. -/
def read (source : Source) (path : String) : ExceptT BuildError m String :=
  done (.reading source path) (files.read path)

/-- Writes a stylesheet, with a line feed at its end. -/
def write (path css : String) : ExceptT BuildError m Unit :=
  done (.writing path) (files.write path (css ++ "\n"))

/-- Makes the directory that stylesheets are written to. -/
def makeDirectory (path : String) : ExceptT BuildError m Unit :=
  done (.makingDirectory path) (files.makeDirectories path)

/-- Reads the configuration, if there is one. -/
def loadConfig : Option String → ExceptT BuildError m Config
  | none => return .empty
  | some path => do
    let text ← read files .config path
    given ((Config.ofText text).mapError (.parsing .config path))

/-- Builds the stylesheet of one style file. -/
def buildFile (options : Options) (arguments : Arguments) (path : String) :
    ExceptT BuildError m (Output × List String) := do
  let name ← given (layerName path)
  let text ← read files .style path
  let (css, warnings) ← given (stylesheetOf options arguments.layers path name text)
  let output := outputOf name
  write files (Path.join arguments.directory output.file) css
  return (output, warnings)

/-- Builds the custom properties of a theme. -/
def buildTheme (root : String) (arguments : Arguments) (path : String) :
    ExceptT BuildError m Unit := do
  let text ← read files .theme path
  let css ← given (themeOf root path text)
  write files (Path.join arguments.directory "variables.css") css

/-- Builds what the command line asks for. -/
def run (arguments : Arguments) : ExceptT BuildError m Built := do
  given (distinctNames arguments.inputs)
  let config ← loadConfig files arguments.config
  makeDirectory files arguments.directory
  let built ← arguments.inputs.mapM (buildFile files config.options arguments)
  let outputs := built.map Prod.fst
  match arguments.theme with
  | some path => buildTheme files config.rootSelector arguments path
  | none => pure ()
  if arguments.layers then
    write files (Path.join arguments.directory arguments.main) (mainStylesheet outputs)
  return ⟨outputs, config.warnings.map Warning.message ++ built.flatMap Prod.snd⟩

end Build

end NestedStyles
