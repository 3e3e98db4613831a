/-
# ClassChart.Command.Run — a run of the program

A run reads its settings, finds its inputs, reads them, has the model extracted and drawn, and writes it.
It needs a file system for that, workers that parse the units, and writers for the two forms of output;
each of them can fail. A run that fails before it writes leaves everything as it was.
-/
import ClassChart.Command.Args
import ClassChart.Command.Inputs
import ClassChart.Model.Json
import ClassChart.Model.TextBox
import ClassChart.Report
import ClassChart.Settings

namespace ClassChart

/-! ## Errors -/

/-- What goes wrong outside the sources. -/
inductive Trouble where
  | missingSettings (path : String)
  | badSettings
  | inputs (error : InputError)
  | unreadable (path : String) (error : SystemError)
  | system (error : SystemError)
deriving DecidableEq, Repr

/-- The trouble in words. -/
def Trouble.message : Trouble → String
  | missingSettings path => "Missing configuration file: " ++ path
  | badSettings => "Failed to parse TOML configuration:"
  | inputs error => error.message
  | unreadable path error => path ++ ": " ++ error.message
  | system error => error.message

/-- Why a run failed. -/
inductive RunError where
  | io (trouble : Trouble)
  | batch (failure : BatchFailure)
  | pool (reason : String)
  | render (reason : String)
deriving DecidableEq, Repr

namespace RunError

/-- The error in one line. -/
def message : RunError → String
  | io trouble => "I/O error: " ++ trouble.message
  | batch failure => failure.message
  | pool reason => "Worker pool error: " ++ reason
  | render reason => "Render error: " ++ reason

/-- The report of an error that is about no source. -/
def plainReport (display code : String) : Report :=
  { display := display
    code := some code
    help := none
    source := none
    labels := [] }

/-- The reports of the error. -/
def reports : RunError → List Report
  | io trouble => [plainReport (io trouble).message "classmap::io"]
  | batch failure => failure.reports
  | pool reason => [plainReport (pool reason).message "classmap::pool"]
  | render reason => [plainReport (render reason).message "classmap::render"]

end RunError

section FileSystems

variable {σ : Type} [FileSystem σ]

/-! ## Settings -/

/-- The settings file of the working directory. -/
def localSettings : String := "classmap/config.toml"

/-- The settings in a file. -/
def loadSettingsFile (s : σ) (path : String) : Except Trouble Settings :=
  if !FileSystem.exists? s path then .error (.missingSettings path)
  else match FileSystem.readText s path with
    | .error error => .error (.system error)
    | .ok text =>
      match Settings.ofText? text with
      | some settings => .ok settings
      | none => .error .badSettings

/-- The settings of a run: those of the file that was named, else of the working directory, else of the
user if there is a place for these, else the standard ones. -/
def loadSettings (s : σ) (userSettings? named : Option String) : Except Trouble Settings :=
  match named with
  | some path => loadSettingsFile s path
  | none =>
    if FileSystem.exists? s localSettings then loadSettingsFile s localSettings
    else match userSettings? with
      | some path => if FileSystem.exists? s path then loadSettingsFile s path else .ok .standard
      | none => .ok .standard

/-- The settings with what the command line says instead. -/
def Args.override (args : Args) (s : Settings) : Settings :=
  let merged := if args.noMerge then s.withMerge false else s
  match args.defaultValues with
  | some policy => merged.withDefaultValues policy
  | none => merged

/-! ## Reading -/

/-- Reads the units to extract. -/
def readUnits (s : σ) (paths : List String) : Except Trouble (List SourceUnit) :=
  paths.mapM fun path =>
    match FileSystem.readText s path with
    | .ok text => .ok (.ofText path text)
    | .error error => .error (.unreadable path error)

/-- The files whose contents a run may look at: the settings files and the inputs. -/
def wantedFiles (s : σ) (userSettings? : Option String) (args : Args) : List String :=
  let found := match Inputs.resolve s args.inputs args.exclude with
    | (.ok paths, _) => paths
    | (.error _, _) => []
  args.config.toList ++ [localSettings] ++ userSettings?.toList ++ found

/-- What has to be read before a run can extract: the settings and the units. -/
def prepare (s : σ) (userSettings? : Option String) (args : Args) :
    Except Trouble (Settings × List SourceUnit) × List Warning :=
  match loadSettings s userSettings? args.config with
  | .error trouble => (.error trouble, [])
  | .ok settings =>
    match Inputs.resolve s args.inputs args.exclude with
    | (.error error, warnings) => (.error (.inputs error), warnings)
    | (.ok paths, warnings) =>
      ((readUnits s paths).map fun units => (args.override settings, units), warnings)

/-! ## Drawing -/

/-- The writers of the two forms of output. A writer that cannot write a model says why. -/
structure Writers where
  json : Model → Except String String
  text : Nat → Model → Except String String

/-- The writers of the library, which can write every model. -/
def Writers.standard : Writers :=
  ⟨fun m => .ok m.toJson.render, fun padding m => .ok (m.renderText padding)⟩

/-- The text of a model in the given form. -/
def OutputFormat.render (writers : Writers) (padding : Nat) (m : Model) :
    OutputFormat → Except String String
  | .json => (writers.json m).map (· ++ "\n")
  | .text => writers.text padding m

/-! ## The run -/

/-- What a run relies on besides the file system. -/
structure Services where
  pool : WorkerPool
  writers : Writers

/-- One worker, and the writers of the library. -/
def Services.standard : Services := ⟨.sequential, .standard⟩

/-- What a run did. -/
structure RunResult (σ : Type) where
  outcome : Except RunError Unit
  /-- The text for standard output. -/
  stdout : String
  /-- The file system after the run. -/
  files : σ
  warnings : List Warning

namespace Args

/-- The model of a batch as the command line wants it: of all units or none with `--strict`, else of
those that were parsed, with a warning for each other. -/
def select (args : Args) (o : BatchOutput) : Except BatchFailure (Model × List Warning) :=
  if args.strict then o.strict.map (·, [])
  else o.lenient.map fun (m, failures) => (m, failures.map (·.skipped))

/-- The end of a run: writes a text to the file that was named, or to standard output. -/
def deliver (args : Args) (s : σ) (text : String) (warnings : List Warning) : RunResult σ :=
  match args.output with
  | none => ⟨.ok (), text, s, warnings⟩
  | some path =>
    match FileSystem.write s path text with
    | (.ok (), written) => ⟨.ok (), "", written, warnings⟩
    | (.error error, left) => ⟨.error (.io (.system error)), "", left, warnings⟩

/-- A run behind its extraction: selects the model, draws it and writes what was drawn. -/
def finish (args : Args) (writers : Writers) (s : σ) (padding : Nat) (output : BatchOutput)
    (warnings : List Warning) : RunResult σ :=
  match args.select output with
  | .error failure => ⟨.error (.batch failure), "", s, warnings⟩
  | .ok (model, skipped) =>
    match args.format.render writers padding model with
    | .error reason => ⟨.error (.render reason), "", s, warnings ++ skipped⟩
    | .ok text => args.deliver s text (warnings ++ skipped)

/-- A run behind its preparation: has the units extracted, and finishes with what they give. -/
def extract (args : Args) (services : Services) (s : σ) (settings : Settings) (units : List SourceUnit)
    (warnings : List Warning) : RunResult σ :=
  match extractUnitsOn services.pool settings units with
  | .error reason => ⟨.error (.pool reason), "", s, warnings⟩
  | .ok output => args.finish services.writers s settings.padding output (warnings ++ output.warnings)

/-- Carries out a command line. -/
def run (args : Args) (services : Services) (s : σ) (userSettings? : Option String) : RunResult σ :=
  match prepare s userSettings? args with
  | (.error trouble, warnings) => ⟨.error (.io trouble), "", s, warnings⟩
  | (.ok (settings, units), warnings) => args.extract services s settings units warnings

end Args

end FileSystems

end ClassChart
