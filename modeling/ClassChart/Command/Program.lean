/-
# ClassChart.Command.Program — the program as a whole

From the command line to an exit code: 0 after success, 1 after an error, 2 for a command line that was
not understood. What happened is logged at levels, and only what is at least as urgent as the level
asked for is shown.
-/
import ClassChart.Command.Run

namespace ClassChart

/-! ## Logging -/

/-- How urgent a record is, the most urgent first. -/
inductive LogLevel where
  | error
  | warn
  | info
  | debug
  | trace
deriving DecidableEq, Repr

namespace LogLevel

/-- The rank of a level; a smaller one is more urgent. -/
def rank : LogLevel → Nat
  | error => 1
  | warn => 2
  | info => 3
  | debug => 4
  | trace => 5

/-- The name of the level. -/
def name : LogLevel → String
  | error => "ERROR"
  | warn => "WARN"
  | info => "INFO"
  | debug => "DEBUG"
  | trace => "TRACE"

end LogLevel

/-- The rank up to which records are shown, zero for none: the meaning of a word for a level, in any
case of its letters. -/
def LogLevel.limit? (word : String) : Option Nat :=
  let upper := word.toUpper
  if upper = "OFF" then some 0
  else ([LogLevel.error, .warn, .info, .debug, .trace].find? (·.name == upper)).map (·.rank)

/-- A log record. -/
structure LogRecord where
  level : LogLevel
  text : String
deriving DecidableEq, Repr

/-! ## The program -/

/-- What the program leaves behind. -/
structure Exit (σ : Type) where
  code : Nat
  stdout : String
  /-- A remark on the command line, ahead of the log. -/
  notice : Option String
  /-- The log records that are shown. -/
  log : List LogRecord
  files : σ

/-- The name and version of the program. -/
def versionText : String := "classmap-cli 0.1.0\n"

/-- How the program is used. -/
def helpText : String :=
  "Usage: classmap [OPTIONS] <INPUTS>...\n\n" ++
  "Arguments:\n" ++
  "  <INPUTS>...  Input files or glob patterns\n\n" ++
  "Options:\n" ++
  "      --exclude <PATTERN>        Glob pattern of paths to skip; may be repeated\n" ++
  "  -o, --output <OUTPUT>          Path to the output file; stdout when absent\n" ++
  "  -f, --format <FORMAT>          Output format (json, text)\n" ++
  "      --no-merge                 Keep entities that share a namespace and name apart\n" ++
  "      --strict                   Fail when any input does not parse\n" ++
  "      --default-values <POLICY>  Handling of unsupported parameter defaults (drop, reject, keep)\n" ++
  "  -c, --config <CONFIG>          Path to configuration file (TOML)\n" ++
  "      --log-level <LOG_LEVEL>    Log level (off, error, warn, info, debug, trace)\n" ++
  "  -h, --help                     Print help\n" ++
  "  -V, --version                  Print version\n"

/-- A command line that was not understood, in words. -/
def UsageError.message : UsageError → String
  | missingInput => "error: the following required arguments were not provided: <INPUTS>..."
  | invalidValue => "error: invalid or missing value for an option"
  | rejectedValue => "error: invalid value for '--default-values <POLICY>': "
      ++ DefaultPolicy.unsupported
  | unknownArgument => "error: unexpected argument found"
  | repeated => "error: an argument cannot be used multiple times"
  | unneededValue => "error: unexpected value for a switch"
  | displayHelp => helpText
  | displayVersion => versionText

section FileSystems

variable {σ : Type} [FileSystem σ]

/-- What a command line that was not carried out leaves behind. -/
def UsageError.exit (e : UsageError) (s : σ) : Exit σ :=
  match e with
  | .displayHelp => ⟨0, helpText, none, [], s⟩
  | .displayVersion => ⟨0, versionText, none, [], s⟩
  | _ => ⟨2, "", none, [⟨.error, e.message⟩], s⟩

/-- The records of a run, in the order of their kinds. -/
def RunResult.log (r : RunResult σ) : List LogRecord :=
  ⟨.info, "Starting classmap"⟩ :: r.warnings.map (fun w => ⟨.warn, w.text⟩)
    ++ match r.outcome with
      | .ok () => [⟨.info, "Completed successfully"⟩]
      | .error error => error.reports.map fun report => ⟨.error, report.display⟩

/-- The whole program. A level that is none is remarked on, and warnings are shown. -/
def runProgram (services : Services) (s : σ) (userSettings? : Option String) (argv : List String) :
    Exit σ :=
  match Args.parse argv with
  | .error error => error.exit s
  | .ok args =>
    let result := args.run services s userSettings?
    let limit := (LogLevel.limit? args.logLevel).getD LogLevel.warn.rank
    let notice := match LogLevel.limit? args.logLevel with
      | some _ => none
      | none => some ("Invalid log level: " ++ args.logLevel ++ ". Using 'warn' instead.")
    let code := match result.outcome with
      | .ok () => 0
      | .error _ => 1
    ⟨code, result.stdout, notice, result.log.filter (·.level.rank ≤ limit), result.files⟩

end FileSystems

end ClassChart
