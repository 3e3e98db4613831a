/-
# ClassChart.Command.Args — the command line

Arguments are read from left to right. An option takes its value from the same argument (`-fX`, `-f=X`,
`--x=v`) or from the next one, unless that begins with a dash. A value that stands in an argument of its
own is checked only when the next option or input begins, or at the end; an argument that is wrong in
itself is reported before it.
-/
import ClassChart.Policy

namespace ClassChart

/-! ## What is asked for -/

/-- The form of the output. -/
inductive OutputFormat where
  | json
  | text
deriving DecidableEq, Repr

namespace OutputFormat

/-- The word for the form. -/
def word : OutputFormat → String
  | json => "json"
  | text => "text"

/-- The form with the given word. -/
def ofWord? (w : String) : Option OutputFormat := [json, text].find? fun f => f.word == w

end OutputFormat

/-- A command line that was understood. -/
structure Args where
  inputs : List String
  exclude : List String
  output : Option String
  format : OutputFormat
  noMerge : Bool
  strict : Bool
  defaultValues : Option DefaultPolicy
  config : Option String
  logLevel : String
deriving DecidableEq, Repr

/-- Why a command line is not carried out. -/
inductive UsageError where
  | missingInput
  | invalidValue
  | rejectedValue
  | unknownArgument
  | repeated
  | unneededValue
  | displayHelp
  | displayVersion
deriving DecidableEq, Repr

namespace Args

/-! ## Options -/

/-- The options that take a value. -/
inductive Valued where
  | exclude
  | output
  | format
  | defaultValues
  | config
  | logLevel
deriving DecidableEq, Repr

/-- The switches. -/
inductive Switch where
  | noMerge
  | strict
  | help
  | version
deriving DecidableEq, Repr

/-- What a name stands for. -/
inductive Named where
  | option (o : Valued)
  | switch (s : Switch)
deriving DecidableEq, Repr

/-- The meaning of a long name. -/
def ofLong? (name : String) : Option Named :=
  if name = "exclude" then some (.option .exclude)
  else if name = "output" then some (.option .output)
  else if name = "format" then some (.option .format)
  else if name = "default-values" then some (.option .defaultValues)
  else if name = "config" then some (.option .config)
  else if name = "log-level" then some (.option .logLevel)
  else if name = "no-merge" then some (.switch .noMerge)
  else if name = "strict" then some (.switch .strict)
  else if name = "help" then some (.switch .help)
  else if name = "version" then some (.switch .version)
  else none

/-- The meaning of a short name. -/
def ofShort? (c : Char) : Option Named :=
  if c = 'o' then some (.option .output)
  else if c = 'f' then some (.option .format)
  else if c = 'c' then some (.option .config)
  else if c = 'h' then some (.switch .help)
  else if c = 'V' then some (.switch .version)
  else none

/-! ## Reading -/

/-- What has been read so far. -/
structure Progress where
  inputs : List String := []
  exclude : List String := []
  output : Option String := none
  format : Option OutputFormat := none
  noMerge : Bool := false
  strict : Bool := false
  defaultValues : Option DefaultPolicy := none
  config : Option String := none
  logLevel : Option String := none
  /-- An option whose value is not settled, with the value if it has come. -/
  pending : Option (Valued × Option String) := none
deriving DecidableEq, Repr

namespace Progress

/-- Gives an option its value. All but the exclusions may be given once. -/
def assign (p : Progress) (o : Valued) (value : String) : Except UsageError Progress :=
  match o with
  | .exclude => .ok { p with exclude := p.exclude ++ [value] }
  | .output => if p.output.isSome then .error .repeated else .ok { p with output := some value }
  | .config => if p.config.isSome then .error .repeated else .ok { p with config := some value }
  | .logLevel =>
    if p.logLevel.isSome then .error .repeated else .ok { p with logLevel := some value }
  | .format =>
    if p.format.isSome then .error .repeated
    else match OutputFormat.ofWord? value with
      | some format => .ok { p with format := some format }
      | none => .error .invalidValue
  | .defaultValues =>
    if p.defaultValues.isSome then .error .repeated
    else match DefaultPolicy.ofWord? value with
      | some policy => .ok { p with defaultValues := some policy }
      | none => .error .rejectedValue

/-- Settles the pending option. One without a value is an error. -/
def settle (p : Progress) : Except UsageError Progress :=
  match p.pending with
  | none => .ok p
  | some (_, none) => .error .invalidValue
  | some (o, some value) => { p with pending := none }.assign o value

/-- Turns a switch on. -/
def turnOn (p : Progress) : Switch → Except UsageError Progress
  | .noMerge => if p.noMerge then .error .repeated else .ok { p with noMerge := true }
  | .strict => if p.strict then .error .repeated else .ok { p with strict := true }
  | .help => .error .displayHelp
  | .version => .error .displayVersion

/-- An option or switch, with the value in the same argument if there is one. -/
def named (p : Progress) (n : Named) (value : Option String) : Except UsageError Progress :=
  match n, value with
  | .option o, some value => do (← p.settle).assign o value
  | .option o, none => do pure { ← p.settle with pending := some (o, none) }
  | .switch _, some _ => .error .unneededValue
  | .switch s, none => do (← p.settle).turnOn s

/-- An argument `--name` or `--name=value`. -/
def long (p : Progress) (body : List Char) : Except UsageError Progress :=
  let name := body.takeWhile (· ≠ '=')
  let value := match body.drop name.length with
    | _ :: value => some (String.ofList value)
    | [] => none
  match ofLong? (String.ofList name) with
  | some n => p.named n value
  | none => .error .unknownArgument

/-- An argument `-x…`. What follows the name of an option is its value, behind an equals sign or not.
No switch has a short name that anything could follow. -/
def short (p : Progress) (c : Char) (rest : List Char) : Except UsageError Progress :=
  match ofShort? c with
  | none => .error .unknownArgument
  | some (.switch s) => p.named (.switch s) none
  | some (.option o) =>
    match rest with
    | [] => p.named (.option o) none
    | '=' :: value => p.named (.option o) (some (String.ofList value))
    | value => p.named (.option o) (some (String.ofList value))

/-- An input. -/
def input (p : Progress) (arg : String) : Except UsageError Progress := do
  let p ← p.settle
  pure { p with inputs := p.inputs ++ [arg] }

/-- An argument that is no option: the value that an option waits for, or an input. -/
def plain (p : Progress) (arg : String) : Except UsageError Progress :=
  match p.pending with
  | some (o, none) => .ok { p with pending := some (o, some arg) }
  | _ => p.input arg

/-- One argument before any `--`. -/
def argument (p : Progress) (arg : String) : Except UsageError Progress :=
  match arg.toList with
  | '-' :: '-' :: body => p.long body
  | '-' :: c :: rest => p.short c rest
  | _ => p.plain arg

/-- The command line that was read, with the standard values where nothing was said. -/
def toArgs (p : Progress) : Args :=
  { inputs := p.inputs
    exclude := p.exclude
    output := p.output
    format := p.format.getD .json
    noMerge := p.noMerge
    strict := p.strict
    defaultValues := p.defaultValues
    config := p.config
    logLevel := p.logLevel.getD "info" }

/-- Ends the reading. There must be an input. -/
def finish (p : Progress) : Except UsageError Args := do
  let p ← p.settle
  if p.inputs.isEmpty then .error .missingInput else .ok p.toArgs

/-- Reads the arguments that are left. Behind `--` everything is an input. -/
def run (p : Progress) : List String → Except UsageError Args
  | [] => p.finish
  | "--" :: inputs => do (← inputs.foldlM input p).finish
  | arg :: rest => do (← p.argument arg).run rest

end Progress

/-- Reads a command line, the name of the program left out. -/
def parse (argv : List String) : Except UsageError Args := Progress.run {} argv

end Args

end ClassChart
