import ArchivalQuery.CommandLine.Arguments
import ArchivalQuery.CommandLine.Report
import ArchivalQuery.Settings.Form

/-! # Runs of the program

A run reads settings and a text from its surroundings and says what to print.  The surroundings are
those of any monad, so that one definition serves real files and given ones.
-/
namespace ArchivalQuery.CommandLine

inductive ReadError
  | missing
  | other (reason : String)
deriving DecidableEq, Repr

def ReadError.message : ReadError → String
  | missing => "No such file or directory (os error 2)"
  | other reason => reason

/-- What a run can read. -/
structure Surroundings (m : Type → Type) where
  environment : Environment
  file : String → m (Except ReadError String)
  standardInput : m (Except ReadError String)

/-- What a run prints and the code it ends with. -/
structure Output where
  code : UInt8 := 0
  out : String := ""
  err : String := ""
deriving DecidableEq, Repr

namespace Output

def line (text : String) : Output := { out := text ++ "\n" }

/-- A failed run, with the lines before its report. -/
def failed (r : Report) (before : String) : Output := { code := 1, err := before ++ r.lines }

end Output

/-- The configuration file of a user: under the configuration directory if that is an absolute path,
otherwise under the home directory. -/
def defaultConfig? (env : Environment) : Option String :=
  let directory := match env "XDG_CONFIG_HOME" with
    | some d => if d.toList.head? = some '/' then some d else none
    | none => none
  let home := match env "HOME" with
    | some h => if h.isEmpty then none else some (h ++ "/.config")
    | none => none
  (directory.or home).map (· ++ "/archivum/config.toml")

/-- The configuration file of a run: the one named, or that of the user if it is there. -/
def configFile {m : Type → Type} [Monad m] (s : Surroundings m) (config : Option String) :
    m (Option Settings.File) := do
  match config, defaultConfig? s.environment with
  | some path, _ => return some ⟨path, (← s.file path).mapError ReadError.message⟩
  | none, some path =>
    match ← s.file path with
    | .error .missing => return none
    | r => return some ⟨path, r.mapError ReadError.message⟩
  | none, none => return none

/-- The settings of a run.  They are valid before the size from the arguments replaces theirs, and
after it. -/
def settings (i : Invocation) (env : Environment) (file : Option Settings.File) :
    Except Report Settings := do
  let loaded ← (Settings.load file env).mapError Report.ofLoad
  let s := match i.maxRequestSize with
    | some n => { loaded with limits := loaded.limits.set .requestSize n }
    | none => loaded
  s.check.mapError fun e => ⟨e.message, none⟩
  return s

/-- The source of a request; a single dash is standard input. -/
def Command.input? : Command → Option String
  | check input _ _ | parse input _ | compile input _ _ _ => some input
  | config _ => none

def readRequest {m : Type → Type} [Monad m] (s : Surroundings m) (input : String) :
    m (Except Report String) := do
  if input = "-" then
    return (← s.standardInput).mapError fun e =>
      ⟨"Failed to read request from stdin", some e.message⟩
  else
    return (← s.file input).mapError fun e =>
      ⟨"Failed to read request file: " ++ input, some e.message⟩

def checkRequest (s : Settings) (kind : RequestKind) (c : Collection) (text : String) : Output :=
  let outcome : Checked (Request × Plan) := do
    let r ← Request.ofText kind s.limits text
    return (r, ← r.compile s.ancestry c)
  match outcome with
  | .ok (r, p) =>
    .line ("Valid: " ++ kind.token ++ " request on " ++ c.token ++ ": " ++ r.roots.length.repr ++
      " root(s), " ++ p.steps.length.repr ++ " step(s), limit " ++ p.limit.toNat.repr)
  | .error e =>
    .failed ⟨"Request rejected", some e.message⟩
      ("Invalid: " ++ e.message ++ " (" ++ e.category.label ++ ")\n")

def parseRequest (s : Settings) (kind : RequestKind) (text : String) : Output :=
  match Stage.read.note (Request.ofText kind s.limits text) with
  | .ok r => .line r.toJson.lines
  | .error e => .failed (.ofStage e) ""

def compileRequest (s : Settings) (kind : RequestKind) (c : Collection) (id : Option String)
    (text : String) : Output :=
  match Plan.ofText s kind c id text with
  | .ok p => .line p.overview.lines
  | .error e => .failed (.ofStage e) ""

def showSettings (s : Settings) : SettingsStyle → Output
  | .toml => .line s.toToml
  | .json => .line s.toJson.lines

def Command.output (s : Settings) (text : String) : Command → Output
  | check _ kind c => checkRequest s kind c text
  | parse _ kind => parseRequest s kind text
  | compile _ kind c id => compileRequest s kind c id text
  | config style => showSettings s style

def usage : String :=
  "\n".intercalate [
    "arq - check, parse and compile archival metadata requests",
    "",
    "Usage: arq [OPTIONS] COMMAND",
    "",
    "Commands:",
    "  check INPUT     Check, parse and compile a request",
    "  parse INPUT     Print the tree of a request as JSON",
    "  compile INPUT   Print the plan of a request as JSON",
    "  config          Show the settings in effect",
    "",
    "Options:",
    "  -k, --kind KIND               select, insert or update",
    "  -c, --collection COLLECTION   units or objectgroups",
    "      --id ID                   Replace the roots of the request to compile",
    "  -f, --format FORMAT           toml or json",
    "  -l, --log-level LEVEL         off, error, warn, info, debug or trace",
    "  -v, --verbose                 The same as the log level debug",
    "  -C, --config FILE             Configuration file",
    "      --max-request-size SIZE   Greatest size of a request in bytes",
    "  -h, --help                    Print this text",
    "  -V, --version                 Print the version",
    "",
    "INPUT is a file, or - for standard input.",
    ""]

def Stop.output : Stop → Output
  | .help => { out := CommandLine.usage }
  | .version => .line "arq 0.1.0"
  | .usage => { code := 2, err := CommandLine.usage }

def Invocation.run {m : Type → Type} [Monad m] (s : Surroundings m) (i : Invocation) :
    m Output := do
  match settings i s.environment (← configFile s i.config) with
  | .error r => return .failed r ""
  | .ok loaded =>
    match i.command.input? with
    | none => return i.command.output loaded ""
    | some input =>
      match ← readRequest s input with
      | .error r => return .failed r ""
      | .ok text => return i.command.output loaded text

def run {m : Type → Type} [Monad m] (s : Surroundings m) (args : List String) : m Output :=
  match readArguments args with
  | .error stop => return stop.output
  | .ok i => i.run s

end ArchivalQuery.CommandLine
