import FencedCode.LogFilter
import FencedCode.Pager

namespace FencedCode

structure Options where
  theme : Option String := none
  config : Option String := none
  logFile : Option String := none
  file : Option String := none
  deriving DecidableEq, Repr

inductive Action where
  | help
  | version
  | listThemes
  | listLanguages
  | page (options : Options)
  deriving DecidableEq, Repr

inductive UsageError where
  | missingValue (option : String)
  | unknownOption (option : String)
  | unexpectedArgument (argument : String)
  | noInputFile
  deriving DecidableEq, Repr

namespace UsageError

def message : UsageError → String
  | missingValue option => "option '" ++ option ++ "' requires a value"
  | unknownOption option => "unknown option '" ++ option ++ "'"
  | unexpectedArgument argument => "unexpected argument '" ++ argument ++ "'"
  | noInputFile => "no input file"

end UsageError

namespace CommandLine

inductive Argument where
  | inform (action : Action)
  /-- An option that takes the next argument as its value. -/
  | set (store : Options → String → Options)
  | unknown
  | file

def classify (arg : String) : Argument :=
  match arg with
  | "-h" | "--help" => .inform .help
  | "-V" | "--version" => .inform .version
  | "--list-themes" => .inform .listThemes
  | "--list-languages" => .inform .listLanguages
  | "-t" | "--theme" => .set fun o v => { o with theme := some v }
  | "-c" | "--config" => .set fun o v => { o with config := some v }
  | "--log-file" => .set fun o v => { o with logFile := some v }
  | arg =>
    match arg.toList with
    | '-' :: _ :: _ => .unknown
    | _ => .file

def parseFrom (o : Options) : List String → Except UsageError Action
  | [] => if o.file.isNone then .error .noInputFile else .ok (.page o)
  | arg :: rest =>
    match classify arg with
    | .inform action => .ok action
    | .set store =>
      match rest with
      | [] => .error (.missingValue arg)
      | value :: rest => parseFrom (store o value) rest
    | .unknown => .error (.unknownOption arg)
    | .file =>
      if o.file.isSome then .error (.unexpectedArgument arg)
      else parseFrom { o with file := some arg } rest

def parse (args : List String) : Except UsageError Action := parseFrom {} args

def version : String := "0.1.0"

def usage : List String := [
  "fencelight " ++ version ++ " - page Markdown with highlighted code blocks",
  "",
  "Usage: fencelight [OPTIONS] FILE",
  "",
  "Options:",
  "  -t, --theme NAME     Color theme (see --list-themes)",
  "  -c, --config PATH    Configuration file (default ~/.fencelight.toml)",
  "      --log-file PATH  Write logs to PATH (filter with FENCELIGHT_LOG)",
  "      --list-themes    List bundled themes",
  "      --list-languages List bundled languages and their aliases",
  "  -h, --help           Show this help message",
  "  -V, --version        Show version information",
  "",
  "Keys:",
  "  j, Down, Enter       Scroll down one line",
  "  k, Up                Scroll up one line",
  "  Space, PageDown      Scroll down one page",
  "  b, PageUp            Scroll up one page",
  "  g, Home              Go to the top",
  "  G, End               Go to the bottom",
  "  t                    Switch to the next theme",
  "  q, Esc               Quit"]

def padded (width : Nat) (s : String) : String :=
  s ++ String.ofList (List.replicate (width - s.length) ' ')

end CommandLine

def Action.lines : Action → List String
  | .help => CommandLine.usage
  | .version => ["fencelight " ++ CommandLine.version]
  | .listThemes => Theme.bundled.map (·.id)
  | .listLanguages =>
    Catalog.languages.map fun l => CommandLine.padded 12 l.1 ++ " " ++ String.intercalate ", " l.2
  | .page _ => []

namespace CommandLine

structure Surroundings where
  /-- Value of an environment variable. -/
  env : String → Option String
  /-- The time, as log lines tell it. -/
  time : String
  /-- The size of the terminal. -/
  size : Size

def homeConfig (env : String → Option String) : Option String :=
  (env "HOME").map fun home =>
    if home = "" then Config.fileName else home ++ "/" ++ Config.fileName

def logStarted : LogEvent :=
  ⟨"fencelight::logging".toList, ["message".toList, "version".toList], .info⟩

def logStart (time : String) : String :=
  time ++ "  INFO main fencelight::logging: logging started version=\"" ++ version ++ "\"\n"

def logged (s : Surroundings) : String :=
  let filter := LogFilter.choose [s.env "FENCELIGHT_LOG", s.env "RUST_LOG"]
  if filter.enabled logStarted then logStart s.time else ""

/-- The configuration in a file, where there is one to look at, with the theme that an option
gives. -/
def configOf (file : Option FileState) (o : Options) : Except Error Config := do
  let c ← match file with
    | some f => Config.load f
    | none => .ok {}
  return match o.theme with
    | some theme => { c with theme }
    | none => c

structure Ending where
  exit : Nat
  stdout : String := ""
  stderr : String := ""
  deriving DecidableEq, Repr

inductive Outcome where
  | ended (how : Ending)
  | paging (pager : Pager)

namespace Outcome

def informed (action : Action) : Outcome :=
  .ended { exit := 0, stdout := String.join (action.lines.map (· ++ "\n")) }

def failed (e : Error) : Outcome := .ended { exit := 1, stderr := "Error: " ++ e.message ++ "\n" }

def misused (e : UsageError) : Outcome :=
  .ended {
    exit := 2
    stderr := "fencelight: " ++ e.message ++ "\nTry 'fencelight --help' for more information.\n" }

end Outcome

variable {m : Type → Type} [Monad m]

def openWith (files : FileAccess m) (s : Surroundings) (o : Options) : m Outcome := do
  let file ← match o.config <|> homeConfig s.env with
    | some path => some <$> files.look path
    | none => pure none
  match configOf file o with
  | .error e => return .failed e
  | .ok config =>
    let path := o.file.getD ""
    match Pager.ofFile (← files.look path) path config s.size with
    | .ok pager => return .paging pager
    | .error e => return .failed e

/-- Runs a command. A log is started before anything is read. -/
def run (files : FileAccess m) (s : Surroundings) (args : List String) : m Outcome := do
  match parse args with
  | .error e => return .misused e
  | .ok (.page o) =>
    match o.logFile with
    | none => openWith files s o
    | some path =>
      match ← files.append path (logged s).toUTF8 with
      | .ok _ => openWith files s o
      | .error cause => return .failed (.file cause)
  | .ok action => return .informed action

end CommandLine

end FencedCode
