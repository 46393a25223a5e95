import DdlBridge.Command.Arguments
import DdlBridge.Command.Help
import DdlBridge.Command.Report
import DdlBridge.Conversion
import DdlBridge.Schema.Json

/-!
# Running a command

A command reads its configuration, then its input, and writes text to a file or to standard output.
What it needs from the machine it asks of a host, so that it runs in any monad.
-/

namespace DdlBridge.Command

/-- Why a file cannot be used. -/
inductive FileFault where
  | notFound
  | notDirectory
  | isDirectory
  | notText
  | other (text : String)
  deriving DecidableEq, Repr

def FileFault.text : FileFault → String
  | notFound => "No such file or directory (os error 2)"
  | notDirectory => "Not a directory (os error 20)"
  | isDirectory => "Is a directory (os error 21)"
  | notText => "stream did not contain valid UTF-8"
  | other text => text

/-- What a machine offers to a command. -/
structure Host (m : Type → Type) where
  contents : String → m (Except FileFault (List UInt8))
  store : String → String → m (Except FileFault Unit)
  readInput : m (List UInt8)
  present : String → m Bool
  /-- The configuration file that is read if it exists and no other is named. -/
  defaultConfig : Option String
  parallelism : Nat

/-- What a command leaves behind. -/
structure Outcome where
  code : Nat := 0
  output : String := ""
  errors : String := ""
  deriving DecidableEq, Repr

/-- A failure: the message, and those of its causes. -/
def Outcome.failed (messages : List String) : Outcome :=
  { code := 1, errors := "Error: " ++ Text.joinWith ": " messages ++ "\n" }

def Outcome.printed (text : String) : Outcome := { output := text }

/-- A configuration from the bytes of the file at `path`. -/
def configOfBytes (path : String) (bytes : Except FileFault (List UInt8)) : Except Error Config :=
  let text : Except FileFault String :=
    match bytes with
    | .ok bytes =>
      match Text.Utf8.decode bytes with
      | .ok cs => .ok (String.ofList cs)
      | .error _ => .error FileFault.notText
    | .error fault => .error fault
  match text with
  | .error fault => .error (.config (path ++ ": " ++ fault.text))
  | .ok text =>
    match Config.ofText? text with
    | some config => .ok config
    | none => .error (.config "TOML")

def StreamOptions.applyTo (o : StreamOptions) (c : StreamConfig) : StreamConfig :=
  { c with
    workers := o.workers.getD c.workers
    batchSize := o.batchSize.getD c.batchSize
    timeoutMs := o.timeoutMs.getD c.timeoutMs }

/-- The reads of a file's contents. A directory can be opened but not read. -/
def readsOf : Except FileFault (List UInt8) → Except FileFault (List Read)
  | .ok bytes => .ok [.data bytes]
  | .error .isDirectory => .ok [.failure .other FileFault.isDirectory.text]
  | .error fault => .error fault

section

variable {m : Type → Type} [Monad m]

def loadConfig (host : Host m) (named : Option String) : m (Except Error Config) := do
  match named with
  | some path => return configOfBytes path (← host.contents path)
  | none =>
    match host.defaultConfig with
    | some path =>
      if ← host.present path then return configOfBytes path (← host.contents path)
      else return .ok {}
    | none => return .ok {}

/-- The input of a command; the path is that of a file that cannot be opened. -/
def openInput (host : Host m) (o : StreamOptions) :
    m (Except (String × FileFault) (List Read)) := do
  match o.input with
  | some path =>
    if path = "-" then return .ok [.data (← host.readInput)]
    else match readsOf (← host.contents path) with
      | .ok reads => return .ok reads
      | .error fault => return .error (path, fault)
  | none => return .ok [.data (← host.readInput)]

def openFailure (path : String) (fault : FileFault) : Outcome :=
  .failed ["Failed to open " ++ path, fault.text]

def runConvert (host : Host m) (config : StreamConfig) (source target : Dialect)
    (output : Option String) (o : StreamOptions) : m Outcome := do
  match ← openInput host o with
  | .error (path, fault) => return openFailure path fault
  | .ok reads =>
    match convert (o.applyTo config) host.parallelism source target (some reads) with
    | .error e => return .failed e.chain
    | .ok ddl =>
      match output with
      | none => return .printed ddl
      | some path =>
        match ← host.store path ddl with
        | .ok () =>
          let pair := source.title ++ " → " ++ target.title
          return { errors := "✓ " ++ pair ++ " written to " ++ path ++ "\n" }
        | .error fault => return .failed ["Failed to write " ++ path, fault.text]

def runParse (host : Host m) (config : StreamConfig) (dialect : Dialect) (json : Bool)
    (o : StreamOptions) : m Outcome := do
  match ← openInput host o with
  | .error (path, fault) => return openFailure path fault
  | .ok reads =>
    match parseStream (o.applyTo config) host.parallelism dialect (some reads) with
    | .error e => return .failed e.chain
    | .ok schema =>
      return .printed (if json then schema.toJsonText ++ "\n" else summary dialect schema)

def runAction (host : Host m) (config : Config) : Action → m Outcome
  | .convert source target output stream =>
    match source.or config.source, target.or config.target with
    | some source, some target => runConvert host config.stream source target output stream
    | _, _ =>
      return .failed ["both --from and --to are required (or set [convert] in the config file)"]
  | .parse dialect json stream => runParse host config.stream dialect json stream
  | .types source target => return .printed (typeReport source target)

/-- Runs the program with its arguments and the configuration file that the environment names. -/
def run (host : Host m) (environment : Option String) (args : List String) : m Outcome := do
  match Invocation.ofArguments environment args with
  | .error .usage =>
    return {
      code := 2
      errors := "error: invalid arguments\n\nFor more information, try '--help'.\n" }
  | .error (.help topic) => return .printed (helpText environment topic)
  | .error .version => return .printed versionText
  | .ok invocation =>
    match ← loadConfig host invocation.config with
    | .error e => return .failed e.chain
    | .ok config => runAction host config invocation.action

end

end DdlBridge.Command
