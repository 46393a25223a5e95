import DdlBridge.Dialect

/-!
# Command line arguments

Arguments are read from left to right, and the first one that is wrong or asks for help decides.
A value that is an argument of its own is looked at once its option is known to be complete, which
is when the next option comes or the arguments end. The name of a command comes in between: what
stands behind it is read before a value that waits in front of it.
-/

namespace DdlBridge.Command

/-- Why arguments are no command. -/
inductive Stop where
  | usage
  | help (topic : String)
  | version
  deriving DecidableEq, Repr

/-- An option: a flag, or one whose values satisfy a test. -/
structure OptionSpec where
  long : String
  short : Option Char := none
  value : Option (String → Bool) := none
  repeatable : Bool := false

/-- Arguments read so far. -/
structure Reading where
  /-- The options met with their values, in order. -/
  options : List (String × String) := []
  /-- The other arguments. -/
  plain : List String := []
  /-- The last option, if its value was an argument of its own and has not been looked at. -/
  pending : Option (OptionSpec × String) := none

def Reading.get? (r : Reading) (name : String) : Option String :=
  (r.options.find? (·.1 == name)).map (·.2)

def Reading.has (r : Reading) (name : String) : Bool := (r.get? name).isSome

/-- Notes an option, which has to be new and its value acceptable. -/
def Reading.note (r : Reading) (spec : OptionSpec) (value : String) : Except Stop Reading :=
  if spec.value.any fun ok => !ok value then .error .usage
  else if !spec.repeatable ∧ r.has spec.long then .error .usage
  else .ok { r with options := r.options ++ [(spec.long, value)] }

/-- Notes the pending option, after which none is pending. -/
def Reading.settle (r : Reading) : Except Stop Reading :=
  match r.pending with
  | none => .ok r
  | some (spec, value) => { r with pending := none }.note spec value

/-- Adds an option that is complete in itself. -/
def Reading.add (topic : String) (r : Reading) (spec : OptionSpec) (value : String) :
    Except Stop Reading := do
  let r ← r.settle
  if spec.long = "help" then .error (.help topic)
  else if spec.long = "version" then .error .version
  else r.note spec value

/-- Adds an option whose value is an argument of its own. -/
def Reading.addPending (r : Reading) (spec : OptionSpec) (value : String) :
    Except Stop Reading := do
  return { ← r.settle with pending := some (spec, value) }

/-- Whether an argument is an option rather than a value. A single dash is a value. -/
def looksLikeOption (arg : String) : Bool := arg.toList.head? == some '-' && arg != "-"

/-- What a group of short options asks for next. -/
inductive Group where
  /-- Nothing: the group is complete. -/
  | done (r : Reading)
  /-- The value of its last option. -/
  | needsValue (r : Reading) (spec : OptionSpec)

/-- Short options behind one dash. The value of an option may follow it directly. -/
def shortGroup (topic : String) (specs : List OptionSpec) (r : Reading) :
    List Char → Except Stop Group
  | [] => .ok (.done r)
  | c :: cs =>
    match specs.find? (·.short == some c) with
    | none => .error .usage
    | some spec =>
      match spec.value, cs with
      | none, _ => do shortGroup topic specs (← r.add topic spec "") cs
      | some _, [] => .ok (.needsValue r spec)
      | some _, '=' :: value => .done <$> r.add topic spec (String.ofList value)
      | some _, value => .done <$> r.add topic spec (String.ofList value)

/-- What is known about the arguments of a command. -/
structure Shape where
  topic : String
  specs : List OptionSpec
  /-- How many arguments without a dash there may be. -/
  maxPlain : Nat

/-- Adds an argument that is no option. -/
def Reading.addPlain (shape : Shape) (r : Reading) (arg : String) : Except Stop Reading := do
  let r ← r.settle
  if r.plain.length < shape.maxPlain ∧ arg ≠ "" then .ok { r with plain := r.plain ++ [arg] }
  else .error .usage

/-- Reads arguments; with `upToPlain` only up to the first that is no option, in front of which an
option may still be pending. -/
def read (shape : Shape) (upToPlain : Bool) (r : Reading) :
    List String → Except Stop (Reading × List String)
  | [] => return (← r.settle, [])
  | "--" :: args => return (← (← args.foldlM (Reading.addPlain shape) r).settle, [])
  | arg :: args => do
    match arg.toList with
    | '-' :: '-' :: body =>
      let name := String.ofList (body.takeWhile (· != '='))
      let attached := body.dropWhile (· != '=')
      match shape.specs.find? (·.long == name) with
      | none => .error .usage
      | some spec =>
        match spec.value, attached with
        | none, [] => read shape upToPlain (← r.add shape.topic spec "") args
        | none, _ :: _ => .error .usage
        | some _, _ :: value =>
          read shape upToPlain (← r.add shape.topic spec (String.ofList value)) args
        | some _, [] =>
          match args with
          | [] => .error .usage
          | value :: rest =>
            if looksLikeOption value then .error .usage
            else read shape upToPlain (← r.addPending spec value) rest
    | '-' :: c :: cs =>
      match ← shortGroup shape.topic shape.specs r (c :: cs) with
      | .done r => read shape upToPlain r args
      | .needsValue r spec =>
        match args with
        | [] => .error .usage
        | value :: rest =>
          if looksLikeOption value then .error .usage
          else read shape upToPlain (← r.addPending spec value) rest
    | _ =>
      if upToPlain then return (r, arg :: args)
      else read shape upToPlain (← r.addPlain shape arg) args

def isPath (s : String) : Bool := !s.isEmpty

def isDialect (s : String) : Bool := (Dialect.ofName? s).isSome

/-- A number of 64 bits, with an optional plus sign. -/
def number? (s : String) : Option Nat :=
  let cs := s.toList
  let digits := if cs.head? = some '+' then cs.tail else cs
  (Text.natural? digits).bind fun n => if n < UInt64.size then some n else none

def isNumber (s : String) : Bool := (number? s).isSome

/-- Options that every command takes. -/
def commonSpecs : List OptionSpec :=
  [{ long := "config", value := some isPath },
   { long := "verbose", short := some 'v', repeatable := true },
   { long := "help", short := some 'h' }]

def streamSpecs : List OptionSpec :=
  [{ long := "workers", value := some isNumber },
   { long := "batch-size", value := some isNumber },
   { long := "timeout-ms", value := some isNumber }]

def topShape : Shape :=
  ⟨"", commonSpecs ++ [{ long := "version", short := some 'V' }], 0⟩

def convertShape : Shape :=
  ⟨"convert", commonSpecs ++ streamSpecs ++
    [{ long := "from", value := some isDialect }, { long := "to", value := some isDialect },
     { long := "output", short := some 'o', value := some isPath }], 1⟩

def parseShape : Shape :=
  ⟨"parse", commonSpecs ++ streamSpecs ++
    [{ long := "dialect", short := some 'd', value := some isDialect }, { long := "json" }], 1⟩

def typesShape : Shape :=
  ⟨"types", commonSpecs ++
    [{ long := "from", value := some isDialect }, { long := "to", value := some isDialect }], 0⟩

/-- How a stream is to be parsed, where the command line says so. -/
structure StreamOptions where
  /-- The input file; standard input if it is missing or a single dash. -/
  input : Option String := none
  workers : Option Nat := none
  batchSize : Option Nat := none
  timeoutMs : Option Nat := none

inductive Action where
  | convert (source target : Option Dialect) (output : Option String) (stream : StreamOptions)
  | parse (dialect : Dialect) (json : Bool) (stream : StreamOptions)
  | types (source target : Dialect)

structure Invocation where
  config : Option String
  action : Action

def Reading.dialect? (r : Reading) (name : String) : Option Dialect :=
  (r.get? name).bind Dialect.ofName?

def Reading.stream (r : Reading) : StreamOptions :=
  { input := r.plain.head?
    workers := (r.get? "workers").bind number?
    batchSize := (r.get? "batch-size").bind number?
    timeoutMs := (r.get? "timeout-ms").bind number? }

/-- A value that must have been given. -/
def need {α : Type} : Option α → Except Stop α
  | some a => .ok a
  | none => .error .usage

def Reading.toAction (r : Reading) (command : String) : Except Stop Action :=
  match command with
  | "convert" => .ok (.convert (r.dialect? "from") (r.dialect? "to") (r.get? "output") r.stream)
  | "parse" => return .parse (← need (r.dialect? "dialect")) (r.has "json") r.stream
  | "types" => return .types (← need (r.dialect? "from")) (← need (r.dialect? "to"))
  | _ => .error .usage

def shape? : String → Option Shape
  | "convert" => some convertShape
  | "parse" => some parseShape
  | "types" => some typesShape
  | _ => none

/-- The command line as an invocation. A configuration file named behind the command wins over one
named before it, and either over the environment's. An empty name in the environment is wrong
wherever it is looked at, which is before and behind the command if no file is named there. -/
def Invocation.ofArguments (environment : Option String) (args : List String) :
    Except Stop Invocation := do
  let (top, rest) ← read topShape true {} args
  match rest with
  | [] => .error .usage
  | ["help"] => .error (.help "")
  | ["help", topic] =>
    if topic = "help" ∨ (shape? topic).isSome then .error (.help topic) else .error .usage
  | command :: args =>
    let shape ← need (shape? command)
    let (r, _) ← read shape false {} args
    let top ← top.settle
    if environment = some "" ∧ !(top.has "config" && r.has "config") then .error .usage
    let config := ((r.get? "config").or (top.get? "config")).or environment
    return { config, action := ← r.toAction command }

end DdlBridge.Command
