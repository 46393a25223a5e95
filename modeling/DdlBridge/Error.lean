import DdlBridge.Duration

/-!
# Errors

What can go wrong, how it is worded, and whether trying again can help.
-/

namespace DdlBridge

/-- Why a read from a source failed. -/
inductive IoKind where
  | interrupted
  | wouldBlock
  | timedOut
  | permissionDenied
  | notFound
  | unexpectedEof
  | brokenPipe
  | connectionReset
  | other
  deriving DecidableEq, Repr

/-- Replaying the same read may succeed. -/
def IoKind.isTemporary : IoKind → Bool
  | interrupted | wouldBlock | timedOut => true
  | _ => false

inductive Error where
  /-- The input can never be parsed. -/
  | invalidInput (text : String)
  /-- A statement the grammar rejects, at a byte offset of the script. -/
  | malformed (offset : Nat) (text : String)
  | temporary (text : String)
  /-- The deadline of a call passed. -/
  | timeout (nanos : Nat)
  /-- A temporary failure outlasted the retries. -/
  | retriesExhausted (batch attempts : Nat) (source : Error)
  /-- Parsing a batch broke down. -/
  | crashed (batch : Nat) (text : String)
  /-- Any other failure, with the batch it happened in. -/
  | inBatch (batch : Nat) (source : Error)
  /-- The schema cannot be written in the target dialect. -/
  | generate (text : String)
  | unknownDialect (name : String)
  | config (text : String)
  | internal (text : String)
  | io (kind : IoKind) (text : String)
  deriving DecidableEq, Repr

/-- How the pipeline treats an error. -/
inductive ErrorClass where
  | permanent
  | temporary
  | timeout
  | invalidInput
  deriving DecidableEq, Repr

namespace Error

def message : Error → String
  | invalidInput text => "Invalid input: " ++ text
  | malformed offset text => s!"Syntax error at offset {offset}: " ++ text
  | temporary text => "Temporary failure: " ++ text
  | timeout nanos => "parsing timeout after " ++ Duration.text nanos
  | retriesExhausted batch attempts source =>
    s!"Batch {batch} failed after {attempts} attempts: " ++ source.message
  | crashed batch text => s!"Worker panicked while parsing batch {batch}: " ++ text
  | inBatch batch source => s!"Batch {batch}: " ++ source.message
  | generate text => "Generation error: " ++ text
  | unknownDialect name =>
    "Unknown dialect: '" ++ name ++ "'. Expected: oracle, mysql, postgres, sqlserver or sqlite"
  | config text => "Configuration error: " ++ text
  | internal text => "Internal error: " ++ text
  | io _ text => "IO error: " ++ text

/-- The message of an error and of the causes below it, nearest first. -/
def chain : Error → List String
  | retriesExhausted batch attempts source =>
    (retriesExhausted batch attempts source).message :: source.chain
  | inBatch batch source => (inBatch batch source).message :: source.chain
  | io kind text => [(io kind text).message, text]
  | e => [e.message]

def classify : Error → ErrorClass
  | invalidInput _ | unknownDialect _ => .invalidInput
  | temporary _ => .temporary
  | timeout _ => .timeout
  | inBatch _ source => source.classify
  | io kind _ => if kind.isTemporary then .temporary else .permanent
  | _ => .permanent

def isTemporary (e : Error) : Bool := e.classify == .temporary

def isTimeout (e : Error) : Bool := e.classify == .timeout

/-- Attaches a batch index, unless the error carries one already. -/
def tagged (index : Nat) : Error → Error
  | inBatch batch source => inBatch batch source
  | retriesExhausted batch attempts source => retriesExhausted batch attempts source
  | crashed batch text => crashed batch text
  | e => inBatch index e

/-- Moves the offset of a rejected statement by `base` bytes. -/
def relocate (base : Nat) : Error → Error
  | malformed offset text => malformed (offset + base) text
  | e => e

@[simp] theorem classify_tagged (index : Nat) (e : Error) :
    (e.tagged index).classify = e.classify := by
  cases e <;> rfl

@[simp] theorem tagged_tagged (i j : Nat) (e : Error) :
    (e.tagged i).tagged j = e.tagged i := by
  cases e <;> rfl

@[simp] theorem classify_relocate (base : Nat) (e : Error) :
    (e.relocate base).classify = e.classify := by
  cases e <;> rfl

end Error

end DdlBridge
