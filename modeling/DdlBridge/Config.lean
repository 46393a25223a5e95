import DdlBridge.Decimal.Shortest
import DdlBridge.Dialect
import DdlBridge.Retry.Decode
import DdlBridge.Toml.Reader

/-!
# Configuration

What the command line and the stream parser can be told by a file. A number that is zero asks for a
default.
-/

namespace DdlBridge

structure StreamConfig where
  workers : Nat := 0
  /-- The least size of a batch in bytes. -/
  batchSize : Nat := 0
  bufferSize : Nat := 0
  /-- The deadline of a call in milliseconds; there is none if it is 0. -/
  timeoutMs : Nat := 0
  maxRetries : Nat := 0
  backoff : Backoff := .immediate

structure Config where
  stream : StreamConfig := {}
  /-- The dialects that a conversion starts from and ends with. -/
  source : Option Dialect := none
  target : Option Dialect := none

namespace StreamConfig

def defaultBatchSize : Nat := 16 * 1024

def defaultBufferSize : Nat := 64 * 1024

/-- Zeros replaced by defaults. A buffer is never smaller than a batch. -/
def normalized (parallelism : Nat) (c : StreamConfig) : StreamConfig :=
  let batchSize := if c.batchSize = 0 then defaultBatchSize else c.batchSize
  let bufferSize := if c.bufferSize = 0 then defaultBufferSize else c.bufferSize
  { c with
    workers := if c.workers = 0 then parallelism else c.workers
    batchSize
    bufferSize := max bufferSize batchSize }

def timeout? (c : StreamConfig) : Option Nat := if c.timeoutMs = 0 then none else some c.timeoutMs

def retryPolicy (c : StreamConfig) : RetryPolicy := ⟨c.maxRetries, c.backoff⟩

def backoffText : Backoff → String
  | .immediate => "None"
  | .fixed delay => "Fixed \x7b delay_ms: " ++ toString delay ++ " \x7d"
  | .exponential initial limit multiplier =>
    "Exponential \x7b initial_ms: " ++ toString initial ++ ", max_ms: " ++ toString limit ++
      ", multiplier: " ++ Decimal.floatText multiplier ++ " \x7d"

/-- All settings in one line. -/
def describe (c : StreamConfig) : String :=
  "StreamParserConfig \x7b workers: " ++ toString c.workers ++
    ", batch_size: " ++ toString c.batchSize ++ ", buffer_size: " ++ toString c.bufferSize ++
    ", timeout_ms: " ++ toString c.timeoutMs ++
    ", max_retries: " ++ toString c.maxRetries ++ ", backoff: " ++ backoffText c.backoff ++
    ", error_observer: None \x7d"

def ofToml? (v : Toml) : Option StreamConfig := do
  let names := ["workers", "batch_size", "buffer_size", "timeout_ms", "max_retries", "backoff"]
  match ← v.fields? names with
  | [workers, batchSize, bufferSize, timeoutMs, maxRetries, backoff] =>
    return {
      workers := ← Toml.optional? 0 (Toml.natural? UInt64.size) workers
      batchSize := ← Toml.optional? 0 (Toml.natural? UInt64.size) batchSize
      bufferSize := ← Toml.optional? 0 (Toml.natural? UInt64.size) bufferSize
      timeoutMs := ← Toml.optional? 0 (Toml.natural? UInt64.size) timeoutMs
      maxRetries := ← Toml.optional? 0 (Toml.natural? UInt32.size) maxRetries
      backoff := ← Toml.optional? .immediate Backoff.ofToml? backoff }
  | _ => failure

end StreamConfig

namespace Config

/-- A dialect by its key, or by a table whose only entry has the key and holds nothing. -/
def dialect? : Toml → Option (Option Dialect)
  | .str key | .table [(key, .table [])] | .table [(key, .arr [])] => (Dialect.ofKey? key).map some
  | _ => none

def ofToml? (v : Toml) : Option Config := do
  match ← v.fields? ["stream", "convert"] with
  | [stream, convert] =>
    let convert ← (convert.getD (.table [])).fields? ["from", "to"]
    match convert with
    | [source, target] =>
      return {
        stream := ← Toml.optional? {} StreamConfig.ofToml? stream
        source := ← Toml.optional? none dialect? source
        target := ← Toml.optional? none dialect? target }
    | _ => failure
  | _ => failure

def ofText? (text : String) : Option Config := (Toml.parse? text).bind ofToml?

end Config

end DdlBridge
