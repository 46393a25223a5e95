import DdlBridge.Ddl.Script
import DdlBridge.Stream.Pipeline
import DdlBridge.TypeTable.Basic

/-!
# Conversion between dialects
-/

namespace DdlBridge

/-- Parses a stream in the dialect `source`. -/
def parseStream (config : StreamConfig) (parallelism : Nat) (source : Dialect)
    (reads : Option (List Read)) : Except Error Schema :=
  ((StreamParser.ofConfig source parallelism config).call reads none []).result

/-- Parses a stream in one dialect and writes what it defines in another. -/
def convert (config : StreamConfig) (parallelism : Nat) (source target : Dialect)
    (reads : Option (List Read)) : Except Error String := do
  let schema ← parseStream config parallelism source reads
  generate target (schema.translate source target)

end DdlBridge
