/-!
# Help texts

The help of a command shows the configuration file that the environment names.
-/

namespace DdlBridge.Command

def programName : String := "sqlporter"

def versionText : String := programName ++ " 0.3.0\n"

/-- A line with an option and, from the column `width` on, its description. -/
def optionLine (width : Nat) (option text : String) : String :=
  option ++ String.ofList (List.replicate (width - option.length) ' ') ++ text ++ "\n"

def configLine (environment : Option String) (width : Nat) : String :=
  optionLine width "      --config <CONFIG>"
    ("Config file (default: <config dir>/sqlporter/config.toml) [env: SQLPORTER_CONFIG=" ++
      environment.getD "" ++ "]")

def verboseLine (width : Nat) : String :=
  optionLine width "  -v, --verbose..." "Verbose output (-v info, -vv debug, -vvv trace)"

def overview (environment : Option String) : String :=
  "Convert SQL DDL between Oracle, MySQL, PostgreSQL, SQL Server and SQLite\n\n" ++
  "Usage: sqlporter [OPTIONS] <COMMAND>\n\n" ++
  "Commands:\n" ++
  "  convert  Convert a DDL script to another dialect\n" ++
  "  parse    Parse a DDL script and summarize it\n" ++
  "  types    Show the type translation table between two dialects\n" ++
  "  help     Print this message or the help of the given subcommand(s)\n\n" ++
  "Options:\n" ++ configLine environment 25 ++ verboseLine 25 ++
  "  -h, --help             Print help\n" ++
  "  -V, --version          Print version\n\n" ++
  "EXAMPLES:\n" ++
  "    sqlporter convert --from oracle --to postgres schema.sql\n" ++
  "    cat dump.sql | sqlporter parse --dialect mysql --json\n" ++
  "    sqlporter types --from oracle --to mysql\n"

def convertHelp (environment : Option String) : String :=
  "Convert a DDL script to another dialect\n\n" ++
  "Usage: sqlporter convert [OPTIONS] [INPUT]\n\n" ++
  "Arguments:\n" ++
  "  [INPUT]  Input file (default: stdin)\n\n" ++
  "Options:\n" ++ configLine environment 33 ++
  "      --from <FROM>              Source dialect\n" ++
  "      --to <TO>                  Target dialect\n" ++ verboseLine 33 ++
  "  -o, --output <OUTPUT>          Output file (default: stdout)\n" ++
  "      --workers <WORKERS>        Parse workers (0 = available parallelism)\n" ++
  "      --batch-size <BATCH_SIZE>  Minimum batch size in bytes\n" ++
  "      --timeout-ms <TIMEOUT_MS>  Deadline in milliseconds (0 = none)\n" ++
  "  -h, --help                     Print help\n"

def parseHelp (environment : Option String) : String :=
  "Parse a DDL script and summarize it\n\n" ++
  "Usage: sqlporter parse [OPTIONS] --dialect <DIALECT> [INPUT]\n\n" ++
  "Arguments:\n" ++
  "  [INPUT]  Input file (default: stdin)\n\n" ++
  "Options:\n" ++ configLine environment 33 ++
  "  -d, --dialect <DIALECT>        Dialect of the script\n" ++
  "      --json                     Print the schema as JSON\n" ++ verboseLine 33 ++
  "      --workers <WORKERS>        Parse workers (0 = available parallelism)\n" ++
  "      --batch-size <BATCH_SIZE>  Minimum batch size in bytes\n" ++
  "      --timeout-ms <TIMEOUT_MS>  Deadline in milliseconds (0 = none)\n" ++
  "  -h, --help                     Print help\n"

def typesHelp (environment : Option String) : String :=
  "Show the type translation table between two dialects\n\n" ++
  "Usage: sqlporter types [OPTIONS] --from <FROM> --to <TO>\n\n" ++
  "Options:\n" ++ configLine environment 25 ++
  "      --from <FROM>      \n" ++
  "      --to <TO>          \n" ++ verboseLine 25 ++
  "  -h, --help             Print help\n"

def helpHelp : String :=
  "Print this message or the help of the given subcommand(s)\n\n" ++
  "Usage: sqlporter help [COMMAND]...\n\n" ++
  "Arguments:\n" ++
  "  [COMMAND]...  Print help for the subcommand(s)\n"

/-- The help on a command; the overview if there is no such command. -/
def helpText (environment : Option String) : String → String
  | "convert" => convertHelp environment
  | "parse" => parseHelp environment
  | "types" => typesHelp environment
  | "help" => helpHelp
  | _ => overview environment

end DdlBridge.Command
