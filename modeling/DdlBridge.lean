import DdlBridge.Command.Arguments
import DdlBridge.Command.Help
import DdlBridge.Command.Report
import DdlBridge.Command.Run
import DdlBridge.Config
import DdlBridge.Conversion
import DdlBridge.Ddl.Identifier
import DdlBridge.Ddl.Script
import DdlBridge.Ddl.Table
import DdlBridge.Ddl.Trigger
import DdlBridge.Decimal.Reading
import DdlBridge.Decimal.Scaling
import DdlBridge.Decimal.Shortest
import DdlBridge.Dialect
import DdlBridge.Duration
import DdlBridge.Error
import DdlBridge.Grammar.Column
import DdlBridge.Grammar.ColumnType
import DdlBridge.Grammar.Parser
import DdlBridge.Grammar.Script
import DdlBridge.Grammar.Sequence
import DdlBridge.Grammar.Table
import DdlBridge.Grammar.Trigger
import DdlBridge.Grammar.View
import DdlBridge.Json.Basic
import DdlBridge.Json.Decode
import DdlBridge.Json.Reader
import DdlBridge.Main
import DdlBridge.Proofs.Ddl.BareName
import DdlBridge.Proofs.Ddl.Name
import DdlBridge.Proofs.Ddl.Normal
import DdlBridge.Proofs.Ddl.OracleTrigger
import DdlBridge.Proofs.Ddl.PostgresTrigger
import DdlBridge.Proofs.Ddl.QuotedName
import DdlBridge.Proofs.Ddl.RoundTrip
import DdlBridge.Proofs.Ddl.Row
import DdlBridge.Proofs.Ddl.Scanning
import DdlBridge.Proofs.Ddl.SequenceNote
import DdlBridge.Proofs.Ddl.SqliteTrigger
import DdlBridge.Proofs.Ddl.Statements
import DdlBridge.Proofs.Ddl.TriggerHead
import DdlBridge.Proofs.Ddl.View
import DdlBridge.Proofs.Ddl.Writable
import DdlBridge.Proofs.Ddl.Writing
import DdlBridge.Proofs.Grammar.Adding
import DdlBridge.Proofs.Grammar.Alike
import DdlBridge.Proofs.Grammar.AlikeStatement
import DdlBridge.Proofs.Grammar.AlikeType
import DdlBridge.Proofs.Grammar.Brackets
import DdlBridge.Proofs.Grammar.Column
import DdlBridge.Proofs.Grammar.Complaint
import DdlBridge.Proofs.Grammar.Constraint
import DdlBridge.Proofs.Grammar.ConstraintName
import DdlBridge.Proofs.Grammar.Consumes
import DdlBridge.Proofs.Grammar.Declaration
import DdlBridge.Proofs.Grammar.Definition
import DdlBridge.Proofs.Grammar.Ensures
import DdlBridge.Proofs.Grammar.ErrorOffset
import DdlBridge.Proofs.Grammar.Head
import DdlBridge.Proofs.Grammar.IntervalType
import DdlBridge.Proofs.Grammar.ParsedType
import DdlBridge.Proofs.Grammar.Parser
import DdlBridge.Proofs.Grammar.Phrase
import DdlBridge.Proofs.Grammar.Points
import DdlBridge.Proofs.Grammar.Reads
import DdlBridge.Proofs.Grammar.Script
import DdlBridge.Proofs.Grammar.Sequence
import DdlBridge.Proofs.Grammar.Spelling
import DdlBridge.Proofs.Grammar.Table
import DdlBridge.Proofs.Grammar.Trigger
import DdlBridge.Proofs.Grammar.TypePrinting
import DdlBridge.Proofs.Grammar.TypeReading
import DdlBridge.Proofs.Grammar.TypeSize
import DdlBridge.Proofs.Grammar.TypeText
import DdlBridge.Proofs.Grammar.View
import DdlBridge.Proofs.Grammar.WellFormed
import DdlBridge.Proofs.Grammar.Yields
import DdlBridge.Proofs.Json.Record
import DdlBridge.Proofs.Json.Text
import DdlBridge.Proofs.Schema.Json
import DdlBridge.Proofs.Schema.LetterCase
import DdlBridge.Proofs.Statement.Afresh
import DdlBridge.Proofs.Statement.CaseExpression
import DdlBridge.Proofs.Statement.Content
import DdlBridge.Proofs.Statement.Defining
import DdlBridge.Proofs.Statement.DollarQuote
import DdlBridge.Proofs.Statement.EmptyLine
import DdlBridge.Proofs.Statement.Ending
import DdlBridge.Proofs.Statement.Facing
import DdlBridge.Proofs.Statement.Front
import DdlBridge.Proofs.Statement.LetterCase
import DdlBridge.Proofs.Statement.Level
import DdlBridge.Proofs.Statement.Lexeme
import DdlBridge.Proofs.Statement.Lexing
import DdlBridge.Proofs.Statement.Line
import DdlBridge.Proofs.Statement.Lossless
import DdlBridge.Proofs.Statement.MarkedLine
import DdlBridge.Proofs.Statement.Misread
import DdlBridge.Proofs.Statement.Nesting
import DdlBridge.Proofs.Statement.Piece
import DdlBridge.Proofs.Statement.PlainText
import DdlBridge.Proofs.Statement.Reading
import DdlBridge.Proofs.Statement.Region
import DdlBridge.Proofs.Statement.Rejected
import DdlBridge.Proofs.Statement.Remark
import DdlBridge.Proofs.Statement.Restart
import DdlBridge.Proofs.Statement.Resume
import DdlBridge.Proofs.Statement.Routine
import DdlBridge.Proofs.Statement.Split
import DdlBridge.Proofs.Statement.StoredUnit
import DdlBridge.Proofs.Statement.Taken
import DdlBridge.Proofs.Statement.TerminatorLine
import DdlBridge.Proofs.Statement.TerminatorText
import DdlBridge.Proofs.Statement.Tracking
import DdlBridge.Proofs.Statement.TriggerStatement
import DdlBridge.Proofs.Statement.Unbroken
import DdlBridge.Proofs.Statement.Word
import DdlBridge.Proofs.Stream.Aggregator
import DdlBridge.Proofs.Stream.Agreement
import DdlBridge.Proofs.Stream.Arrival
import DdlBridge.Proofs.Stream.Batch
import DdlBridge.Proofs.Stream.BatchSize
import DdlBridge.Proofs.Stream.Call
import DdlBridge.Proofs.Stream.Conservation
import DdlBridge.Proofs.Stream.Remainder
import DdlBridge.Proofs.Stream.Retry
import DdlBridge.Proofs.Stream.Schedule
import DdlBridge.Proofs.Stream.Work
import DdlBridge.Proofs.Text.Ascii
import DdlBridge.Proofs.Text.LetterCase
import DdlBridge.Proofs.Text.Utf8
import DdlBridge.Proofs.Token.Atom
import DdlBridge.Proofs.Token.Gap
import DdlBridge.Proofs.Token.Junction
import DdlBridge.Proofs.Token.LetterCase
import DdlBridge.Proofs.Token.Literal
import DdlBridge.Proofs.Token.Segment
import DdlBridge.Proofs.TypeTable.Lookup
import DdlBridge.Proofs.TypeTable.Readable
import DdlBridge.Retry.Decode
import DdlBridge.Retry.Policy
import DdlBridge.Schema.Basic
import DdlBridge.Schema.Json
import DdlBridge.Statement.Scanner
import DdlBridge.Statement.Split
import DdlBridge.Stream.Aggregator
import DdlBridge.Stream.Attempt
import DdlBridge.Stream.Batch
import DdlBridge.Stream.BufferPool
import DdlBridge.Stream.Pipeline
import DdlBridge.Stream.Schedule
import DdlBridge.Text.Basic
import DdlBridge.Text.Blank
import DdlBridge.Text.Letter
import DdlBridge.Text.Numeral
import DdlBridge.Text.Utf8
import DdlBridge.Token.Basic
import DdlBridge.Token.Lexer
import DdlBridge.Toml.Basic
import DdlBridge.Toml.Reader
import DdlBridge.TypeTable.Basic
import DdlBridge.TypeTable.MySql
import DdlBridge.TypeTable.Oracle
import DdlBridge.TypeTable.Postgres
import DdlBridge.TypeTable.SqlServer
import DdlBridge.TypeTable.Sqlite
