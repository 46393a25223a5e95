/-!
# Type tables out of SQLite
-/

namespace DdlBridge.TypeTable

def sqliteToOracle : List (String × String) :=
  [("INTEGER", "NUMBER(19)"), ("INT", "NUMBER(10)"), ("BOOLEAN", "NUMBER(1)"),
   ("REAL", "BINARY_DOUBLE"), ("DOUBLE", "BINARY_DOUBLE"), ("FLOAT", "BINARY_DOUBLE"),
   ("NUMERIC", "NUMBER"), ("DECIMAL", "NUMBER"), ("TEXT", "CLOB"), ("CHAR", "CHAR"),
   ("VARCHAR", "VARCHAR2"), ("BLOB", "BLOB"), ("DATE", "DATE"), ("DATETIME", "TIMESTAMP"),
   ("TIMESTAMP", "TIMESTAMP")]

def sqliteToMySql : List (String × String) :=
  [("INTEGER", "bigint"), ("INT", "int"), ("BOOLEAN", "boolean"), ("REAL", "double"),
   ("DOUBLE", "double"), ("FLOAT", "double"), ("NUMERIC", "decimal"), ("DECIMAL", "decimal"),
   ("TEXT", "longtext"), ("CHAR", "char"), ("VARCHAR", "varchar"), ("BLOB", "longblob"),
   ("DATE", "date"), ("DATETIME", "datetime"), ("TIMESTAMP", "datetime")]

def sqliteToPostgres : List (String × String) :=
  [("INTEGER", "bigint"), ("INT", "integer"), ("BOOLEAN", "boolean"),
   ("REAL", "double precision"), ("DOUBLE", "double precision"), ("FLOAT", "double precision"),
   ("NUMERIC", "numeric"), ("DECIMAL", "numeric"), ("TEXT", "text"), ("CHAR", "char"),
   ("VARCHAR", "varchar"), ("BLOB", "bytea"), ("DATE", "date"), ("DATETIME", "timestamp"),
   ("TIMESTAMP", "timestamp")]

def sqliteToSqlServer : List (String × String) :=
  [("INTEGER", "bigint"), ("INT", "int"), ("BOOLEAN", "bit"), ("REAL", "float"),
   ("DOUBLE", "float"), ("FLOAT", "float"), ("NUMERIC", "numeric"), ("DECIMAL", "decimal"),
   ("TEXT", "nvarchar(max)"), ("CHAR", "nchar"), ("VARCHAR", "nvarchar"),
   ("BLOB", "varbinary(max)"), ("DATE", "date"), ("DATETIME", "datetime2"),
   ("TIMESTAMP", "datetime2")]

end DdlBridge.TypeTable
