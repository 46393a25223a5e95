/-!
# Type tables out of PostgreSQL
-/

namespace DdlBridge.TypeTable

def postgresToOracle : List (String × String) :=
  [("BOOLEAN", "NUMBER(1)"), ("BOOL", "NUMBER(1)"), ("SMALLINT", "NUMBER(5)"),
   ("INT2", "NUMBER(5)"), ("INTEGER", "NUMBER(10)"), ("INT", "NUMBER(10)"),
   ("INT4", "NUMBER(10)"), ("BIGINT", "NUMBER(19)"), ("INT8", "NUMBER(19)"),
   ("NUMERIC", "NUMBER"), ("DECIMAL", "NUMBER"), ("REAL", "BINARY_FLOAT"),
   ("FLOAT4", "BINARY_FLOAT"), ("DOUBLE PRECISION", "BINARY_DOUBLE"),
   ("FLOAT8", "BINARY_DOUBLE"), ("MONEY", "NUMBER(19,4)"), ("CHAR", "CHAR"),
   ("CHARACTER", "CHAR"), ("VARCHAR", "VARCHAR2"), ("CHARACTER VARYING", "VARCHAR2"),
   ("TEXT", "CLOB"), ("BYTEA", "BLOB"), ("DATE", "DATE"), ("TIME", "VARCHAR2(16)"),
   ("TIMESTAMP", "TIMESTAMP"), ("TIMESTAMP WITHOUT TIME ZONE", "TIMESTAMP"),
   ("TIMESTAMP WITH TIME ZONE", "TIMESTAMP WITH TIME ZONE"),
   ("TIMESTAMPTZ", "TIMESTAMP WITH TIME ZONE"), ("INTERVAL", "INTERVAL DAY TO SECOND"),
   ("UUID", "RAW(16)"), ("JSON", "CLOB"), ("JSONB", "CLOB"), ("XML", "XMLTYPE"),
   ("INET", "VARCHAR2(45)")]

def postgresToMySql : List (String × String) :=
  [("BOOLEAN", "boolean"), ("BOOL", "boolean"), ("SMALLINT", "smallint"), ("INT2", "smallint"),
   ("INTEGER", "int"), ("INT", "int"), ("INT4", "int"), ("BIGINT", "bigint"), ("INT8", "bigint"),
   ("NUMERIC", "decimal"), ("DECIMAL", "decimal"), ("REAL", "float"), ("FLOAT4", "float"),
   ("DOUBLE PRECISION", "double"), ("FLOAT8", "double"), ("MONEY", "decimal(19,4)"),
   ("CHAR", "char"), ("CHARACTER", "char"), ("VARCHAR", "varchar"),
   ("CHARACTER VARYING", "varchar"), ("TEXT", "longtext"), ("BYTEA", "longblob"),
   ("DATE", "date"), ("TIME", "time"), ("TIMESTAMP", "datetime"),
   ("TIMESTAMP WITHOUT TIME ZONE", "datetime"), ("TIMESTAMP WITH TIME ZONE", "timestamp"),
   ("TIMESTAMPTZ", "timestamp"), ("INTERVAL", "varchar(100)"), ("UUID", "char(36)"),
   ("JSON", "json"), ("JSONB", "json"), ("XML", "text"), ("INET", "varchar(45)")]

def postgresToSqlServer : List (String × String) :=
  [("BOOLEAN", "bit"), ("BOOL", "bit"), ("SMALLINT", "smallint"), ("INT2", "smallint"),
   ("INTEGER", "int"), ("INT", "int"), ("INT4", "int"), ("BIGINT", "bigint"), ("INT8", "bigint"),
   ("NUMERIC", "numeric"), ("DECIMAL", "decimal"), ("REAL", "real"), ("FLOAT4", "real"),
   ("DOUBLE PRECISION", "float"), ("FLOAT8", "float"), ("MONEY", "money"), ("CHAR", "nchar"),
   ("CHARACTER", "nchar"), ("VARCHAR", "nvarchar"), ("CHARACTER VARYING", "nvarchar"),
   ("TEXT", "nvarchar(max)"), ("BYTEA", "varbinary(max)"), ("DATE", "date"), ("TIME", "time"),
   ("TIMESTAMP", "datetime2"), ("TIMESTAMP WITHOUT TIME ZONE", "datetime2"),
   ("TIMESTAMP WITH TIME ZONE", "datetimeoffset"), ("TIMESTAMPTZ", "datetimeoffset"),
   ("INTERVAL", "varchar(100)"), ("UUID", "uniqueidentifier"), ("JSON", "nvarchar(max)"),
   ("JSONB", "nvarchar(max)"), ("XML", "xml"), ("INET", "varchar(45)")]

def postgresToSqlite : List (String × String) :=
  [("BOOLEAN", "INTEGER"), ("BOOL", "INTEGER"), ("SMALLINT", "INTEGER"), ("INT2", "INTEGER"),
   ("INTEGER", "INTEGER"), ("INT", "INTEGER"), ("INT4", "INTEGER"), ("BIGINT", "INTEGER"),
   ("INT8", "INTEGER"), ("NUMERIC", "NUMERIC"), ("DECIMAL", "NUMERIC"), ("REAL", "REAL"),
   ("FLOAT4", "REAL"), ("DOUBLE PRECISION", "REAL"), ("FLOAT8", "REAL"), ("MONEY", "NUMERIC"),
   ("CHAR", "TEXT"), ("CHARACTER", "TEXT"), ("VARCHAR", "TEXT"), ("CHARACTER VARYING", "TEXT"),
   ("TEXT", "TEXT"), ("BYTEA", "BLOB"), ("DATE", "TEXT"), ("TIME", "TEXT"),
   ("TIMESTAMP", "TEXT"), ("TIMESTAMPTZ", "TEXT"), ("INTERVAL", "TEXT"), ("UUID", "TEXT"),
   ("JSON", "TEXT"), ("JSONB", "TEXT"), ("XML", "TEXT"), ("INET", "TEXT")]

end DdlBridge.TypeTable
