/-!
# Type tables out of SQL Server
-/

namespace DdlBridge.TypeTable

def sqlServerToOracle : List (String × String) :=
  [("BIT", "NUMBER(1)"), ("TINYINT", "NUMBER(3)"), ("SMALLINT", "NUMBER(5)"),
   ("INT", "NUMBER(10)"), ("INTEGER", "NUMBER(10)"), ("BIGINT", "NUMBER(19)"),
   ("DECIMAL", "NUMBER"), ("NUMERIC", "NUMBER"), ("MONEY", "NUMBER(19,4)"),
   ("SMALLMONEY", "NUMBER(10,4)"), ("FLOAT", "BINARY_DOUBLE"), ("REAL", "BINARY_FLOAT"),
   ("CHAR", "CHAR"), ("NCHAR", "NCHAR"), ("VARCHAR", "VARCHAR2"), ("NVARCHAR", "NVARCHAR2"),
   ("VARCHAR(MAX)", "CLOB"), ("NVARCHAR(MAX)", "NCLOB"), ("TEXT", "CLOB"), ("NTEXT", "NCLOB"),
   ("BINARY", "RAW"), ("VARBINARY", "RAW"), ("VARBINARY(MAX)", "BLOB"), ("IMAGE", "BLOB"),
   ("DATE", "DATE"), ("TIME", "VARCHAR2(16)"), ("DATETIME", "TIMESTAMP"),
   ("DATETIME2", "TIMESTAMP"), ("SMALLDATETIME", "DATE"),
   ("DATETIMEOFFSET", "TIMESTAMP WITH TIME ZONE"), ("UNIQUEIDENTIFIER", "RAW(16)"),
   ("XML", "XMLTYPE")]

def sqlServerToMySql : List (String × String) :=
  [("BIT", "boolean"), ("TINYINT", "tinyint unsigned"), ("SMALLINT", "smallint"), ("INT", "int"),
   ("INTEGER", "int"), ("BIGINT", "bigint"), ("DECIMAL", "decimal"), ("NUMERIC", "decimal"),
   ("MONEY", "decimal(19,4)"), ("SMALLMONEY", "decimal(10,4)"), ("FLOAT", "double"),
   ("REAL", "float"), ("CHAR", "char"), ("NCHAR", "char"), ("VARCHAR", "varchar"),
   ("NVARCHAR", "varchar"), ("VARCHAR(MAX)", "longtext"), ("NVARCHAR(MAX)", "longtext"),
   ("TEXT", "longtext"), ("NTEXT", "longtext"), ("BINARY", "binary"), ("VARBINARY", "varbinary"),
   ("VARBINARY(MAX)", "longblob"), ("IMAGE", "longblob"), ("DATE", "date"), ("TIME", "time"),
   ("DATETIME", "datetime"), ("DATETIME2", "datetime"), ("SMALLDATETIME", "datetime"),
   ("DATETIMEOFFSET", "timestamp"), ("UNIQUEIDENTIFIER", "char(36)"), ("XML", "longtext")]

def sqlServerToPostgres : List (String × String) :=
  [("BIT", "boolean"), ("TINYINT", "smallint"), ("SMALLINT", "smallint"), ("INT", "integer"),
   ("INTEGER", "integer"), ("BIGINT", "bigint"), ("DECIMAL", "numeric"), ("NUMERIC", "numeric"),
   ("MONEY", "numeric(19,4)"), ("SMALLMONEY", "numeric(10,4)"), ("FLOAT", "double precision"),
   ("REAL", "real"), ("CHAR", "char"), ("NCHAR", "char"), ("VARCHAR", "varchar"),
   ("NVARCHAR", "varchar"), ("VARCHAR(MAX)", "text"), ("NVARCHAR(MAX)", "text"),
   ("TEXT", "text"), ("NTEXT", "text"), ("BINARY", "bytea"), ("VARBINARY", "bytea"),
   ("VARBINARY(MAX)", "bytea"), ("IMAGE", "bytea"), ("DATE", "date"), ("TIME", "time"),
   ("DATETIME", "timestamp"), ("DATETIME2", "timestamp"), ("SMALLDATETIME", "timestamp"),
   ("DATETIMEOFFSET", "timestamptz"), ("UNIQUEIDENTIFIER", "uuid"), ("XML", "xml")]

def sqlServerToSqlite : List (String × String) :=
  [("BIT", "INTEGER"), ("TINYINT", "INTEGER"), ("SMALLINT", "INTEGER"), ("INT", "INTEGER"),
   ("INTEGER", "INTEGER"), ("BIGINT", "INTEGER"), ("DECIMAL", "NUMERIC"), ("NUMERIC", "NUMERIC"),
   ("MONEY", "NUMERIC"), ("SMALLMONEY", "NUMERIC"), ("FLOAT", "REAL"), ("REAL", "REAL"),
   ("CHAR", "TEXT"), ("NCHAR", "TEXT"), ("VARCHAR", "TEXT"), ("NVARCHAR", "TEXT"),
   ("VARCHAR(MAX)", "TEXT"), ("NVARCHAR(MAX)", "TEXT"), ("TEXT", "TEXT"), ("NTEXT", "TEXT"),
   ("BINARY", "BLOB"), ("VARBINARY", "BLOB"), ("VARBINARY(MAX)", "BLOB"), ("IMAGE", "BLOB"),
   ("DATE", "TEXT"), ("TIME", "TEXT"), ("DATETIME", "TEXT"), ("DATETIME2", "TEXT"),
   ("SMALLDATETIME", "TEXT"), ("DATETIMEOFFSET", "TEXT"), ("UNIQUEIDENTIFIER", "TEXT"),
   ("XML", "TEXT")]

end DdlBridge.TypeTable
