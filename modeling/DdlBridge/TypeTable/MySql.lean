/-!
# Type tables out of MySQL
-/

namespace DdlBridge.TypeTable

def mysqlToOracle : List (String × String) :=
  [("TINYINT(1)", "NUMBER(1)"), ("BOOLEAN", "NUMBER(1)"), ("BOOL", "NUMBER(1)"),
   ("BIT", "NUMBER(1)"), ("TINYINT", "NUMBER(3)"), ("SMALLINT", "NUMBER(5)"),
   ("MEDIUMINT", "NUMBER(7)"), ("INT", "NUMBER(10)"), ("INTEGER", "NUMBER(10)"),
   ("BIGINT", "NUMBER(19)"), ("DECIMAL", "NUMBER"), ("NUMERIC", "NUMBER"),
   ("FLOAT", "BINARY_FLOAT"), ("DOUBLE", "BINARY_DOUBLE"), ("REAL", "BINARY_DOUBLE"),
   ("CHAR", "CHAR"), ("VARCHAR", "VARCHAR2"), ("TINYTEXT", "VARCHAR2(255)"), ("TEXT", "CLOB"),
   ("MEDIUMTEXT", "CLOB"), ("LONGTEXT", "CLOB"), ("BINARY", "RAW"), ("VARBINARY", "RAW"),
   ("TINYBLOB", "BLOB"), ("BLOB", "BLOB"), ("MEDIUMBLOB", "BLOB"), ("LONGBLOB", "BLOB"),
   ("DATE", "DATE"), ("DATETIME", "TIMESTAMP"), ("TIMESTAMP", "TIMESTAMP"),
   ("TIME", "VARCHAR2(16)"), ("YEAR", "NUMBER(4)"), ("JSON", "CLOB"), ("ENUM", "VARCHAR2(255)"),
   ("SET", "VARCHAR2(4000)")]

def mysqlToPostgres : List (String × String) :=
  [("TINYINT(1)", "boolean"), ("BOOLEAN", "boolean"), ("BOOL", "boolean"), ("BIT", "bit"),
   ("TINYINT", "smallint"), ("SMALLINT", "smallint"), ("MEDIUMINT", "integer"),
   ("INT", "integer"), ("INTEGER", "integer"), ("INT UNSIGNED", "bigint"), ("BIGINT", "bigint"),
   ("BIGINT UNSIGNED", "numeric(20)"), ("DECIMAL", "numeric"), ("NUMERIC", "numeric"),
   ("FLOAT", "real"), ("DOUBLE", "double precision"), ("REAL", "double precision"),
   ("CHAR", "char"), ("VARCHAR", "varchar"), ("TINYTEXT", "text"), ("TEXT", "text"),
   ("MEDIUMTEXT", "text"), ("LONGTEXT", "text"), ("BINARY", "bytea"), ("VARBINARY", "bytea"),
   ("TINYBLOB", "bytea"), ("BLOB", "bytea"), ("MEDIUMBLOB", "bytea"), ("LONGBLOB", "bytea"),
   ("DATE", "date"), ("DATETIME", "timestamp"), ("TIMESTAMP", "timestamp"), ("TIME", "time"),
   ("YEAR", "smallint"), ("JSON", "jsonb"), ("ENUM", "varchar(255)"), ("SET", "text")]

def mysqlToSqlServer : List (String × String) :=
  [("TINYINT(1)", "bit"), ("BOOLEAN", "bit"), ("BOOL", "bit"), ("BIT", "bit"),
   ("TINYINT", "tinyint"), ("SMALLINT", "smallint"), ("MEDIUMINT", "int"), ("INT", "int"),
   ("INTEGER", "int"), ("BIGINT", "bigint"), ("DECIMAL", "decimal"), ("NUMERIC", "numeric"),
   ("FLOAT", "real"), ("DOUBLE", "float"), ("REAL", "float"), ("CHAR", "nchar"),
   ("VARCHAR", "nvarchar"), ("TINYTEXT", "nvarchar(255)"), ("TEXT", "nvarchar(max)"),
   ("MEDIUMTEXT", "nvarchar(max)"), ("LONGTEXT", "nvarchar(max)"), ("BINARY", "binary"),
   ("VARBINARY", "varbinary"), ("TINYBLOB", "varbinary(255)"), ("BLOB", "varbinary(max)"),
   ("MEDIUMBLOB", "varbinary(max)"), ("LONGBLOB", "varbinary(max)"), ("DATE", "date"),
   ("DATETIME", "datetime2"), ("TIMESTAMP", "datetime2"), ("TIME", "time"), ("YEAR", "smallint"),
   ("JSON", "nvarchar(max)"), ("ENUM", "nvarchar(255)"), ("SET", "nvarchar(4000)")]

def mysqlToSqlite : List (String × String) :=
  [("TINYINT", "INTEGER"), ("BOOLEAN", "INTEGER"), ("BOOL", "INTEGER"), ("BIT", "INTEGER"),
   ("SMALLINT", "INTEGER"), ("MEDIUMINT", "INTEGER"), ("INT", "INTEGER"), ("INTEGER", "INTEGER"),
   ("BIGINT", "INTEGER"), ("DECIMAL", "NUMERIC"), ("NUMERIC", "NUMERIC"), ("FLOAT", "REAL"),
   ("DOUBLE", "REAL"), ("REAL", "REAL"), ("CHAR", "TEXT"), ("VARCHAR", "TEXT"),
   ("TINYTEXT", "TEXT"), ("TEXT", "TEXT"), ("MEDIUMTEXT", "TEXT"), ("LONGTEXT", "TEXT"),
   ("BINARY", "BLOB"), ("VARBINARY", "BLOB"), ("TINYBLOB", "BLOB"), ("BLOB", "BLOB"),
   ("MEDIUMBLOB", "BLOB"), ("LONGBLOB", "BLOB"), ("DATE", "TEXT"), ("DATETIME", "TEXT"),
   ("TIMESTAMP", "TEXT"), ("TIME", "TEXT"), ("YEAR", "INTEGER"), ("JSON", "TEXT"),
   ("ENUM", "TEXT"), ("SET", "TEXT")]

end DdlBridge.TypeTable
