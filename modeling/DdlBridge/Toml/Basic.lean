/-!
# TOML values
-/

namespace DdlBridge

inductive Toml where
  | str (s : String)
  | int (n : Int)
  | float (x : Float)
  | bool (b : Bool)
  /-- A date, a time or both, as written. -/
  | moment (text : String)
  | arr (items : List Toml)
  | table (entries : List (String × Toml))

namespace Toml

/-- How a table came to be, which decides who may add to it. -/
inductive TableKind where
  /-- By a header of its own. -/
  | header
  /-- By the header of a table inside it. -/
  | implied
  /-- By a dotted key. -/
  | dotted
  deriving DecidableEq, Repr

/-- A document under construction. -/
inductive Node where
  | leaf (value : Toml)
  | table (kind : TableKind) (entries : List (String × Node))
  /-- An array of tables; the last is open. -/
  | tables (elements : List (List (String × Node)))

namespace Node

def find? (key : String) (entries : List (String × Node)) : Option Node :=
  (entries.find? (·.1 == key)).map (·.2)

/-- Sets a key that is present, or adds it at the end. -/
def set (key : String) (node : Node) (entries : List (String × Node)) : List (String × Node) :=
  if entries.any (·.1 == key) then entries.map fun e => if e.1 == key then (key, node) else e
  else entries ++ [(key, node)]

/-- Adds `key` below a path of dotted keys. Only tables that dotted keys or inner headers made and
the last element of an array of tables may be entered, and only tables of dotted keys may be added
to. -/
def insert (path : List String) (key : String) (value : Toml) (entries : List (String × Node)) :
    Option (List (String × Node)) :=
  match path with
  | [] => if (find? key entries).isSome then none else some (set key (.leaf value) entries)
  | p :: ps =>
    match find? p entries with
    | none => (insert ps key value []).map fun sub => set p (.table .dotted sub) entries
    | some (.table .dotted sub) =>
      (insert ps key value sub).map fun sub => set p (.table .dotted sub) entries
    | some (.table .implied sub) =>
      if ps.isEmpty then none
      else (insert ps key value sub).map fun sub => set p (.table .implied sub) entries
    | some (.tables elements) =>
      if ps.isEmpty then none
      else (insert ps key value (elements.getLast?.getD [])).map fun sub =>
        set p (.tables (elements.dropLast ++ [sub])) entries
    | some _ => none

/-- Changes the table at a path of headers. -/
def within (f : List (String × Node) → Option (List (String × Node))) (path : List String)
    (entries : List (String × Node)) : Option (List (String × Node)) :=
  match path with
  | [] => f entries
  | p :: ps =>
    match find? p entries with
    | none => (within f ps []).map fun sub => set p (.table .implied sub) entries
    | some (.table kind sub) => (within f ps sub).map fun sub => set p (.table kind sub) entries
    | some (.tables elements) =>
      (within f ps (elements.getLast?.getD [])).map fun sub =>
        set p (.tables (elements.dropLast ++ [sub])) entries
    | some (.leaf _) => none

/-- Opens the table `key` by a header. -/
def openTable (key : String) (entries : List (String × Node)) : Option (List (String × Node)) :=
  match find? key entries with
  | none => some (set key (.table .header []) entries)
  | some (.table .implied sub) => some (set key (.table .header sub) entries)
  | some _ => none

/-- Opens one more element of the array of tables `key`. -/
def openElement (key : String) (entries : List (String × Node)) : Option (List (String × Node)) :=
  match find? key entries with
  | none => some (set key (.tables [[]]) entries)
  | some (.tables elements) => some (set key (.tables (elements ++ [[]])) entries)
  | some _ => none

mutual

def value : Node → Toml
  | .leaf v => v
  | .table _ entries => .table (values entries)
  | .tables elements => .arr (elementValues elements)

def values : List (String × Node) → List (String × Toml)
  | [] => []
  | e :: es => entryValue e :: values es

def entryValue : String × Node → String × Toml
  | (key, node) => (key, value node)

def elementValues : List (List (String × Node)) → List Toml
  | [] => []
  | es :: rest => .table (values es) :: elementValues rest

end

end Node

end Toml

end DdlBridge
