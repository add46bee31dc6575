import GraphRelay.Settings.Datum

/-!
# Documents of tables

How the statements of a TOML document add up to one table. A header opens a table, each entry puts a
value into the table opened last, and a path of names leads through tables that come into being on
the way. Nothing can be defined twice: a table has one header, an entry cannot reach into a table
that has a header, and tables that entries made cannot get a header.
-/
namespace GraphRelay.Toml

inductive Statement where
  /-- A value under a path of names. -/
  | entry (path : List String) (value : Datum)
  | header (path : List String)
  /-- The header of another table in a list of tables. -/
  | listHeader (path : List String)
  deriving Repr

/-- How a table came into being. -/
inductive Origin where
  /-- Through its own header. -/
  | header
  /-- As a step on the path of a header. -/
  | pathOfHeader
  /-- As a step on the path of an entry. -/
  | pathOfEntry
  deriving DecidableEq, Repr

inductive Item where
  | value (d : Datum)
  | table (origin : Origin) (entries : List (String × Item))
  /-- A list of tables with a header each, the last one first. -/
  | tables (latest : List (String × Item)) (earlier : List (List (String × Item)))

abbrev Entries := List (String × Item)

/-- Puts an item under a name, in place of what stood there. -/
def put (name : String) (item : Item) : Entries → Entries
  | [] => [(name, item)]
  | (n, i) :: rest => if n = name then (n, item) :: rest else (n, i) :: put name item rest

/-- Changes the table that a path of names leads to; `edit` also learns the table's origin. `reach`
is the origin of tables that come into being on the way. -/
def descend (reach : Origin) (edit : Origin → Entries → Option Entries) :
    List String → Origin → Entries → Option Entries
  | [], origin, entries => edit origin entries
  | name :: rest, _, entries =>
    match entries.lookup name with
    | none => do
      let inner ← descend reach edit rest reach []
      pure (put name (.table reach inner) entries)
    | some (.value _) => none
    | some (.tables latest earlier) => do
      let latest ← descend reach edit rest .header latest
      pure (put name (.tables latest earlier) entries)
    | some (.table origin inner) =>
      if reach = .pathOfEntry && origin = .header then none
      else do
        let inner ← descend reach edit rest origin inner
        pure (put name (.table origin inner) entries)

/-- Puts a value under a path of names into a table. The table that holds the value must either be
the starting one or come from the paths of entries. -/
def addEntry (path : List String) (value : Datum) (entries : Entries) : Option Entries :=
  match path.getLast? with
  | none => none
  | some name =>
    let direct := path.length = 1
    let edit (origin : Origin) (inner : Entries) : Option Entries :=
      if !direct && origin ≠ .pathOfEntry then none
      else if (inner.lookup name).isSome then none
      else some (inner ++ [(name, .value value)])
    descend .pathOfEntry edit path.dropLast .header entries

/-- Puts values under paths of names into a table, in order. -/
def addEntries (values : List (List String × Datum)) (entries : Entries) : Option Entries :=
  values.foldlM (fun entries (path, value) => addEntry path value entries) entries

mutual

/-- The data of an item. -/
def Item.datum : Item → Datum
  | .value d => d
  | .table _ entries => .table (entriesData entries)
  | .tables latest earlier => .list (tablesData earlier ++ [.table (entriesData latest)])

def entriesData : List (String × Item) → List (String × Datum)
  | [] => []
  | (name, item) :: rest => (name, item.datum) :: entriesData rest

/-- The data of tables that are given last first. -/
def tablesData : List (List (String × Item)) → List Datum
  | [] => []
  | entries :: rest => tablesData rest ++ [.table (entriesData entries)]

end

/-- Adds the table under a header, with the entries that follow it. -/
def addTable (path : List String) (values : List (List String × Datum)) (root : Entries) :
    Option Entries :=
  match path.getLast? with
  | none => none
  | some name =>
    let edit (_ : Origin) (parent : Entries) : Option Entries :=
      match parent.lookup name with
      | none => do
        let inner ← addEntries values []
        pure (put name (.table .header inner) parent)
      | some (.table .pathOfHeader inner) => do
        let inner ← addEntries values inner
        pure (put name (.table .header inner) parent)
      | some _ => none
    descend .pathOfHeader edit path.dropLast .header root

/-- Adds another table to the list under a header, with the entries that follow it. -/
def addListTable (path : List String) (values : List (List String × Datum)) (root : Entries) :
    Option Entries :=
  match path.getLast? with
  | none => none
  | some name =>
    let edit (_ : Origin) (parent : Entries) : Option Entries := do
      let inner ← addEntries values []
      match parent.lookup name with
      | none => pure (put name (.tables inner []) parent)
      | some (.tables latest earlier) => pure (put name (.tables inner (latest :: earlier)) parent)
      | some _ => none
    descend .pathOfHeader edit path.dropLast .header root

/-- The entries in front of the next header, and the statements from there on. -/
def leadingEntries : List Statement → List (List String × Datum) × List Statement
  | .entry path value :: rest =>
    let (values, rest) := leadingEntries rest
    ((path, value) :: values, rest)
  | statements => ([], statements)

/-- Adds statements to the root table; entries count for the header before them. -/
def addStatements : List Statement → Entries → Option Entries
  | [], root => some root
  | .entry _ _ :: rest, root => addStatements rest root
  | .header path :: rest, root => do
    addStatements rest (← addTable path (leadingEntries rest).1 root)
  | .listHeader path :: rest, root => do
    addStatements rest (← addListTable path (leadingEntries rest).1 root)

/-- The table that a document makes up, if nothing in it is defined twice. -/
def assemble (statements : List Statement) : Option Datum := do
  let root ← addEntries (leadingEntries statements).1 []
  let root ← addStatements statements root
  pure (.table (entriesData root))

end GraphRelay.Toml
