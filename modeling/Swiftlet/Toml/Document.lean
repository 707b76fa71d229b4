import Swiftlet.Toml.Expr

/-!
# The tables of a TOML file

`Document.ofStatements` puts the statements of a file together to one table of tables.

* A key is set once. One that is only implicit, because a longer key passed through it, may be set
  once more; it keeps what it holds, unless it is marked as an array, which is replaced.
* An array is marked when it is set, and the mark of an entry without a name goes to its table.
  Passing through a marked key makes it implicit, so a longer key takes an array's place.
* Inline tables enter the document as they are read, and are values besides.
* Every key remembers the line of its value.
-/

namespace Swiftlet

namespace Toml

/-- A value of a table. -/
inductive Tree where
  | scalar (v : Scalar)
  | array (items : List Tree)
  | table (entries : List (Bytes × Tree))
  /-- An array of tables written as `[[name]]`, latest first. -/
  | tables (elements : List (List (Bytes × Tree)))

abbrev Table := List (Bytes × Tree)

/-- The type of a value, as messages name it. -/
def Tree.typeName : Tree → Bytes
  | .scalar (.string _) => utf8 "string"
  | .scalar (.int _) => utf8 "int64"
  | .scalar (.float _) => utf8 "float64"
  | .scalar (.bool _) => utf8 "bool"
  | .scalar (.moment _) => utf8 "time.Time"
  | .array _ => utf8 "[]any"
  | .table _ => utf8 "map[string]any"
  | .tables _ => utf8 "[]map[string]any"

namespace Table

/-- The table with `key` set to a value; its place stays if it was there. -/
def insert (key : Bytes) (v : Tree) : Table → Table
  | [] => [(key, v)]
  | (k, w) :: rest => if k = key then (k, v) :: rest else (k, w) :: insert key v rest

/-- Changes the table at a path; an array of tables stands for its latest one. -/
def modify (change : Table → Option Table) : Key → Table → Option Table
  | [], t => change t
  | k :: path, t =>
    match t.lookup k with
    | some (.table inner) => (modify change path inner).map fun inner => t.insert k (.table inner)
    | some (.tables (last :: earlier)) =>
      (modify change path last).map fun last => t.insert k (.tables (last :: earlier))
    | _ => none

/-- The table with the entry at a path set, making the tables on the way. -/
def put? (v : Tree) : Key → Table → Option Table
  | [], _ => none
  | [k], t => some (t.insert k v)
  | k :: path, t =>
    match t.lookup k with
    | none => (put? v path []).map fun inner => t.insert k (.table inner)
    | some (.table inner) => (put? v path inner).map fun inner => t.insert k (.table inner)
    | some _ => none

/-- The value at a path. -/
def find? : Key → Table → Option Tree
  | [], t => some (.table t)
  | [k], t => t.lookup k
  | k :: path, t =>
    match t.lookup k with
    | some (.table inner) => find? path inner
    | some (.tables (last :: _)) => find? path last
    | _ => none

end Table

/-- The tables so far, the keys of the tables that came about on the way to others, the keys that
are marked as arrays and the lines of values. -/
structure Document where
  root : Table
  implicit : List Key
  arrays : List Key
  lines : List (Key × Nat)

namespace Document

def empty : Document := ⟨[], [], [], []⟩

def markImplicit (d : Document) (key : Key) : Document := { d with implicit := key :: d.implicit }

/-- Notes the line of a key and whether it is marked as an array. -/
def note (d : Document) (key : Key) (isArray : Bool) (line : Nat) : Document :=
  { d with
    arrays := if isArray then key :: d.arrays else d.arrays.filter (· ≠ key)
    lines := (key, line) :: d.lines }

/-- The key that an entry's note is kept under: its own, or its table's if it has no name. -/
def noteKey (context : Key) (name : Bytes) : Key :=
  if name = [] ∧ context ≠ [] then context else context ++ [name]

/-- Sets a key in the table at `context`. -/
def set (d : Document) (context : Key) (key : Bytes) (v : Tree) : Option Document :=
  let full := context ++ [key]
  let insert := (d.root.modify (fun t => some (t.insert key v)) context).map fun root =>
    { d with root := root }
  match d.root.find? full with
  | none => insert
  | some _ =>
    if full ∈ d.implicit then
      (if full ∈ d.arrays then insert else some d).map fun d =>
        { d with implicit := d.implicit.filter (· ≠ full) }
    else none

/-- Makes the tables on the way to a key, given the part of it that is there. -/
def ensure (d : Document) (done : Key) : Key → Option Document
  | [] => some d
  | [_] => some d
  | k :: rest =>
    let key := done ++ [k]
    match d.root.find? key with
    | none =>
      match d.root.modify (fun t => some (t.insert k (.table []))) done with
      | none => none
      | some root => ensure { (d.markImplicit key) with root := root } key rest
    | some (.table _) | some (.tables _) => ensure d key rest
    | some _ => none

/-- Opens a table: a new one, or one that is only implicit so far. -/
def openTable (d : Document) (key : Key) : Option Document :=
  match d.ensure [] key, key.getLast? with
  | some d, some last => d.set key.dropLast last (.table [])
  | _, _ => none

/-- Opens a new table of an array of tables. -/
def openElement (d : Document) (key : Key) : Option Document :=
  match d.ensure [] key, key.getLast? with
  | some d, some last =>
    (d.root.modify (fun t =>
      match t.lookup last with
      | none => some (t.insert last (.tables [[]]))
      | some (.tables ts) => some (t.insert last (.tables ([] :: ts)))
      | some _ => none) key.dropLast).map fun root => { d with root := root }
  | _, _ => none

/-- Opens the tables that the parts of a dotted key name; the context of its last part. -/
def openParents (d : Document) (context : Key) : Key → Option (Key × Document)
  | [] => some (context, d)
  | [_] => some (context, d)
  | k :: rest =>
    let inner := context ++ [k]
    match (d.markImplicit inner).openTable inner with
    | none => none
    | some d => openParents d inner rest

def isArrayExpr : Expr → Bool
  | .array _ => true
  | _ => false

mutual

/-- The value of an expression that is assigned to `name` in the table at `context`, with the
document that it leaves. -/
def evaluate (context : Key) (name : Bytes) (inArray : Bool) (line : Nat) :
    Expr → Document → Option (Tree × Document)
  | .scalar v, d => some (.scalar v, d)
  | .array items, d =>
    (evaluateItems context name line items (d.note (noteKey context name) true line)).map
      fun (ts, d) => (.array ts, d)
  | .table entries, d =>
    let key := context ++ [name]
    let d := d.markImplicit key
    match if inArray then d.openElement key else d.openTable key with
    | none => none
    | some d => (evaluateEntries key line [] entries d).map fun (t, d) => (.table t, d)

def evaluateItems (context : Key) (name : Bytes) (line : Nat) :
    List Expr → Document → Option (List Tree × Document)
  | [], d => some ([], d)
  | e :: rest, d =>
    match evaluate context name true line e d with
    | none => none
    | some (t, d) => (evaluateItems context name line rest d).map fun (ts, d) => (t :: ts, d)

/-- The value of an inline table at `context` whose entries so far are `done`. -/
def evaluateEntries (context : Key) (line : Nat) (done : Table) :
    List Entry → Document → Option (Table × Document)
  | [], d => some (done, d)
  | .mk key value :: rest, d =>
    match d.openParents context key, key.getLast? with
    | some (inner, d), some last =>
      match evaluate inner last false line value d with
      | none => none
      | some (t, d) =>
        match d.set inner last t, done.put? t key with
        | some d, some done =>
          evaluateEntries context line done rest
            (d.note (noteKey inner last) (isArrayExpr value) line)
        | _, _ => none
    | _, _ => none

end

/-- Assigns to a key in the table at `context`. -/
def assign (d : Document) (context key : Key) (value : Expr) (line : Nat) : Option Document :=
  match d.openParents context key, key.getLast? with
  | some (inner, d), some last =>
    match evaluate inner last false line value d with
    | none => none
    | some (t, d) =>
      (d.set inner last t).map fun d => d.note (noteKey inner last) (isArrayExpr value) line
  | _, _ => none

/-- A statement that contradicts an earlier one: its line, the key it sets and the key that was being
worked on. -/
structure Clash where
  line : Nat
  key : Key
  last : Key
  deriving DecidableEq, Repr

/-- Carries out statements, the table of the last header being at `context`. -/
def run (context : Key) : List Statement → Document → Except Clash Document
  | [], d => .ok d
  | .table key line :: rest, d =>
    match d.openTable key with
    | none => .error ⟨line, key, key.dropLast⟩
    | some d => run key rest (d.note key false line)
  | .element key line :: rest, d =>
    match d.openElement key with
    | none => .error ⟨line, key, key.dropLast⟩
    | some d => run key rest (d.note key false line)
  | .assign key value line :: rest, d =>
    match d.assign context key value line with
    | none => .error ⟨line, context ++ key, context ++ key⟩
    | some d => run context rest d

/-- The tables of a file. -/
def ofStatements (ss : List Statement) : Except Clash Document := run [] ss empty

/-- The line of the value of a key; zero if it only came about on the way to another. -/
def line (d : Document) (key : Key) : Nat := (d.lines.lookup key).getD 0

end Document

end Toml

end Swiftlet
