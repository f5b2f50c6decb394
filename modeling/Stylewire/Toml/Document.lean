import Stylewire.Toml.Value

set_option autoImplicit false

/-! # The tables of a TOML document while it is read

Tables come into being in three ways: by their own header, as the parents of a table with a
header, and by keys with dots. No table may be defined twice, so how a table came into being
decides what may still be added to it.
-/

namespace Stylewire.Toml

/-- How a table came into being. -/
inductive TableOrigin
  /-- By its own header. -/
  | header
  /-- As the parent of a table with a header. -/
  | parent
  /-- By a key with dots, or as a parent that such a key leads through. -/
  | dotted
deriving Repr, DecidableEq

/-- What a key stands for while the document is read. -/
inductive Entry
  /-- A value that is complete, an array or a table in braces among them. -/
  | value (v : Value)
  /-- A table that may still grow. -/
  | table (origin : TableOrigin) (entries : List (Text × Entry))
  /-- An array of tables with headers: those that are complete, and the one that may still
  grow. -/
  | tables (done : List Value) (last : List (Text × Entry))

/-- The entries of a table. -/
abbrev Entries := List (Text × Entry)

namespace Entry

mutual

/-- The value of an entry. -/
def toValue : Entry → Value
  | .value v => v
  | .table _ entries => .table (toValues entries)
  | .tables done last => .array (done ++ [.table (toValues last)])

/-- The values of the entries of a table. -/
def toValues : List (Text × Entry) → List (Text × Value)
  | [] => []
  | (k, e) :: es => (k, e.toValue) :: toValues es

end

end Entry

namespace Entries

/-- The entry with the given key. -/
def get? (es : Entries) (k : Text) : Option Entry := (es.find? fun e => e.1 == k).map Prod.snd

/-- The entries with the given key set; a new key comes last. -/
def set (k : Text) (e : Entry) : Entries → Entries
  | [] => [(k, e)]
  | x :: es => if x.1 = k then (k, e) :: es else x :: set k e es

/-- Changes the table that a header leads to. -/
def update (f : Entries → Option Entries) : (path : List Text) → Entries → Option Entries
  | [], es => f es
  | k :: path, es =>
      match get? es k with
      | some (.table origin sub) =>
          (update f path sub).map fun sub => set k (.table origin sub) es
      | some (.tables done last) =>
          (update f path last).map fun last => set k (.tables done last) es
      | _ => none

/-- Changes the entry at the end of a header's path. Parents that are not there yet are
made. -/
def define (f : Option Entry → Option Entry) : (path : List Text) → Entries → Option Entries
  | [], _ => none
  | [k], es => (f (get? es k)).map fun e => set k e es
  | k :: k' :: path, es =>
      match get? es k with
      | none => (define f (k' :: path) []).map fun sub => set k (.table .parent sub) es
      | some (.table origin sub) =>
          (define f (k' :: path) sub).map fun sub => set k (.table origin sub) es
      | some (.tables done last) =>
          (define f (k' :: path) last).map fun last => set k (.tables done last) es
      | some (.value _) => none

/-- Opens the table of a header. It may be there only as a parent of others. -/
def openTable (path : List Text) (es : Entries) : Option Entries :=
  define (fun
    | none => some (.table .header [])
    | some (.table .parent sub) => some (.table .header sub)
    | some _ => none) path es

/-- Opens the next table of an array of tables. -/
def openTables (path : List Text) (es : Entries) : Option Entries :=
  define (fun
    | none => some (.tables [] [])
    | some (.tables done last) => some (.tables (done ++ [.table (Entry.toValues last)]) [])
    | some _ => none) path es

/-- Gives a key with dots a value. The tables on the way are made, or they are there without
a header of their own, and from then on count as made by a key with dots. The way may lead
through the last table of an array of tables, but may not end there: `closed` says that the
table at hand is such a one. -/
def insertDotted (v : Value) (closed : Bool) : (path : List Text) → Entries → Option Entries
  | [], _ => none
  | [k], es => if closed || (get? es k).isSome then none else some (set k (.value v) es)
  | k :: k' :: path, es =>
      match get? es k with
      | none =>
          (insertDotted v false (k' :: path) []).map fun sub => set k (.table .dotted sub) es
      | some (.table .header _) => none
      | some (.table _ sub) =>
          (insertDotted v false (k' :: path) sub).map fun sub => set k (.table .dotted sub) es
      | some (.tables done last) =>
          (insertDotted v true (k' :: path) last).map fun last => set k (.tables done last) es
      | some (.value _) => none

/-- Gives a key, with or without dots, a value. -/
def insert (path : List Text) (v : Value) (es : Entries) : Option Entries :=
  insertDotted v false path es

end Entries

end Stylewire.Toml
