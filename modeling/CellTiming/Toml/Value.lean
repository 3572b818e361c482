/-! TOML values, and the tables of a document while its lines add to them. Where a
table came from decides what may still be added: one that only stands on the way to
another can be opened later, one made by a dotted key takes further dotted keys, and
one written inline is complete. -/
namespace CellTiming

inductive Toml.Origin
  | header
  /-- Named only on the way to another table. -/
  | passed
  | dotted
  | inline
deriving DecidableEq, Repr

inductive Toml
  | string (value : String)
  | integer (value : Int)
  | float (value : Float)
  | boolean (value : Bool)
  /-- A date, a time or both, as written. -/
  | dateTime (text : String)
  | array (items : List Toml)
  | table (origin : Toml.Origin) (fields : List (String × Toml))
  /-- The tables of one repeated header, the last one first. -/
  | tables (last : List (String × Toml)) (earlier : List (List (String × Toml)))
deriving Inhabited

namespace Toml

abbrev Fields := List (String × Toml)

def table? : Toml → Option Fields
  | table _ fields => some fields
  | _ => none

/-- The elements of an array, or the tables of a repeated header. -/
def elements? : Toml → Option (List Toml)
  | array items => some items
  | tables last earlier => some ((last :: earlier).reverse.map (table .header))
  | _ => none

namespace Fields

def get? (fields : Fields) (key : String) : Option Toml :=
  (fields.find? (·.1 == key)).map (·.2)

/-- Sets a field to what is made of its value. Fields keep their order, new ones come last. -/
def alter (fields : Fields) (key : String) (change : Option Toml → Option Toml) : Option Fields :=
  match fields with
  | [] => do return [(key, ← change none)]
  | (name, value) :: others =>
    if name = key then do return (key, ← change (some value)) :: others
    else do return (name, value) :: (← alter others key change)

/-- Adds a value under a key that is not there yet. -/
def add (fields : Fields) (key : String) (value : Toml) : Option Fields :=
  fields.alter key fun
    | none => some value
    | some _ => none

/-- Adds a value under a dotted key, given as the steps to its table and the name in it.
The table must have been made by dotted keys; those on the way need only not have been
opened by a header. -/
def addDotted (steps : List String) (key : String) (value : Toml) (fields : Fields) :
    Option Fields :=
  match steps with
  | [] => fields.add key value
  | step :: further =>
    fields.alter step fun
      | none => do return .table .dotted (← addDotted further key value [])
      | some (.table .dotted inner) => do
        return .table .dotted (← addDotted further key value inner)
      | some (.table .passed inner) =>
        if further.isEmpty then none
        else do return .table .passed (← addDotted further key value inner)
      | some (.tables last earlier) =>
        if further.isEmpty then none
        else do return .tables (← addDotted further key value last) earlier
      | some _ => none

/-- Opens and fills the table with the given name at the end of the steps. A header can
open what was only passed so far, or add one more table to those of a repeated header. -/
def openTable (fill : Fields → Option Fields) (repeated : Bool) (steps : List String)
    (key : String) (fields : Fields) : Option Fields :=
  match steps with
  | [] =>
    fields.alter key fun
      | none => do
        let filled ← fill []
        return if repeated then .tables filled [] else .table .header filled
      | some (.table .passed inner) =>
        if repeated then none else do return .table .header (← fill inner)
      | some (.tables last earlier) =>
        if repeated then do return .tables (← fill []) (last :: earlier) else none
      | some _ => none
  | step :: further =>
    fields.alter step fun
      | none => do return .table .passed (← openTable fill repeated further key [])
      | some (.table origin inner) =>
        if origin = .inline then none
        else do return .table origin (← openTable fill repeated further key inner)
      | some (.tables last earlier) => do
        return .tables (← openTable fill repeated further key last) earlier
      | some _ => none

end Fields

/-- A key as the steps to a table and the name in it. -/
structure Key where
  steps : List String
  name : String
deriving DecidableEq, Repr

/-- A key and its value on one line. -/
abbrev Pair := Key × Toml

/-- Adds the pairs one after the other. -/
def Fields.fill (pairs : List Pair) (fields : Fields) : Option Fields :=
  pairs.foldlM (fun fields (key, value) => fields.addDotted key.steps key.name value) fields

/-- What stands between two headers. -/
structure Section where
  key : Key
  repeated : Bool
  pairs : List Pair

/-- A document as the pairs before its first header, then its sections. -/
structure Document where
  pairs : List Pair
  sections : List Section

def Document.fields? (document : Document) : Option Fields := do
  let root ← Fields.fill document.pairs []
  document.sections.foldlM (fun fields s =>
    fields.openTable (Fields.fill s.pairs) s.repeated s.key.steps s.key.name) root

end Toml

end CellTiming
