/-!
# Tables of settings

The tree that a settings file describes. A table remembers how it came to be, since that decides
whether later lines may add to it.
-/

namespace FieldML

/-- How a table came to be. -/
inductive TableOrigin where
  /-- By a header for a table inside it. -/
  | outer
  /-- By a dotted key that leads through it. -/
  | dotted
  /-- By a header of its own. -/
  | header
  /-- As a value on one line, which nothing may be added to. -/
  | value
  deriving DecidableEq, Repr

/-- A value in a settings file. -/
inductive Toml where
  | text (value : String)
  | integer (value : Int)
  | boolean (value : Bool)
  | emptyList
  | table (origin : TableOrigin) (entries : List (String × Toml))
  deriving Inhabited

namespace Toml

/-- The entry with this key. -/
def find? (entries : List (String × Toml)) (key : String) : Option Toml := entries.lookup key

/-- The entries with one added, or changed in its place. -/
def put (key : String) (v : Toml) (entries : List (String × Toml)) : List (String × Toml) :=
  if (find? entries key).isSome then
    entries.map fun (k, w) => if k = key then (k, v) else (k, w)
  else entries ++ [(key, v)]

/-- The entries with a value under a dotted key. It may lead through tables that only dotted keys
and headers inside them have made, and must not end at an entry. -/
def assign : List String → Toml → List (String × Toml) → Option (List (String × Toml))
  | [], _, _ => none
  | [key], v, entries => if (find? entries key).isSome then none else some (put key v entries)
  | key :: path, v, entries =>
      match find? entries key with
      | none => do return put key (.table .dotted (← assign path v [])) entries
      | some (.table .dotted inner) => do
          return put key (.table .dotted (← assign path v inner)) entries
      | some (.table .outer inner) => do
          return put key (.table .outer (← assign path v inner)) entries
      | some _ => none

/-- The entries with `change` made in the table under a path, which is made if it is not there. -/
def inside (change : List (String × Toml) → Option (List (String × Toml))) :
    List String → List (String × Toml) → Option (List (String × Toml))
  | [], entries => change entries
  | key :: path, entries =>
      match find? entries key with
      | none => do return put key (.table .outer (← inside change path [])) entries
      | some (.table .value _) => none
      | some (.table origin inner) => do
          return put key (.table origin (← inside change path inner)) entries
      | some _ => none

/-- The entries with a table under a path opened by a header. A table can be opened once, and not if
dotted keys have made it. -/
def openTable (path : List String) (entries : List (String × Toml)) :
    Option (List (String × Toml)) :=
  match path.reverse with
  | [] => none
  | key :: outer =>
      inside (fun entries =>
        match find? entries key with
        | none => some (put key (.table .header []) entries)
        | some (.table .outer inner) => some (put key (.table .header inner) entries)
        | some _ => none) outer.reverse entries

end Toml

end FieldML
