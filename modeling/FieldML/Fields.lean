/-!
# Named fields

Records, record types and record kinds list their fields in ascending order of the names, each name
once. Names are compared code point by code point.
-/

namespace FieldML.Fields

variable {α β : Type}

/-- The names, in order. -/
def names (fields : List (String × α)) : List String := fields.map (·.1)

/-- What is stored under a name. -/
def get? : List (String × α) → String → Option α
  | [], _ => none
  | (other, a) :: rest, name => if other = name then some a else get? rest name

/-- The fields with one added, or changed if the name is there. -/
def insert (name : String) (a : α) : List (String × α) → List (String × α)
  | [] => [(name, a)]
  | (other, b) :: rest =>
      if name < other then (name, a) :: (other, b) :: rest
      else if name = other then (name, a) :: rest
      else (other, b) :: insert name a rest

/-- The fields of a list, of which the last one counts for each name. -/
def ofList (entries : List (String × α)) : List (String × α) :=
  entries.foldl (fun fields entry => insert entry.1 entry.2 fields) []

/-- The fields are in ascending order. -/
def Sorted (fields : List (String × α)) : Prop := (names fields).Pairwise (· < ·)

theorem get?_insert (fields : List (String × α)) (name other : String) (a : α) :
    get? (insert name a fields) other =
      if name = other then some a else get? fields other := by
  induction fields with
  | nil => simp [insert, get?]
  | cons field rest ih =>
      obtain ⟨key, b⟩ := field
      unfold insert
      split
      · simp [get?]
      · split
        · next h => by_cases hk : key = other <;> simp [get?, h, hk]
        · next h =>
            by_cases hk : key = other
            · subst hk
              simp [get?, h]
            · simp [get?, hk, ih]

end FieldML.Fields
