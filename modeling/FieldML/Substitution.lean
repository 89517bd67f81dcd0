import FieldML.Ty.Vars
import Std.Data.TreeMap

/-!
# Substitutions

A substitution gives types to some variables. The types may hold variables that are given types in
turn, so applying it follows the variables until none of them is left. No variable is followed
more often than there are bindings, which is enough unless a variable leads back to itself.
-/

namespace FieldML

/-- Types for some variables. -/
structure Substitution where
  bindings : Std.TreeMap TypeVar Ty := ∅

namespace Substitution

/-- The substitution that changes nothing. -/
def empty : Substitution := {}

instance : Inhabited Substitution := ⟨empty⟩

/-- The type given to a variable, as it was when it was given. -/
def find? (s : Substitution) (v : TypeVar) : Option Ty := s.bindings[v]?

/-- The substitution that also gives `t` to `v`. -/
def bind (s : Substitution) (v : TypeVar) (t : Ty) : Substitution := ⟨s.bindings.insert v t⟩

/-- How many variables are given a type. -/
def size (s : Substitution) : Nat := s.bindings.size

/-- The number of nodes of all its types. -/
def weight (s : Substitution) : Nat := s.bindings.foldl (fun n _ t => n + t.size + 1) 0

/-- What a variable stands for when variables are followed up to `n` times in a row. -/
def follow (s : Substitution) : Nat → Replacement
  | 0, _, v, r => .var v r
  | n + 1, bound, v, r =>
      if v ∈ bound then .var v r
      else match s.find? v with
        | some t => t.mapVars (s.follow n) bound
        | none => .var v r

/-- The type with every variable followed. -/
def apply (s : Substitution) (t : Ty) : Ty := t.mapVars (s.follow s.size) []

/-- The kind with every variable followed. -/
def applyKind (s : Substitution) (k : Kind) : Kind := k.mapVars (s.follow s.size) []

theorem find?_bind (s : Substitution) (v w : TypeVar) (t : Ty) :
    (s.bind v t).find? w = if v = w then some t else s.find? w := by
  simp [find?, bind, Std.TreeMap.getElem?_insert]

end Substitution

end FieldML
