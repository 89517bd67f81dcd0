import FieldML.Check.Basic
import FieldML.Core

/-!
# Patterns and their types

A pattern is checked against the type of the values it is tried on, and binds names to types, each
name once.
-/

namespace FieldML.Check

/-- The type of a constant. -/
def literalType (v : Literal) (range : Range) : Ty :=
  match v with
  | .unit => .base .unit range
  | .bool _ => .base .bool range
  | .int _ => .base .int range
  | .string _ => .base .string range

/-- The names that a pattern binds, in the order in which it binds them. -/
abbrev PatternBindings := List (String × Ty)

/-- Adds a name that the pattern must not have bound before. -/
def bindName (bindings : PatternBindings) (name : Ident) (t : Ty) : Check PatternBindings :=
  if bindings.any (·.1 = name.text) then fail (.duplicateBinding name.text) name.range
  else return bindings ++ [(name.text, t)]

/-- The type that a constructor makes, with new variables for the parameters, and the types of its
arguments. -/
def instantiateConstructor (ctor : Ident) : Check (Ty × List Ty) := do
  let c ← liftVariant ((← get).variants.lookupConstructor ctor.text ctor.range)
  let typeArgs ← c.params.mapM fun _ => fresh ctor.range
  return (.variant c.variant typeArgs ctor.range, c.instantiateArgs typeArgs)

/-- How many arguments a constructor pattern gives. -/
def givenPatterns : Option Pattern → Nat
  | none => 0
  | some (.tuple items _) => items.length
  | some _ => 1

mutual

/-- Checks a pattern against a type, and adds the names that it binds. -/
def pattern (expected : Ty) (bindings : PatternBindings) :
    Pattern → Check (CorePattern × PatternBindings)
  | .wildcard _ => return (.wildcard, bindings)
  | .var name => return (.var name.text, ← bindName bindings name expected)
  | .literal v range => do
      unify expected (literalType v range) range
      return (.literal v, bindings)
  | .tuple items range => do
      let types ← items.mapM fun item => fresh item.range
      unify expected (.product types range) range
      let (items, bindings) ← patterns types bindings items
      return (.tuple items, bindings)
  | .nil range => do
      let elem ← fresh range
      unify expected (.list elem range) range
      return (.nil, bindings)
  | .cons head tail range => do
      let elem ← fresh head.range
      let list := Ty.list elem range
      unify expected list range
      let (head, bindings) ← pattern elem bindings head
      let (tail, bindings) ← pattern list bindings tail
      return (.cons head tail, bindings)
  | .construct ctor arg range => do
      let (variant, types) ← instantiateConstructor ctor
      unify expected variant range
      let wrongArity : Check (CorePattern × PatternBindings) :=
        fail (.constructorArity ctor.text types.length (givenPatterns arg)) range
      match arg with
      | none => if types.isEmpty then return (.construct ctor.text [], bindings) else wrongArity
      | some arg =>
          match types with
          | [] => wrongArity
          | [type] =>
              let (arg, bindings) ← pattern type bindings arg
              return (.construct ctor.text [arg], bindings)
          | types =>
              match arg with
              | .wildcard _ =>
                  return (.construct ctor.text (types.map fun _ => .wildcard), bindings)
              | .tuple items _ =>
                  if items.length = types.length then
                    let (items, bindings) ← patterns types bindings items
                    return (.construct ctor.text items, bindings)
                  else wrongArity
              | _ => wrongArity
  | .alias inner name _ => do
      let (inner, bindings) ← pattern expected bindings inner
      return (.alias inner name.text, ← bindName bindings name expected)

/-- Checks some patterns against a type each. -/
def patterns (types : List Ty) (bindings : PatternBindings) :
    List Pattern → Check (List CorePattern × PatternBindings)
  | [] => return ([], bindings)
  | item :: items => do
      match types with
      | [] => return ([], bindings)
      | type :: types =>
          let (item, bindings) ← pattern type bindings item
          let (items, bindings) ← patterns types bindings items
          return (item :: items, bindings)

end

end FieldML.Check
