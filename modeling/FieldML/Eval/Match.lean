import FieldML.Value

/-!
# Matching

Which values a pattern accepts, and what its names are bound to.
-/

namespace FieldML

namespace Literal

/-- Whether the value is this constant. -/
def matchesValue : Literal → Value → Bool
  | .unit, .unit => true
  | .bool a, .bool b => a = b
  | .int a, .int b => a = b
  | .string a, .string b => a = b
  | _, _ => false

end Literal

namespace CorePattern

mutual

/-- The names that the pattern binds on this value, the latest first, after those bound before;
nothing if the pattern does not accept the value. -/
def bindings? : CorePattern → Value → List (String × Value) → Option (List (String × Value))
  | .wildcard, _, bound => some bound
  | .var x, v, bound => some ((x, v) :: bound)
  | .literal l, v, bound => if l.matchesValue v then some bound else none
  | .tuple ps, v, bound =>
      match v with
      | .tuple vs => if vs.length = ps.length then allBindings? ps vs bound else none
      | _ => none
  | .nil, v, bound =>
      match v with
      | .list [] => some bound
      | _ => none
  | .cons p q, v, bound =>
      match v with
      | .list (w :: ws) => do q.bindings? (.list ws) (← p.bindings? w bound)
      | _ => none
  | .construct c ps, v, bound =>
      match v with
      | .construct d vs =>
          if d = c ∧ ps.length = vs.length then allBindings? ps vs bound else none
      | _ => none
  | .alias p x, v, bound => do return (x, v) :: (← p.bindings? v bound)

/-- The names that some patterns bind on a value each. -/
def allBindings? :
    List CorePattern → List Value → List (String × Value) → Option (List (String × Value))
  | p :: ps, vs, bound =>
      match vs with
      | v :: vs => do allBindings? ps vs (← p.bindings? v bound)
      | [] => some bound
  | [], _, bound => some bound

end

end CorePattern

end FieldML
