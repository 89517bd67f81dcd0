import FieldML.Ty
import Std.Data.TreeMap

/-!
# Kinds of variables

Variables without an entry have the universal kind.
-/

namespace FieldML

/-- The variable has a kind already. -/
structure AlreadyKinded where
  var : TypeVar
  deriving DecidableEq, Repr

/-- The fault in words. -/
def AlreadyKinded.message (e : AlreadyKinded) : String :=
  s!"type variable #{e.var} already has a kind"

/-- Kinds for some variables. -/
structure KindEnv where
  kinds : Std.TreeMap TypeVar Kind := ∅

namespace KindEnv

/-- No variable has an entry. -/
def empty : KindEnv := {}

instance : Inhabited KindEnv := ⟨empty⟩

/-- The kind of a variable. -/
def kindOf (env : KindEnv) (v : TypeVar) : Kind := env.kinds.getD v .universal

/-- How many variables have an entry. -/
def size (env : KindEnv) : Nat := env.kinds.size

/-- The number of nodes of all its kinds. -/
def weight (env : KindEnv) : Nat := env.kinds.foldl (fun n _ k => n + k.size + 1) 0

/-- Gives a kind to a variable that has no entry. -/
def extend (env : KindEnv) (v : TypeVar) (k : Kind) : Except AlreadyKinded KindEnv :=
  if env.kinds.contains v then .error ⟨v⟩ else .ok ⟨env.kinds.insert v k⟩

/-- Gives a variable another kind. -/
def refine (env : KindEnv) (v : TypeVar) (k : Kind) : KindEnv := ⟨env.kinds.insert v k⟩

theorem kindOf_refine (env : KindEnv) (v w : TypeVar) (k : Kind) :
    (env.refine v k).kindOf w = if v = w then k else env.kindOf w := by
  simp [kindOf, refine, Std.TreeMap.getD_insert]

end KindEnv

end FieldML
