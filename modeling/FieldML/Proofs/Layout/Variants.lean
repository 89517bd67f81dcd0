import FieldML.Coverage
import FieldML.Proofs.Check.Change
import FieldML.Proofs.Coverage.Matrix
import FieldML.Proofs.Layout.Ty

/-!
# Declared types without their ranges

What is declared, how often and with how many parts does not depend on ranges, and matches are
analyzed with nothing else.
-/

namespace FieldML

def VariantError.erase (e : VariantError) : VariantError := ⟨e.cause, .erased⟩

def Constructor.erase (c : Constructor) : Constructor := ⟨c.variant, c.params, Ty.eraseList c.args⟩

def TypeDefinition.erase : TypeDefinition → TypeDefinition
  | .variant params ctors => .variant params ctors
  | .synonym params body => .synonym params body.erase

theorem TypeDefinition.params_erase (d : TypeDefinition) : d.erase.params = d.params := by
  cases d <;> rfl

theorem Ty.erase_instantiateParams (params : List TypeVar) (args : List Ty) (t : Ty) :
    (t.instantiateParams params args).erase = t.erase.instantiateParams params (eraseList args) := by
  unfold instantiateParams
  induction params generalizing args t with
  | nil => rfl
  | cons v params ih =>
      cases args with
      | nil => rfl
      | cons u args =>
          rw [eraseList, List.zip_cons_cons, List.zip_cons_cons, List.foldl_cons, List.foldl_cons, ih,
            erase_substitute]

theorem Constructor.instantiateArgs_erase (c : Constructor) (ts : List Ty) :
    c.erase.instantiateArgs (Ty.eraseList ts) = Ty.eraseList (c.instantiateArgs ts) := by
  rw [instantiateArgs, instantiateArgs, erase, Ty.eraseList_eq_map c.args,
    Ty.eraseList_eq_map (List.map _ _), List.map_map, List.map_map]
  exact List.map_congr_left fun t _ => (Ty.erase_instantiateParams c.params ts t).symm

namespace VariantEnv

def erase (env : VariantEnv) : VariantEnv where
  definitions := env.definitions.map fun p => (p.1, p.2.erase)
  constructors := env.constructors.map fun p => (p.1, p.2.erase)

variable (env : VariantEnv)

theorem definition?_erase (name : String) :
    env.erase.definition? name = (env.definition? name).map TypeDefinition.erase :=
  Fields.get?_map ..

theorem constructor?_erase (name : String) :
    env.erase.constructor? name = (env.constructor? name).map Constructor.erase :=
  Fields.get?_map ..

theorem variantCtors?_erase (name : String) :
    env.erase.variantCtors? name = env.variantCtors? name := by
  rw [variantCtors?, variantCtors?, definition?_erase]
  rcases env.definition? name with _ | _ | _ <;> rfl

theorem lookupConstructor_erase (name : String) (r : Range) :
    env.erase.lookupConstructor name .erased =
      ((env.lookupConstructor name r).map Constructor.erase).mapError VariantError.erase := by
  rw [lookupConstructor, lookupConstructor, constructor?_erase]
  cases env.constructor? name <;> rfl

theorem define_erase (name : String) (d : TypeDefinition) (r : Range) :
    env.erase.define name d.erase .erased =
      ((env.define name d r).map erase).mapError VariantError.erase := by
  rw [define, define, definition?_erase, Option.isSome_map]
  split
  · rfl
  · exact congrArg (fun ds => Except.ok (VariantEnv.mk ds _)) (Fields.insert_map ..)

theorem addConstructor_erase (variant name : String) (args : List Ty) (r : Range) :
    env.erase.addConstructor variant name (Ty.eraseList args) .erased =
      ((env.addConstructor variant name args r).map erase).mapError VariantError.erase := by
  rw [addConstructor, addConstructor, constructor?_erase, Option.isSome_map, definition?_erase]
  split
  · rfl
  · rcases env.definition? variant with _ | ⟨params, ctors⟩ | ⟨params, body⟩
    · rfl
    · exact congrArg₂ (fun ds cs => Except.ok (VariantEnv.mk ds cs))
        (Fields.insert_map TypeDefinition.erase _ _ (.variant params (ctors ++ [name])))
        (Fields.insert_map Constructor.erase _ _ ⟨variant, params, args⟩)
    · rfl

theorem resolve_erase (name : String) (args : List Ty) (r : Range) :
    env.erase.resolve name (Ty.eraseList args) .erased =
      ((env.resolve name args r).map Ty.erase).mapError VariantError.erase := by
  rw [resolve, resolve, definition?_erase]
  cases env.definition? name with
  | none => rfl
  | some d =>
      have hlength : (Ty.eraseList args).length = args.length := by
        rw [Ty.eraseList_eq_map, List.length_map]
      simp only [Option.map_some, d.params_erase, hlength]
      split
      · rfl
      · cases d with
        | variant params ctors => rfl
        | «synonym» params body =>
            exact congrArg (fun t => Except.ok (Ty.synonym name _ t .erased))
              (Ty.erase_instantiateParams params args body).symm

end VariantEnv

namespace Coverage

variable (env : VariantEnv)

theorem signature_erase (h : Head) : signature env.erase h = signature env h := by
  cases h with
  | ctor name =>
      have hpart : (fun name => do
          let ctor ← env.erase.constructor? name
          return (Head.ctor name, ctor.args.length)) = fun name => do
          let ctor ← env.constructor? name
          return (Head.ctor name, ctor.args.length) := by
        funext name
        rw [env.constructor?_erase]
        cases env.constructor? name with
        | none => rfl
        | some c =>
            simp [Constructor.erase]
      simp only [signature, hpart]
      rw [env.constructor?_erase]
      cases env.constructor? name with
      | none => rfl
      | some c => exact congrArg (· >>= _) (env.variantCtors?_erase c.variant)
  | _ => rfl

theorem completeSignature_erase (hs : List Head) :
    completeSignature env.erase hs = completeSignature env hs := by
  simp only [completeSignature, signature_erase]

theorem lackingCase_erase (hs : List Head) : lackingCase env.erase hs = lackingCase env hs := by
  simp only [lackingCase, signature_erase]

theorem isUseful_erase (rows : Matrix) (row : Row) :
    isUseful env.erase rows row = isUseful env rows row := by
  induction rows, row using isUseful.induct env with
  | case1 rows => rw [isUseful, isUseful]
  | case2 rows h parts rest ih => rw [isUseful, isUseful, ih]
  | case3 rows rest sig hsig hcomplete ih =>
      rw [isUseful, isUseful, completeSignature_erase, hcomplete]
      exact congrArg (List.any sig.attach) (funext fun entry => ih entry.1 entry.2)
  | case4 rows rest hnone ih => rw [isUseful, isUseful, completeSignature_erase, hnone, ih]

theorem missing_erase (rows : Matrix) (width : Nat) :
    missing env.erase rows width = missing env rows width := by
  induction rows, width using missing.induct env with
  | case1 rows hempty | case2 rows hempty => rw [missing, missing]
  | case3 rows width sig hsig hcomplete ih =>
      rw [missing, missing, completeSignature_erase, hcomplete]
      refine congrArg (List.findSome? · sig.attach) (funext fun entry => ?_)
      exact congrArg (Option.map _) (ih entry.1 entry.2)
  | case4 rows width hnone ih =>
      rw [missing_of_incomplete hnone, missing_of_incomplete (hnone ▸ completeSignature_erase env _),
        ih, lackingCase_erase]

theorem analyze_erase (patterns : List CorePattern) :
    analyze env.erase patterns = analyze env patterns := by
  simp only [analyze, isUseful_erase, missing_erase]

end Coverage

end FieldML
