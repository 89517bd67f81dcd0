import FieldML.Proofs.Unify.Rank

/-!
# Nodes of types

Comparing types makes no new nodes: every type that is met on the way is one of the types at the
start, as far as it has been resolved since.
-/

namespace FieldML

mutual

/-- The type and all types inside it. -/
def Ty.nodes : Ty → List Ty
  | .base b r => [.base b r]
  | .var v r => [.var v r]
  | .func p q r => .func p q r :: (p.nodes ++ q.nodes)
  | .list t r => .list t r :: t.nodes
  | .ref t r => .ref t r :: t.nodes
  | .product ts r => .product ts r :: Ty.nodesList ts
  | .variant n ts r => .variant n ts r :: Ty.nodesList ts
  | .synonym n ts t r => .synonym n ts t r :: (Ty.nodesList ts ++ t.nodes)
  | .all v k t r => [.all v k t r]
  | .record fs r => .record fs r :: Ty.nodesFields fs

/-- Some types and all types inside them. -/
def Ty.nodesList : List Ty → List Ty
  | [] => []
  | t :: ts => t.nodes ++ Ty.nodesList ts

/-- The types of some fields and all types inside them. -/
def Ty.nodesFields : List (String × Ty) → List Ty
  | [] => []
  | (_, t) :: fs => t.nodes ++ Ty.nodesFields fs

end

namespace Ty

variable {syn : Prop}

theorem self_mem_nodes (t : Ty) : t ∈ t.nodes := by
  cases t <;> simp [nodes]

theorem mem_nodesList {ts : List Ty} {x : Ty} : x ∈ nodesList ts ↔ ∃ t ∈ ts, x ∈ t.nodes := by
  induction ts with
  | nil => simp [nodesList]
  | cons t ts ih => simp [nodesList, ih]

theorem mem_nodesFields {fs : List (String × Ty)} {x : Ty} :
    x ∈ nodesFields fs ↔ ∃ p ∈ fs, x ∈ p.2.nodes := by
  induction fs with
  | nil => simp [nodesFields]
  | cons p fs ih => simp [nodesFields, ih]

theorem nodes_subset_of_mem_items {t u : Ty} (hu : u ∈ t.items) : u.nodes ⊆ t.nodes := by
  intro x hx
  cases t with
  | base | var | synonym | all => exact absurd hu List.not_mem_nil
  | func p q r =>
      simp only [items, List.mem_cons, List.not_mem_nil, or_false] at hu
      rcases hu with rfl | rfl <;> simp [nodes, hx]
  | list t r | ref t r =>
      obtain rfl := List.mem_singleton.1 hu
      exact List.mem_cons_of_mem _ hx
  | product ts r | variant n ts r =>
      exact List.mem_cons_of_mem _ (mem_nodesList.2 ⟨u, hu, hx⟩)
  | record fs r =>
      obtain ⟨p, hp, rfl⟩ := List.mem_map.1 hu
      exact List.mem_cons_of_mem _ (mem_nodesFields.2 ⟨p, hp, hx⟩)

mutual

theorem length_nodes_le (t : Ty) : t.nodes.length ≤ t.size := by
  match t with
  | base _ _ | var _ _ => simp [nodes, size]
  | func p q _ =>
      have := length_nodes_le p
      have := length_nodes_le q
      simp only [nodes, size, List.length_cons, List.length_append]
      omega
  | list t _ | ref t _ =>
      have := length_nodes_le t
      simp only [nodes, size, List.length_cons]
      omega
  | product ts _ | variant _ ts _ =>
      have := length_nodesList_le ts
      simp only [nodes, size, List.length_cons]
      omega
  | synonym _ ts t _ =>
      have := length_nodesList_le ts
      have := length_nodes_le t
      simp only [nodes, size, List.length_cons, List.length_append]
      omega
  | all _ k t _ => simp [nodes, size]
  | record fs _ =>
      have := length_nodesFields_le fs
      simp only [nodes, size, List.length_cons]
      omega

theorem length_nodesList_le (ts : List Ty) : (nodesList ts).length ≤ sizeList ts := by
  match ts with
  | [] => simp [nodesList]
  | t :: ts =>
      have := length_nodes_le t
      have := length_nodesList_le ts
      simp only [nodesList, sizeList, List.length_append]
      omega

theorem length_nodesFields_le (fs : List (String × Ty)) :
    (nodesFields fs).length ≤ sizeFields fs := by
  match fs with
  | [] => simp [nodesFields]
  | (_, t) :: fs =>
      have := length_nodes_le t
      have := length_nodesFields_le fs
      simp only [nodesFields, sizeFields, List.length_append]
      omega

end

theorem Simple.of_mem_nodes {t x : Ty} (ht : t.Simple syn) (hx : x ∈ t.nodes) : x.Simple syn := by
  induction ht with
  | base b r => exact List.mem_singleton.1 hx ▸ .base b r
  | var v r => exact List.mem_singleton.1 hx ▸ .var v r
  | func r hp hq ihp ihq =>
      rcases List.mem_cons.1 hx with rfl | hx
      · exact .func r hp hq
      · exact (List.mem_append.1 hx).elim ihp ihq
  | list r ht ih =>
      rcases List.mem_cons.1 hx with rfl | hx
      · exact .list r ht
      · exact ih hx
  | ref r ht ih =>
      rcases List.mem_cons.1 hx with rfl | hx
      · exact .ref r ht
      · exact ih hx
  | product r hts ih =>
      rcases List.mem_cons.1 hx with rfl | hx
      · exact .product r hts
      · obtain ⟨t, ht, hx⟩ := mem_nodesList.1 hx
        exact ih t ht hx
  | variant n r hts ih =>
      rcases List.mem_cons.1 hx with rfl | hx
      · exact .variant n r hts
      · obtain ⟨t, ht, hx⟩ := mem_nodesList.1 hx
        exact ih t ht hx
  | synonym n r hsyn hts ht hvars ihts iht =>
      rcases List.mem_cons.1 hx with rfl | hx
      · exact .synonym n r hsyn hts ht hvars
      · rcases List.mem_append.1 hx with hx | hx
        · obtain ⟨t, ht, hx⟩ := mem_nodesList.1 hx
          exact ihts t ht hx
        · exact iht hx
  | record r hsorted hfs ih =>
      rcases List.mem_cons.1 hx with rfl | hx
      · exact .record r hsorted hfs
      · obtain ⟨p, hp, hx⟩ := mem_nodesFields.1 hx
        exact ih p hp hx

/-- Every free variable of a simple type is a node of it. -/
theorem Simple.exists_var_mem_nodes {t : Ty} (ht : t.Simple syn) {v : TypeVar}
    (hv : v ∈ t.freeVars) : ∃ r, Ty.var v r ∈ t.nodes := by
  induction ht with
  | base b r => simp at hv
  | var w r => exact ⟨r, by rw [mem_freeVars_var.1 hv]; exact self_mem_nodes _⟩
  | func r hp hq ihp ihq =>
      rcases mem_freeVars_func.1 hv with hv | hv
      · obtain ⟨r', hr⟩ := ihp hv
        exact ⟨r', by simp [nodes, hr]⟩
      · obtain ⟨r', hr⟩ := ihq hv
        exact ⟨r', by simp [nodes, hr]⟩
  | list r ht ih =>
      obtain ⟨r', hr⟩ := ih hv
      exact ⟨r', List.mem_cons_of_mem _ hr⟩
  | ref r ht ih =>
      obtain ⟨r', hr⟩ := ih hv
      exact ⟨r', List.mem_cons_of_mem _ hr⟩
  | product r hts ih =>
      obtain ⟨t, ht, hv⟩ := mem_freeVars_product.1 hv
      obtain ⟨r', hr⟩ := ih t ht hv
      exact ⟨r', List.mem_cons_of_mem _ (mem_nodesList.2 ⟨t, ht, hr⟩)⟩
  | variant n r hts ih =>
      obtain ⟨t, ht, hv⟩ := mem_freeVars_variant.1 hv
      obtain ⟨r', hr⟩ := ih t ht hv
      exact ⟨r', List.mem_cons_of_mem _ (mem_nodesList.2 ⟨t, ht, hr⟩)⟩
  | synonym n r hsyn hts ht hvars ihts iht =>
      obtain ⟨t, ht, hv⟩ := mem_freeVars_synonym.1 hv
      obtain ⟨r', hr⟩ := ihts t ht hv
      exact ⟨r', List.mem_cons_of_mem _ (List.mem_append_left _ (mem_nodesList.2 ⟨t, ht, hr⟩))⟩
  | record r hsorted hfs ih =>
      obtain ⟨p, hp, hv⟩ := mem_freeVars_record.1 hv
      obtain ⟨r', hr⟩ := ih p hp hv
      exact ⟨r', List.mem_cons_of_mem _ (mem_nodesFields.2 ⟨p, hp, hr⟩)⟩

end Ty

namespace Solver

variable {syn : Prop} {nodes : List Ty} {s s' : Solver} {t : Ty} {v : TypeVar} {k : Kind}

/-- Every node of the type is one of the given nodes, as far as is known. -/
def Covers (nodes : List Ty) (s : Solver) (t : Ty) : Prop :=
  ∀ x ∈ t.nodes, ∃ m ∈ nodes, s.subst.apply m = s.subst.apply x

/-- The types of all variables and of the fields of all kinds are covered. -/
structure Within (nodes : List Ty) (s : Solver) : Prop where
  binding : ∀ v t, s.subst.find? v = some t → s.Covers nodes t
  kind : ∀ v, ∀ p ∈ (s.kindOf v).fields, s.Covers nodes p.2

namespace Covers

theorem expand {t : Ty} (h : s.Covers nodes t) : s.Covers nodes t.expand := by
  match t with
  | .synonym _ ts body _ =>
      rw [Ty.expand]
      refine expand fun x hx => h x ?_
      exact List.mem_cons_of_mem _ (List.mem_append_right _ hx)
  | .base _ _ | .var _ _ | .func _ _ _ | .list _ _ | .ref _ _ | .product _ _ | .variant _ _ _
  | .all _ _ _ _ | .record _ _ => exact h

theorem extend (h : s.Covers nodes t) (hs : s.Proper syn) (hs' : s'.Proper syn)
    (hext : s.subst.ExtendedBy s'.subst) (hnodes : ∀ m ∈ nodes, m.Simple syn)
    (ht : t.Simple syn) : s'.Covers nodes t := by
  intro x hx
  obtain ⟨m, hm, heq⟩ := h x hx
  refine ⟨m, hm, ?_⟩
  rw [← hs.triangular.apply_apply hs'.triangular hext (hnodes m hm), heq,
    hs.triangular.apply_apply hs'.triangular hext (ht.of_mem_nodes hx)]

/-- Resolving a covered type leads to a covered type. -/
theorem apply (h : s.Covers nodes t) (hs : s.Proper syn) (hwithin : s.Within nodes)
    (ht : t.Simple syn) : s.Covers nodes (s.subst.apply t) := by
  have hself : ∀ t : Ty, t.Simple syn → s.Covers nodes t →
      ∃ m ∈ nodes, s.subst.apply m = s.subst.apply (s.subst.apply t) := by
    intro t ht h
    rw [hs.triangular.apply_apply hs.triangular (.refl _) ht]
    exact h t t.self_mem_nodes
  have hchildren : ∀ (t : Ty) (xs : List Ty), t.Simple syn → s.Covers nodes t →
      (∀ x ∈ xs, ∃ m ∈ nodes, s.subst.apply m = s.subst.apply x) →
      (s.subst.apply t).nodes = s.subst.apply t :: xs → s.Covers nodes (s.subst.apply t) := by
    intro t xs ht h hxs heq x hx
    rw [heq] at hx
    rcases List.mem_cons.1 hx with rfl | hx
    · exact hself t ht h
    · exact hxs x hx
  revert h
  refine hs.triangular.induction
    (P := fun t => t.Simple syn → s.Covers nodes t → s.Covers nodes (s.subst.apply t))
    ?free ?bound ?base ?func ?list ?ref ?product ?variant ?synonym ?record t ht ht
  case free =>
    intro v r hv _ h
    rwa [Substitution.apply_var_of_none hv]
  case bound =>
    intro v r t hv ih _ _
    rw [hs.triangular.apply_var_of_some hv]
    exact ih (hs.triangular.simple v t hv) (hwithin.binding v t hv)
  case base => exact fun b r _ h => h
  case func =>
    intro p q r ihp ihq hsimple h
    refine hchildren _ _ hsimple h (fun x hx => ?_) rfl
    cases hsimple with
    | func _ hp hq =>
        rcases List.mem_append.1 hx with hx | hx
        · exact ihp hp (fun y hy => h y (by simp [Ty.nodes, hy])) x hx
        · exact ihq hq (fun y hy => h y (by simp [Ty.nodes, hy])) x hx
  case list =>
    intro t r ih hsimple h
    refine hchildren _ _ hsimple h (fun x hx => ?_) rfl
    cases hsimple with
    | list _ ht => exact ih ht (fun y hy => h y (List.mem_cons_of_mem _ hy)) x hx
  case ref =>
    intro t r ih hsimple h
    refine hchildren _ _ hsimple h (fun x hx => ?_) rfl
    cases hsimple with
    | ref _ ht => exact ih ht (fun y hy => h y (List.mem_cons_of_mem _ hy)) x hx
  case product =>
    intro ts r ih hsimple h
    refine hchildren _ _ hsimple h (fun x hx => ?_) (by rw [Substitution.apply_product, Ty.nodes])
    obtain ⟨_, hmem, hx⟩ := Ty.mem_nodesList.1 hx
    obtain ⟨t, ht, rfl⟩ := List.mem_map.1 hmem
    cases hsimple with
    | product _ hts =>
        exact ih t ht (hts t ht)
          (fun y hy => h y (List.mem_cons_of_mem _ (Ty.mem_nodesList.2 ⟨t, ht, hy⟩))) x hx
  case variant =>
    intro n ts r ih hsimple h
    refine hchildren _ _ hsimple h (fun x hx => ?_) (by rw [Substitution.apply_variant, Ty.nodes])
    obtain ⟨_, hmem, hx⟩ := Ty.mem_nodesList.1 hx
    obtain ⟨t, ht, rfl⟩ := List.mem_map.1 hmem
    cases hsimple with
    | variant _ _ hts =>
        exact ih t ht (hts t ht)
          (fun y hy => h y (List.mem_cons_of_mem _ (Ty.mem_nodesList.2 ⟨t, ht, hy⟩))) x hx
  case synonym =>
    intro n ts t r hsyn ihts iht hvars hsimple h
    refine hchildren _ _ hsimple h (fun x hx => ?_) (by rw [Substitution.apply_synonym, Ty.nodes])
    cases hsimple with
    | synonym _ _ _ hts ht _ =>
        rcases List.mem_append.1 hx with hx | hx
        · obtain ⟨_, hmem, hx⟩ := Ty.mem_nodesList.1 hx
          obtain ⟨u, hu, rfl⟩ := List.mem_map.1 hmem
          refine ihts u hu (hts u hu) (fun y hy => h y ?_) x hx
          exact List.mem_cons_of_mem _ (List.mem_append_left _ (Ty.mem_nodesList.2 ⟨u, hu, hy⟩))
        · refine iht ht (fun y hy => h y ?_) x hx
          exact List.mem_cons_of_mem _ (List.mem_append_right _ hy)
  case record =>
    intro fs r hsorted ih hsimple h
    refine hchildren _ _ hsimple h (fun x hx => ?_) (by rw [Substitution.apply_record, Ty.nodes])
    obtain ⟨_, hmem, hx⟩ := Ty.mem_nodesFields.1 hx
    obtain ⟨p, hp, rfl⟩ := List.mem_map.1 hmem
    cases hsimple with
    | record _ _ hfs =>
        exact ih p hp (hfs p hp)
          (fun y hy => h y (List.mem_cons_of_mem _ (Ty.mem_nodesFields.2 ⟨p, hp, hy⟩))) x hx

theorem head (h : s.Covers nodes t) (hs : s.Proper syn) (hwithin : s.Within nodes)
    (ht : t.Simple syn) : s.Covers nodes (s.head t) :=
  (h.apply hs hwithin ht).expand

end Covers

theorem Within.assign (h : s.Within nodes) (hs : s.Proper syn) (hs' : (s.assign v t).Proper syn)
    (hv : s.subst.find? v = none) (hnodes : ∀ m ∈ nodes, m.Simple syn) (ht : t.Simple syn)
    (hcov : s.Covers nodes t) : (s.assign v t).Within nodes where
  binding w u hw := by
    rw [subst_assign, Substitution.find?_bind] at hw
    split at hw
    · exact Option.some.inj hw ▸ hcov.extend hs hs' (Substitution.extendedBy_bind hv) hnodes ht
    · exact (h.binding w u hw).extend hs hs' (Substitution.extendedBy_bind hv) hnodes
        (hs.triangular.simple w u hw)
  kind w p hp := (h.kind w p hp).extend hs hs' (Substitution.extendedBy_bind hv) hnodes
    ((hs.kind w).2 p hp)

theorem Within.strengthen (h : s.Within nodes) (hk : ∀ p ∈ k.fields, s.Covers nodes p.2) :
    (s.strengthen v k).Within nodes := by
  cases k with
  | universal => exact h
  | record fs =>
      refine ⟨h.binding, fun w => ?_⟩
      rw [Solver.strengthen, kindOf_refine]
      split
      · exact hk
      · exact h.kind w

end Solver

namespace Unify

open Solver

variable {syn : Prop} {h : TypeVar → Nat} {nodes : List Ty} {s s' : Solver} {t u : Ty} {k l : Kind}
  {ps : List (Ty × Ty)} {n : Nat} {r : Option Reason}

/-- The types of all pairs are covered. -/
def AllCovered (nodes : List Ty) (s : Solver) (ps : List (Ty × Ty)) : Prop :=
  ∀ p ∈ ps, s.Covers nodes p.1 ∧ s.Covers nodes p.2

theorem AllCovered.head {p : Ty × Ty} (hps : AllCovered nodes s (p :: ps)) :
    AllCovered nodes s [p] := fun _ hq => hps _ (by simpa using Or.inl hq)

theorem AllCovered.tail {p : Ty × Ty} (hps : AllCovered nodes s (p :: ps)) :
    AllCovered nodes s ps := fun _ hq => hps _ (List.mem_cons_of_mem _ hq)

theorem AllCovered.extend (h : AllCovered nodes s ps) (hs : s.Proper syn) (hs' : s'.Proper syn)
    (hext : s.subst.ExtendedBy s'.subst) (hnodes : ∀ m ∈ nodes, m.Simple syn)
    (hps : AllSimple syn ps) : AllCovered nodes s' ps := fun p hp =>
  ⟨(h p hp).1.extend hs hs' hext hnodes (hps p hp).1,
    (h p hp).2.extend hs hs' hext hnodes (hps p hp).2⟩

theorem parts_covered (ht : s.Covers nodes t) (hu : s.Covers nodes u) :
    AllCovered nodes s (parts t u).1 := fun _ hp =>
  ⟨fun x hx => ht x (Ty.nodes_subset_of_mem_items (mem_items_of_mem_parts hp).1 hx),
    fun x hx => hu x (Ty.nodes_subset_of_mem_items (mem_items_of_mem_parts hp).2 hx)⟩

theorem kindPairs_covered (hk : ∀ p ∈ k.fields, s.Covers nodes p.2) (ht : s.Covers nodes t) :
    AllCovered nodes s (kindPairs k t).1 := by
  intro p hp
  obtain ⟨n, fs, r, rfl, hn, hget⟩ := mem_kindPairs hp
  exact ⟨hk _ hn, fun x hx => ht x
    (List.mem_cons_of_mem _ (Ty.mem_nodesFields.2 ⟨_, Fields.mem_of_get? hget, hx⟩))⟩

theorem sharedPairs_covered (hk : ∀ p ∈ k.fields, s.Covers nodes p.2)
    (hl : ∀ p ∈ l.fields, s.Covers nodes p.2) : AllCovered nodes s (sharedPairs k l) := by
  intro p hp
  obtain ⟨n, hget, hn⟩ := mem_sharedPairs hp
  exact ⟨hk _ (Fields.mem_of_get? hget), hl _ hn⟩

end Unify

end FieldML
