import GraphClient.Operation.Shape
import Mathlib.Data.List.Basic

/-!
# The shape of a response, level by level

* **`Registry.resultShape_eq`**: a shape in terms of the shapes one level below.
-/

namespace GraphClient

open List Nat

variable {group : FieldGroup}

namespace FieldGroup

theorem entries_eq {first : Collected} {rest : List Collected} :
    group.entries = first :: rest ↔ group = ⟨first, rest⟩ := by
  obtain ⟨a, as⟩ := group
  simp [entries]

variable {fields : List Collected}

/-- **A group holds the fields of its key**, in order. -/
theorem mem_ofList : group ∈ ofList fields ↔
      group.entries = fields.filter fun entry => entry.field.responseKey == group.key := by
  induction fields generalizing group with
  | nil => simp [ofList, entries]
  | cons entry rest ih =>
    have hj : (((ofList rest).find? fun other => key other == entry.field.responseKey).map
        entries).getD [] = rest.filter fun other => other.field.responseKey == entry.field.responseKey := by
      cases hf : (ofList rest).find? fun other => key other == entry.field.responseKey with
      | some found =>
        have hk : found.key = entry.field.responseKey := by simpa using find?_some hf
        simpa [hk] using ih.mp (mem_of_find?_eq_some hf)
      | none =>
        cases hr : rest.filter fun other => other.field.responseKey == entry.field.responseKey with
        | nil => rfl
        | cons first more =>
          have hi : first.field.responseKey = entry.field.responseKey := by
            have : first ∈ rest.filter fun other =>
              other.field.responseKey == entry.field.responseKey := by rw [hr]; simp
            simpa using (mem_filter.mp this).2
          have hm : (⟨first, more⟩ : FieldGroup) ∈ ofList rest := ih.mpr (by simp only [key, hi, hr, entries])
          exact absurd (find?_eq_none.mp hf _ hm) (by simp [key, hi])
    change group ∈ put entry (ofList rest) ↔ _
    rw [put, hj, mem_cons, mem_filter, filter_cons]
    by_cases hk : entry.field.responseKey = group.key
    · rw [if_pos (by simpa using hk), entries_eq, hk]
      simp
    · rw [if_neg (by simpa using hk), ← ih]
      refine ⟨?_, fun h => Or.inr ⟨h, by simpa using Ne.symm hk⟩⟩
      rintro (rfl | h)
      · exact absurd rfl hk
      · exact h.1

theorem mem_entries (h : group ∈ ofList fields) {e : Collected} :
    e ∈ group.entries ↔ e ∈ fields ∧ e.field.responseKey = group.key := by
  rw [mem_ofList.mp h, mem_filter, beq_iff_eq]

theorem exists_mem_ofList {entry : Collected} (h : entry ∈ fields) :
    ∃ group ∈ ofList fields, group.key = entry.field.responseKey := by
  cases hf : fields.filter fun other => other.field.responseKey == entry.field.responseKey with
  | nil => exact absurd (filter_eq_nil_iff.mp hf entry h) (by simp)
  | cons first rest =>
    have hi : first.field.responseKey = entry.field.responseKey := by
      have : first ∈ fields.filter fun other =>
        other.field.responseKey == entry.field.responseKey := by rw [hf]; simp
      simpa using (mem_filter.mp this).2
    exact ⟨⟨first, rest⟩, mem_ofList.mpr (by simp only [key, hi, hf, entries]), hi⟩

theorem isConditional_eq_false : group.isConditional = false ↔ ∃ e ∈ group.entries, e.isConditional = false := by
  simp [isConditional]

theorem isNonNull_type : group.type.isNonNull ↔ group.first.field.type.isNonNull ∧
      ∃ e ∈ group.entries, e.isConditional = false := by
  rw [type, ← isConditional_eq_false]
  split_ifs with h <;> simp [h, TypeRef.nullable]

end FieldGroup

mutual

theorem ShapeField.same_iff : (a b : ShapeField) → (a.same b ↔ a = b)
  | ⟨key, name, type, shape⟩, ⟨key₂, name₂, type₂, shape₂⟩ => by
    simp [ShapeField.same, ResultShape.sameOption_iff shape shape₂, and_assoc]

theorem ShapeField.sameList_iff : (as bs : List ShapeField) → (ShapeField.sameList as bs ↔ as = bs)
  | [], [] | [], _ :: _ | _ :: _, [] => by simp [ShapeField.sameList]
  | a :: as, b :: bs => by
    simp [ShapeField.sameList, ShapeField.same_iff a b, ShapeField.sameList_iff as bs]

theorem ShapeVariant.same_iff : (a b : ShapeVariant) → (a.same b ↔ a = b)
  | ⟨type, fields⟩, ⟨type₂, fields₂⟩ => by
    simp [ShapeVariant.same, ShapeField.sameList_iff fields fields₂]

theorem ShapeVariant.sameList_iff : (as bs : List ShapeVariant) → (ShapeVariant.sameList as bs ↔ as = bs)
  | [], [] | [], _ :: _ | _ :: _, [] => by simp [ShapeVariant.sameList]
  | a :: as, b :: bs => by
    simp [ShapeVariant.sameList, ShapeVariant.same_iff a b, ShapeVariant.sameList_iff as bs]

theorem ResultShape.same_iff : (a b : ResultShape) → (a.same b ↔ a = b)
  | ⟨type, fields, vs⟩, ⟨type₂, fields₂, vs₂⟩ => by
    simp [ResultShape.same, ShapeField.sameList_iff fields fields₂, ShapeVariant.sameList_iff vs vs₂, and_assoc]

theorem ResultShape.sameOption_iff : (a b : Option ResultShape) → (ResultShape.sameOption a b ↔ a = b)
  | none, none | none, some _ | some _, none => by simp [ResultShape.sameOption]
  | some a, some b => by simp [ResultShape.sameOption, ResultShape.same_iff a b]

end

namespace BoundSelection

theorem depthOf_append (as bs : List BoundSelection) : depthOf (as ++ bs) = max (depthOf as) (depthOf bs) := by
  induction as with
  | nil => simp [depthOf]
  | cons a as ih => rw [cons_append, depthOf, depthOf, ih, Nat.max_assoc]

theorem depthOf_flatMap_le {α : Type} {f : α → List BoundSelection} {xs : List α} {n : ℕ}
    (h : ∀ x ∈ xs, depthOf (f x) ≤ n) : depthOf (xs.flatMap f) ≤ n := by
  induction xs with
  | nil => exact zero_le _
  | cons x xs ih =>
    rw [flatMap_cons, depthOf_append]
    exact Nat.max_le.mpr ⟨h x (by simp), ih fun y hy => h y (by simp [hy])⟩

end BoundSelection

namespace Registry

open BoundSelection

variable (registry : Registry)

mutual

variable {e : Collected}

theorem depthOf_lt_of_mem_collectOne (obj : String) (isCond : Bool) :
    (sel : BoundSelection) → e ∈ registry.collectOne obj isCond sel → depthOf e.selections < depth sel
  | .field head sels, h => by
    obtain rfl := mem_singleton.mp h
    exact lt_succ_self _
  | .fragment use sels, h => by
    rw [collectOne] at h
    split_ifs at h
    · exact depthOf_lt_of_mem_collectFrom obj _ sels h
    · cases h

theorem depthOf_lt_of_mem_collectFrom (obj : String) (isCond : Bool) :
    (sels : List BoundSelection) → e ∈ registry.collectFrom obj isCond sels → depthOf e.selections < depthOf sels
  | [], h => by cases h
  | sel :: rest, h => by
    rcases mem_append.mp h with h | h
    · exact Nat.lt_of_lt_of_le (depthOf_lt_of_mem_collectOne obj _ sel h) (Nat.le_max_left _ _)
    · exact Nat.lt_of_lt_of_le (depthOf_lt_of_mem_collectFrom obj _ rest h) (Nat.le_max_right _ _)

end

variable {selections : List BoundSelection}

theorem depthOf_group_lt {obj : String} (h : group ∈ FieldGroup.ofList (registry.collect obj selections)) :
    depthOf group.selections < depthOf selections := by
  have hl : ∀ e ∈ group.entries, depthOf e.selections < depthOf selections := fun e he =>
    depthOf_lt_of_mem_collectFrom registry obj false selections ((FieldGroup.mem_entries h).mp he).1
  have hf := hl group.first (by simp [FieldGroup.entries])
  refine Nat.lt_of_le_of_lt (depthOf_flatMap_le (n := depthOf selections - 1) fun e he => ?_) (by omega)
  have := hl e he
  omega

/-- The response key of a group, with `inner` for the shapes below. -/
def shapeKey (inner : String → List BoundSelection → ResultShape) (group : FieldGroup) : ShapeField where
  key := group.key
  name := group.first.field.name
  type := group.type
  shape :=
    if group.selections.isEmpty then none
    else some (inner group.first.field.type.name group.selections)

/-- The response keys of an object, with `inner` for the shapes below. -/
def shapeKeys (inner : String → List BoundSelection → ResultShape) (object : String)
    (selections : List BoundSelection) : List ShapeField :=
  (FieldGroup.ofList (registry.collect object selections)).map (shapeKey inner)

/-- One level of a shape, with `inner` for the shapes below. -/
def shapeLevel (inner : String → List BoundSelection → ResultShape) (type : String)
    (selections : List BoundSelection) : ResultShape :=
  match registry.variantTypes type with
  | [] => ⟨type, registry.shapeKeys inner type selections, []⟩
  | objects =>
    let variants := objects.map fun object => ⟨object, registry.shapeKeys inner object selections⟩
    ⟨type, sharedFields variants, variants⟩

theorem shapeWithin_succ (n : ℕ) (type : String) (selections : List BoundSelection) :
    registry.shapeWithin (n + 1) type selections = registry.shapeLevel (registry.shapeWithin n) type selections := rfl

theorem shapeLevel_congr {inner inner' : String → List BoundSelection → ResultShape} (type : String)
    (selections : List BoundSelection)
    (h : ∀ name deeper, depthOf deeper < depthOf selections → inner name deeper = inner' name deeper) :
    registry.shapeLevel inner type selections = registry.shapeLevel inner' type selections := by
  have hk : ∀ obj, registry.shapeKeys inner obj selections = registry.shapeKeys inner' obj selections := by
    intro obj
    refine map_congr_left fun group hg => ?_
    rw [shapeKey, shapeKey, h _ _ (registry.depthOf_group_lt hg)]
  simp only [shapeLevel, hk]

/-- Beyond the depth of the selections, more fuel changes nothing. -/
theorem shapeWithin_eq {n m : ℕ} {type : String} (hn : depthOf selections < n) (hm : depthOf selections < m) :
    registry.shapeWithin n type selections = registry.shapeWithin m type selections := by
  induction n generalizing m type selections with
  | zero => omega
  | succ n ih =>
    obtain ⟨m, rfl⟩ : ∃ k, m = k + 1 := ⟨m - 1, by omega⟩
    exact registry.shapeLevel_congr type selections fun name deeper hd => ih (by omega) (by omega)

theorem resultShape_eq (type : String) (selections : List BoundSelection) :
    registry.resultShape type selections = registry.shapeLevel registry.resultShape type selections := by
  exact registry.shapeLevel_congr type selections fun name deeper hd =>
    registry.shapeWithin_eq hd (lt_succ_self _)

@[simp] theorem type_resultShape (type : String) (sels : List BoundSelection) :
    (registry.resultShape type sels).type = type := by
  rw [resultShape_eq, shapeLevel]
  split <;> rfl

/-- The response keys of an object of the given type. -/
abbrev objectKeys (object : String) (selections : List BoundSelection) : List ShapeField :=
  registry.shapeKeys registry.resultShape object selections

theorem mem_sharedFields {f : ShapeField} {vs : List ShapeVariant} {v : ShapeVariant}
    (h : f ∈ sharedFields vs) (hv : v ∈ vs) : f ∈ v.fields := by
  cases vs with
  | nil => cases hv
  | cons first rest =>
    obtain ⟨hf, hr⟩ := mem_filter.mp h
    rcases mem_cons.mp hv with rfl | hv
    · exact hf
    · obtain ⟨other, ho, hs⟩ := any_eq_true.mp (all_eq_true.mp hr v hv)
      rwa [(ShapeField.same_iff f other).mp hs]

end Registry

end GraphClient
