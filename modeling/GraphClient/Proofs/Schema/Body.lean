import GraphClient.Proofs.Order
import GraphClient.Proofs.Relocate
import GraphClient.Schema.Build

/-!
# The parts of a type

A type declares references, fields, enum values or input fields, by its kind. Extensions are merged part by
part.

* **`TypeBody.ext_parts`**: a body is given by its kind and its parts.
-/

namespace GraphClient

open TypeBody List

namespace TypeBody

def refs : TypeBody → List NamedRef
  | .object implements _ => implements
  | .interface implements _ => implements
  | .union members => members
  | _ => []

def fields : TypeBody → List FieldDefinition
  | .object _ fields => fields
  | .interface _ fields => fields
  | _ => []

def values : TypeBody → List EnumValueDefinition
  | .enum values => values
  | _ => []

def inputs : TypeBody → List InputValueDefinition
  | .inputObject fields => fields
  | _ => []

theorem ext_parts {a b : TypeBody} (hk : a.kind = b.kind) (hr : a.refs = b.refs)
    (hf : a.fields = b.fields) (hv : a.values = b.values) (hi : a.inputs = b.inputs) : a = b := by
  cases a <;> cases b <;> simp_all [kind, refs, fields, values, inputs]

section Relocate

variable (move : Location → Location) (body : TypeBody)

@[simp] theorem refs_relocate : (body.relocate move).refs = body.refs.map (.relocate move) := by
  cases body <;> rfl

@[simp] theorem fields_relocate : (body.relocate move).fields = body.fields.map (.relocate move) := by
  cases body <;> rfl

@[simp] theorem values_relocate :
    (body.relocate move).values = body.values.map (.relocate move) := by
  cases body <;> rfl

@[simp] theorem inputs_relocate :
    (body.relocate move).inputs = body.inputs.map (.relocate move) := by
  cases body <;> rfl

end Relocate

section Sorted

variable (body : TypeBody)

@[simp] theorem kind_sorted : body.sorted.kind = body.kind := by cases body <;> rfl

@[simp] theorem refs_sorted :
    body.sorted.refs = sortBy (fun a b => compare a.name b.name) body.refs := by cases body <;> rfl

@[simp] theorem fields_sorted :
    body.sorted.fields = sortBy (fun a b => compare a.name b.name) body.fields := by cases body <;> rfl

@[simp] theorem values_sorted :
    body.sorted.values = sortBy (fun a b => compare a.name b.name) body.values := by cases body <;> rfl

@[simp] theorem inputs_sorted :
    body.sorted.inputs = sortBy (fun a b => compare a.name b.name) body.inputs := by cases body <;> rfl

end Sorted

theorem append?_isSome {a b : TypeBody} : (a.append? b).isSome ↔ a.kind = b.kind := by
  cases a <;> cases b <;> simp [append?, kind]

/-- **Bodies combine part by part.** -/
theorem append?_eq_some {a b body : TypeBody} (h : a.append? b = some body) :
    body.kind = a.kind ∧ body.refs = a.refs ++ b.refs ∧ body.fields = a.fields ++ b.fields ∧
      body.values = a.values ++ b.values ∧ body.inputs = a.inputs ++ b.inputs := by
  cases a <;> cases b <;> cases h <;> simp [kind, refs, fields, values, inputs]

end TypeBody

namespace Registry

/-- **What several extensions add together**, in their order. -/
structure IsJoin (extensions : List TypeDefinition) (group : TypeDefinition) : Prop where
  directives : group.directives = extensions.flatMap TypeDefinition.directives
  refs : group.body.refs = extensions.flatMap fun extension => extension.body.refs
  fields : group.body.fields = extensions.flatMap fun extension => extension.body.fields
  values : group.body.values = extensions.flatMap fun extension => extension.body.values
  inputs : group.body.inputs = extensions.flatMap fun extension => extension.body.inputs

theorem isJoin_singleton (ext : TypeDefinition) : IsJoin [ext] ext := by
  constructor <;> rw [flatMap_singleton]

theorem name_joinExtensions (first second : TypeDefinition) : (joinExtensions first second).name = first.name := by
  rw [joinExtensions]
  split <;> rfl

theorem kind_joinExtensions (first second : TypeDefinition) : (joinExtensions first second).kind = first.kind := by
  rw [joinExtensions]
  split
  · next body hb => exact (append?_eq_some hb).1
  · rfl

variable {exts : List TypeDefinition}

theorem IsJoin.snoc {group second : TypeDefinition} (h : IsJoin exts group)
    (hk : group.kind = second.kind) : IsJoin (exts ++ [second]) (joinExtensions group second) := by
  rw [joinExtensions]
  obtain ⟨body, hb⟩ := Option.isSome_iff_exists.mp (append?_isSome.mpr hk)
  obtain ⟨-, hr, hf, hv, hi⟩ := append?_eq_some hb
  simp only [hb]
  constructor <;> simp only [flatMap_append, flatMap_singleton]
  · rw [h.directives]
  · rw [hr, h.refs]
  · rw [hf, h.fields]
  · rw [hv, h.values]
  · rw [hi, h.inputs]

theorem isJoin_foldl {first : TypeDefinition} {rest : List TypeDefinition} (hi : ∀ ext ∈ rest, ext.kind = first.kind) :
    IsJoin (first :: rest) (rest.foldl joinExtensions first) ∧ (rest.foldl joinExtensions first).name = first.name ∧
      (rest.foldl joinExtensions first).kind = first.kind := by
  have ha : ∀ (more : List TypeDefinition) (done : List TypeDefinition) (group : TypeDefinition),
      IsJoin done group → group.name = first.name → group.kind = first.kind →
      (∀ ext ∈ more, ext.kind = first.kind) →
      IsJoin (done ++ more) (more.foldl joinExtensions group) ∧ (more.foldl joinExtensions group).name = first.name ∧
        (more.foldl joinExtensions group).kind = first.kind := by
    intro more
    induction more with
    | nil =>
      intro done group hj hn hk _
      rw [append_nil]
      exact ⟨hj, hn, hk⟩
    | cons second more ih =>
      intro done group hj hn hk hm
      have hs := hm second mem_cons_self
      have h := ih (done ++ [second]) (joinExtensions group second)
        (hj.snoc (hk.trans hs.symm)) ((name_joinExtensions _ _).trans hn)
        ((kind_joinExtensions _ _).trans hk) fun ext he =>
          hm ext (mem_cons_of_mem _ he)
      rwa [append_assoc] at h
  exact ha rest [first] first (isJoin_singleton first) rfl rfl hi

/-- **A type with extensions merged into it.** -/
structure Grown (extensions : List TypeDefinition) (base grown : TypeDefinition) : Prop where
  name : grown.name = base.name
  description : grown.description = base.description
  location : grown.location = base.location
  kind : grown.kind = base.kind
  directives : grown.directives = base.directives ++ DirectiveUse.sorted (extensions.flatMap TypeDefinition.directives)
  refs : grown.body.refs = base.body.refs ++ sortBy (fun a b => compare a.name b.name)
    (extensions.flatMap fun extension => extension.body.refs)
  fields : grown.body.fields = base.body.fields ++ sortBy (fun a b => compare a.name b.name)
    (extensions.flatMap fun extension => extension.body.fields)
  values : grown.body.values = base.body.values ++ sortBy (fun a b => compare a.name b.name)
    (extensions.flatMap fun extension => extension.body.values)
  inputs : grown.body.inputs = base.body.inputs ++ sortBy (fun a b => compare a.name b.name)
    (extensions.flatMap fun extension => extension.body.inputs)

theorem grown_nil (base : TypeDefinition) : Grown [] base base := by
  constructor <;> simp [sortBy, DirectiveUse.sorted]

theorem IsJoin.grown {base group : TypeDefinition} {body : TypeBody} (h : IsJoin exts group)
    (hb : base.body.append? group.body.sorted = some body) : Grown exts base
      { base with body, directives := base.directives ++ DirectiveUse.sorted group.directives } := by
  obtain ⟨hk, hr, hf, hv, hi⟩ := append?_eq_some hb
  exact {
    name := rfl
    description := rfl
    location := rfl
    kind := hk
    directives := by rw [h.directives]
    refs := by rw [hr, refs_sorted, h.refs]
    fields := by rw [hf, fields_sorted, h.fields]
    values := by rw [hv, values_sorted, h.values]
    inputs := by rw [hi, inputs_sorted, h.inputs] }

end Registry

end GraphClient
