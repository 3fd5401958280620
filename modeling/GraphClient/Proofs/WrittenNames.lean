import GraphClient.Proofs.Operation.ShapeKeys
import GraphClient.Proofs.RequestDocument
import GraphClient.Proofs.Spelling.Reread

/-!
# Names in accepted runs

What a client is generated from carries names that were read from texts.

* **`named_of_contains`**: the keys and variants of a shape, at every depth.
-/

namespace GraphClient

open List Registry Selection Source Text Bool

variable {srcs : List Source}

/-- **The types of a run that gets past the schema have names.** -/
theorem Source.isName_of_type? (hp : (schemaProblems srcs).hasErrors = false)
    {name : String} {type : TypeDefinition} (h : (Source.registry srcs).type? name = some type) : isName name := by
  simp only [schemaProblems, Diagnostics.append_clean] at hp
  obtain ⟨hd, -⟩ := build_clean.mp hp.1.2
  rcases hd.type?_build name with ⟨hno, -⟩ | ⟨base, -, hb, -, -⟩
  · cases hno.symm.trans h
  rw [Registry.declaredTypes, find?_addAll hd.types_nodup, Option.or_eq_some_iff] at hb
  rcases hb with hb | ⟨-, hb⟩
  · have hn : base.name = name := by simpa using find?_some hb
    obtain ⟨doc, hdo, hm⟩ := mem_flatMap.mp (mem_of_find?_eq_some hb)
    rw [documents, Document.readAll, map_map] at hdo
    obtain ⟨src, hs, rfl⟩ := mem_map.mp hdo
    have hf := (Document.schema_isWellFormed_of_read (read_clean hp.1.1 hs)).types base hm
    simp only [TypeDefinition.isWellFormed, and_eq_true] at hf
    rw [← hn]
    exact hf.1.1
  · have hbu : ∀ e ∈ Registry.initial.types, isName e.1 := by decide
    exact hbu _ (NameMap.mem_of_find? hb)

theorem isName_of_mem_userTypes (ho : (analyze srcs).isOk) {type : TypeDefinition}
    (h : type ∈ (analyze srcs).registry.userTypes) : isName type.name := by
  have hp := passed_of_isOk ho
  rw [registry_of_passed hp] at h
  obtain ⟨⟨name, hn⟩, -⟩ := (mem_userTypes (named_registry srcs)).mp h
  rw [(named_registry srcs).name_eq hn]
  exact isName_of_type? hp hn

theorem isName_of_mem_operations {op : BoundOperation} (h : op ∈ (analyze srcs).operations) : isName op.name := by
  obtain ⟨defn, hd, hb⟩ := exists_definition h
  have hf := (isWellFormed_of_passed (passed_of_mem_operations h)).1 defn hd
  simp only [OperationDefinition.isWellFormed, and_eq_true, (Scope.bindOperation_some hb).1] at hf
  exact hf.1.1.1.1

namespace Scope

def Written (scope : Scope) (bound : BoundSelection) : Prop :=
  ∃ parent selections, allWellFormed selections ∧ scope.Clean parent selections ∧
    bound ∈ (scope.bindSet parent selections).1

variable {scope : Scope} {obj type : String} {sels : List BoundSelection}

theorem isName_responseKey {he : FieldHead} {inner : List Selection}
    (h : (field he inner).isWellFormed) : isName he.responseKey := by
  simp only [isWellFormed, and_eq_true] at h
  rw [FieldHead.responseKey]
  cases hl : he.label with
  | none => exact h.1.1.1.2
  | some label => simpa [hl] using h.1.1.1.1

variable (h : scope.Complete)
  (hfrags : ∀ name fragment, scope.declared.find? name = some fragment → allWellFormed fragment.selections)

include h hfrags

/-- **Fields that are asked for in written sets** have names for keys, and the selections below are written
too. -/
theorem Complete.selects_written {e : Collected} (hse : scope.registry.Selects obj sels e)
    (hw : ∀ bound ∈ sels, scope.Written bound) :
    isName e.field.responseKey ∧ ∀ bound ∈ e.selections, scope.Written bound := by
  induction hse with
  | @field _ below _ hm =>
    obtain ⟨parent, written, hf, hc, hb⟩ := hw _ hm
    rcases h.mem_bindSet hc hb with ⟨sel, hs, hel⟩ | ⟨-, loc, heq⟩
    · have hsf := allWellFormed_iff.mp hf sel hs
      cases sel with
      | field head inner =>
        obtain ⟨bound, below, heq, hfi⟩ := hel.field
        cases heq
        refine ⟨hfi.key ▸ isName_responseKey hsf, fun e he => ?_⟩
        rw [hfi.inner] at he
        split_ifs at he with hn
        · cases he
        · exact ⟨_, inner, allWellFormed_children hsf, hfi.clean hn, he⟩
      | spread target | «inline» cond dirs inner loc => cases hel
    · cases heq
      exact ⟨show isName typename by decide, fun _ he => absurd he not_mem_nil⟩
  | fragment hm _ _ ih =>
    refine ih fun bound hb => ?_
    obtain ⟨parent, written, hf, hc, hme⟩ := hw _ hm
    rcases h.mem_bindSet hc hme with ⟨sel, hs, hel⟩ | ⟨-, loc, heq⟩
    · have hsf := allWellFormed_iff.mp hf sel hs
      cases hel with
      | spread hfr hi => exact ⟨_, _, hfrags _ _ hfr, hi, hb⟩
      | «inline» hi => exact ⟨_, _, allWellFormed_children hsf, hi, hb⟩
    · cases heq

theorem Complete.contains_written (hw : ∀ bound ∈ sels, scope.Written bound) {shape : ResultShape}
    (hc : (scope.registry.resultShape type sels).Contains shape) :
    ∃ name inner, shape = scope.registry.resultShape name inner ∧ ∀ bound ∈ inner, scope.Written bound := by
  induction hc with
  | self => exact ⟨type, sels, rfl, hw⟩
  | field _ hf hi ih =>
    obtain ⟨name, inner, rfl, ha⟩ := ih
    obtain ⟨other, group, hg, rfl⟩ := exists_group hf
    refine ⟨_, _, (shapeKey_shape_eq.mp hi).2, fun bound hb => ?_⟩
    obtain ⟨e, he, hb⟩ := mem_flatMap.mp hb
    have hs := mem_collect.mp ((FieldGroup.mem_entries hg).mp he).1
    exact (h.selects_written hfrags hs ha).2 bound hb

end Scope

/-- A shape whose keys and variants have names. -/
structure ResultShape.Named (shape : ResultShape) : Prop where
  keys : ∀ object field, shape.Describes object field → isName field.key
  variants : ∀ variant ∈ shape.variants, isName variant.type

theorem named_of_contains (ho : (analyze srcs).isOk) {op : BoundOperation}
    (h : op ∈ (analyze srcs).operations) {shape : ResultShape} (hco : op.shape.Contains shape) : shape.Named := by
  have hp := passed_of_isOk ho
  have hc := complete_scope ho
  obtain ⟨hop, hfrags⟩ := isWellFormed_of_passed hp
  have hfrags : ∀ name frag, (scope srcs).declared.find? name = some frag →
      allWellFormed frag.selections := by
    intro name frag hi
    have hf := hfrags frag ((declares_of_isOk ho name frag).mp hi).1
    simp only [FragmentDefinition.isWellFormed, and_eq_true] at hf
    exact hf.2
  obtain ⟨defn, he, hb⟩ := exists_definition h
  have hw : ∀ bound ∈ op.selections, (scope srcs).Written bound := by
    intro bound hbo
    have ha := (Bindings.ofDocuments_clean.mp (isOk_iff.mp ho).2).2.2 defn
      (Bindings.mem_definitions.mpr he)
    have hf := hop defn he
    simp only [OperationDefinition.isWellFormed, and_eq_true] at hf
    refine ⟨op.root, defn.selections, hf.2, Scope.clean_operation hb ha, ?_⟩
    rwa [(Scope.bindOperation_some hb).2.2] at hbo
  rw [shape_of_mem_operations h, registry_of_passed hp, ← registry_scope] at hco
  obtain ⟨name, inner, rfl, hl⟩ := hc.contains_written hfrags hw hco
  constructor
  · intro obj f hd
    obtain ⟨other, group, hg, rfl⟩ := exists_group hd
    have hfi : group.first ∈ group.entries := mem_cons_self
    have hs := mem_collect.mp ((FieldGroup.mem_entries hg).mp hfi).1
    exact (hc.selects_written hfrags hs hl).1
  · intro v hv
    obtain ⟨obj, hob, rfl⟩ := mem_variants.mp hv
    rw [registry_scope] at hob
    have hk := (named_registry srcs).kind?_of_possible (variantTypes_subset hob)
    cases hfo : (registry srcs).type? obj with
    | none => simp [kind?, hfo] at hk
    | some defn => exact isName_of_type? hp hfo

end GraphClient
