import GraphClient.Proofs.Schema.WellFormed

/-!
# Declaring a registry again

What a registry holds beside the built-in definitions can be declared by one document, in the order of the
registry.

* **`Registry.Declares.declarable`**: the definitions of a build are of this form.
* **`Registry.Redeclares.declares`**, **`Registry.Redeclares.userTypes_build`** and so on: the registry of such a
  document.
-/

namespace GraphClient

open List NameMap Prod

namespace Registry

/-- **What is needed to declare the definitions of a registry again.** -/
structure Declarable (registry : Registry) : Prop where
  types_sorted : registry.userTypes.Pairwise fun a b => compare a.name b.name = .lt
  types_new : ∀ type ∈ registry.userTypes, initial.types.contains type.name = false
  directives_sorted : registry.userDirectives.Pairwise fun a b => compare a.name b.name = .lt
  directives_new : ∀ directive ∈ registry.userDirectives, initial.directives.contains directive.name = false
  roots_sorted : registry.roots.Pairwise fun a b => rootOrder a b = .lt

variable {α : Type} {reg : Registry}

theorem sorted_values {name : α → String} {es : NameMap α} (hs : es.Sorted) (hn : ∀ e ∈ es, name e.2 = e.1) :
    es.values.Pairwise fun a b => compare (name a) (name b) = .lt := by
  rw [values, pairwise_map]
  exact hs.imp_of_mem fun ha hb hab => by rwa [hn _ ha, hn _ hb]

theorem Named.sorted_userTypes (h : reg.Named) : reg.userTypes.Pairwise fun a b => compare a.name b.name = .lt :=
  (sorted_values h.types_sorted h.types_named).filter _

theorem Named.sorted_userDirectives (h : reg.Named) :
    reg.userDirectives.Pairwise fun a b => compare a.name b.name = .lt :=
  (sorted_values h.directives_sorted h.directives_named).filter _

variable {docs : List Document}

theorem Declares.exists_base (hd : Declares docs) {type : TypeDefinition}
    (h : type ∈ (Registry.build docs).1.userTypes) :
    ∃ base ∈ docs.flatMap Document.types, Grown (extensionsOf docs type.name) base type := by
  obtain ⟨⟨name, hn⟩, hp⟩ := (mem_userTypes (named_build docs)).mp h
  obtain rfl := (named_build docs).name_eq hn
  obtain ⟨base, hb, -, hg⟩ := hd.exists_declared hn hp
  exact ⟨base, hb, hg⟩

theorem Declares.mem_directives (hd : Declares docs) {dir : DirectiveDefinition}
    (h : dir ∈ (Registry.build docs).1.userDirectives) : dir ∈ docs.flatMap Document.directives := by
  obtain ⟨hv, hl⟩ := mem_filter.mp h
  refine (hd.directive_or_builtin hv).resolve_right fun hb => ?_
  have hp : ∀ dir ∈ builtinDirectives, dir.location.isBuiltin := by decide
  simp [hp dir hb] at hl

theorem Declares.roots_build (hd : Declares docs) :
    (Registry.build docs).1.roots = sortBy rootOrder (declaredRoots docs) := by
  obtain ⟨types, hb⟩ := hd.build
  rw [hb]
  rfl

theorem Declares.declarable (hd : Declares docs) : (Registry.build docs).1.Declarable where
  types_sorted := (named_build docs).sorted_userTypes
  types_new := fun type ht => by
    obtain ⟨base, hb, hg⟩ := hd.exists_base ht
    rw [hg.name]
    exact hd.types_new base hb
  directives_sorted := (named_build docs).sorted_userDirectives
  directives_new := fun dir hi => hd.directives_new dir (hd.mem_directives hi)
  roots_sorted := by
    rw [hd.roots_build]
    have hk : ((sortBy rootOrder (declaredRoots docs)).map fst).Nodup :=
      ((sortBy_perm _ _).map _).nodup_iff.mpr hd.roots_nodup
    rw [Nodup, pairwise_map] at hk
    refine (pairwise_sortBy _).imp₂ (fun a b hl hn => ?_) hk
    cases ho : rootOrder a b with
    | lt => rfl
    | eq => exact absurd (rootOrder_eq ho) hn
    | gt => exact absurd ho hl

/-- Without extensions, the registry holds what is declared. -/
theorem Declares.build_of_no_extensions (hd : Declares docs) (h : docs.flatMap Document.extensions = []) :
    (Registry.build docs).1 = declaredRegistry docs := by
  obtain ⟨-, -, -, hs⟩ := hd.stages
  have hg : extensionGroups docs = [] := by rw [extensionGroups_eq, h]; rfl
  rw [build_eq, extensionStage, hg, hs]
  rfl

theorem filter_values_addAll {name : α → String} {added : List α} {builtin : NameMap α}
    {p : α → Bool} (hs : builtin.Sorted) (hb : ∀ value ∈ builtin.values, p value = false)
    (ha : added.Pairwise fun a b => compare (name a) (name b) = .lt) (hp : ∀ e ∈ added, p e)
    (hna : ∀ e ∈ builtin, name e.2 = e.1) : (addAll name added builtin).values.filter p = added := by
  have hi : ∀ {a b : α}, compare (name a) (name b) = .lt → a ≠ b := by
    rintro a _ hab rfl
    simp at hab
  have hn : (added.map name).Nodup := pairwise_map.mpr (ha.imp fun hab hq => by simp [hq] at hab)
  have hl : ((addAll name added builtin).values.filter p).Pairwise
      fun a b => compare (name a) (name b) = .lt := by
    refine (sorted_values (sorted_addAll _ hs) fun e he => ?_).filter _
    rcases mem_of_mem_foldl_insert he with he | he
    · obtain ⟨value, -, rfl⟩ := mem_map.mp he
      rfl
    · exact hna e he
  have hm : ∀ value, value ∈ (addAll name added builtin).values.filter p ↔ value ∈ added := by
    intro value
    rw [mem_filter]
    constructor
    · rintro ⟨hv, hk⟩
      obtain ⟨⟨key, value⟩, he, rfl⟩ := mem_map.mp hv
      rcases mem_of_mem_foldl_insert he with he | he
      · obtain ⟨e, ha, hq⟩ := mem_map.mp he
        obtain ⟨-, rfl⟩ := Prod.mk.inj hq
        exact ha
      · have hd := hb value (mem_map_of_mem (f := snd) he)
        rw [hd] at hk
        cases hk
    · intro hv
      have ho : (addAll name added builtin).find? (name value) = some value := by
        have hfi : added.find? (fun e => name e == name value) = some value := by
          cases hf : added.find? (fun e => name e == name value) with
          | none => simpa using find?_eq_none.mp hf value hv
          | some other =>
            have hnam : name other = name value := by simpa using find?_some hf
            rw [inj_on_of_nodup_map hn (mem_of_find?_eq_some hf) hv hnam]
        rw [find?_addAll hn, hfi]
        rfl
      exact ⟨mem_map.mpr ⟨_, mem_of_find? ho, rfl⟩, hp value hv⟩
  refine ((perm_ext_iff_of_nodup (hl.imp hi) (ha.imp hi)).mpr hm).eq_of_pairwise ?_ hl ha
  intro a b _ _ hab hba
  exact absurd (Std.TransCmp.lt_trans hab hba) (by simp)

/-- **A document that declares the definitions of a registry**, by name and in their order. -/
structure Redeclares (registry : Registry) (document : Document) : Prop where
  types : document.types.map TypeDefinition.name = registry.userTypes.map TypeDefinition.name
  types_placed : ∀ type ∈ document.types, type.location.isBuiltin = false
  directives : document.directives.map DirectiveDefinition.name = registry.userDirectives.map DirectiveDefinition.name
  directives_placed : ∀ directive ∈ document.directives, directive.location.isBuiltin = false
  extensions : document.extensions = []
  schemas : document.schemas = [] ∧ registry.hasSchema = false ∨
    ∃ schema, document.schemas = [schema] ∧ registry.hasSchema ∧ schema.isExtension = false ∧
      schema.roots.map fst = registry.roots.map fst

namespace Redeclares

variable {reg : Registry} {doc : Document} (hdeclarable : reg.Declarable)
  (h : reg.Redeclares doc)

theorem pairwise_of_names {α β γ : Type} {key : α → γ} {key' : β → γ} {r : γ → γ → Prop} {xs : List α} {ys : List β}
    (hk : xs.map key = ys.map key') (hy : ys.Pairwise fun a b => r (key' a) (key' b)) :
    xs.Pairwise fun a b => r (key a) (key b) := by
  rw [← pairwise_map (f := key) (R := r), hk, pairwise_map]
  exact hy

include hdeclarable h

theorem types_sorted : doc.types.Pairwise fun a b => compare a.name b.name = .lt :=
  pairwise_of_names (r := fun a b => compare a b = .lt) h.types hdeclarable.types_sorted

theorem directives_sorted : doc.directives.Pairwise fun a b => compare a.name b.name = .lt :=
  pairwise_of_names (r := fun a b => compare a b = .lt) h.directives hdeclarable.directives_sorted

theorem roots_sorted {sch : SchemaDefinition} (hs : sch ∈ doc.schemas) :
    sch.roots.Pairwise fun a b => rootOrder a b = .lt := by
  rcases h.schemas with ⟨hn, -⟩ | ⟨other, hc, -, -, hr⟩
  · rw [hn] at hs
    cases hs
  · rw [hc, mem_singleton] at hs
    subst hs
    exact pairwise_of_names (r := fun a b => compare a b = .lt) hr hdeclarable.roots_sorted

theorem declares : Declares [doc] where
  types_nodup := by
    rw [flatMap_singleton, Nodup, pairwise_map]
    exact (h.types_sorted hdeclarable).imp fun ha he => by simp [he] at ha
  types_new := fun type ht => by
    rw [flatMap_singleton] at ht
    have hn := mem_map_of_mem (f := TypeDefinition.name) ht
    rw [h.types] at hn
    obtain ⟨other, ho, he⟩ := mem_map.mp hn
    rw [← he]
    exact hdeclarable.types_new other ho
  directives_nodup := by
    rw [flatMap_singleton, Nodup, pairwise_map]
    exact (h.directives_sorted hdeclarable).imp fun ha he => by simp [he] at ha
  directives_new := fun dir hd => by
    rw [flatMap_singleton] at hd
    have hn := mem_map_of_mem (f := DirectiveDefinition.name) hd
    rw [h.directives] at hn
    obtain ⟨other, ho, he⟩ := mem_map.mp hn
    rw [← he]
    exact hdeclarable.directives_new other ho
  one_schema := by
    rw [flatMap_singleton]
    rcases h.schemas with ⟨hi, -⟩ | ⟨sch, hs, -⟩
    · rw [hi]
      exact List.Pairwise.nil
    · rw [hs]
      exact pairwise_singleton _ _
  roots_nodup := by
    rw [declaredRoots, flatMap_singleton]
    rcases h.schemas with ⟨hi, -⟩ | ⟨sch, hs, -⟩
    · rw [hi]
      exact nodup_nil
    · rw [hs, flatMap_singleton, Nodup, pairwise_map]
      refine (h.roots_sorted hdeclarable (hs ▸ mem_singleton_self sch)).imp fun {a b} ha he => ?_
      have hse : rootOrder a a = .eq := Std.ReflCmp.compare_self
      rw [rootOrder, ← he] at ha
      cases ha.symm.trans hse
  extensions_known := fun ext hx => by
    rw [flatMap_singleton, h.extensions] at hx
    cases hx

theorem build_eq_declared : (build [doc]).1 = declaredRegistry [doc] :=
  (h.declares hdeclarable).build_of_no_extensions (by rw [flatMap_singleton, h.extensions])

theorem userTypes_build : (build [doc]).1.userTypes = doc.types := by
  rw [h.build_eq_declared hdeclarable]
  change (declaredTypes [doc]).values.filter _ = _
  rw [declaredTypes, flatMap_singleton]
  exact filter_values_addAll named_initial.types_sorted (by decide) (h.types_sorted hdeclarable)
    (fun type ht => by rw [h.types_placed type ht]; rfl) named_initial.types_named

/-- **So are its directives.** -/
theorem userDirectives_build : (build [doc]).1.userDirectives = doc.directives := by
  rw [h.build_eq_declared hdeclarable]
  change (declaredDirectives [doc]).values.filter _ = _
  rw [declaredDirectives, flatMap_singleton]
  exact filter_values_addAll named_initial.directives_sorted (by decide) (h.directives_sorted hdeclarable)
    (fun dir hd => by rw [h.directives_placed dir hd]; rfl)
    named_initial.directives_named

/-- **The schema block is the one of the document.** -/
theorem schema_build : (build [doc]).1.roots = doc.schemas.flatMap SchemaDefinition.roots ∧
      (build [doc]).1.schemaDirectives = doc.schemas.flatMap SchemaDefinition.directives ∧
      (build [doc]).1.hasSchema = reg.hasSchema := by
  rw [h.build_eq_declared hdeclarable, hasSchema, declaredRegistry]
  simp only [declaredRoots, orderedSchemas, flatMap_singleton]
  rcases h.schemas with ⟨hni, hn⟩ | ⟨sch, hs, hsom, hd, -⟩
  · rw [hni, hn]
    exact ⟨rfl, rfl, rfl⟩
  · have hso := h.roots_sorted hdeclarable (hs ▸ mem_singleton_self sch)
    have hr : sortBy rootOrder sch.roots = sch.roots :=
      sortBy_eq_self (hso.imp fun {a b} ha hb => by
        have hsw : rootOrder b a = (rootOrder a b).swap := Std.OrientedCmp.eq_swap
        rw [hsw, ha] at hb
        cases hb)
    have ho : ∀ order, sortBy order [sch] = [sch] := fun _ => rfl
    rw [hs, hsom, ho, flatMap_singleton, hr]
    simp [schemaOf, hd, DirectiveUse.sorted, sortBy]

end Redeclares

end Registry

end GraphClient
