import GraphClient.Proofs.FrozenRegistry
import GraphClient.Proofs.Schema.PermutedBuild
import GraphClient.Proofs.Schema.Redeclared
import GraphClient.Proofs.Spelling.Described
import GraphClient.Proofs.Spelling.Parsed

/-!
# Registries that are printed and read again

* **`Registry.Declares.parts_isWellFormed`**: the definitions of a build can be written.
* **`Registry.rereads_build`**: it holds what is read of every definition.
-/

namespace GraphClient

open List SchemaDefinition Registry Bool Function

theorem TypeBody.isWellFormed_iff (body : TypeBody) : body.isWellFormed ↔
    (∀ entry ∈ body.refs, Text.isName entry.name) ∧ (∀ field ∈ body.fields, field.isWellFormed) ∧
      (∀ value ∈ body.values, value.isWellFormed) ∧ ∀ input ∈ body.inputs, input.isWellFormed := by
  cases body <;> simp [isWellFormed, refs, fields, values, inputs]

namespace Registry

/-- **Types that can be written are merged into one that can be written.** -/
theorem Grown.isWellFormed {base type : TypeDefinition} {exts : List TypeDefinition}
    (h : Grown exts base type) (hb : base.isWellFormed) (hex : ∀ ext ∈ exts, ext.isWellFormed) : type.isWellFormed := by
  simp only [TypeDefinition.isWellFormed, and_eq_true, TypeBody.isWellFormed_iff, all_eq_true]
    at hb hex ⊢
  obtain ⟨⟨hn, hu⟩, hr, hf, hv, hi⟩ := hb
  have hp : ∀ {α : Type} {order : α → α → Ordering} {P : α → Prop} {own part : List α}
      {f : TypeDefinition → List α}, part = own ++ sortBy order (exts.flatMap f) →
      (∀ x ∈ own, P x) → (∀ ext ∈ exts, ∀ x ∈ f ext, P x) → ∀ x ∈ part, P x := by
    intro α order P own part f hp ho ha x hx
    rw [hp, mem_append, mem_sortBy] at hx
    rcases hx with hx | hx
    · exact ho x hx
    · obtain ⟨ext, ht, hx⟩ := mem_flatMap.mp hx
      exact ha ext ht x hx
  refine ⟨⟨h.name ▸ hn, ?_⟩, ?_, ?_, ?_, ?_⟩
  · exact hp h.directives hu fun ext he => (hex ext he).1.2
  · exact hp h.refs hr fun ext he => (hex ext he).2.1
  · exact hp h.fields hf fun ext he => (hex ext he).2.2.1
  · exact hp h.values hv fun ext he => (hex ext he).2.2.2.1
  · exact hp h.inputs hi fun ext he => (hex ext he).2.2.2.2

variable {docs : List Document}

theorem Declares.schema_isWellFormed (hd : Declares docs)
    (h : ∀ sch ∈ docs.flatMap Document.schemas, sch.isWellFormed) : (Registry.build docs).1.schema.isWellFormed := by
  have ho : ∀ sch ∈ orderedSchemas docs, sch.isWellFormed :=
    fun sch hs => h sch ((mem_sortBy _).mp hs)
  simp only [isWellFormed, and_eq_true, all_eq_true] at h ho ⊢
  refine ⟨fun use hu => ?_, fun root hr => ?_⟩
  · change use ∈ (Registry.build docs).1.schemaDirectives at hu
    rw [hd.schemaDirectives_build, mem_append, DirectiveUse.sorted, mem_sortBy, ownSchemaUses] at hu
    rcases hu with hu | hu
    · cases hf : schemaOf (orderedSchemas docs) with
      | none => simp [hf] at hu
      | some sch =>
        rw [hf] at hu
        exact (ho sch (mem_of_find?_eq_some hf)).1 use hu
    · obtain ⟨sch, hs, hu⟩ := mem_flatMap.mp hu
      exact (ho sch (mem_filter.mp hs).1).1 use hu
  · change root ∈ (Registry.build docs).1.roots at hr
    rw [hd.roots_build, mem_sortBy] at hr
    obtain ⟨sch, hs, hr⟩ := mem_flatMap.mp hr
    exact (h sch hs).2 root hr

theorem Declares.parts_isWellFormed (hd : Declares docs) (h : ∀ document ∈ docs, document.SchemaWellFormed) :
    ∀ part ∈ (Registry.build docs).1.parts, part.isWellFormed := by
  have he : ∀ {α : Type} {f : Document → List α} {P : α → Prop},
      (∀ document ∈ docs, ∀ x ∈ f document, P x) → ∀ x ∈ docs.flatMap f, P x := by
    intro α f P ha x hx
    obtain ⟨document, ho, hx⟩ := mem_flatMap.mp hx
    exact ha document ho x hx
  have ht := he fun document ho => (h document ho).types
  have hex := he fun document ho => (h document ho).extensions
  have hi := he fun document ho => (h document ho).directives
  have hs := he fun document ho => (h document ho).schemas
  intro part hp
  rw [parts, mem_append, mem_append] at hp
  rcases hp with hp | hp | hp
  · obtain ⟨dir, hdi, rfl⟩ := mem_map.mp hp
    exact hi dir (hd.mem_directives hdi)
  · split at hp
    · obtain rfl := mem_singleton.mp hp
      simp only [SchemaPart.isWellFormed, hd.schema_isWellFormed hs]
      rfl
    · cases hp
  · obtain ⟨type, hy, rfl⟩ := mem_map.mp hp
    obtain ⟨base, hb, hg⟩ := hd.exists_base hy
    refine hg.isWellFormed (ht base hb) fun ext hext => ?_
    exact hex ext (mem_filter.mp ((mem_sortBy _).mp hext)).1

end Registry

theorem SchemaPart.document_parts (registry : Registry) : document (registry.parts.map reread) =
    { source := 0, schemas := if registry.hasSchema then [registry.schema.reread] else [],
      types := registry.userTypes.map .reread, extensions := [],
      directives := registry.userDirectives.map .reread, operations := [], fragments := [] } := by
  simp only [document, parts]
  cases registry.hasSchema <;> simp [reread, comp_def]

namespace Registry

/-- **What is built of a printed registry**: the definitions that are read, without their places. -/
structure Rereads (registry again : Registry) : Prop where
  types : again.userTypes.map (.relocate .erase) =
    registry.userTypes.map fun type => type.reread.relocate .erase
  directives : again.userDirectives.map (.relocate .erase) =
    registry.userDirectives.map fun directive => directive.reread.relocate .erase
  roots : again.roots.map (fun root => (root.1, root.2.relocate .erase)) =
    registry.roots.map fun root => (root.1, root.2.relocate .erase)
  schemaDirectives : again.schemaDirectives.map (.relocate .erase) =
    if registry.hasSchema then registry.schemaDirectives.map fun use => use.reread.relocate .erase else []
  hasSchema : again.hasSchema = registry.hasSchema

section Read

variable {registry : Registry} {document : Document}
  (h : document.relocate .erase = (SchemaPart.document (registry.parts.map .reread)).relocate .erase)

include h

theorem types_of_read : document.types.map (.relocate .erase) =
    registry.userTypes.map fun type => type.reread.relocate .erase := by
  have ht := congrArg Document.types h
  simpa only [Document.relocate, SchemaPart.document_parts, map_map, comp_def] using ht

theorem directives_of_read : document.directives.map (.relocate .erase) =
    registry.userDirectives.map fun dir => dir.reread.relocate .erase := by
  have hd := congrArg Document.directives h
  simpa only [Document.relocate, SchemaPart.document_parts, map_map, comp_def] using hd

theorem schemas_of_read : document.schemas.map (relocate .erase) =
    if registry.hasSchema then [registry.schema.reread.relocate .erase] else [] := by
  have hs := congrArg Document.schemas h
  simp only [Document.relocate, SchemaPart.document_parts] at hs
  rw [hs]
  cases registry.hasSchema <;> rfl

/-- **The document of a printed registry declares its definitions.** -/
theorem redeclares_of_read (ht : Placed [document]) (hi : DirectivesPlaced [document]) :
    registry.Redeclares document where
  types := by
    have hn := congrArg (List.map TypeDefinition.name) (types_of_read h)
    rw [map_map, map_map] at hn
    exact hn
  types_placed := fun type hty => ht type (by rwa [flatMap_singleton])
  directives := by
    have hn := congrArg (List.map DirectiveDefinition.name) (directives_of_read h)
    rw [map_map, map_map] at hn
    exact hn
  directives_placed := fun dir hd => hi dir (by rwa [flatMap_singleton])
  extensions := by
    have he := congrArg Document.extensions h
    exact map_eq_nil_iff.mp he
  schemas := by
    have hs := schemas_of_read h
    cases hc : registry.hasSchema with
    | false =>
      rw [hc] at hs
      exact Or.inl ⟨map_eq_nil_iff.mp hs, rfl⟩
    | true =>
      rw [hc, if_pos rfl, map_eq_singleton_iff] at hs
      obtain ⟨sch, ho, hm⟩ := hs
      refine Or.inr ⟨sch, ho, rfl, congrArg isExtension hm, ?_⟩
      have hr := congrArg (fun s : SchemaDefinition => s.roots.map Prod.fst) hm
      simp only [relocate, map_map] at hr
      exact hr

theorem rereads_build (hd : registry.Declarable) (ht : Placed [document])
    (hi : DirectivesPlaced [document]) : registry.Rereads (build [document]).1 := by
  have ho := redeclares_of_read h ht hi
  obtain ⟨hr, hsd, hh⟩ := ho.schema_build hd
  have hs := schemas_of_read h
  refine ⟨?_, ?_, ?_, ?_, hh⟩
  · rw [ho.userTypes_build hd, types_of_read h]
  · rw [ho.userDirectives_build hd, directives_of_read h]
  · have hm := congrArg (List.flatMap SchemaDefinition.roots) hs
    rw [flatMap_map] at hm
    rw [hr, map_flatMap]
    refine hm.trans ?_
    cases hc : registry.hasSchema with
    | true => simp [relocate, reread, schema]
    | false =>
      have hn : registry.roots = [] := by
        rw [hasSchema, or_eq_false_iff, not_eq_false', List.isEmpty_iff] at hc
        exact hc.2
      simp [hn]
  · have hm := congrArg (List.flatMap SchemaDefinition.directives) hs
    rw [flatMap_map] at hm
    rw [hsd, map_flatMap]
    refine hm.trans ?_
    cases registry.hasSchema <;>
      simp [relocate, reread, schema]

end Read

end Registry

section Runs

variable {srcs : List Source}

theorem Source.read_clean (h : (Document.readAll srcs).2.hasErrors = false) {src : Source}
    (hs : src ∈ srcs) : (Document.read src).2 = [] := by
  rw [Document.readAll] at h
  rw [flatMap_map, Diagnostics.hasErrors_flatMap] at h
  exact (Syntax.parse_fatal src.id src.text).eq_nil (h src hs)

theorem Source.parts_isWellFormed (hp : (schemaProblems srcs).hasErrors = false) :
    (∀ part ∈ (registry srcs).parts, part.isWellFormed) ∧ (registry srcs).Declarable := by
  simp only [schemaProblems, Diagnostics.append_clean] at hp
  obtain ⟨hd, -⟩ := Registry.build_clean.mp hp.1.2
  have he := hd.declarable
  refine ⟨hd.parts_isWellFormed fun document ho => ?_, ⟨he.types_sorted, he.types_new,
    he.directives_sorted, he.directives_new, he.roots_sorted⟩⟩
  rw [documents, Document.readAll, map_map] at ho
  obtain ⟨src, hs, rfl⟩ := mem_map.mp ho
  exact Document.schema_isWellFormed_of_read (read_clean hp.1.1 hs)

end Runs

end GraphClient
