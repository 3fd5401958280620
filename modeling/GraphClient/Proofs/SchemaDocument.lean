import GraphClient.Proofs.Schema.Printed
import GraphClient.Proofs.Spelling.Reread

/-!
# Schema documents

The printed schema of an accepted run is accepted, and declares what the run declared. Only the places and the
descriptions of arguments are lost, as long as no description has several lines and no value is a float.

* **`Registry.Matches.valid`**: such registries satisfy the same rules.
-/

namespace GraphClient

open List TypeDefinition Printer NameMap Registry Document Function DirectiveUse

/-! ## Places and descriptions -/

section Places

variable (move : Location → Location)

theorem FieldDefinition.plain_relocate (f : FieldDefinition) : (f.relocate move).plain = f.plain.relocate move := by
  simp only [plain, relocate, map_map]
  rfl

theorem TypeBody.plain_relocate (body : TypeBody) : (body.relocate move).plain = body.plain.relocate move := by
  cases body <;>
    simp [plain, relocate, FieldDefinition.plain_relocate]

theorem TypeDefinition.plain_relocate (type : TypeDefinition) :
    (type.relocate move).plain = type.plain.relocate move := by
  simp only [plain, relocate, TypeBody.plain_relocate]

theorem DirectiveDefinition.plain_relocate (directive : DirectiveDefinition) :
    (directive.relocate move).plain = directive.plain.relocate move := by
  simp only [plain, relocate, map_map]
  rfl

end Places

theorem InputValueDefinition.map_undescribed_undescribed (inputs : List InputValueDefinition) :
    (inputs.map undescribed).map undescribed = inputs.map undescribed := by
  rw [map_map]
  rfl

theorem FieldDefinition.plain_plain (f : FieldDefinition) : f.plain.plain = f.plain := by
  simp only [plain, InputValueDefinition.map_undescribed_undescribed]

theorem TypeDefinition.plain_plain (type : TypeDefinition) : type.plain.plain = type.plain := by
  obtain ⟨name, desc, dirs, body, loc⟩ := type
  cases body <;>
    simp [plain, TypeBody.plain, FieldDefinition.plain_plain]

theorem DirectiveDefinition.plain_plain (directive : DirectiveDefinition) :
    directive.plain.plain = directive.plain := by
  simp only [plain, InputValueDefinition.map_undescribed_undescribed]

/-- No places and no descriptions. -/
def Revision.bare : Revision := ⟨.erase, fun _ => none⟩

namespace TypeDefinition

variable (type : TypeDefinition)

theorem revise_relocate : (type.relocate .erase).revise .bare = type.revise .bare := by
  obtain ⟨name, desc, dirs, body, loc⟩ := type
  cases body <;>
    simp only [revise, relocate, TypeBody.revise, TypeBody.relocate, FieldDefinition.revise,
      FieldDefinition.relocate, EnumValueDefinition.relocate, InputValueDefinition.revise,
      InputValueDefinition.relocate, relocate_relocate, map_map,
      comp_def] <;>
    rfl

theorem revise_plain : type.plain.revise .bare = type.revise .bare := by
  obtain ⟨name, desc, dirs, body, loc⟩ := type
  cases body <;>
    simp only [revise, plain, TypeBody.revise, TypeBody.plain, FieldDefinition.revise,
      FieldDefinition.plain, map_map, comp_def] <;>
    rfl

end TypeDefinition

namespace DirectiveDefinition

variable (directive : DirectiveDefinition)

theorem revise_relocate : (directive.relocate .erase).revise .bare = directive.revise .bare := by
  simp only [revise, relocate, InputValueDefinition.revise, InputValueDefinition.relocate,
    relocate_relocate, map_map, comp_def]
  rfl

theorem revise_plain : directive.plain.revise .bare = directive.revise .bare := by
  simp only [revise, plain, map_map]
  rfl

end DirectiveDefinition

/-! ## Printed definitions -/

namespace Printer

theorem argumentDefinitions_undescribed (inputs : List InputValueDefinition) :
    argumentDefinitions (inputs.map .undescribed) = argumentDefinitions inputs := by
  rw [argumentDefinitions, map_map]
  rfl

theorem field_plain (e : FieldDefinition) : field e.plain = field e := by
  rw [field, FieldDefinition.arguments_plain, argumentDefinitions_undescribed]
  rfl

/-- **The descriptions of arguments are not printed.** -/
theorem type_plain (e : TypeDefinition) : type e.plain = type e := by
  obtain ⟨name, text, uses, body, loc⟩ := e
  cases body <;> simp only [type, TypeDefinition.plain, TypeBody.plain, map_map, comp_def, field_plain]

theorem directiveDefinition_plain (directive : DirectiveDefinition) :
    directiveDefinition directive.plain = directiveDefinition directive := by
  simp only [directiveDefinition, DirectiveDefinition.plain, argumentDefinitions_undescribed]
  rfl

theorem type_relocate (move : Location → Location) (e : TypeDefinition) : type (e.relocate move) = type e := by
  have hn : ∀ es : List NamedRef, (es.map (.relocate move)).map NamedRef.name =
      es.map NamedRef.name := fun es => by rw [map_map]; rfl
  obtain ⟨name, text, uses, body, loc⟩ := e
  cases body <;>
    simp [type, TypeDefinition.relocate, TypeBody.relocate, hn, comp_def]

end Printer

/-! ## Look-up -/

namespace Registry

theorem find?_filter_values {α : Type} {name : α → String} {es : NameMap α} (hs : es.Sorted)
    (hn : ∀ e ∈ es, name e.2 = e.1) (p : α → Bool) (key : String) :
    (es.values.filter p).find? (fun v => name v == key) = (es.find? key).filter p := by
  induction es with
  | nil => rfl
  | cons first rest ih =>
    obtain ⟨own, v⟩ := first
    obtain ⟨hf, hr⟩ := pairwise_cons.mp hs
    rw [forall_mem_cons] at hn
    have hv : name v = own := hn.1
    have ho := ih hr hn.2
    change ((v :: values rest).filter p).find? _ = _
    rw [NameMap.find?_cons, filter_cons]
    by_cases hk : own = key
    · have hno : find? rest key = none := by
        by_contra hfo
        obtain ⟨other, ht⟩ := Option.ne_none_iff_exists'.mp hfo
        have hl := hf _ (mem_of_find? ht)
        simp [hk] at hl
      rw [hno] at ho
      rw [if_pos hk, Option.filter_some]
      by_cases hp : p v
      · simp [hp, hv, hk]
      · rw [if_neg hp, if_neg hp]
        exact ho
    · rw [if_neg hk]
      by_cases hp : p v
      · simpa [hp, hv, hk] using ho
      · simpa [hp] using ho

/-- Definitions that fit together, none of them built in. -/
structure DeclaresOwn (documents : List Document) : Prop extends Declares documents where
  types_placed : Placed documents
  directives_placed : DirectivesPlaced documents

section Lookup

variable {documents : List Document} (hd : DeclaresOwn documents)

include hd

/-- **The types of a build** are those that are not built in and the built-in ones. Extensions give the built-in
ones directives only. -/
theorem DeclaresOwn.revise_type? (rev : Revision) (name : String) :
    ((build documents).1.type? name).map (revise rev) =
      (((build documents).1.userTypes.map (revise rev)).find? fun type =>
        type.name == name).or ((initial.types.find? name).map (TypeDefinition.revise rev)) := by
  have hn := named_build documents
  have hu : ((build documents).1.userTypes.find? fun type => type.name == name) =
      ((build documents).1.type? name).filter fun type => !type.location.isBuiltin :=
    find?_filter_values hn.types_sorted hn.types_named _ name
  rw [List.find?_map]
  change _ = (Option.map _ ((build documents).1.userTypes.find? fun type => type.name == name)).or _
  rw [hu]
  rcases hd.type?_build name with ⟨ho, hb⟩ | ⟨base, type, hb, ht, hg⟩
  · rw [declaredTypes, find?_addAll hd.types_nodup, Option.or_eq_none_iff] at hb
    rw [ho, hb.2]
    rfl
  · rw [declaredTypes, find?_addAll hd.types_nodup, Option.or_eq_some_iff] at hb
    rw [ht, Option.filter_some, hg.location]
    rcases hb with hb | ⟨-, hb⟩
    · rw [hd.types_placed base (mem_of_find?_eq_some hb)]
      rfl
    · obtain ⟨-, rfl⟩ := builtin_of_initial hb
      rw [hb, Option.map_some, TypeDefinition.revise, TypeDefinition.outline, hg.name, hg.description,
        hg.location, hg.body_builtin]
      rfl

/-- **The directives of a build** are those that are not built in and the built-in ones. -/
theorem DeclaresOwn.directive?_eq (name : String) : (build documents).1.directive? name =
      ((build documents).1.userDirectives.find? fun directive => directive.name == name).or
        (initial.directives.find? name) := by
  have hn := named_build documents
  have hu : ((build documents).1.userDirectives.find? fun directive => directive.name == name) =
      ((build documents).1.directive? name).filter fun directive => !directive.location.isBuiltin :=
    find?_filter_values hn.directives_sorted hn.directives_named _ name
  have hl : (build documents).1.directive? name =
      ((documents.flatMap Document.directives).find? fun directive => directive.name == name).or
        (initial.directives.find? name) := by
    obtain ⟨types, hbu⟩ := hd.build
    rw [hbu]
    exact find?_addAll hd.directives_nodup _ _
  rw [hu, hl]
  cases hf : (documents.flatMap Document.directives).find? (fun directive => directive.name == name) with
  | some directive =>
    rw [Option.some_or, Option.filter_some, hd.directives_placed directive (mem_of_find?_eq_some hf)]
    rfl
  | none =>
    cases hi : initial.directives.find? name with
    | none => rfl
    | some directive =>
      have hb : ∀ e ∈ initial.directives, e.2.location.isBuiltin := by decide
      have hp : directive.location.isBuiltin := hb _ (mem_of_find? hi)
      rw [Option.none_or, Option.filter_some, hp]
      rfl

end Lookup

/-! ## Registries with the same definitions -/

/-- **Registries with the same definitions**, places and the descriptions of arguments apart. Directives of the
schema count if there is a schema block. -/
structure Matches (registry again : Registry) : Prop where
  types : again.userTypes.map (.relocate .erase) =
    registry.userTypes.map fun type => type.plain.relocate .erase
  directives : again.userDirectives.map (.relocate .erase) =
    registry.userDirectives.map fun directive => directive.plain.relocate .erase
  roots : again.roots.map (fun root => (root.1, root.2.relocate .erase)) =
    registry.roots.map fun root => (root.1, root.2.relocate .erase)
  schemaDirectives : again.schemaDirectives.map (DirectiveUse.relocate .erase) =
    if registry.hasSchema then registry.schemaDirectives.map (DirectiveUse.relocate .erase) else []
  hasSchema : again.hasSchema = registry.hasSchema

/-- What is read of a registry without floats, whose descriptions are single lines. -/
theorem Rereads.matches {registry again : Registry} (h : registry.Rereads again)
    (hl : ∀ e ∈ registry.descriptions, e.isLine) (hf : registry.floats = []) : registry.Matches again where
  types := by
    rw [h.types]
    refine map_congr_left fun type ht => ?_
    rw [reread_eq_plain]
    · refine flatMap_eq_nil_iff.mp hf (.type type) ?_
      exact mem_append_right _ (mem_append_right _ (mem_map_of_mem ht))
    · exact fun e he => hl e (mem_append_right _ (mem_flatMap.mpr ⟨type, ht, he⟩))
  directives := by
    rw [h.directives]
    refine map_congr_left fun directive hd => ?_
    rw [DirectiveDefinition.reread_eq_plain]
    · refine flatMap_eq_nil_iff.mp hf (.directive directive) ?_
      exact mem_append_left _ (mem_map_of_mem hd)
    · exact fun e he =>
        hl e (mem_append_left _ (mem_flatMap.mpr ⟨directive, hd, he⟩))
  roots := h.roots
  schemaDirectives := by
    rw [h.schemaDirectives]
    split_ifs with hs
    · have hn : registry.schema.floats = [] := by
        refine flatMap_eq_nil_iff.mp hf (.schema registry.schema) ?_
        rw [parts, if_pos hs]
        exact mem_append_right _ mem_cons_self
      refine map_congr_left fun use hu => ?_
      rw [reread_eq_self (flatMap_eq_nil_iff.mp hn use hu)]
    · rfl
  hasSchema := h.hasSchema

namespace Matches

theorem thaw {registry again : Registry} (h : registry.freeze.Matches again) : registry.Matches again :=
  ⟨h.types, h.directives, h.roots, h.schemaDirectives, h.hasSchema⟩

variable {registry again : Registry} (h : registry.Matches again)

include h

theorem freeze : registry.Matches again.freeze := ⟨h.types, h.directives, h.roots, h.schemaDirectives, h.hasSchema⟩

/-- **Such registries are printed alike.** -/
theorem print_eq : again.print = registry.print := by
  have ht : again.userTypes.map type = registry.userTypes.map type := by
    have hm := congrArg (List.map type) h.types
    simpa [comp_def, type_relocate, type_plain] using hm
  have hd : again.userDirectives.map directiveDefinition =
      registry.userDirectives.map directiveDefinition := by
    have hm := congrArg (List.map directiveDefinition) h.directives
    simpa [comp_def, directiveDefinition_plain] using hm
  have hs : again.schemaTexts = registry.schemaTexts := by
    rw [schemaTexts, schemaTexts, h.hasSchema]
    split_ifs with hs
    · have hu := congrArg Printer.directives h.schemaDirectives
      rw [if_pos hs, directives_relocate, directives_relocate] at hu
      have hr := congrArg (List.map fun root : OperationKind × NamedRef => root.1.text ++ ": " ++ root.2.name)
        h.roots
      simp only [map_map] at hr
      rw [schemaBlock_eq, hu]
      exact congrArg (fun texts => ["schema" ++ Printer.directives registry.schemaDirectives ++ block texts]) hr
    · rfl
  rw [Registry.print_eq, Registry.print_eq, hd, hs, typeTexts, typeTexts, ht]

end Matches

/-! ## Rules -/

namespace Matches

section Definitions

variable {registry again : Registry} (h : registry.Matches again)

include h

theorem types_revise : again.userTypes.map (revise .bare) =
    registry.userTypes.map (revise .bare) := by
  have hm := congrArg (List.map (revise .bare)) h.types
  simpa [comp_def, revise_relocate, revise_plain]
    using hm

theorem directives_revise : again.userDirectives.map (DirectiveDefinition.revise .bare) =
    registry.userDirectives.map (DirectiveDefinition.revise .bare) := by
  have hm := congrArg (List.map (DirectiveDefinition.revise .bare)) h.directives
  simpa [comp_def, DirectiveDefinition.revise_relocate, DirectiveDefinition.revise_plain] using hm

theorem exists_type {type' : TypeDefinition} (ht' : type' ∈ again.userTypes) :
    ∃ type ∈ registry.userTypes, type.revise .bare = type'.revise .bare ∧
      (type.directives.map (DirectiveUse.relocate .erase)).Perm
        (type'.directives.map (DirectiveUse.relocate .erase)) := by
  have he := mem_map_of_mem (f := TypeDefinition.relocate .erase) ht'
  rw [h.types] at he
  obtain ⟨type, ht, hm⟩ := mem_map.mp he
  refine ⟨type, ht, ?_, List.Perm.of_eq (congrArg TypeDefinition.directives hm :)⟩
  rw [← type'.revise_relocate, ← hm, revise_relocate, revise_plain]

theorem exists_directive {directive' : DirectiveDefinition} (hd' : directive' ∈ again.userDirectives) :
    ∃ directive ∈ registry.userDirectives, directive.revise .bare = directive'.revise .bare := by
  have hm := mem_map_of_mem (f := DirectiveDefinition.revise .bare) hd'
  rw [h.directives_revise] at hm
  exact mem_map.mp hm

end Definitions

variable {documents documents' : List Document} (hd : DeclaresOwn documents) (hd' : DeclaresOwn documents')
  (h : (build documents).1.Matches (build documents').1)

include hd hd' h

/-- **Builds with the same definitions have a revision in common.** -/
theorem exists_revised : ∃ revised, Revised .bare (build documents).1 revised ∧
    Revised .bare (build documents').1 revised := by
  refine ⟨{ (build documents').1 with
    types := (build documents').1.types.map fun e => (e.1, e.2.revise .bare)
    directives := (build documents').1.directives.map fun e => (e.1, e.2.revise .bare)
    roots := (build documents').1.roots.map fun root => (root.1, root.2.relocate .erase) },
    ⟨?_, ?_, h.roots⟩, ⟨rfl, rfl, rfl⟩⟩
  · refine ext (sorted_map _ (named_build documents').types_sorted)
      (sorted_map _ (named_build documents).types_sorted) fun name => ?_
    rw [NameMap.find?_map, NameMap.find?_map]
    refine (hd'.revise_type? .bare name).trans ?_
    rw [h.types_revise]
    exact (hd.revise_type? .bare name).symm
  · refine ext (sorted_map _ (named_build documents').directives_sorted)
      (sorted_map _ (named_build documents).directives_sorted) fun name => ?_
    rw [NameMap.find?_map, NameMap.find?_map]
    change ((build documents').1.directive? name).map _ = ((build documents).1.directive? name).map _
    have hu := congrArg (find? fun directive : DirectiveDefinition => directive.name == name)
      h.directives_revise
    rw [List.find?_map, List.find?_map] at hu
    rw [hd.directive?_eq, hd'.directive?_eq, Option.map_or, Option.map_or]
    exact congrArg (Option.or · _) hu

theorem valid (he : (build documents).1.checkReferences.hasErrors = false)
    (hv : (build documents).1.validate.hasErrors = false) :
    (build documents').1.checkReferences.hasErrors = false ∧ (build documents').1.validate.hasErrors = false := by
  obtain ⟨revised, hr, hr'⟩ := exists_revised hd hd' h
  refine ⟨checkReferences_of_revised hr hr' he, ?_⟩
  refine validate_of_revised hr hr' (fun _ => h.exists_type) (fun _ => h.exists_directive)
    (fun hu => ?_) hv
  have hs := h.schemaDirectives
  cases hc : (build documents).1.hasSchema with
  | true =>
    rw [hc] at hs
    exact checkUses_of_perm hr hr' (List.Perm.of_eq hs.symm) hu
  | false =>
    rw [hc] at hs
    rw [map_eq_nil_iff.mp hs]
    rfl

end Matches

end Registry

/-! ## Runs -/

namespace Source

variable {sources : List Source} {source : Source} (hid : source.id ≠ Location.builtinSource)
  (hpassed : (schemaProblems sources).hasErrors = false) (htext : source.text = (registry sources).print)
  (hinfinite : .infinite true ∉ (registry sources).floats)

include hid hpassed htext hinfinite

/-- **The printed schema of a run can be read**: it holds schema definitions only, and these are read of the
printed ones. -/
theorem rereads_print : (readAll [source]).2 = [] ∧ DeclaresOwn (documents [source]) ∧
    (registry sources).Rereads (build (documents [source])).1 ∧
    (documents [source]).flatMap operations = [] ∧ (documents [source]).flatMap fragments = [] := by
  obtain ⟨hp, hd⟩ := parts_isWellFormed hpassed
  obtain ⟨hc, hr⟩ := read_print hp hinfinite source.id source.path
  rw [← htext] at hc hr
  have hi : ∀ other ∈ [source], other.id ≠ Location.builtinSource := fun other ho =>
    mem_singleton.mp ho ▸ hid
  have ht := placed_documents hi
  have hdi := directivesPlaced_documents hi
  have hop : (read source).1.operations = [] := map_eq_nil_iff.mp (congrArg operations hr)
  have hf : (read source).1.fragments = [] := map_eq_nil_iff.mp (congrArg fragments hr)
  rw [show documents [source] = [(read source).1] from rfl] at ht hdi ⊢
  refine ⟨?_, ⟨?_, ht, hdi⟩, ?_, ?_, ?_⟩
  · rw [readAll, map_singleton, flatMap_singleton]
    exact hc
  · exact (redeclares_of_read hr ht hdi).declares hd
  · exact rereads_build hr hd ht hdi
  · rw [flatMap_singleton, hop]
  · rw [flatMap_singleton, hf]

end Source

theorem Bindings.ofDocuments_of_none {registry : Registry} {documents : List Document}
    (hp : documents.flatMap Document.operations = []) (hf : documents.flatMap Document.fragments = []) :
    (ofDocuments registry documents).2.hasErrors = false := by
  have ho : orderedFragments documents = [] := by rw [orderedFragments, hf]; rfl
  have hd : definitions documents = [] := by rw [definitions, hp]; rfl
  rw [ofDocuments_clean, hd]
  refine ⟨?_, nodup_nil, fun _ hm => absurd hm not_mem_nil⟩
  simp only [Scope.ofDocuments, repeatedFragments, declaredFragments, ho]
  rfl

/-- **Printing a schema and reading it again.** The printed schema of an accepted run is accepted. Its types,
directives and roots are those of the run, places and the descriptions of arguments apart, and it is printed in the
same way, unless a description has several lines or a float stands in a default or directive. -/
theorem analyze_print (sources : List Source) (source : Source)
    (hids : ∀ source ∈ sources, source.id ≠ Location.builtinSource) (hid : source.id ≠ Location.builtinSource)
    (hok : (analyze sources).isOk)
    (hlines : ∀ entry ∈ (analyze sources).registry.descriptions, entry.isLine)
    (hfloats : (analyze sources).registry.floats = []) (htext : source.text = (analyze sources).registry.print) :
    (analyze [source]).isOk ∧
      (analyze [source]).registry.userTypes.map (fun type => type.plain.relocate .erase) =
        (analyze sources).registry.userTypes.map (fun type => type.plain.relocate .erase) ∧
      (analyze [source]).registry.userDirectives.map (fun directive => directive.plain.relocate .erase) =
        (analyze sources).registry.userDirectives.map (fun directive => directive.plain.relocate .erase) ∧
      (analyze [source]).registry.roots.map (fun root => (root.1, root.2.relocate .erase)) =
        (analyze sources).registry.roots.map (fun root => (root.1, root.2.relocate .erase)) ∧
      (analyze [source]).registry.print = (analyze sources).registry.print := by
  have hpassed := passed_of_isOk hok
  rw [registry_of_passed hpassed] at hlines hfloats htext ⊢
  obtain ⟨hread, hd', hrereads, hoperations, hfragments⟩ :=
    Source.rereads_print hid hpassed htext (by rw [hfloats]; exact not_mem_nil)
  have hmatches := hrereads.matches hlines hfloats
  simp only [Source.schemaProblems, Diagnostics.hasErrors_append, Bool.or_eq_false_iff] at hpassed
  obtain ⟨hd, hreferences⟩ := Registry.build_clean.mp hpassed.1.2
  obtain ⟨hreferences', hvalid'⟩ := Registry.Matches.valid
    ⟨hd, placed_documents hids, directivesPlaced_documents hids⟩ hd' hmatches.thaw hreferences hpassed.2
  have hpassed' : (Source.schemaProblems [source]).hasErrors = false := by
    simp only [Source.schemaProblems, Diagnostics.hasErrors_append, Bool.or_eq_false_iff, hread]
    exact ⟨⟨rfl, Registry.build_clean.mpr ⟨hd'.toDeclares, hreferences'⟩⟩, hvalid'⟩
  have hok' : (analyze [source]).isOk :=
    isOk_iff.mpr ⟨hpassed', Bindings.ofDocuments_of_none hoperations hfragments⟩
  rw [registry_of_passed hpassed']
  have hfrozen : (Source.registry sources).Matches (Source.registry [source]) := hmatches.freeze
  have htypes := congrArg (List.map TypeDefinition.plain) hfrozen.types
  have hdirectives := congrArg (List.map DirectiveDefinition.plain) hfrozen.directives
  simp only [map_map, Function.comp_def, TypeDefinition.plain_relocate, TypeDefinition.plain_plain,
    DirectiveDefinition.plain_relocate, DirectiveDefinition.plain_plain] at htypes hdirectives
  exact ⟨hok', htypes, hdirectives, hfrozen.roots, hfrozen.print_eq⟩

/-- Descriptions, defaults and an extension of another input. -/
def describedSources : List Source :=
  Source.number [
    ("a", "type Query @tag \x7b \"One.\" a(\"Lost.\" in: In = \x7b c: [B] \x7d): E \x7d " ++
      "extend enum E \x7b B @tag \x7d"),
    ("b", "directive @tag(\"Lost.\" a: Int = -1) on OBJECT | ENUM_VALUE " ++
      "input In \x7b c: [E] = [A] \x7d enum E \x7b A \x7d")]

theorem analyze_print_described : (analyze describedSources).isOk ∧
      (∀ entry ∈ (analyze describedSources).registry.descriptions, entry.isLine) ∧
      (analyze describedSources).registry.floats = [] ∧
      (analyze [⟨0, "schema", (analyze describedSources).registry.print⟩]).isOk ∧
      (analyze [⟨0, "schema", (analyze describedSources).registry.print⟩]).registry.print =
        (analyze describedSources).registry.print := by
  have hids : ∀ source ∈ describedSources, source.id ≠ Location.builtinSource := by decide
  have hid : (0 : Nat) ≠ Location.builtinSource := by decide
  have hfacts : (analyze describedSources).isOk ∧
      (∀ entry ∈ (analyze describedSources).registry.descriptions, entry.isLine) ∧
      (analyze describedSources).registry.floats = [] := by decide +kernel
  have hagain : ∀ text, text = (analyze describedSources).registry.print →
      (analyze [⟨0, "schema", text⟩]).isOk ∧ (analyze [⟨0, "schema", text⟩]).registry.print = text := by
    intro text htext
    have hprint := analyze_print describedSources ⟨0, "schema", text⟩ hids hid hfacts.1 hfacts.2.1 hfacts.2.2 htext
    rw [← htext] at hprint
    exact ⟨hprint.1, hprint.2.2.2.2⟩
  exact ⟨hfacts.1, hfacts.2.1, hfacts.2.2, hagain _ rfl⟩

end GraphClient
