import GraphClient.Proofs.Operation.Expansion
import GraphClient.Proofs.Operation.RequestScope
import GraphClient.Proofs.Spelling.Parsed

/-!
# Request documents

The text of an operation, as it is sent to a server, says all that the operation says. Read and bound
against the same schema, it gives the operation again, up to places.
-/

namespace GraphClient

open List Document Source

variable {srcs : List Source}

theorem isWellFormed_of_passed (h : (schemaProblems srcs).hasErrors = false) :
    (∀ defn ∈ (documents srcs).flatMap operations, defn.isWellFormed) ∧
    ∀ frag ∈ (documents srcs).flatMap fragments, frag.isWellFormed := by
  simp only [schemaProblems, Diagnostics.append_clean] at h
  have ht : ∀ src ∈ srcs, (read src).2 = [] := by
    have hc := h.1.1
    simp only [readAll, flatMap_map, Diagnostics.hasErrors_flatMap] at hc
    exact fun src hs =>
      (Syntax.parse_fatal src.id src.text).eq_nil (hc src hs)
  constructor
  · intro defn hd
    obtain ⟨src, hs, hm⟩ := exists_source hd
    exact (isWellFormed_of_read (ht src hs)).1 defn hm
  · intro frag hf
    obtain ⟨src, hs, hm⟩ := exists_source hf
    exact (isWellFormed_of_read (ht src hs)).2 frag hm

variable {operation : BoundOperation}

theorem isWellFormed_of_mem_operations (hok : (analyze srcs).isOk)
    (h : operation ∈ (analyze srcs).operations) : operation.unbind.isWellFormed ∧
      ∀ frag ∈ operation.usedFragments (analyze srcs).fragments, frag.unbind.isWellFormed := by
  have hp := passed_of_isOk hok
  have hc := complete_scope hok
  obtain ⟨defn, hd, hb⟩ := exists_definition h
  have ha := clean_of_isOk hok hd
  obtain ⟨ho, hfr⟩ := isWellFormed_of_passed hp
  refine ⟨hc.isWellFormed_unbindOperation hb ha (ho defn hd), ?_⟩
  rw [fragments_of_passed hp]
  intro frag hfra
  obtain ⟨orig, hr, rfl⟩ := (hc.mem_usedFragments hb ha).mp hfra
  have hf := hc.find?_of_reached hr
  have hm := ((declares_of_isOk hok orig.name orig).mp hf).1
  exact hc.isWellFormed_unbind hf (hfr orig hm)

theorem BoundOperation.document_congr {frags others : NameMap BoundFragment}
    (h : ∀ name ∈ operation.fragments, frags.find? name = others.find? name) :
    operation.document frags = operation.document others := by
  rw [document, document, filterMap_congr h]

theorem rebind_of_relocate {reg : Registry} {doc doc' : Document}
    (he : doc'.relocate .erase = doc.relocate .erase)
    (hc : (Bindings.ofDocuments reg [doc]).2.hasErrors = false)
    (ho : (Bindings.ofDocuments reg [doc]).1.operations = [operation]) :
    (Bindings.ofDocuments reg [doc']).2.hasErrors = false ∧
      ∃ again, (Bindings.ofDocuments reg [doc']).1.operations = [again] ∧ again.bare = operation.bare ∧
        again.document (Bindings.ofDocuments reg [doc']).1.fragments =
          operation.document (Bindings.ofDocuments reg [doc]).1.fragments := by
  have hr : Rearranged .erase [doc] [doc'] := by
    rw [Rearranged, PermBy, map_singleton, map_singleton, he]
  obtain ⟨hc', hs, hf⟩ := Bindings.ofDocuments_rearranged rfl rfl hr hc
  rw [ho] at hs
  obtain ⟨again, ha, hm⟩ := map_eq_singleton_iff.mp hs.symm
  refine ⟨hc', again, ha, hm, ?_⟩
  rw [← BoundOperation.document_relocate .erase again, hm, ← hf, BoundOperation.document_relocate]

/-- **The request document of an operation without floats is bound to the operation.** -/
theorem rebind_document (sources : List Source) (hok : (analyze sources).isOk)
    (operation : BoundOperation) (hoperation : operation ∈ (analyze sources).operations)
    (hfloat : operation.unbind.hasFloat = false)
    (hfloats : ∀ fragment ∈ operation.usedFragments (analyze sources).fragments,
      fragment.unbind.hasFloat = false) (source : Nat) (path : String) :
    let text := operation.document (analyze sources).fragments
    let parsed := Document.read ⟨source, path, text⟩
    let bound := Bindings.ofDocuments (analyze sources).registry [parsed.1]
    parsed.2 = [] ∧ bound.2.hasErrors = false ∧ ∃ again, bound.1.operations = [again] ∧ again.bare = operation.bare ∧
        again.document bound.1.fragments = text := by
  have hpassed := passed_of_isOk hok
  have hcomplete := complete_scope hok
  obtain ⟨hformed, hused⟩ := isWellFormed_of_mem_operations hok hoperation
  simp only [OperationDefinition.hasFloat, FragmentDefinition.hasFloat, Bool.not_eq_false', List.isEmpty_iff]
    at hfloat hfloats
  obtain ⟨hreports, hread⟩ := Document.read_document hformed hused (hfloat ▸ not_mem_nil)
    (fun fragment hfragment => hfloats fragment hfragment ▸ not_mem_nil) source path
  rw [BoundOperation.rereadDocument_eq hfloat hfloats] at hread
  rw [fragments_of_passed hpassed] at hreports hread ⊢
  rw [registry_of_passed hpassed, ← registry_scope]
  obtain ⟨definition, hdefinition, hbind⟩ := exists_definition hoperation
  have haccepted := clean_of_isOk hok hdefinition
  obtain ⟨hclean, hbound, hsame⟩ := hcomplete.ofDocuments_request hbind haccepted source
  obtain ⟨hclean', again, hagain, hbare, htext⟩ := rebind_of_relocate hread hclean hbound
  exact ⟨hreports, hclean', again, hagain, hbare, htext.trans (BoundOperation.document_congr hsame)⟩

/-- Defaults, directives and an alias, on an interface with fragments that spread each other. -/
def requestSources : List Source :=
  number [("schema.graphql", "input In \x7b n: Int s: [String] \x7d interface Node \x7b id: ID \x7d " ++
        "type User implements Node \x7b id: ID name(in: In): String \x7d type Query \x7b node: Node \x7d"),
    ("query.graphql", "query Q($x: Boolean! = true, $in: In = \x7bn: -2, s: [null, \"a\\n\"]\x7d) " ++
        "\x7b node \x7b ...Named @include(if: $x) ... on User \x7b key: name(in: $in) \x7d \x7d \x7d " ++
        "fragment Named on Node \x7b ...Id \x7d fragment Id on Node \x7b id \x7d")]

theorem rebind_document_fragments :
    (analyze requestSources).isOk ∧ ∃ operation ∈ (analyze requestSources).operations,
      operation.unbind.hasFloat = false ∧ (∀ fragment ∈ operation.usedFragments (analyze requestSources).fragments,
        fragment.unbind.hasFloat = false) ∧ operation.fragments = ["Id", "Named"] ∧
      let text := operation.document (analyze requestSources).fragments
      let parsed := Document.read ⟨0, "request.graphql", text⟩
      let bound := Bindings.ofDocuments (analyze requestSources).registry [parsed.1]
      parsed.2 = [] ∧ bound.2.hasErrors = false ∧ ∃ again, bound.1.operations = [again] ∧ again.bare = operation.bare ∧
          again.document bound.1.fragments = text := by
  obtain ⟨hok, operation, hmem, hfloat, hfloats, hfragments⟩ : (analyze requestSources).isOk ∧
      ∃ operation ∈ (analyze requestSources).operations, operation.unbind.hasFloat = false ∧
        (∀ fragment ∈ operation.usedFragments (analyze requestSources).fragments,
          fragment.unbind.hasFloat = false) ∧ operation.fragments = ["Id", "Named"] := by
    decide +kernel
  exact ⟨hok, operation, hmem, hfloat, hfloats, hfragments,
    rebind_document requestSources hok operation hmem hfloat hfloats 0 "request.graphql"⟩

/-! ## Fragments in use -/

/-- The warning about a fragment that no operation leads to. -/
def FragmentDefinition.unusedWarning (fragment : FragmentDefinition) : Diagnostic :=
  .warning .unusedFragment "unused fragment" fragment.location
    ("fragment " ++ ticked fragment.name ++ " is never used")

theorem FragmentDefinition.name_of_unusedWarning {frag : FragmentDefinition} {loc : Location}
    {name : String} (h : .warning .unusedFragment "unused fragment" loc
      ("fragment " ++ ticked name ++ " is never used") = frag.unusedWarning) : name = frag.name := by
  have hl := congrArg Diagnostic.labels h
  simp only [unusedWarning, Diagnostic.warning, ticked, List.cons.injEq, Label.mk.injEq, String.append_left_inj,
    String.append_right_inj] at hl
  exact hl.1.2

section Run

variable (hok : (analyze srcs).isOk)

include hok

theorem exists_operation {defn : OperationDefinition} (hd : defn ∈ (documents srcs).flatMap operations) :
    ∃ operation ∈ (analyze srcs).operations, ((scope srcs).bindOperation defn).1 = some operation := by
  obtain ⟨name, root, hn, hr, -⟩ := Scope.bindOperation_clean.mp (clean_of_isOk hok hd)
  have hb : ((scope srcs).bindOperation defn).1 =
      some ((scope srcs).operationResult defn name root) := by
    rw [Scope.bindOperation_eq hn hr]
  refine ⟨_, ?_, hb⟩
  rw [operations_of_passed (passed_of_isOk hok),
    Bindings.ofDocuments_eq (Bindings.ofDocuments_clean.mp (isOk_iff.mp hok).2).2.1]
  exact (mem_sortBy _).mpr (mem_filterMap.mpr ⟨_, mem_map.mpr ⟨defn, Bindings.mem_definitions.mpr hd, rfl⟩, hb⟩)

theorem mem_fragments_of_bind {defn : OperationDefinition} (hd : defn ∈ (documents srcs).flatMap operations)
    (hb : ((scope srcs).bindOperation defn).1 = some operation) (name : String) : name ∈ operation.fragments ↔ ∃ frag,
      Reached (declaredFragments (documents srcs)) defn.selections frag ∧ frag.name = name := by
  rw [← declared_scope]
  exact (complete_scope hok).mem_fragments hb (clean_of_isOk hok hd)

/-- **A fragment is reported as unused if no operation leads to it.** -/
theorem unusedWarning_mem_iff {frag : FragmentDefinition} (hfr : frag ∈ (documents srcs).flatMap fragments) :
    frag.unusedWarning ∈ (analyze srcs).diagnostics ↔ ∀ defn ∈ (documents srcs).flatMap operations,
        ¬ Reached (declaredFragments (documents srcs)) defn.selections frag := by
  have hf := (declares_of_isOk hok frag.name frag).mpr ⟨hfr, rfl⟩
  have hco : Code.unusedFragment.text ≠ Code.deprecatedUsage.text := by decide
  have hs : ¬ ∃ defn ∈ (documents srcs).flatMap operations,
      frag.unusedWarning ∈ ((scope srcs).bindOperation defn).2 := by
    rintro ⟨defn, hd, hm⟩
    have hc := clean_of_isOk hok hd
    obtain ⟨name, root, hn, hro, -⟩ := Scope.bindOperation_clean.mp hc
    rw [Scope.mem_unusedVariables hn hro hc hco] at hm
    have ho : Code.unusedFragment.text ≠ Code.unusedVariable.text := by decide
    exact ho (mem_unusedVariables_code hm)
  rw [mem_diagnostics_of_isOk hok, Bindings.mem_warnings (isOk_iff.mp hok).2 hco,
    ← operations_of_passed (passed_of_isOk hok)]
  refine (or_iff_right hs).trans ?_
  constructor
  · intro hm defn hd hr
    obtain ⟨⟨name, other⟩, he, hw⟩ := mem_map.mp hm
    obtain rfl := FragmentDefinition.name_of_unusedWarning hw
    obtain ⟨operation, hp, hb⟩ := exists_operation hok hd
    have hu := (mem_filter.mp he).2
    rw [Bool.not_eq_true', any_eq_false] at hu
    exact hu operation hp (contains_iff_mem.mpr ((mem_fragments_of_bind hok hd hb _).mpr ⟨frag, hr, rfl⟩))
  · intro hun
    refine mem_map.mpr ⟨(frag.name, frag), mem_filter.mpr ⟨NameMap.mem_of_find? hf, ?_⟩, rfl⟩
    rw [Bool.not_eq_true', any_eq_false]
    intro operation hp hm
    obtain ⟨defn, hd, hb⟩ := exists_definition hp
    obtain ⟨other, hr, hn⟩ :=
      (mem_fragments_of_bind hok hd hb _).mp (contains_iff_mem.mp hm)
    rw [← declared_scope] at hr
    have ho := (complete_scope hok).find?_of_reached hr
    rw [hn, hf] at ho
    obtain rfl := Option.some.inj ho
    exact hun defn hd (declared_scope srcs ▸ hr)

end Run

/-- **The fragments of a bound operation** are those that its definition leads to, in the order of their names.
The request document is the operation and one definition for each of them, and it is read so unless there is a
negative infinity in it. -/
structure BoundOperation.ListsFragments (sources : List Source) (operation : BoundOperation) : Prop where
  sorted : NameSet.Sorted operation.fragments
  defined : ∃ definition ∈ (documents sources).flatMap operations, definition.name = some operation.name
  reached : ∀ definition ∈ (documents sources).flatMap operations,
    definition.name = some operation.name → ∀ name, (name ∈ operation.fragments ↔ ∃ fragment,
      Reached (declaredFragments (documents sources)) definition.selections fragment ∧ fragment.name = name)
  named : (operation.usedFragments (analyze sources).fragments).map BoundFragment.name = operation.fragments
  printed : operation.document (analyze sources).fragments = Printer.sections (Printer.operation operation ::
    (operation.usedFragments (analyze sources).fragments).map Printer.fragment)
  read : .infinite true ∉ operation.unbind.floats →
    (∀ fragment ∈ operation.usedFragments (analyze sources).fragments, .infinite true ∉ fragment.unbind.floats) →
    ∀ source path, (read ⟨source, path, operation.document (analyze sources).fragments⟩).2 = [] ∧
      (read ⟨source, path, operation.document (analyze sources).fragments⟩).1.fragments.map
        FragmentDefinition.name = operation.fragments

/-- **Fragments are listed and reported as they are reached.** -/
theorem fragments_closed (sources : List Source) (hok : (analyze sources).isOk) :
    (∀ operation ∈ (analyze sources).operations, operation.ListsFragments sources) ∧
      ∀ fragment ∈ (Source.documents sources).flatMap Document.fragments,
        (fragment.unusedWarning ∈ (analyze sources).diagnostics ↔
          ∀ definition ∈ (Source.documents sources).flatMap Document.operations,
            ¬ Reached (declaredFragments (Source.documents sources)) definition.selections fragment) := by
  refine ⟨fun operation hoperation => ?_, fun _ => unusedWarning_mem_iff hok⟩
  obtain ⟨definition, hdefinition, hbind⟩ := exists_definition hoperation
  have hnames : (operation.usedFragments (analyze sources).fragments).map BoundFragment.name = operation.fragments := by
    rw [fragments_of_passed (passed_of_isOk hok)]
    exact (complete_scope hok).names_usedFragments hbind (clean_of_isOk hok hdefinition)
  refine ⟨?_, ⟨definition, hdefinition, (Scope.bindOperation_some hbind).1⟩, ?_, hnames, rfl, ?_⟩
  · rw [(Scope.bindOperation_some hbind).2.2, Scope.operationResult]
    exact NameSet.sorted_ofList _
  · intro other hother hname
    exact mem_fragments_of_bind hok hother (bindOperation_of_name hok hoperation hother hname)
  · intro hfloat hfloats source path
    obtain ⟨hformed, hused⟩ := isWellFormed_of_mem_operations hok hoperation
    obtain ⟨hreports, hread⟩ := Document.read_document hformed hused hfloat hfloats source path
    have hfragments := congrArg (fun document => document.fragments.map FragmentDefinition.name) hread
    simp only [Document.relocate, BoundOperation.rereadDocument, map_map] at hfragments
    exact ⟨hreports, hfragments.trans hnames⟩

theorem fragments_closed_spread : (analyze requestSources).isOk ∧
    (∀ operation ∈ (analyze requestSources).operations, operation.ListsFragments requestSources) ∧
      ∀ fragment ∈ (Source.documents requestSources).flatMap Document.fragments,
        (fragment.unusedWarning ∈ (analyze requestSources).diagnostics ↔
          ∀ definition ∈ (Source.documents requestSources).flatMap Document.operations,
            ¬ Reached (declaredFragments (Source.documents requestSources)) definition.selections fragment) := by
  have hok : (analyze requestSources).isOk := by decide +kernel
  exact ⟨hok, fragments_closed requestSources hok⟩

end GraphClient
