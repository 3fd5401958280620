import GraphClient.Proofs.Operation.Reports
import GraphClient.Proofs.Operation.Variables
import GraphClient.Proofs.Schema.Reports
import GraphClient.Proofs.Syntax.Starts

/-!
# Declared and unused variables

The warning about a variable tells it by its place, and no two variables of a run have one place.
-/

namespace GraphClient

open List Source Document Scope Syntax Diagnostics

variable {srcs : List Source}

theorem exists_parameter {definition : OperationDefinition}
    (h : definition ∈ (documents srcs).flatMap operations) {parameter : VariableDefinition}
    (hp : parameter ∈ definition.parameters) : ∃ src ∈ srcs, ∃ tree : Syntax.OperationDefinition,
      .operation tree ∈ (parse src.id src.text).1.definitions ∧ .ofSyntax src.id tree = definition ∧
        ∃ node ∈ tree.parameters, .ofSyntax src.id node = parameter := by
  obtain ⟨doc, hd, hdefinition⟩ := mem_flatMap.mp h
  simp only [documents, readAll, map_map, mem_map] at hd
  obtain ⟨src, hs, rfl⟩ := hd
  obtain ⟨node, hn, he⟩ := mem_filterMap.mp hdefinition
  split at he
  · obtain rfl := Option.some.inj he
    exact ⟨src, hs, _, hn, rfl, mem_map.mp hp⟩
  · cases he

/-- **Variables at one place are one variable** of one operation. -/
theorem eq_of_place_eq (hi : (srcs.map Source.id).Nodup)
    {first second : OperationDefinition} (hf : first ∈ (documents srcs).flatMap operations)
    (he : second ∈ (documents srcs).flatMap operations)
    {a b : VariableDefinition} (ha : a ∈ first.parameters) (hb : b ∈ second.parameters)
    (hl : a.location = b.location) : first = second ∧ a = b := by
  obtain ⟨src, hs, tree, ht, rfl, node, hn, rfl⟩ := exists_parameter hf ha
  obtain ⟨src', hs', tree', ht', rfl, node', hn', rfl⟩ := exists_parameter he hb
  obtain ⟨hd, hsp⟩ := Location.mk.inj hl
  obtain rfl := inj_on_of_nodup_map hi hs hs' hd
  have hst : node.span.start = node'.span.start := congrArg Span.start hsp
  have hmem : ∀ {node : Syntax.VariableDefinition} {tree : Syntax.OperationDefinition}, node ∈ tree.parameters →
      node.span.start ∈ (Definition.operation tree).places := fun hn =>
    mem_cons_of_mem _ (mem_map_of_mem hn)
  obtain ⟨⟩ := eq_of_mem_places ht ht' (hmem hn) (hst ▸ hmem hn')
  have hp := (nodup_flatMap.mp ((parse_places src.id src.text).imp Nat.ne_of_lt)).1 _ ht
  obtain rfl := inj_on_of_nodup_map (nodup_cons.mp hp).2 hn hn' hst
  exact ⟨rfl, rfl⟩

/-- Whether a run reports that a variable is not used. -/
def Analysis.WarnsUnused (analysis : Analysis) (parameter : BoundVariable) : Prop :=
  ∃ d ∈ analysis.diagnostics, d.code = Code.unusedVariable.text ∧ d.primary = some parameter.location

instance (analysis : Analysis) (param : BoundVariable) : Decidable (analysis.WarnsUnused param) :=
  inferInstanceAs (Decidable (∃ d ∈ analysis.diagnostics, _ ∧ _))

section Run

variable {srcs : List Source}

theorem schemaProblems_of_isOk (hok : (analyze srcs).isOk) : schemaProblems srcs = [] := by
  refine Fatal.eq_nil ?_ (passed_of_isOk hok)
  refine ((Fatal.flatMap fun reading hr => ?_).append (Registry.build_fatal _)).append (Registry.validate_fatal _)
  obtain ⟨src, -, rfl⟩ := mem_map.mp hr
  exact parse_fatal src.id src.text

variable {d : Diagnostic} {param : BoundVariable}

theorem mem_diagnostics_of_isOk (hok : (analyze srcs).isOk) : d ∈ (analyze srcs).diagnostics ↔
      d ∈ (Bindings.ofDocuments (registry srcs) (documents srcs)).2 := by
  simp [analyze_of_passed (passed_of_isOk hok), mem_sorted, schemaProblems_of_isOk hok, bindings]

theorem mem_boundVariables {defns : List VariableDefinition}
    (h : param ∈ boundVariables defns) : ∃ definition ∈ defns, definition.name = param.name ∧
      definition.location = param.location := by
  obtain ⟨definition, hdefinition, rfl⟩ := mem_map.mp h
  exact ⟨definition, mem_of_mem_firsts hdefinition, rfl, rfl⟩

variable {op : BoundOperation} {definition : OperationDefinition}

theorem clean_of_isOk (hok : (analyze srcs).isOk) (hdefinition : definition ∈ (documents srcs).flatMap operations) :
    ((scope srcs).bindOperation definition).2.hasErrors = false :=
  (Bindings.ofDocuments_clean.mp (isOk_iff.mp hok).2).2.2 definition
    (Bindings.mem_definitions.mpr hdefinition)

/-- A run reports a variable as unused if and only if its operation does not collect it. -/
theorem mem_diagnostics_unused (hok : (analyze srcs).isOk)
    (hco : d.code = Code.unusedVariable.text) : d ∈ (analyze srcs).diagnostics ↔
      ∃ definition ∈ (documents srcs).flatMap operations, ∃ root,
        (scope srcs).registry.rootType definition.kind = some root ∧ ∃ param ∈ boundVariables definition.parameters,
          param.name ∉ ((scope srcs).operationNotes definition root).uses.map VariableUse.name ∧
          d = .warning .unusedVariable "unused variable" param.location
            ("variable " ++ ticked ("$" ++ param.name) ++ " is never used") := by
  have ho : d.code ≠ Code.deprecatedUsage.text := by rw [hco]; decide
  have hf : d ∉ unusedFragments (scope srcs).declared
      (Bindings.ofDocuments (registry srcs) (documents srcs)).1.operations := fun h =>
    absurd (hco.symm.trans (mem_unusedFragments_code h)) (by decide)
  rw [mem_diagnostics_of_isOk hok, Bindings.mem_warnings (isOk_iff.mp hok).2 ho]
  refine (or_iff_left hf).trans ?_
  refine exists_congr fun definition => and_congr_right fun hdefinition => ?_
  have hc := clean_of_isOk hok hdefinition
  obtain ⟨name, root, hname, hr, -⟩ := bindOperation_clean.mp hc
  change d ∈ ((scope srcs).bindOperation definition).2 ↔ _
  rw [mem_unusedVariables hname hr hc ho]
  simp [hr, unusedVariables, and_assoc, eq_comm (a := d)]

variable (hok : (analyze srcs).isOk) (hmem : op ∈ (analyze srcs).operations)
  (hdefinition : definition ∈ (documents srcs).flatMap operations)
  (hname : definition.name = some op.name)

include hok hmem hdefinition hname

theorem bound_of_name : (scope srcs).registry.rootType definition.kind = some op.root ∧
      op.parameters = boundVariables definition.parameters := by
  obtain ⟨-, ho, hr⟩ :=
    bindOperation_some (bindOperation_of_name hok hmem hdefinition hname)
  exact ⟨ho, by rw [hr, operationResult]⟩

/-- **An operation collects the variables at places with a type**, and all of them are declared. -/
theorem mem_names_operationNotes (name : String) :
    name ∈ ((scope srcs).operationNotes definition op.root).uses.map VariableUse.name ↔
      definition.MentionsTyped (analyze srcs).registry (declaredFragments (documents srcs)) op.root name := by
  obtain ⟨hr, -⟩ := bound_of_name hok hmem hdefinition hname
  obtain ⟨_, root, -, hr', -, hn, -⟩ :=
    bindOperation_clean.mp (clean_of_isOk hok hdefinition)
  obtain rfl := Option.some.inj (hr.symm.trans hr')
  rw [registry_of_passed (passed_of_isOk hok), ← registry_scope, ← declared_scope]
  exact (complete_scope hok).mem_names_operation hn

theorem declared_of_mentionsTyped {name : String} (h : definition.MentionsTyped (analyze srcs).registry
      (declaredFragments (documents srcs)) op.root name) : ∃ param ∈ op.parameters, param.name = name := by
  obtain ⟨hr, hp⟩ := bound_of_name hok hmem hdefinition hname
  obtain ⟨_, root, -, hr', -, -, hu, -⟩ :=
    bindOperation_clean.mp (clean_of_isOk hok hdefinition)
  obtain rfl := Option.some.inj (hr.symm.trans hr')
  rw [← mem_names_operationNotes hok hmem hdefinition hname] at h
  obtain ⟨use, hs, rfl⟩ := mem_map.mp h
  have hc := hu use hs
  rw [hp]
  rw [useDiagnostics] at hc
  split at hc
  · cases hc
  · next param hf =>
    exact ⟨param, mem_of_find?_eq_some hf, by simpa using find?_some hf⟩

/-- **A variable is reported as unused if it does not occur at a place with a type.** -/
theorem warnsUnused_iff (hi : (srcs.map Source.id).Nodup)
    (hp : param ∈ op.parameters) : (analyze srcs).WarnsUnused param ↔ ¬ definition.MentionsTyped (analyze srcs).registry
        (declaredFragments (documents srcs)) op.root param.name := by
  obtain ⟨hr, hpa⟩ := bound_of_name hok hmem hdefinition hname
  rw [hpa] at hp
  rw [← mem_names_operationNotes hok hmem hdefinition hname]
  constructor
  · rintro ⟨d, hd, hc, hl⟩
    obtain ⟨other, ho, root, hr', found, hf, hu, rfl⟩ :=
      (mem_diagnostics_unused hok hc).mp hd
    obtain ⟨a, ha, hn, hap⟩ := mem_boundVariables hf
    obtain ⟨b, hb, hbn, hbp⟩ := mem_boundVariables hp
    have hs : a.location = b.location := by
      rw [hap, hbp]
      exact Option.some.inj hl
    obtain ⟨rfl, rfl⟩ := eq_of_place_eq hi ho hdefinition ha hb hs
    obtain rfl := Option.some.inj (hr.symm.trans hr')
    rwa [← hbn, hn]
  · intro hu
    refine ⟨_, (mem_diagnostics_unused hok rfl).mpr
      ⟨definition, hdefinition, op.root, hr, param, hp, hu, rfl⟩, rfl, rfl⟩

end Run

/-- **Variables are declared and reported exactly as they occur, if each one that occurs also occurs at a
place with a type.** On the left, every variable that occurs in an operation or in a fragment that it leads
to is declared, and a declared variable is reported as unused if it does not occur there. -/
theorem variables_exact_iff (sources : List Source) (hids : (sources.map Source.id).Nodup)
    (hok : (analyze sources).isOk) (operation : BoundOperation)
    (hmem : operation ∈ (analyze sources).operations) :
    let definitions := (documents sources).flatMap operations
    let declared := declaredFragments (documents sources)
    (∃ definition ∈ definitions, definition.name = some operation.name) ∧
      ∀ definition ∈ definitions, definition.name = some operation.name → (((∀ name, definition.Mentions declared name →
              ∃ parameter ∈ operation.parameters, parameter.name = name) ∧
            ∀ parameter ∈ operation.parameters,
              ((analyze sources).WarnsUnused parameter ↔ ¬ definition.Mentions declared parameter.name)) ↔
          ∀ name, definition.Mentions declared name →
            definition.MentionsTyped (analyze sources).registry declared operation.root name) := by
  intro definitions declared
  constructor
  · obtain ⟨definition, hdefinition, hbind⟩ := exists_definition hmem
    exact ⟨definition, hdefinition, (bindOperation_some hbind).1⟩
  intro definition hdefinition hname
  have hwarns := fun (parameter : BoundVariable) (hparameter : parameter ∈ operation.parameters) =>
    warnsUnused_iff hok hmem hdefinition hname hids hparameter
  constructor
  · rintro ⟨hdeclared, hreported⟩ name hmentions
    obtain ⟨parameter, hparameter, rfl⟩ := hdeclared name hmentions
    by_contra htyped
    exact (hreported parameter hparameter).mp ((hwarns parameter hparameter).mpr htyped) hmentions
  · intro htyped
    refine ⟨fun name hmentions =>
      declared_of_mentionsTyped hok hmem hdefinition hname (htyped name hmentions),
      fun parameter hparameter => (hwarns parameter hparameter).trans (not_congr ⟨?_, htyped _⟩)⟩
    exact OperationDefinition.MentionsTyped.mentions

/-- A variable in a list in an object in a fragment, and one without a use. -/
def nestedVariableSources : List Source :=
  number [("schema.graphql", "input Filter \x7b ids: [Int] \x7d type Query \x7b find(filter: Filter): Int \x7d"),
    ("query.graphql",
      "query Q($x: Int, $y: Int) \x7b ...F \x7d fragment F on Query \x7b find(filter: \x7bids: [1, $x]\x7d) \x7d")]

theorem variables_exact_iff_nested :
    (nestedVariableSources.map Source.id).Nodup ∧ (analyze nestedVariableSources).isOk ∧
      ∃ operation ∈ (analyze nestedVariableSources).operations,
        let definitions := (documents nestedVariableSources).flatMap operations
        let declared := declaredFragments (documents nestedVariableSources)
        (∃ definition ∈ definitions, definition.name = some operation.name) ∧
          ∀ definition ∈ definitions, definition.name = some operation.name →
            (((∀ name, definition.Mentions declared name → ∃ parameter ∈ operation.parameters, parameter.name = name) ∧
                ∀ parameter ∈ operation.parameters, ((analyze nestedVariableSources).WarnsUnused parameter ↔
                    ¬ definition.Mentions declared parameter.name)) ↔
              ∀ name, definition.Mentions declared name →
                definition.MentionsTyped (analyze nestedVariableSources).registry declared
                  operation.root name) := by
  have hids : (nestedVariableSources.map Source.id).Nodup := by decide +kernel
  have hok : (analyze nestedVariableSources).isOk := by decide +kernel
  have hbound : 0 < (analyze nestedVariableSources).operations.length := by decide +kernel
  have hmem := get_mem (analyze nestedVariableSources).operations ⟨0, hbound⟩
  exact ⟨hids, hok, _, hmem, variables_exact_iff nestedVariableSources hids hok _ hmem⟩

def scalarVariableSources : List Source :=
  number [("schema.graphql", "scalar Json type Query \x7b find(filter: Json): Int \x7d"),
    ("query.graphql", "query Q($x: Int) \x7b find(filter: \x7blimit: $x\x7d) \x7d")]

/-- **A variable that occurs can be reported as unused**, when it occurs in an object given for a scalar. -/
theorem warnsUnused_of_scalar_object :
    (scalarVariableSources.map Source.id).Nodup ∧ (analyze scalarVariableSources).isOk ∧
      ∃ operation ∈ (analyze scalarVariableSources).operations,
        ∃ definition ∈ (Source.documents scalarVariableSources).flatMap Document.operations,
          definition.name = some operation.name ∧ ∃ parameter ∈ operation.parameters,
            (analyze scalarVariableSources).WarnsUnused parameter ∧
              definition.Mentions (declaredFragments (Source.documents scalarVariableSources)) parameter.name := by
  refine ⟨by decide +kernel, by decide +kernel, ?_⟩
  have hrun : ∃ operation ∈ (analyze scalarVariableSources).operations,
      ∃ definition ∈ (documents scalarVariableSources).flatMap operations,
        definition.name = some operation.name ∧
        ∃ parameter ∈ operation.parameters, (analyze scalarVariableSources).WarnsUnused parameter ∧
          parameter.name ∈ elementVariables definition.directives definition.selections := by
    decide +kernel
  obtain ⟨operation, hmem, definition, hdefinition, hname, parameter, hparameter, hwarns, hoccurs⟩ := hrun
  exact ⟨operation, hmem, definition, hdefinition, hname, parameter, hparameter, hwarns, .inl hoccurs⟩

end GraphClient
