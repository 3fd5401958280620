import GraphClient.Analysis
import GraphClient.Proofs.Operation.Bind
import GraphClient.Proofs.Schema.Registry

/-!
# The stages of an analysis

* **`isOk_iff`**: a run is accepted when no stage reports an error.
-/

namespace GraphClient

open Source Bindings

namespace Source

variable (sources : List Source)

def documents : List Document := (Document.readAll sources).1

/-- The registry of a run that passes the schema stage. -/
def registry : Registry := (Registry.build (documents sources)).1.freeze

/-- What a run that passes the schema stage binds. -/
def bindings : Bindings × Diagnostics := Bindings.ofDocuments (registry sources) (documents sources)

/-- The scope of a run that passes the schema stage. -/
def scope : Scope := (Scope.ofDocuments (registry sources) (documents sources)).1

/-- The reports on the texts and on the schema. -/
def schemaProblems : Diagnostics :=
  (Document.readAll sources).2 ++ (Registry.build (documents sources)).2 ++
    (Registry.build (documents sources)).1.validate

end Source

variable {sources : List Source}

/-- **The result of a run that gets past the schema.** -/
theorem analyze_of_passed (h : (schemaProblems sources).hasErrors = false) : analyze sources =
      ⟨registry sources, (bindings sources).1.operations, (bindings sources).1.fragments,
        (schemaProblems sources ++ (bindings sources).2).sorted⟩ := by
  simp only [schemaProblems, documents, Diagnostics.append_clean] at h
  simp [analyze, analyzeDocuments, schemaProblems, bindings, registry, documents, h.1.1, h.1.2, h.2]

/-- A run that does not get past the schema binds nothing and is not accepted. -/
theorem analyze_of_failed (h : (schemaProblems sources).hasErrors) :
    (analyze sources).operations = [] ∧ (analyze sources).diagnostics.hasErrors := by
  simp only [schemaProblems, documents] at h
  cases ht : (Document.readAll sources).2.hasErrors with
  | true => simp [analyze, ht]
  | false =>
    simp only [analyze, ht, Bool.false_eq_true, if_false, analyzeDocuments, h, if_true,
      Diagnostics.hasErrors_sorted, and_self]

theorem isOk_iff : (analyze sources).isOk ↔ (schemaProblems sources).hasErrors = false ∧
      (bindings sources).2.hasErrors = false := by
  rw [Analysis.isOk]
  cases h : (schemaProblems sources).hasErrors with
  | true => simp [(analyze_of_failed h).2]
  | false => simp [analyze_of_passed h, h, registry, Registry.freeze]

theorem passed_of_isOk (h : (analyze sources).isOk) : (schemaProblems sources).hasErrors = false := (isOk_iff.mp h).1

variable {op : BoundOperation}

theorem passed_of_mem_operations (h : op ∈ (analyze sources).operations) :
    (schemaProblems sources).hasErrors = false := by
  cases hp : (schemaProblems sources).hasErrors with
  | true =>
    rw [(analyze_of_failed hp).1] at h
    cases h
  | false => rfl

section Passed

variable (h : (schemaProblems sources).hasErrors = false)

include h

theorem registry_of_passed : (analyze sources).registry = registry sources := by rw [analyze_of_passed h]

theorem operations_of_passed : (analyze sources).operations =
    (ofDocuments (registry sources) (documents sources)).1.operations := by
  rw [analyze_of_passed h]
  rfl

theorem bound_of_passed : (analyze sources).fragments =
    (ofDocuments (registry sources) (documents sources)).1.fragments := by
  rw [analyze_of_passed h]
  rfl

theorem fragments_of_passed : (analyze sources).fragments = (scope sources).bound := by
  rw [bound_of_passed h, scope, fragments_ofDocuments]

end Passed

theorem named_registry (sources : List Source) : (registry sources).Named :=
  (Registry.named_build (documents sources)).freeze

theorem registry_scope (sources : List Source) : (scope sources).registry = registry sources := by
  rw [scope, Scope.registry_ofDocuments]

theorem declared_scope (sources : List Source) : (scope sources).declared = declaredFragments (documents sources) := by
  rw [scope, Scope.declared_ofDocuments]

theorem complete_scope (h : (analyze sources).isOk) : (scope sources).Complete := by
  exact Scope.ofDocuments_complete (ofDocuments_clean.mp (isOk_iff.mp h).2).1

/-- **Every bound operation comes from a definition.** -/
theorem exists_definition (h : op ∈ (analyze sources).operations) :
    ∃ defn ∈ (documents sources).flatMap Document.operations, ((scope sources).bindOperation defn).1 = some op := by
  simp only [analyze_of_passed (passed_of_mem_operations h)] at h
  simpa only [scope] using Bindings.exists_definition h

/-- In an accepted run, the operation of a definition is the one of its name. -/
theorem bindOperation_of_name (hk : (analyze sources).isOk)
    (h : op ∈ (analyze sources).operations) {defn : OperationDefinition}
    (hd : defn ∈ (documents sources).flatMap Document.operations) (ha : defn.name = some op.name) :
    ((scope sources).bindOperation defn).1 = some op := by
  obtain ⟨other, ho, hb⟩ := exists_definition h
  have hn := (ofDocuments_clean.mp (isOk_iff.mp hk).2).2.1
  have he := eq_of_name_eq hn (mem_definitions.mpr hd)
    (mem_definitions.mpr ho) ha (Scope.bindOperation_some hb).1
  rw [he, hb]

theorem shape_of_mem_operations (h : op ∈ (analyze sources).operations) :
    op.shape = (analyze sources).registry.resultShape op.root op.selections := by
  obtain ⟨defn, -, hb⟩ := exists_definition h
  have hs : op.shape = (scope sources).registry.resultShape op.root op.selections := by
    rw [(Scope.bindOperation_some hb).2.2, Scope.operationResult]
  rw [hs, registry_scope, registry_of_passed (passed_of_mem_operations h)]

end GraphClient
