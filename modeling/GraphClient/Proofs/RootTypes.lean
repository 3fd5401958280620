import GraphClient.Proofs.Analysis
import GraphClient.Proofs.Schema.WellFormed

/-!
# Root types

Declared roots are checked to be object types. Without a schema block the roots are the types of the
conventional names, and these can be of any kind.
-/

namespace GraphClient

namespace Registry

variable {reg : Registry}

/-- **When the root of an operation kind is an object type**, once the declared roots are. -/
theorem rootType_object_iff (kind : OperationKind) (ho : ∀ root ∈ reg.roots, reg.kind? root.2.name = some .object) :
    (∀ root, reg.rootType kind = some root → reg.kind? root = some .object) ↔ reg.hasSchema ∨
        ∀ found, reg.kind? kind.conventionalRoot = some found → found = .object := by
  rw [rootType]
  cases reg.hasSchema with
  | true =>
    refine iff_of_true (fun root hr => ?_) (Or.inl rfl)
    simp only [if_true, declaredRoot?, Option.map_map, Option.map_eq_some_iff] at hr
    obtain ⟨e, he, rfl⟩ := hr
    exact ho e (List.mem_of_find?_eq_some he)
  | false => cases ht : reg.type? kind.conventionalRoot <;> simp [kind?, ht]

theorem hasSchema_or_eq_conventionalRoot {kind : OperationKind} {root : String}
    (h : reg.rootType kind = some root) : reg.hasSchema ∨ root = kind.conventionalRoot := by
  rw [rootType] at h
  cases hs : reg.hasSchema with
  | true => exact Or.inl rfl
  | false =>
    simp only [hs, Bool.false_eq_true, if_false, Option.map_eq_some_iff] at h
    obtain ⟨-, -, rfl⟩ := h
    exact Or.inr rfl

end Registry

variable {srcs : List Source}

theorem roots_of_passed (h : (Source.schemaProblems srcs).hasErrors = false) :
    ∀ root ∈ (analyze srcs).registry.roots, (analyze srcs).registry.kind? root.2.name = some .object := by
  rw [registry_of_passed h]
  rw [Source.schemaProblems, Diagnostics.append_clean, Diagnostics.append_clean] at h
  exact Registry.roots_build h.1.2 h.2

theorem rootType_of_mem_operations {op : BoundOperation} (h : op ∈ (analyze srcs).operations) :
    (analyze srcs).registry.rootType op.kind = some op.root := by
  obtain ⟨defn, -, hb⟩ := exists_definition h
  obtain ⟨-, hr, he⟩ := Scope.bindOperation_some hb
  rw [registry_scope, ← registry_of_passed (passed_of_mem_operations h)] at hr
  rw [he]
  exact hr

/-- **When root types are object types.** In accepted runs the root of an operation kind is an object type
just if there is a schema block, or the type of the conventional name is one or is not declared; and the
operations of the kind start at it. -/
theorem rootTypes_object_iff (sources : List Source) (hok : (analyze sources).isOk) :
    (∀ kind : OperationKind, (∀ root, (analyze sources).registry.rootType kind = some root →
        (analyze sources).registry.kind? root = some .object) ↔ (analyze sources).registry.hasSchema ∨ ∀ found,
        (analyze sources).registry.kind? kind.conventionalRoot = some found → found = .object) ∧
    ∀ operation ∈ (analyze sources).operations,
      (analyze sources).registry.rootType operation.kind = some operation.root ∧
      ((analyze sources).registry.kind? operation.root = some .object ↔ (analyze sources).registry.hasSchema ∨
          (analyze sources).registry.kind? operation.kind.conventionalRoot = some .object) := by
  have hiff := fun kind => Registry.rootType_object_iff kind (roots_of_passed (passed_of_isOk hok))
  refine ⟨hiff, fun operation hmem => ?_⟩
  have hroot := rootType_of_mem_operations hmem
  refine ⟨hroot, fun hobject => ?_, fun h => ?_⟩
  · exact (Registry.hasSchema_or_eq_conventionalRoot hroot).imp_right fun heq => by rwa [← heq]
  · refine (hiff operation.kind).mpr (h.imp_right fun hobject found hfound => ?_) _ hroot
    exact Option.some.inj (hfound.symm.trans hobject)

/-- Roots of a schema block and of an extension of it; the type of a conventional name is no object. -/
def declaredRootSources : List Source :=
  Source.number [("schema.graphql",
      "schema \x7b query: Reads \x7d type Reads \x7b a: Int \x7d type Writes \x7b b: Int \x7d scalar Query"),
    ("more.graphql", "extend schema \x7b mutation: Writes \x7d"),
    ("operations.graphql", "query Q \x7b a \x7d mutation M \x7b b \x7d")]

theorem rootTypes_object_declared : (analyze declaredRootSources).isOk ∧
      (analyze declaredRootSources).registry.kind? "Query" = some .scalar ∧
      ∃ operation ∈ (analyze declaredRootSources).operations, operation.root = "Writes" ∧
        (analyze declaredRootSources).registry.kind? operation.root = some .object := by
  have hok : (analyze declaredRootSources).isOk := by decide +kernel
  have hroot : ∃ operation ∈ (analyze declaredRootSources).operations, operation.root = "Writes" := by
    decide +kernel
  obtain ⟨operation, hmem, hroot⟩ := hroot
  exact ⟨hok, by decide +kernel, operation, hmem, hroot,
    ((rootTypes_object_iff declaredRootSources hok).2 operation hmem).2.mpr (Or.inl (by decide +kernel))⟩

/-- An interface of a conventional name, and no schema block. -/
def interfaceRootSources : List Source :=
  Source.number [("schema.graphql", "interface Query \x7b a: Int \x7d"), ("query.graphql", "query Q \x7b a \x7d")]

/-- **An operation of an accepted run can start at an interface.** -/
theorem exists_interface_root : (analyze interfaceRootSources).isOk ∧
      ∃ operation ∈ (analyze interfaceRootSources).operations,
        (analyze interfaceRootSources).registry.rootType operation.kind = some operation.root ∧
          (analyze interfaceRootSources).registry.kind? operation.root = some .interface := by
  decide +kernel

end GraphClient
