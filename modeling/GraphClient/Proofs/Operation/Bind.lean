import GraphClient.Proofs.Operation.Binding

/-!
# Bound operations

* **`Bindings.ofDocuments_clean`**: when all operations of a list of documents are.
-/

namespace GraphClient

open List Diagnostics OperationDefinition

namespace Scope

theorem bindFragments_keeps (scope : Scope) (names : List String) :
    (scope.bindFragments names).1.registry = scope.registry ∧
      (scope.bindFragments names).1.declared = scope.declared := by
  induction names generalizing scope with
  | nil => exact ⟨rfl, rfl⟩
  | cons name rest ih =>
    rw [bindFragments]
    split
    · exact ih scope
    · next frag _ =>
      obtain ⟨bound, ds⟩ := scope.bindFragment frag
      cases bound with
      | none => exact ih scope
      | some bound => exact ih { scope with bound := scope.bound.insert bound.name bound }

theorem registry_ofDocuments (reg : Registry) (docs : List Document) : (ofDocuments reg docs).1.registry = reg := by
  simp only [ofDocuments, bindFragments_keeps]

theorem declared_ofDocuments (reg : Registry) (docs : List Document) :
    (ofDocuments reg docs).1.declared = declaredFragments docs := by
  simp only [ofDocuments, bindFragments_keeps]

/-- The notes on an operation on the type `root`. -/
def operationNotes (scope : Scope) (operation : OperationDefinition) (root : String) : Notes :=
  scope.directiveNotes operation.kind.place operation.directives ++ (scope.bindSet root operation.selections).2

/-- An operation as the scope binds it, with its name and root type. -/
def operationResult (scope : Scope) (operation : OperationDefinition) (name root : String) :
    BoundOperation where
  name := name
  kind := operation.kind
  root := root
  parameters := boundVariables operation.parameters
  directives := operation.directives
  selections := (scope.bindSet root operation.selections).1
  shape := scope.registry.resultShape root (scope.bindSet root operation.selections).1
  fragments := .ofList (scope.operationNotes operation root).spreads
  location := operation.location

variable {scope : Scope} {defn : OperationDefinition}

theorem bindOperation_eq {name root : String} (hn : defn.name = some name)
    (hr : scope.registry.rootType defn.kind = some root) : scope.bindOperation defn =
      (some (scope.operationResult defn name root), scope.variableDiagnostics defn.parameters ++
          (scope.operationNotes defn root).diagnostics ++ (scope.operationNotes defn root).uses.flatMap
            (useDiagnostics (boundVariables defn.parameters)) ++
          unusedVariables (boundVariables defn.parameters) (scope.operationNotes defn root).uses ++
          scope.registry.conflicts root (scope.bindSet root defn.selections).1) := by
  simp only [bindOperation, hn, hr]
  rfl

theorem bindOperation_some {op : BoundOperation} (h : (scope.bindOperation defn).1 = some op) :
    defn.name = some op.name ∧ scope.registry.rootType defn.kind = some op.root ∧
      op = scope.operationResult defn op.name op.root := by
  cases hn : defn.name with
  | none => simp [bindOperation, hn] at h
  | some name =>
    cases hr : scope.registry.rootType defn.kind with
    | none => simp [bindOperation, hn, hr] at h
    | some root =>
      rw [bindOperation_eq hn hr] at h
      obtain rfl := Option.some.inj h
      exact ⟨rfl, rfl, rfl⟩

theorem hasErrors_unusedVariables (params : List BoundVariable) (uses : List VariableUse) :
    (unusedVariables params uses).hasErrors = false := by
  rw [hasErrors_eq_false]
  intro d hd
  obtain ⟨param, -, rfl⟩ := mem_map.mp hd
  rfl

/-- **When an operation is bound without errors.** -/
theorem bindOperation_clean : (scope.bindOperation defn).2.hasErrors = false ↔
      ∃ name root, defn.name = some name ∧ scope.registry.rootType defn.kind = some root ∧
        (scope.variableDiagnostics defn.parameters).hasErrors = false ∧
        (scope.operationNotes defn root).diagnostics.hasErrors = false ∧ (∀ use ∈ (scope.operationNotes defn root).uses,
          (useDiagnostics (boundVariables defn.parameters) use).hasErrors = false) ∧
        (scope.registry.conflicts root (scope.bindSet root defn.selections).1).hasErrors = false := by
  cases hn : defn.name with
  | none => simp [bindOperation, hn]
  | some name =>
    cases hr : scope.registry.rootType defn.kind with
    | none => simp [bindOperation, hn, hr]
    | some root =>
      rw [bindOperation_eq hn hr]
      simp [hasErrors_unusedVariables, hasErrors_flatMap]

theorem name_bindOperation (h : (scope.bindOperation defn).2.hasErrors = false) :
    (scope.bindOperation defn).1.map BoundOperation.name = defn.name := by
  obtain ⟨name, root, hn, hr, -⟩ := bindOperation_clean.mp h
  rw [bindOperation_eq hn hr, hn]
  rfl

end Scope

theorem map_fst_markNamed (seen : List String) (definitions : List OperationDefinition) :
    (orderedOperations.markNamed seen definitions).map Prod.fst = definitions := by
  induction definitions generalizing seen with
  | nil => rfl
  | cons first rest ih =>
    rw [orderedOperations.markNamed]
    split <;> rw [map_cons, ih]

variable {seen : List String} {defns : List OperationDefinition}

theorem repeatedOperations_clean : (repeatedOperations (orderedOperations.markNamed seen defns)).hasErrors = false ↔
      (defns.filterMap OperationDefinition.name).Nodup ∧
        ∀ name ∈ defns.filterMap OperationDefinition.name, name ∉ seen := by
  induction defns generalizing seen with
  | nil => simp [orderedOperations.markNamed, repeatedOperations]
  | cons first rest ih =>
    rw [orderedOperations.markNamed]
    cases hn : first.name with
    | none =>
      rw [filterMap_cons_none hn, ← ih]
      simp [repeatedOperations, hn]
    | some name =>
      rw [filterMap_cons_some hn, nodup_cons, forall_mem_cons]
      by_cases hs : name ∈ seen
      · simp [repeatedOperations, hn, hs]
      · have hk : repeatedOperations
            ((first, seen.contains name) :: orderedOperations.markNamed (name :: seen) rest) =
            repeatedOperations (orderedOperations.markNamed (name :: seen) rest) := by
          simp [repeatedOperations, hn, hs]
        rw [hk, ih]
        simp only [mem_cons, not_or]
        constructor
        · rintro ⟨hno, hr⟩
          exact ⟨⟨fun hm => (hr name hm).1 rfl, hno⟩, hs, fun other h => (hr other h).2⟩
        · rintro ⟨⟨he, hno⟩, -, hr⟩
          refine ⟨hno, fun other ho => ⟨?_, hr other ho⟩⟩
          rintro rfl
          exact he ho

theorem markNamed_eq_map (hn : (defns.filterMap OperationDefinition.name).Nodup)
    (hs : ∀ name ∈ defns.filterMap OperationDefinition.name, name ∉ seen) :
    orderedOperations.markNamed seen defns = defns.map fun e => (e, false) := by
  induction defns generalizing seen with
  | nil => rfl
  | cons first rest ih =>
    rw [orderedOperations.markNamed, map_cons]
    cases ha : first.name with
    | none =>
      rw [filterMap_cons_none ha] at hn hs
      rw [ih hn hs]
    | some name =>
      rw [filterMap_cons_some ha] at hn hs
      rw [nodup_cons] at hn
      have hr : ∀ other ∈ rest.filterMap OperationDefinition.name, other ∉ name :: seen := by
        intro other ho
        rw [mem_cons, not_or]
        refine ⟨?_, hs other (mem_cons_of_mem _ ho)⟩
        rintro rfl
        exact hn.1 ho
      simp [ih hn.2 hr, hs name mem_cons_self]

theorem eq_of_name_eq (hno : (defns.filterMap OperationDefinition.name).Nodup)
    {first second : OperationDefinition} (hf : first ∈ defns) (hs : second ∈ defns)
    {name : String} (hn : first.name = some name) (hn' : second.name = some name) : first = second := by
  induction defns with
  | nil => cases hf
  | cons he rest ih =>
    have hr : (rest.filterMap OperationDefinition.name).Nodup :=
      hno.sublist ((sublist_cons_self he rest).filterMap _)
    have hhe : ∀ other ∈ rest, other.name = some name → he.name ≠ some name := by
      intro other ht ho hh
      rw [filterMap_cons_some hh, nodup_cons] at hno
      exact hno.1 (mem_filterMap.mpr ⟨other, ht, ho⟩)
    rcases mem_cons.mp hf with rfl | hi
    · rcases mem_cons.mp hs with rfl | hi'
      · rfl
      · exact absurd hn (hhe second hi' hn')
    · rcases mem_cons.mp hs with rfl | hi'
      · exact absurd hn' (hhe first hi hn)
      · exact ih hr hi hi'

namespace Bindings

variable {reg : Registry} {docs : List Document}

/-- The definitions of all operations, by place. -/
def definitions (documents : List Document) : List OperationDefinition :=
  sortBy (fun a b => compare a.location b.location) (documents.flatMap Document.operations)

theorem mem_definitions {defn : OperationDefinition} :
    defn ∈ definitions docs ↔ defn ∈ docs.flatMap Document.operations :=
  mem_sortBy _

theorem hasErrors_unusedFragments (decls : NameMap FragmentDefinition)
    (ops : List BoundOperation) : (unusedFragments decls ops).hasErrors = false := by
  rw [hasErrors_eq_false]
  intro d hd
  obtain ⟨e, -, rfl⟩ := mem_map.mp hd
  rfl

theorem ofDocuments_eq (hn : ((definitions docs).filterMap name).Nodup) : let scope := (Scope.ofDocuments reg docs).1
    let results := (definitions docs).map scope.bindOperation
    let bound := sortBy (fun a b => compare a.name b.name) (results.filterMap Prod.fst)
    ofDocuments reg docs = (⟨bound, scope.bound⟩,
      (Scope.ofDocuments reg docs).2 ++ repeatedOperations (orderedOperations docs) ++
        results.flatMap Prod.snd ++ unusedFragments scope.declared bound) := by
  have hm : orderedOperations docs = (definitions docs).map fun entry => (entry, false) :=
    markNamed_eq_map hn fun _ _ => not_mem_nil
  have hr : ((orderedOperations docs).filter fun entry => !entry.2).map (fun entry =>
      (Scope.ofDocuments reg docs).1.bindOperation entry.1) =
      (definitions docs).map (Scope.ofDocuments reg docs).1.bindOperation := by
    rw [hm, filter_eq_self.mpr, map_map]
    · rfl
    · intro entry he
      obtain ⟨defn, -, rfl⟩ := mem_map.mp he
      rfl
  simp only [ofDocuments, hr]

theorem ofDocuments_clean : (ofDocuments reg docs).2.hasErrors = false ↔
      (Scope.ofDocuments reg docs).2.hasErrors = false ∧ ((definitions docs).filterMap name).Nodup ∧
      ∀ defn ∈ definitions docs, ((Scope.ofDocuments reg docs).1.bindOperation defn).2.hasErrors = false := by
  have hr : (repeatedOperations (orderedOperations docs)).hasErrors = false ↔
      ((definitions docs).filterMap name).Nodup :=
    repeatedOperations_clean.trans (and_iff_left fun _ _ => not_mem_nil)
  constructor
  · intro h
    have hn : ((definitions docs).filterMap name).Nodup := by
      refine hr.mp ?_
      simp only [ofDocuments, append_clean] at h
      exact h.1.1.2
    rw [ofDocuments_eq hn] at h
    simp only [append_clean, hasErrors_flatMap, forall_mem_map] at h
    exact ⟨h.1.1.1, hn, h.1.2⟩
  · rintro ⟨hs, hn, he⟩
    rw [ofDocuments_eq hn]
    simp only [append_clean, hasErrors_flatMap, forall_mem_map, hasErrors_unusedFragments]
    exact ⟨⟨⟨hs, hr.mpr hn⟩, he⟩, trivial⟩

theorem fragments_ofDocuments (reg : Registry) (docs : List Document) :
    (ofDocuments reg docs).1.fragments = (Scope.ofDocuments reg docs).1.bound := by
  simp only [ofDocuments]

theorem exists_definition {op : BoundOperation} (h : op ∈ (ofDocuments reg docs).1.operations) :
    ∃ defn ∈ docs.flatMap Document.operations, ((Scope.ofDocuments reg docs).1.bindOperation defn).1 = some op := by
  obtain ⟨res, hr, hs⟩ := mem_filterMap.mp ((mem_sortBy _).mp h)
  obtain ⟨e, he, rfl⟩ := mem_map.mp hr
  refine ⟨e.1, mem_definitions.mp ?_, hs⟩
  have hm : e.1 ∈ (orderedOperations docs).map Prod.fst :=
    mem_map_of_mem (mem_of_mem_filter he)
  rwa [orderedOperations, map_fst_markNamed] at hm

end Bindings

end GraphClient
