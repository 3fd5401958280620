import GraphClient.Proofs.Operation.Bind
import GraphClient.Proofs.Schema.Input

/-!
# Reports of bindings

Bindings are reported on with errors and with three kinds of warnings, and each kind comes from one stage.

* **`Bindings.mem_warnings`**: where the warnings come from that are not about deprecated fields.
-/

namespace GraphClient

open Diagnostics Fatal List

/-- Reports without warnings other than those of the given cause. -/
def Diagnostics.Warns (code : Code) (ds : Diagnostics) : Prop :=
  ∀ d ∈ ds, d.isFatal = false → d.code = code.text

variable {d : Diagnostic}

namespace Diagnostics

variable {code : Code} {as bs : Diagnostics}

theorem Fatal.warns (h : Fatal as) : Warns code as := fun d hd hw => by
  rw [h d hd] at hw
  cases hw

theorem Warns.append (ha : Warns code as) (hb : Warns code bs) : Warns code (as ++ bs) := fun d h =>
  (mem_append.mp h).elim (ha d) (hb d)

theorem Warns.not_mem (h : Warns code as) (hc : as.hasErrors = false) (ho : d.code ≠ code.text) :
    d ∉ as := fun hd => ho (h d hd (hasErrors_eq_false.mp hc d hd))

end Diagnostics

namespace Scope

variable (scope : Scope)

theorem directiveNotes_fatal (place : DirectiveLocation) (uses : List DirectiveUse) :
    (scope.directiveNotes place uses).diagnostics.Fatal := checkDirectives_fatal scope.registry place uses

theorem require_fatal {ho : Bool} (h : d.isFatal) : (Notes.require ho d).diagnostics.Fatal := by
  cases ho
  · exact .singleton h
  · exact .nil

variable (parent : String) (head : FieldHead)

theorem typenameNotes_fatal (sels : List Selection) : (typenameNotes head sels).diagnostics.Fatal :=
  .append (require_fatal rfl) (require_fatal rfl)

theorem deprecationNotes_warns (f : FieldDefinition) :
    (deprecationNotes parent head f).diagnostics.Warns .deprecatedUsage := by
  rw [deprecationNotes]
  split
  · exact nil.warns
  · intro d hd _
    rw [mem_singleton.mp hd]
    rfl

theorem fieldNotes_warns (f : FieldDefinition) : (scope.fieldNotes parent head f).diagnostics.Warns .deprecatedUsage :=
  (deprecationNotes_warns parent head f).append (checkArguments_fatal _ _ _ _ _).warns

theorem bindSpread_fatal (spread : Spread) : (scope.bindSpread parent spread).2.diagnostics.Fatal := by
  have hd := scope.directiveNotes_fatal .fragmentSpread spread.directives
  have hn := hd.append nil
  rw [bindSpread]
  split_ifs
  · exact hd.append .error
  · split
    · exact hn
    · split_ifs
      · exact hn.append .nil
      · exact hn.append .error

mutual

theorem bindSelection_warns (parent : String) : (sel : Selection) →
    (scope.bindSelection parent sel).2.diagnostics.Warns .deprecatedUsage
  | .field head sels => by
    have hd : (scope.directiveNotes .field head.directives).diagnostics.Warns
        .deprecatedUsage := (scope.directiveNotes_fatal .field head.directives).warns
    rw [bindSelection]
    dsimp only
    split
    · exact hd.append (typenameNotes_fatal head sels).warns
    · split
      · exact hd.append error.warns
      · next f _ =>
        have hf := hd.append (scope.fieldNotes_warns parent head f)
        split
        · split
          · exact hf.append error.warns
          · exact hf.append (bindEach_warns f.type.name sels)
        · exact hf.append (require_fatal rfl).warns
  | .spread spread => (scope.bindSpread_fatal parent spread).warns
  | .inline cond dirs sels loc => by
    have hd : (scope.directiveNotes .inlineFragment dirs).diagnostics.Warns
        .deprecatedUsage := (scope.directiveNotes_fatal .inlineFragment dirs).warns
    rw [bindSelection]
    dsimp only
    split
    · next problem hp =>
      exact hd.append (singleton (isFatal_inlineProblem hp)).warns
    · exact hd.append (bindEach_warns _ sels)

theorem bindEach_warns (parent : String) : (sels : List Selection) →
    (scope.bindEach parent sels).2.diagnostics.Warns .deprecatedUsage
  | [] => nil.warns
  | sel :: rest => by
    rw [bindEach]
    exact (bindSelection_warns parent sel).append (bindEach_warns parent rest)

end

/-- **The warnings about selections are about deprecated fields.** -/
theorem bindSet_warns (sels : List Selection) : (scope.bindSet parent sels).2.diagnostics.Warns .deprecatedUsage := by
  exact scope.bindEach_warns parent sels

theorem bindFragment_warns (frag : FragmentDefinition) : (scope.bindFragment frag).2.Warns .deprecatedUsage := by
  rw [bindFragment]
  split
  · next problem hp => exact (singleton (isFatal_conditionProblem hp)).warns
  · exact (scope.directiveNotes_fatal _ _).warns.append (scope.bindSet_warns _ _)

theorem bindFragments_warns (names : List String) : (scope.bindFragments names).2.Warns .deprecatedUsage := by
  induction names generalizing scope with
  | nil => exact nil.warns
  | cons name rest ih =>
    rw [bindFragments]
    split
    · exact ih scope
    · next frag _ => exact (scope.bindFragment_warns frag).append (ih _)

end Scope

theorem repeatedFragments_fatal (docs : List Document) : (repeatedFragments docs).Fatal := by
  intro d hd
  obtain ⟨⟨frag, repeated⟩, -, he⟩ := mem_filterMap.mp hd
  dsimp only at he
  split_ifs at he
  exact Option.some.inj he ▸ rfl

/-- The warnings about the fragments of a run are about deprecated fields. -/
theorem Scope.ofDocuments_warns (reg : Registry) (docs : List Document) :
    (ofDocuments reg docs).2.Warns .deprecatedUsage := by
  exact ((repeatedFragments_fatal docs).append (fragmentOrder_fatal _)).warns.append
    (bindFragments_warns _ _)

theorem Scope.variableTypeDiagnostics_fatal (scope : Scope) (defn : VariableDefinition) :
    (scope.variableTypeDiagnostics defn).Fatal := by
  rw [variableTypeDiagnostics]
  split
  · exact .error
  · refine .ite ?_ .error
    split
    · exact .nil
    · exact checkValue_fatal _ _ _ _ _

theorem Scope.variableDiagnostics_fatal (scope : Scope) (defns : List VariableDefinition) :
    (scope.variableDiagnostics defns).Fatal :=
  .flatMap fun marked _ => .ite .error
    ((checkDirectives_fatal _ _ _).append (scope.variableTypeDiagnostics_fatal marked.1))

theorem useDiagnostics_fatal (params : List BoundVariable) (use : VariableUse) : (useDiagnostics params use).Fatal := by
  rw [useDiagnostics]
  split
  · exact .error
  · exact .ite .nil .error

theorem Registry.conflicts_fatal (reg : Registry) (type : String)
    (sels : List BoundSelection) : (reg.conflicts type sels).Fatal := .map fun _ => rfl

theorem Scope.operationNotes_warns (scope : Scope) (defn : OperationDefinition) (root : String) :
    (scope.operationNotes defn root).diagnostics.Warns .deprecatedUsage :=
  (scope.directiveNotes_fatal _ _).warns.append (scope.bindSet_warns _ _)

/-- The warnings about an operation are about deprecated fields and unused variables. -/
theorem Scope.mem_unusedVariables {scope : Scope} {defn : OperationDefinition} {name root : String}
    (ha : defn.name = some name) (hr : scope.registry.rootType defn.kind = some root)
    (hc : (scope.bindOperation defn).2.hasErrors = false) (ho : d.code ≠ Code.deprecatedUsage.text) :
    d ∈ (scope.bindOperation defn).2 ↔ d ∈ unusedVariables (boundVariables defn.parameters)
        (scope.operationNotes defn root).uses := by
  rw [bindOperation_eq ha hr] at hc ⊢
  simp only [append_clean] at hc
  have hu : (scope.operationNotes defn root).uses.flatMap
      (useDiagnostics (boundVariables defn.parameters)) = [] :=
    (flatMap fun use _ => useDiagnostics_fatal _ use).eq_nil hc.1.1.2
  have hn : d ∉ (scope.operationNotes defn root).diagnostics :=
    (scope.operationNotes_warns defn root).not_mem hc.1.1.1.2 ho
  simp [(scope.variableDiagnostics_fatal defn.parameters).eq_nil hc.1.1.1.1, hu,
    (scope.registry.conflicts_fatal root _).eq_nil hc.2, hn]

theorem Bindings.mem_warnings {reg : Registry} {docs : List Document} (hc : (ofDocuments reg docs).2.hasErrors = false)
    (ho : d.code ≠ Code.deprecatedUsage.text) : d ∈ (ofDocuments reg docs).2 ↔
      (∃ defn ∈ docs.flatMap Document.operations, d ∈ ((Scope.ofDocuments reg docs).1.bindOperation defn).2) ∨
      d ∈ unusedFragments (Scope.ofDocuments reg docs).1.declared (ofDocuments reg docs).1.operations := by
  obtain ⟨hs, hn, -⟩ := ofDocuments_clean.mp hc
  have hf : d ∉ (Scope.ofDocuments reg docs).2 :=
    (Scope.ofDocuments_warns reg docs).not_mem hs ho
  have hr : repeatedOperations (orderedOperations docs) = [] := by
    refine eq_nil (fun rep hre => ?_) (repeatedOperations_clean.mpr ⟨hn, by simp⟩)
    obtain ⟨⟨op, repeated⟩, -, he⟩ := mem_filterMap.mp hre
    dsimp only at he
    split at he
    · split_ifs at he
      exact Option.some.inj he ▸ rfl
    · cases he
  rw [ofDocuments_eq hn]
  simp [hr, hf, mem_definitions]

theorem mem_unusedVariables_code {params : List BoundVariable} {uses : List VariableUse}
    (h : d ∈ unusedVariables params uses) : d.code = Code.unusedVariable.text := by
  obtain ⟨_, -, rfl⟩ := mem_map.mp h
  rfl

theorem mem_unusedFragments_code {decls : NameMap FragmentDefinition} {ops : List BoundOperation}
    (h : d ∈ unusedFragments decls ops) : d.code = Code.unusedFragment.text := by
  obtain ⟨_, -, rfl⟩ := mem_map.mp h
  rfl

end GraphClient
