import GraphClient.Proofs.Operation.Elaboration
import GraphClient.Proofs.Spelling.Documents

/-!
# Binding again

What bound operations and fragments stand for is bound to them, in the scope that has bound them.

* **`Scope.Complete.restatesSet`**: a bound set stands for selections that are bound like those it comes
  from.
* **`Scope.Complete.bindFragment_unbind`**, **`Scope.Complete.bindOperation_unbind`**: so do fragments and
  operations.
-/

namespace GraphClient

open List BoundSelection VariableDefinition Bool Notes

namespace Scope

variable {scope : Scope} {parent : String}

/-! ## Selections -/

variable {sel : Selection} {res : Option BoundSelection} {notes : Notes} {loc : Location} {sels : List Selection}
  {frag : FragmentDefinition}

theorem Binds.eq (h : scope.Binds parent sel res notes) : scope.bindSelection parent sel = (res, notes) := by
  cases h with
  | typename hn hr =>
    rw [bindSelection, if_pos hn, typenameNotes, hr]
    simp [require]
  | leaf hn hf hl =>
    rw [bindSelection, if_neg hn, hf]
    simp only [hl, isEmpty_nil, require, if_true, append_empty]
    rfl
  | composite hn hf hc hs =>
    rw [bindSelection, if_neg hn, hf]
    simp only [hc, List.isEmpty_iff, hs]
    rfl
  | spread hd hb ha =>
    rw [bindSelection, bindSpread]
    simp only [hd, hb, ha, Bool.not_true, false_eq_true, if_false, if_true]
  | unbound hd hb =>
    rw [bindSelection, bindSpread]
    simp [hd, hb]
  | «inline» ho =>
    rw [bindSelection, ho]
    rfl

/-- A selection that is bound like another one. -/
structure Restates (scope : Scope) (parent : String) (selection other : Selection) : Prop where
  binds : scope.bindSelection parent other = scope.bindSelection parent selection
  spreads : other.spreads = selection.spreads
  isWellFormed : selection.isWellFormed → other.isWellFormed

/-- Selections that are bound like others, one by one. -/
structure RestatesEach (scope : Scope) (parent : String) (selections others : List Selection) : Prop where
  binds : scope.bindEach parent others = scope.bindEach parent selections
  spreads : Selection.spreadsIn others = Selection.spreadsIn selections
  isWellFormed : Selection.allWellFormed selections → Selection.allWellFormed others

/-- A selection set that is bound like another one. -/
structure RestatesSet (scope : Scope) (parent : String) (selections others : List Selection) : Prop where
  binds : scope.bindSet parent others = scope.bindSet parent selections
  spreads : Selection.spreadsIn others = Selection.spreadsIn selections
  isWellFormed : Selection.allWellFormed selections → Selection.allWellFormed others

theorem isWellFormed_typename {label : Option String} {dirs : List DirectiveUse}
    (hl : label.all Text.isName) (hd : dirs.all (DirectiveUse.isWellFormed false)) :
    (field (.typename label dirs loc) []).unbind.isWellFormed := by
  rw [unbind, Selection.isWellFormed]
  simp only [BoundField.typename, hl, hd]
  rfl

/-- The name of the type is added to a set or not, whatever was written. -/
theorem addTypename_cases (parent : String) (bound : List BoundSelection) :
    (∀ sels, scope.addTypename parent sels bound = bound) ∨ ∀ sels, ∃ loc,
        scope.addTypename parent sels bound = .field (.typename none [] loc) [] :: bound := by
  simp only [addTypename.eq_def]
  split_ifs
  · exact Or.inr fun sels => ⟨_, rfl⟩
  · exact Or.inl fun sels => rfl

theorem addTypename_of_hasKey {bound : List BoundSelection}
    (h : bound.any (hasKey typename)) : scope.addTypename parent sels bound = bound := by
  rw [addTypename.eq_def]
  simp [h]

theorem RestatesEach.set (h : scope.RestatesEach parent sels (unbindAll (scope.bindEach parent sels).1)) :
    scope.RestatesSet parent sels (unbindAll (scope.bindSet parent sels).1) := by
  set bound := (scope.bindEach parent sels).1 with hb
  have hs : ∀ others, scope.bindSet parent others =
      (scope.addTypename parent others (scope.bindEach parent others).1, (scope.bindEach parent others).2) :=
    fun _ => rfl
  rw [hs]
  rcases addTypename_cases parent bound with hn | ha
  · rw [hn]
    refine ⟨?_, h.spreads, h.isWellFormed⟩
    rw [hs, hs, h.binds, hn, hn]
  · obtain ⟨loc, hl⟩ := ha sels
    rw [hl]
    refine ⟨?_, h.spreads, fun hf => ?_⟩
    · have he : scope.bindEach parent (unbindAll (.field (.typename none [] loc) [] :: bound)) =
          (.field (.typename none [] loc) [] :: bound, (scope.bindEach parent sels).2) := by
        rw [unbindAll, bindEach, h.binds]
        rfl
      rw [hs, hs, he, addTypename_of_hasKey rfl, ← hb, hl]
    · rw [unbindAll, Selection.allWellFormed, h.isWellFormed hf, Bool.and_true]
      exact isWellFormed_typename rfl rfl

theorem conditionProblem?_eq_none {what : String} {cond : NamedRef} :
    scope.conditionProblem? what cond = none ↔ scope.registry.HasKind TypeKind.isComposite cond.name := by
  rw [conditionProblem?, Registry.HasKind]
  cases scope.registry.kind? cond.name with
  | none | some kind => simp

theorem inlineProblem?_congr {cond cond' : Option NamedRef} {loc' : Location}
    (hc : cond.map NamedRef.name = cond'.map NamedRef.name) (h : scope.inlineProblem? parent cond loc = none) :
    scope.inlineProblem? parent cond' loc' = none := by
  have hi : ∀ (cond : NamedRef) (loc : Location), scope.inlineProblem? parent (some cond) loc = none ↔
        scope.registry.HasKind TypeKind.isComposite cond.name ∧
          scope.canApply parent cond.name := by
    intro cond loc
    rw [← conditionProblem?_eq_none, inlineProblem?]
    cases scope.conditionProblem? "inline fragment" cond <;> simp
  cases cond with
  | none =>
    obtain rfl := Option.map_eq_none_iff.mp hc.symm
    rfl
  | some cond =>
    obtain ⟨other, rfl, hn⟩ := Option.map_eq_some_iff.mp hc.symm
    rw [hi] at h ⊢
    rwa [hn]

theorem Complete.unbindAll_ne_nil (h : scope.Complete) (hc : scope.Clean parent sels) (hn : sels ≠ []) :
    unbindAll (scope.bindSet parent sels).1 ≠ [] := by
  rw [unbindAll_eq, ne_eq, map_eq_nil_iff]
  exact h.bindSet_ne_nil hc hn

theorem Complete.restates_of_binds (h : scope.Complete) (hbi : scope.Binds parent sel res notes)
    (hc : notes.diagnostics.hasErrors = false)
    (hi : ∀ target, scope.Clean target sel.children → scope.RestatesEach target sel.children
      (unbindAll (scope.bindEach target sel.children).1)) :
    ∃ bound, res = some bound ∧ scope.Restates parent sel bound.unbind := by
  have hr := hbi.eq
  cases hbi with
  | typename hn har =>
    refine ⟨_, rfl, (Binds.eq (.typename rfl rfl)).trans hr.symm, rfl, fun hf => ?_⟩
    simp only [Selection.isWellFormed, and_eq_true] at hf
    exact isWellFormed_typename hf.1.1.1.1 hf.1.2
  | leaf hn hfi hl => exact ⟨_, rfl, rfl, rfl, fun hf => hf⟩
  | @composite head sels f hn hfi ho he =>
    rw [clean_append] at hc
    have hs := (hi f.type.name hc.2).set
    have hne := h.unbindAll_ne_nil hc.2 he
    rw [Selection.children] at hs
    refine ⟨_, rfl, ?_, ?_, fun hf => ?_⟩
    · rw [hr]
      refine (Binds.eq (.composite hn hfi ho hne)).trans ?_
      rw [hs.binds]
    · exact hs.spreads
    · rw [Selection.isWellFormed, and_eq_true] at hf
      rw [unbind, Selection.isWellFormed, and_eq_true]
      exact ⟨hf.1, hs.isWellFormed hf.2⟩
  | @spread spread frag hd hb ha =>
    obtain ⟨defn, hfind⟩ := Option.isSome_iff_exists.mp hd
    rw [h.bound, hfind] at hb
    obtain rfl := Option.some.inj hb
    have hn : (scope.fragmentResult defn).name = spread.name := h.named _ _ hfind
    refine ⟨_, rfl, ?_⟩
    simp only [hn]
    exact ⟨rfl, rfl, fun hf => hf⟩
  | unbound hd hb =>
    obtain ⟨defn, hfind⟩ := Option.isSome_iff_exists.mp hd
    rw [h.bound, hfind] at hb
    cases hb
  | @«inline» cond dirs sels loc hcon =>
    rw [clean_append] at hc
    have hs := (hi _ hc.2).set
    rw [Selection.children] at hs
    have hna : ((cond.map NamedRef.name).map fun name => .mk name loc).map
        NamedRef.name = cond.map NamedRef.name := by
      rw [Option.map_map]
      exact Option.map_id'
    refine ⟨_, rfl, ?_, ?_, fun hf => ?_⟩
    · rw [hr]
      refine (Binds.eq (.inline (inlineProblem?_congr hna.symm hcon))).trans ?_
      rw [hna, hs.binds]
    · exact hs.spreads
    · simp only [Selection.isWellFormed, and_eq_true, not_eq_true', isEmpty_eq_false_iff] at hf
      simp only [unbind, Selection.isWellFormed, and_eq_true, not_eq_true', isEmpty_eq_false_iff, hna]
      exact ⟨⟨hf.1.1, h.unbindAll_ne_nil hc.2 hf.1.2⟩, hs.isWellFormed hf.2⟩

theorem Complete.restatesEach (h : scope.Complete) (hc : scope.Clean parent sels) :
    scope.RestatesEach parent sels (unbindAll (scope.bindEach parent sels).1) := by
  refine Clean.induct (P := fun parent sel res _ =>
    ∃ bound, res = some bound ∧ scope.Restates parent sel bound.unbind)
    (fun _ => ⟨rfl, rfl, fun _ => rfl⟩) ?_ h.restates_of_binds hc
  rintro parent sel rest ⟨bound, hb, hr⟩ he
  have hu : unbindAll (scope.bindEach parent (sel :: rest)).1 =
      bound.unbind :: unbindAll (scope.bindEach parent rest).1 := by
    rw [bindEach]
    dsimp only
    rw [hb]
    rfl
  rw [hu]
  refine ⟨?_, ?_, fun hf => ?_⟩
  · rw [bindEach, bindEach, hr.binds, he.binds]
  · rw [Selection.spreadsIn, Selection.spreadsIn, hr.spreads, he.spreads]
  · rw [Selection.allWellFormed, and_eq_true] at hf ⊢
    exact ⟨hr.isWellFormed hf.1, he.isWellFormed hf.2⟩

theorem Complete.restatesSet (h : scope.Complete) (hc : scope.Clean parent sels) :
    scope.RestatesSet parent sels (unbindAll (scope.bindSet parent sels).1) :=
  (h.restatesEach hc).set

/-! ## Fragments -/

theorem bindFragment_of_condition
    (h : scope.registry.HasKind TypeKind.isComposite frag.condition.name) : scope.bindFragment frag =
      (some (scope.fragmentResult frag), (scope.fragmentNotes frag).diagnostics) := by
  simp only [bindFragment, conditionProblem?_eq_none.mpr h]
  rfl

theorem condition_of_accepted (h : (scope.bindFragment frag).2.hasErrors = false) :
    scope.registry.HasKind TypeKind.isComposite frag.condition.name := by
  refine conditionProblem?_eq_none.mp
    (?_ : scope.conditionProblem? ("fragment " ++ ticked frag.name) frag.condition = none)
  cases hp : scope.conditionProblem? ("fragment " ++ ticked frag.name) frag.condition with
  | none => rfl
  | some problem => simp [bindFragment, hp, isFatal_conditionProblem hp] at h

namespace Complete

variable (h : scope.Complete) {name : String} {frag : FragmentDefinition}
  (hfind : scope.declared.find? name = some frag)

include h hfind

theorem bindFragment_unbind : scope.bindFragment (scope.fragmentResult frag).unbind = scope.bindFragment frag := by
  have hs := h.restatesSet (h.clean_fragment hfind)
  have hc := condition_of_accepted (h.accepted name frag hfind)
  have hn : scope.fragmentNotes (scope.fragmentResult frag).unbind = scope.fragmentNotes frag := by
    rw [fragmentNotes, fragmentNotes, ← hs.binds]
    rfl
  have hr : scope.fragmentResult (scope.fragmentResult frag).unbind = scope.fragmentResult frag := by
    rw [fragmentResult, hn]
    simp only [fragmentResult, BoundFragment.unbind, hs.binds]
  have hu : scope.registry.HasKind TypeKind.isComposite
      (scope.fragmentResult frag).unbind.condition.name := hc
  rw [bindFragment_of_condition hu, bindFragment_of_condition hc, hn, hr]

theorem spreadsIn_unbind : Selection.spreadsIn (scope.fragmentResult frag).unbind.selections =
      Selection.spreadsIn frag.selections :=
  (h.restatesSet (h.clean_fragment hfind)).spreads

theorem isWellFormed_unbind (hf : frag.isWellFormed) : (scope.fragmentResult frag).unbind.isWellFormed := by
  have hc := h.clean_fragment hfind
  simp only [FragmentDefinition.isWellFormed, and_eq_true, not_eq_true', isEmpty_eq_false_iff] at hf ⊢
  obtain ⟨⟨hh, hn⟩, hs⟩ := hf
  exact ⟨⟨hh, h.unbindAll_ne_nil hc hn⟩, (h.restatesSet hc).isWellFormed hs⟩

end Complete

/-! ## Operations -/

variable {defns : List VariableDefinition}

theorem variableDiagnostics_clean : (scope.variableDiagnostics defns).hasErrors = false ↔
      (defns.map name).Nodup ∧ ∀ defn ∈ defns,
        (checkDirectives scope.registry .variableDefinition defn.directives).diagnostics.hasErrors = false ∧
          (scope.variableTypeDiagnostics defn).hasErrors = false := by
  rw [variableDiagnostics, Diagnostics.hasErrors_flatMap]
  constructor
  · intro hc
    have hn : (defns.map name).Nodup := by
      refine markRepeats_unmarked.mp fun marked hm => ?_
      cases hr : marked.2 with
      | false => rfl
      | true => simpa [hr] using hc marked hm
    rw [markRepeats_eq_map hn] at hc
    exact ⟨hn, by simpa using hc⟩
  · rintro ⟨hn, hc⟩
    rw [markRepeats_eq_map hn]
    simpa using hc

theorem boundVariables_eq (h : (defns.map name).Nodup) : (boundVariables defns).map BoundVariable.unbind =
      defns.map fun defn => { defn with directives := [] } := by
  rw [boundVariables, firsts_eq_self h, map_map]
  rfl

theorem boundVariables_unbind (h : (defns.map name).Nodup) :
    boundVariables ((boundVariables defns).map BoundVariable.unbind) = boundVariables defns := by
  have hn : ((defns.map fun defn => { defn with directives := [] }).map
      name).Nodup := by
    rw [map_map]
    exact h
  rw [boundVariables_eq h, boundVariables, firsts_eq_self hn, boundVariables, firsts_eq_self h, map_map]
  rfl

theorem variableDiagnostics_unbind (h : (scope.variableDiagnostics defns).hasErrors = false) :
    (scope.variableDiagnostics ((boundVariables defns).map BoundVariable.unbind)).hasErrors = false := by
  rw [variableDiagnostics_clean] at h
  rw [boundVariables_eq h.1, variableDiagnostics_clean, map_map, forall_mem_map]
  exact ⟨h.1, fun defn hd => ⟨rfl, (h.2 defn hd).2⟩⟩

theorem isWellFormed_unbindVariables (h : defns.all isWellFormed) :
    ((boundVariables defns).map BoundVariable.unbind).all isWellFormed := by
  rw [all_eq_true] at h ⊢
  rw [forall_mem_map, boundVariables, forall_mem_map]
  intro defn hd
  have hf := h defn (mem_of_mem_firsts hd)
  simp only [isWellFormed, and_eq_true] at hf
  simp only [isWellFormed, and_eq_true]
  exact ⟨hf.1, rfl⟩

theorem exists_operationResult {defn : OperationDefinition} {op : BoundOperation}
    (h : (scope.bindOperation defn).1 = some op) :
    ∃ name root, defn.name = some name ∧ scope.registry.rootType defn.kind = some root ∧
      op = scope.operationResult defn name root :=
  ⟨_, _, bindOperation_some h⟩

namespace Complete

variable (h : scope.Complete) {defn : OperationDefinition} {op : BoundOperation}
  (hbind : (scope.bindOperation defn).1 = some op)
  (haccepted : (scope.bindOperation defn).2.hasErrors = false)

include h hbind haccepted

theorem restatesSet_operation : scope.RestatesSet op.root defn.selections op.unbind.selections := by
  have hs := h.restatesSet (clean_operation hbind haccepted)
  obtain ⟨name, root, -, -, rfl⟩ := exists_operationResult hbind
  exact hs

theorem bindOperation_unbind : (scope.bindOperation op.unbind).1 = some op ∧
      (scope.bindOperation op.unbind).2.hasErrors = false := by
  have he := h.restatesSet_operation hbind haccepted
  obtain ⟨name, root, -, hr, rfl⟩ := exists_operationResult hbind
  obtain ⟨_, other, -, ho, hv, hn, hu, hc⟩ := bindOperation_clean.mp haccepted
  obtain rfl := Option.some.inj (hr.symm.trans ho)
  set op := scope.operationResult defn name root
  have hb : scope.bindSet root op.unbind.selections = scope.bindSet root defn.selections := he.binds
  have hp : boundVariables op.unbind.parameters = boundVariables defn.parameters :=
    boundVariables_unbind (variableDiagnostics_clean.mp hv).1
  have hs : scope.operationNotes op.unbind root = scope.operationNotes defn root := by
    rw [operationNotes, hb]
    rfl
  have hk : scope.registry.rootType op.unbind.kind = some root := hr
  constructor
  · rw [bindOperation_eq rfl hk, operationResult, hs, hb, hp]
    rfl
  · refine bindOperation_clean.mpr ⟨_, root, rfl, hk, variableDiagnostics_unbind hv, ?_⟩
    rw [hs, hb, hp]
    exact ⟨hn, hu, hc⟩

theorem isWellFormed_unbindOperation (hf : defn.isWellFormed) : op.unbind.isWellFormed := by
  have hc := clean_operation hbind haccepted
  have he := h.restatesSet_operation hbind haccepted
  obtain ⟨name, root, hn, -, rfl⟩ := exists_operationResult hbind
  simp only [OperationDefinition.isWellFormed, and_eq_true, not_eq_true', isEmpty_eq_false_iff, hn] at hf
  obtain ⟨⟨⟨⟨hl, hp⟩, hd⟩, hne⟩, hs⟩ := hf
  simp only [OperationDefinition.isWellFormed, and_eq_true, not_eq_true', isEmpty_eq_false_iff]
  exact ⟨⟨⟨⟨hl, isWellFormed_unbindVariables hp⟩, hd⟩, h.unbindAll_ne_nil hc hne⟩, he.isWellFormed hs⟩

end Complete

end Scope

end GraphClient
