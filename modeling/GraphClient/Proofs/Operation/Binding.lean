import GraphClient.Operation.Bind
import GraphClient.Proofs.Operation.FragmentOrder
import GraphClient.Proofs.Operation.Unbind

/-!
# Scopes

A selection set is bound in the same way by all scopes that agree on its spreads. So the scope of a run
binds each fragment just as the smaller scope did that it was bound in.

* **`Scope.ofDocuments_complete`**: the scope of a run holds every declared fragment, as it binds it
  itself.
-/

namespace GraphClient

open List NameMap Notes Diagnostics Option

/-! ## Notes -/

namespace Notes

variable (a : Notes)

@[simp] theorem diagnostics_append (b : Notes) : (a ++ b).diagnostics = a.diagnostics ++ b.diagnostics := rfl

@[simp] theorem uses_append (b : Notes) : (a ++ b).uses = a.uses ++ b.uses := rfl

@[simp] theorem spreads_append (b : Notes) : (a ++ b).spreads = a.spreads ++ b.spreads := rfl

@[simp] theorem diagnostics_report (d : Diagnostic) : (report d).diagnostics = [d] := rfl

@[simp] theorem diagnostics_ofFindings (f : Findings) : (ofFindings f).diagnostics = f.diagnostics := rfl

@[simp] theorem uses_ofFindings (f : Findings) : (ofFindings f).uses = f.uses := rfl

@[simp] theorem spreads_ofFindings (f : Findings) : (ofFindings f).spreads = [] := rfl

@[simp] theorem append_empty : a ++ ({} : Notes) = a := by
  obtain ⟨ds, uses, spreads⟩ := a
  change mk (ds ++ []) (uses ++ []) (spreads ++ []) = _
  simp only [append_nil]

@[simp] theorem hasErrors_require (holds : Bool) (d : Diagnostic) :
    (require holds d).diagnostics.hasErrors = (!holds && d.isFatal) := by
  cases holds <;> simp [require]

theorem clean_append {a b : Notes} : (a ++ b).diagnostics.hasErrors = false ↔
    a.diagnostics.hasErrors = false ∧ b.diagnostics.hasErrors = false := by
  rw [diagnostics_append, append_clean]

end Notes

namespace Scope

/-! ## Selections without errors -/

def boundField (head : FieldHead) (field : FieldDefinition) : BoundField :=
  ⟨head.label, head.name, field.type, head.arguments, head.directives, head.location⟩

/-- **How a selection on the type `parent` is bound without errors**, and with which notes. -/
inductive Binds (scope : Scope) (parent : String) : Selection → Option BoundSelection → Notes → Prop
  | typename {head : FieldHead} (hname : head.name = typename) (harguments : head.arguments = []) :
    Binds scope parent (.field head [])
      (some (.field (.typename head.label head.directives head.location) []))
      (scope.directiveNotes .field head.directives)
  | leaf {head : FieldHead} {field : FieldDefinition} (hname : head.name ≠ typename)
      (hfield : scope.fieldDefinition? parent head.name = some field)
      (hleaf : scope.isComposite field.type = false) :
    Binds scope parent (.field head []) (some (.field (boundField head field) []))
      (scope.directiveNotes .field head.directives ++ scope.fieldNotes parent head field)
  | composite {head : FieldHead} {selections : List Selection} {field : FieldDefinition}
      (hname : head.name ≠ typename)
      (hfield : scope.fieldDefinition? parent head.name = some field)
      (hcomposite : scope.isComposite field.type) (hselections : selections ≠ []) :
    Binds scope parent (.field head selections)
      (some (.field (boundField head field) (scope.bindSet field.type.name selections).1))
      (scope.directiveNotes .field head.directives ++ scope.fieldNotes parent head field ++
        (scope.bindSet field.type.name selections).2)
  | spread {spread : Spread} {fragment : BoundFragment}
      (hdeclared : scope.declared.contains spread.name)
      (hbound : scope.bound.find? spread.name = some fragment)
      (happlies : scope.canApply parent fragment.condition) :
    Binds scope parent (.spread spread)
      (some (.fragment ⟨some fragment.condition, some fragment.name, spread.directives, spread.location⟩
        fragment.selections))
      (scope.directiveNotes .fragmentSpread spread.directives ++ { spreads := [spread.name] } ++
        ⟨[], fragment.uses, fragment.spreads⟩)
  | unbound {spread : Spread} (hdeclared : scope.declared.contains spread.name)
      (hbound : scope.bound.find? spread.name = none) :
    Binds scope parent (.spread spread) none
      (scope.directiveNotes .fragmentSpread spread.directives ++ { spreads := [spread.name] })
  | inline {condition : Option NamedRef} {directives : List DirectiveUse}
      {selections : List Selection} {location : Location}
      (hcondition : scope.inlineProblem? parent condition location = none) :
    Binds scope parent (.inline condition directives selections location)
      (some (.fragment ⟨condition.map NamedRef.name, none, directives, location⟩
        (scope.bindSet ((condition.map NamedRef.name).getD parent) selections).1))
      (scope.directiveNotes .inlineFragment directives ++
        (scope.bindSet ((condition.map NamedRef.name).getD parent) selections).2)

section Errorless

variable {scope : Scope} {parent : String} {problem : Diagnostic}

theorem isFatal_conditionProblem {what : String} {cond : NamedRef}
    (h : scope.conditionProblem? what cond = some problem) : problem.isFatal := by
  rw [conditionProblem?] at h
  split at h
  · exact (some.inj h) ▸ rfl
  · split_ifs at h
    exact (some.inj h) ▸ rfl

theorem isFatal_inlineProblem {cond : Option NamedRef} {loc : Location}
    (h : scope.inlineProblem? parent cond loc = some problem) : problem.isFatal := by
  cases cond with
  | none => cases h
  | some cond =>
    rw [inlineProblem?] at h
    split at h
    · next hp => exact some.inj h ▸ isFatal_conditionProblem hp
    · split_ifs at h
      exact (some.inj h) ▸ rfl

theorem binds_field_of_clean {head : FieldHead} {sels : List Selection}
    (h : (scope.bindSelection parent (.field head sels)).2.diagnostics.hasErrors = false) :
    scope.Binds parent (.field head sels) (scope.bindSelection parent (.field head sels)).1
      (scope.bindSelection parent (.field head sels)).2 := by
  rw [bindSelection] at h ⊢
  by_cases hn : head.name = typename
  · simp only [hn, if_true] at h ⊢
    simp only [typenameNotes, diagnostics_append, hasErrors_append,
      hasErrors_require, selectionError, Diagnostic.isFatal_error, Bool.and_true,
      Bool.or_eq_false_iff, Bool.not_eq_false', List.isEmpty_iff] at h
    obtain ⟨-, rfl, ha⟩ := h
    simp only [typenameNotes, ha, isEmpty_nil, require, if_true, append_empty]
    exact .typename hn ha
  simp only [hn, if_false] at h ⊢
  cases hf : scope.fieldDefinition? parent head.name with
  | none => simp [hf] at h
  | some found =>
    simp only [hf] at h ⊢
    by_cases hc : scope.isComposite found.type
    · simp only [hc, if_true] at h ⊢
      by_cases hs : sels = []
      · simp [hs, missingSelections, selectionError] at h
      · rw [if_neg (by simpa using hs)] at h ⊢
        exact .composite hn hf hc hs
    · rw [Bool.not_eq_true] at hc
      simp only [hc, Bool.false_eq_true, if_false, needlessSelections, selectionError,
        diagnostics_append, hasErrors_append, hasErrors_require,
        Diagnostic.isFatal_error, Bool.and_true, Bool.or_eq_false_iff, Bool.not_eq_false',
        List.isEmpty_iff] at h ⊢
      obtain ⟨-, rfl⟩ := h
      simp only [isEmpty_nil, require, if_true, append_empty]
      exact .leaf hn hf hc

/-- **A selection without errors is bound in one of these ways.** -/
theorem binds_of_clean {sel : Selection} (h : (scope.bindSelection parent sel).2.diagnostics.hasErrors = false) :
    scope.Binds parent sel (scope.bindSelection parent sel).1 (scope.bindSelection parent sel).2 := by
  cases sel with
  | field head sels => exact binds_field_of_clean h
  | spread target =>
    rw [bindSelection, bindSpread] at h ⊢
    by_cases hd : scope.declared.contains target.name
    · simp only [hd] at h ⊢
      cases hb : scope.bound.find? target.name with
      | none => exact .unbound hd hb
      | some frag =>
        simp only [hb] at h ⊢
        by_cases ha : scope.canApply parent frag.condition
        · rw [if_pos ha]
          exact .spread hd hb ha
        · simp [ha, neverApplies] at h
    · simp [hd] at h
  | «inline» cond dirs sels loc =>
    rw [bindSelection] at h ⊢
    cases hc : scope.inlineProblem? parent cond loc with
    | some problem => simp [hc, isFatal_inlineProblem hc] at h
    | none => exact .inline hc

/-- A selection set on the type `parent` that is bound without errors. -/
def Clean (scope : Scope) (parent : String) (selections : List Selection) : Prop :=
  (scope.bindSet parent selections).2.diagnostics.hasErrors = false

/-- **Induction over selection sets without errors**: `P` is shown of a selection from the way it is bound
and from `Q` of the set in it. -/
@[elab_as_elim]
theorem Clean.induct {P : String → Selection → Option BoundSelection → Notes → Prop}
    {Q : String → List Selection → Prop} (hn : ∀ parent, Q parent [])
    (hc : ∀ {parent sel rest}, P parent sel (scope.bindSelection parent sel).1
      (scope.bindSelection parent sel).2 → Q parent rest → Q parent (sel :: rest))
    (hb : ∀ {parent sel result notes}, scope.Binds parent sel result notes → notes.diagnostics.hasErrors = false →
        (∀ target, scope.Clean target sel.children → Q target sel.children) →
          P parent sel result notes) {sels : List Selection} (h : scope.Clean parent sels) : Q parent sels :=
  @Selection.rec_1 (fun sel => ∀ parent, (scope.bindSelection parent sel).2.diagnostics.hasErrors = false →
      P parent sel (scope.bindSelection parent sel).1 (scope.bindSelection parent sel).2)
    (fun sels => ∀ parent, scope.Clean parent sels → Q parent sels)
    (fun _ _ ih _ h => hb (binds_of_clean h) h ih) (fun _ _ h => hb (binds_of_clean h) h fun _ _ => hn _)
    (fun _ _ _ _ ih _ h => hb (binds_of_clean h) h ih) (fun parent _ => hn parent)
    (fun _ _ ih ihrest parent h => hc (ih parent (clean_append.mp h).1)
      (ihrest parent (clean_append.mp h).2)) sels parent h

end Errorless

/-! ## Scopes that agree -/

variable {frag : FragmentDefinition}

section Agreement

variable {scope : Scope} {decl : NameMap FragmentDefinition} {bound : NameMap BoundFragment}

/-- Declared and bound fragments among which these spreads find the same as in the scope. -/
def Agrees (scope : Scope) (declared : NameMap FragmentDefinition) (bound : NameMap BoundFragment)
    (spreads : List Spread) : Prop :=
  ∀ spread ∈ spreads, declared.contains spread.name = scope.declared.contains spread.name ∧
    bound.find? spread.name = scope.bound.find? spread.name

mutual

theorem bindSelection_congr (parent : String) : (sel : Selection) → scope.Agrees decl bound sel.spreads →
    (Scope.mk scope.registry decl bound).bindSelection parent sel = scope.bindSelection parent sel
  | .field head sels, h => by
    rw [Selection.spreads] at h
    rw [bindSelection, bindSelection]
    simp only [fun type => bindEach_congr type sels h]
    rfl
  | .spread spread, h => by
    obtain ⟨hd, hb⟩ := h spread (mem_singleton_self _)
    rw [bindSelection, bindSelection]
    simp only [bindSpread, hd, hb]
    rfl
  | .inline cond dirs sels loc, h => by
    rw [Selection.spreads] at h
    rw [bindSelection, bindSelection]
    simp only [fun type => bindEach_congr type sels h]
    rfl

/-- **Only the spreads of a selection set matter.** -/
theorem bindEach_congr (parent : String) : (sels : List Selection) →
    scope.Agrees decl bound (Selection.spreadsIn sels) →
    (Scope.mk scope.registry decl bound).bindEach parent sels = scope.bindEach parent sels
  | [], _ => rfl
  | sel :: rest, h => by
    rw [Selection.spreadsIn, Agrees, forall_mem_append] at h
    rw [bindEach, bindEach, bindSelection_congr parent sel h.1, bindEach_congr parent rest h.2]

end

theorem bindSet_congr (parent : String) {sels : List Selection}
    (h : scope.Agrees decl bound (Selection.spreadsIn sels)) :
    (Scope.mk scope.registry decl bound).bindSet parent sels = scope.bindSet parent sels := by
  rw [bindSet, bindEach_congr parent sels h]
  rfl

/-! ## Bound fragments -/

def fragmentNotes (scope : Scope) (fragment : FragmentDefinition) : Notes :=
  scope.directiveNotes .fragmentDefinition fragment.directives ++
    (scope.bindSet fragment.condition.name fragment.selections).2

def fragmentResult (scope : Scope) (fragment : FragmentDefinition) : BoundFragment where
  name := fragment.name
  condition := fragment.condition.name
  directives := fragment.directives
  selections := (scope.bindSet fragment.condition.name fragment.selections).1
  uses := (scope.fragmentNotes fragment).uses
  spreads := .ofList (scope.fragmentNotes fragment).spreads
  location := fragment.location

theorem bindFragment_congr (h : scope.Agrees decl bound (Selection.spreadsIn frag.selections)) :
    (Scope.mk scope.registry decl bound).bindFragment frag = scope.bindFragment frag ∧
      (Scope.mk scope.registry decl bound).fragmentResult frag = scope.fragmentResult frag := by
  simp only [bindFragment, fragmentResult, fragmentNotes, bindSet_congr frag.condition.name h]
  exact ⟨rfl, rfl⟩

end Agreement

/-- **What binding a fragment without errors yields.** -/
theorem bindFragment_clean {scope : Scope} : (scope.bindFragment frag).2.hasErrors = false ↔
      scope.bindFragment frag = (some (scope.fragmentResult frag), (scope.fragmentNotes frag).diagnostics) ∧
        (scope.fragmentNotes frag).diagnostics.hasErrors = false := by
  cases hp : scope.conditionProblem? ("fragment " ++ ticked frag.name) frag.condition with
  | some problem =>
    have hr : scope.bindFragment frag = (none, [problem]) := by
      simp only [bindFragment, hp]
    simp [hr, isFatal_conditionProblem hp]
  | none =>
    have hr : scope.bindFragment frag =
        (some (scope.fragmentResult frag), (scope.fragmentNotes frag).diagnostics) := by
      simp only [bindFragment, hp]
      rfl
    simp [hr]

theorem bindFragments_snoc (scope : Scope) (names : List String) (name : String)
    (frag : FragmentDefinition) (hf : scope.declared.find? name = some frag) :
    scope.bindFragments (names ++ [name]) = ({ (scope.bindFragments names).1 with
          bound := match ((scope.bindFragments names).1.bindFragment frag).1 with
            | some res => (scope.bindFragments names).1.bound.insert res.name res
            | none => (scope.bindFragments names).1.bound },
        (scope.bindFragments names).2 ++
          ((scope.bindFragments names).1.bindFragment frag).2) := by
  induction names generalizing scope with
  | nil =>
    simp only [nil_append, bindFragments, hf]
    cases (scope.bindFragment frag).1 <;> simp
  | cons first rest ih =>
    simp only [cons_append, bindFragments]
    split
    · exact ih scope hf
    · next other _ =>
      cases (scope.bindFragment other).1 with
      | none => simp [ih scope hf]
      | some res =>
        simp [ih { scope with bound := scope.bound.insert res.name res } hf]

section Fixpoint

variable {reg : Registry} {decl : NameMap FragmentDefinition}

/-- A scope that holds the fragments of `order` and no others, each as the scope itself binds it. -/
structure Settled (registry : Registry) (declared : NameMap FragmentDefinition) (order : List String)
    (bound : NameMap BoundFragment) : Prop where
  absent : ∀ name, name ∉ order → bound.find? name = none
  present : ∀ name ∈ order, ∀ fragment, declared.find? name = some fragment →
    ((Scope.mk registry declared bound).bindFragment fragment).2.hasErrors = false ∧
      bound.find? name = some ((Scope.mk registry declared bound).fragmentResult fragment)

variable {order : List String}

/-- One more fragment: since it is spread by none of those before it, they are bound as before. -/
theorem Settled.snoc {bound : NameMap BoundFragment}
    (h : Settled reg decl order bound) (hb : Behind decl order) {name : String}
    (hfi : decl.find? name = some frag) (hn : name ∉ order)
    (hspr : ∀ spread ∈ Selection.spreadsIn frag.selections, decl.contains spread.name → spread.name ∈ order)
    (hc : ((Scope.mk reg decl bound).bindFragment frag).2.hasErrors = false) : Settled reg decl (order ++ [name])
      (bound.insert name ((Scope.mk reg decl bound).fragmentResult frag)) := by
  set last := (Scope.mk reg decl bound).fragmentResult frag
  have ha : ∀ other : FragmentDefinition, (∀ spread ∈ Selection.spreadsIn other.selections, decl.contains spread.name →
        spread.name ∈ order) → (Scope.mk reg decl bound).Agrees decl (bound.insert name last)
          (Selection.spreadsIn other.selections) := by
    intro other ho spread hsp
    have hne : name ≠ spread.name := by
      intro he
      refine hn (he.symm ▸ ho spread hsp ?_)
      rw [← he]
      exact contains_of_find? hfi
    exact ⟨rfl, by rw [find?_insert, if_neg hne]⟩
  constructor
  · intro other ho
    rw [mem_append, not_or, mem_singleton] at ho
    rw [find?_insert, if_neg (Ne.symm ho.2)]
    exact h.absent other ho.1
  · intro other ho found hf
    rcases mem_append.mp ho with hm | hm
    · have hsp := ha found fun spread hs hd => hb.spreads_mem hm hf hs hd
      rw [(bindFragment_congr hsp).1, (bindFragment_congr hsp).2, find?_insert, if_neg]
      · exact h.present other hm found hf
      · rintro rfl
        exact hn hm
    · obtain rfl := mem_singleton.mp hm
      obtain rfl := some.inj (hfi.symm.trans hf)
      have hsp := ha frag hspr
      rw [(bindFragment_congr hsp).1, (bindFragment_congr hsp).2, find?_insert, if_pos rfl]
      exact ⟨hc, rfl⟩

theorem bindFragments_settled (hn : ∀ name frag, decl.find? name = some frag → frag.name = name)
    (hb : Behind decl order) (hc : ((Scope.mk reg decl []).bindFragments order).2.hasErrors = false) :
    ∃ bound, ((Scope.mk reg decl []).bindFragments order).1 = ⟨reg, decl, bound⟩ ∧ Settled reg decl order bound := by
  induction hb with
  | nil => exact ⟨[], rfl, fun _ _ => rfl, fun _ h => absurd h not_mem_nil⟩
  | @snoc order name frag ho hf he hp ih =>
    rw [bindFragments_snoc _ order name frag hf] at hc ⊢
    simp only [append_clean] at hc
    obtain ⟨bound, hsc, hs⟩ := ih hc.1
    rw [hsc] at hc ⊢
    refine ⟨_, ?_, hs.snoc ho hf he hp hc.2⟩
    rw [(bindFragment_clean.mp hc.2).1, ← hn name frag hf]
    rfl

end Fixpoint

/-- A scope that holds every declared fragment, as it binds it itself. -/
structure Complete (scope : Scope) : Prop where
  named : ∀ name fragment, scope.declared.find? name = some fragment → fragment.name = name
  ordered : ∃ order, Behind scope.declared order ∧ ∀ name, scope.declared.contains name → name ∈ order
  accepted : ∀ name fragment, scope.declared.find? name = some fragment →
    (scope.bindFragment fragment).2.hasErrors = false
  bound : ∀ name, scope.bound.find? name = (scope.declared.find? name).map scope.fragmentResult

variable {scope : Scope} {name : String} {docs : List Document}

theorem Complete.clean (h : scope.Complete) (name : String) (frag : FragmentDefinition)
    (hf : scope.declared.find? name = some frag) : (scope.fragmentNotes frag).diagnostics.hasErrors = false :=
  (bindFragment_clean.mp (h.accepted name frag hf)).2

/-- **Induction along the spreads**: a fragment has a property if those have it that it spreads. -/
theorem Complete.induct (h : scope.Complete) {P : FragmentDefinition → Prop} (ht : ∀ name frag,
      scope.declared.find? name = some frag → (∀ spread ∈ Selection.spreadsIn frag.selections, ∀ inner,
        scope.declared.find? spread.name = some inner → P inner) → P frag)
    (hf : scope.declared.find? name = some frag) : P frag := by
  obtain ⟨order, hb, ha⟩ := h.ordered
  refine hb.induct (P := fun other => ∀ found, scope.declared.find? other = some found → P found)
    (fun other found ho ih found' hf' => ?_) name (ha name (contains_of_find? hf))
    frag hf
  obtain rfl := some.inj (ho.symm.trans hf')
  exact ht other found ho fun spread hs inner hi =>
    ih spread hs (contains_of_find? hi) inner hi

theorem name_of_declared (h : (declaredFragments docs).find? name = some frag) : frag.name = name := by
  obtain ⟨other, -, he⟩ := mem_map.mp (mem_of_mem_ofList (mem_of_find? h))
  obtain ⟨rfl, rfl⟩ := Prod.mk.inj he
  rfl

theorem ofDocuments_complete {reg : Registry} (h : (ofDocuments reg docs).2.hasErrors = false) :
    (ofDocuments reg docs).1.Complete := by
  have hp : ((repeatedFragments docs).hasErrors = false ∧
      (fragmentOrder (declaredFragments docs)).2.hasErrors = false) ∧
      ((mk reg (declaredFragments docs) []).bindFragments
        (fragmentOrder (declaredFragments docs)).1).2.hasErrors = false := by
    simpa only [ofDocuments, append_clean] using h
  obtain ⟨hb, ha⟩ := fragmentOrder_behind ((fragmentOrder_fatal _).eq_nil hp.1.2)
  obtain ⟨bound, hc, hs⟩ :=
    bindFragments_settled (fun _ _ => name_of_declared) hb hp.2
  have hr : (ofDocuments reg docs).1 = ⟨reg, declaredFragments docs, bound⟩ := hc
  have hm : ∀ {name frag}, (declaredFragments docs).find? name = some frag →
      name ∈ (fragmentOrder (declaredFragments docs)).1 := fun hf =>
    ha _ (contains_of_find? hf)
  rw [hr]
  refine ⟨fun _ _ => name_of_declared, ⟨_, hb, ha⟩, fun name frag hf => ?_, fun name => ?_⟩
  · exact (hs.present name (hm hf) frag hf).1
  · cases hf : (declaredFragments docs).find? name with
    | some frag => exact (hs.present name (hm hf) frag hf).2
    | none =>
      refine hs.absent name fun hn => ?_
      have := hb.contains hn
      simp [NameMap.contains, hf] at this

end Scope

end GraphClient
