import GraphClient.Proofs.Analysis
import GraphClient.Proofs.Schema.Input

/-!
# Variables in use

Uses of variables are collected where values are checked against types. A list or object literal that is
given for a scalar is taken as it is, and the variables in it are not seen.

* **`Scope.Complete.mem_names_operation`**: exactly those at places with a type are collected.
-/

namespace GraphClient

open List DirectiveUse Notes Option

/-! ## All variables -/

mutual

def Value.variables : Value → List String
  | .variable name => [name]
  | .list items => itemVariables items
  | .object fields => Value.fieldVariables fields
  | _ => []

def Value.itemVariables : List Value → List String
  | [] => []
  | item :: rest => Value.variables item ++ Value.itemVariables rest

def Value.fieldVariables : List (String × Value) → List String
  | [] => []
  | (_, value) :: rest => Value.variables value ++ Value.fieldVariables rest

end

def Argument.variables (arguments : List Argument) : List String :=
  arguments.flatMap fun argument => argument.value.variables

def DirectiveUse.variables (uses : List DirectiveUse) : List String :=
  uses.flatMap fun use => Argument.variables use.arguments

mutual

def Selection.variables : Selection → List String
  | .field head selections =>
    DirectiveUse.variables head.directives ++ Argument.variables head.arguments ++ Selection.variablesIn selections
  | .spread target => DirectiveUse.variables target.directives
  | .inline _ directives selections _ =>
    DirectiveUse.variables directives ++ Selection.variablesIn selections

def Selection.variablesIn : List Selection → List String
  | [] => []
  | selection :: rest => Selection.variables selection ++ Selection.variablesIn rest

end

/-! ## Variables at places with a type -/

section Typed

variable (registry : Registry)

mutual

/-- The variables at places with a type, in a value of type `expected`. A list where no list is expected
and an object where no input object is expected have no such places. -/
def Value.typedVariables : Value → (expected : TypeRef) → List String
  | .variable name, _ => [name]
  | .list items, expected =>
    match expected.element with
    | some element => typedItems items element
    | none => []
  | .object fields, expected =>
    match registry.inputObject? expected.name with
    | some (_, inputs) => typedFields fields inputs
    | none => []
  | _, _ => []

/-- The variables at places with a type, in the items of a list. -/
def Value.typedItems : List Value → (element : TypeRef) → List String
  | [], _ => []
  | item :: rest, element => typedVariables item element ++ typedItems rest element

/-- The variables at places with a type, in the fields of an input object. -/
def Value.typedFields : List (String × Value) → (inputs : List InputValueDefinition) → List String
  | [], _ => []
  | (name, value) :: rest, inputs =>
    (match InputValueDefinition.find? inputs name with
      | some input => Value.typedVariables value input.type
      | none => []) ++
    typedFields rest inputs

end

def Argument.typedVariables (definitions : List InputValueDefinition) (arguments : List Argument) :
    List String :=
  arguments.flatMap fun argument =>
    match InputValueDefinition.find? definitions argument.name with
    | some input => argument.value.typedVariables registry input.type
    | none => []

def DirectiveUse.typedVariables (uses : List DirectiveUse) : List String :=
  uses.flatMap fun use =>
    match registry.directive? use.name with
    | some directive => Argument.typedVariables registry directive.arguments use.arguments
    | none => []

mutual

def Selection.typedVariables (parent : String) : Selection → List String
  | .field head selections =>
    DirectiveUse.typedVariables registry head.directives ++ if head.name = typename then []
      else
        match (Scope.mk registry [] []).fieldDefinition? parent head.name with
        | some found =>
          Argument.typedVariables registry found.arguments head.arguments ++
            typedVariablesIn found.type.name selections
        | none => []
  | .spread target => DirectiveUse.typedVariables registry target.directives
  | .inline condition directives selections _ =>
    DirectiveUse.typedVariables registry directives ++
      typedVariablesIn ((condition.map NamedRef.name).getD parent) selections

def Selection.typedVariablesIn (parent : String) : List Selection → List String
  | [] => []
  | selection :: rest =>
    typedVariables parent selection ++ typedVariablesIn parent rest

end

end Typed

/-! ## Operations -/

/-- The fragments that selections lead to along spreads. -/
inductive Reached (declared : NameMap FragmentDefinition) :
    List Selection → FragmentDefinition → Prop
  | here {selections : List Selection} {spread : Spread} {fragment : FragmentDefinition}
      (hspread : spread ∈ Selection.spreadsIn selections)
      (hfind : declared.find? spread.name = some fragment) : Reached declared selections fragment
  | through {selections : List Selection} {spread : Spread} {between fragment : FragmentDefinition}
      (hspread : spread ∈ Selection.spreadsIn selections)
      (hfind : declared.find? spread.name = some between)
      (hreached : Reached declared between.selections fragment) : Reached declared selections fragment

def elementVariables (directives : List DirectiveUse) (selections : List Selection) : List String :=
  DirectiveUse.variables directives ++ Selection.variablesIn selections

/-- The variables at places with a type, in directives and in selections on the type `parent`. -/
def typedElementVariables (registry : Registry) (parent : String) (directives : List DirectiveUse)
    (selections : List Selection) : List String :=
  DirectiveUse.typedVariables registry directives ++ Selection.typedVariablesIn registry parent selections

/-- **Whether a variable occurs in an operation**, or in a fragment that it leads to. -/
def OperationDefinition.Mentions (declared : NameMap FragmentDefinition)
    (operation : OperationDefinition) (name : String) : Prop :=
  name ∈ elementVariables operation.directives operation.selections ∨
    ∃ fragment, Reached declared operation.selections fragment ∧
      name ∈ elementVariables fragment.directives fragment.selections

/-- **Whether a variable occurs at a place with a type** in an operation on the type `root`, or in a
fragment that it leads to. -/
def OperationDefinition.MentionsTyped (registry : Registry) (declared : NameMap FragmentDefinition)
    (root : String) (operation : OperationDefinition) (name : String) : Prop :=
  name ∈ typedElementVariables registry root operation.directives operation.selections ∨
    ∃ fragment, Reached declared operation.selections fragment ∧
      name ∈ typedElementVariables registry fragment.condition.name fragment.directives
        fragment.selections

/-! ## Places with a type are places -/

variable {name : String}

section Subset

variable (registry : Registry)

theorem append_subset_append {as as' bs bs' : List String} (ha : as ⊆ as') (hb : bs ⊆ bs') :
    as ++ bs ⊆ as' ++ bs' := fun _ h =>
  mem_append.mpr ((mem_append.mp h).imp (fun h => ha h) fun h => hb h)

theorem flatMap_subset_flatMap {α : Type} {f g : α → List String} {es : List α}
    (h : ∀ e ∈ es, f e ⊆ g e) : es.flatMap f ⊆ es.flatMap g := fun _ hm => by
  obtain ⟨e, he, hm⟩ := mem_flatMap.mp hm
  exact mem_flatMap.mpr ⟨e, he, h e he hm⟩

theorem Value.itemVariables_eq (items : List Value) : itemVariables items = items.flatMap Value.variables := by
  induction items with
  | nil => rfl
  | cons item rest ih => rw [itemVariables, ih, flatMap_cons]

theorem Value.fieldVariables_eq (fs : List (String × Value)) :
    fieldVariables fs = fs.flatMap fun f => f.2.variables := by
  induction fs with
  | nil => rfl
  | cons f rest ih => rw [fieldVariables, ih, flatMap_cons]

theorem Value.typedItems_eq (items : List Value) (elem : TypeRef) :
    typedItems registry items elem = items.flatMap (typedVariables registry · elem) := by
  induction items with
  | nil => rfl
  | cons item rest ih => rw [typedItems, ih, flatMap_cons]

theorem Value.typedFields_eq (fs : List (String × Value)) (inputs : List InputValueDefinition) :
    typedFields registry fs inputs = fs.flatMap fun f =>
      match InputValueDefinition.find? inputs f.1 with
      | some input => f.2.typedVariables registry input.type
      | none => [] := by
  induction fs with
  | nil => rfl
  | cons f rest ih => rw [typedFields, ih, flatMap_cons]

theorem Value.typedVariables_subset (value : Value) (exp : TypeRef) :
    value.typedVariables registry exp ⊆ value.variables := by
  induction value generalizing exp with
  | «variable» name => exact fun _ h => h
  | list items ih =>
    rw [typedVariables, Value.variables, itemVariables_eq]
    split
    · rw [typedItems_eq]
      exact flatMap_subset_flatMap fun item hi => ih item hi _
    · exact nil_subset _
  | object fields ih =>
    rw [typedVariables, Value.variables, fieldVariables_eq]
    split
    · rw [typedFields_eq]
      refine flatMap_subset_flatMap fun field hf => ?_
      split
      · exact ih field hf _
      · exact nil_subset _
    · exact nil_subset _
  | _ => exact nil_subset _

theorem Argument.typedVariables_subset (defns : List InputValueDefinition) (args : List Argument) :
    Argument.typedVariables registry defns args ⊆ Argument.variables args := by
  refine flatMap_subset_flatMap fun arg _ => ?_
  split
  · exact Value.typedVariables_subset registry _ _
  · exact nil_subset _

theorem DirectiveUse.typedVariables_subset (uses : List DirectiveUse) :
    DirectiveUse.typedVariables registry uses ⊆ DirectiveUse.variables uses := by
  refine flatMap_subset_flatMap fun use _ => ?_
  split
  · exact Argument.typedVariables_subset registry _ _
  · exact nil_subset _

mutual

theorem Selection.typedVariables_subset (parent : String) : (sel : Selection) →
    sel.typedVariables registry parent ⊆ sel.variables
  | .field head selections => by
    rw [Selection.typedVariables, Selection.variables, append_assoc]
    refine append_subset_append (DirectiveUse.typedVariables_subset registry _) ?_
    split_ifs
    · exact nil_subset _
    · split
      · exact append_subset_append (Argument.typedVariables_subset registry _ _)
          (typedVariablesIn_subset _ selections)
      · exact nil_subset _
  | .spread target => DirectiveUse.typedVariables_subset registry _
  | .inline cond dirs selections _ => by
    rw [Selection.typedVariables, Selection.variables]
    exact append_subset_append (DirectiveUse.typedVariables_subset registry _)
      (typedVariablesIn_subset _ selections)

theorem Selection.typedVariablesIn_subset (parent : String) : (selections : List Selection) →
    Selection.typedVariablesIn registry parent selections ⊆ Selection.variablesIn selections
  | [] => nil_subset _
  | sel :: rest => by
    rw [Selection.typedVariablesIn, Selection.variablesIn]
    exact append_subset_append (Selection.typedVariables_subset parent sel)
      (Selection.typedVariablesIn_subset parent rest)

end

theorem OperationDefinition.MentionsTyped.mentions {registry : Registry}
    {decls : NameMap FragmentDefinition} {root : String} {op : OperationDefinition}
    (h : op.MentionsTyped registry decls root name) : op.Mentions decls name := by
  have hs : ∀ parent dirs selections, typedElementVariables registry parent dirs selections ⊆
        elementVariables dirs selections := fun parent dirs selections =>
    append_subset_append (typedVariables_subset registry dirs)
      (Selection.typedVariablesIn_subset registry parent selections)
  rcases h with h | ⟨frag, hr, h⟩
  · exact .inl (hs _ _ _ h)
  · exact .inr ⟨frag, hr, hs _ _ _ h⟩

end Subset

/-! ## What is collected -/

section Collected

variable {registry : Registry}

theorem names_checkValue (value : Value) {exp : TypeRef} {hasDefault : Bool} {loc : Location}
    (h : (checkValue registry value exp hasDefault loc).diagnostics.hasErrors = false) :
    (checkValue registry value exp hasDefault loc).uses.map VariableUse.name = value.typedVariables registry exp := by
  induction value generalizing exp hasDefault loc with
  | «variable» name => rfl
  | null =>
    rw [checkValue]
    split_ifs <;> rfl
  | list items ih =>
    rw [checkValue] at h ⊢
    rw [Value.typedVariables]
    cases he : exp.element <;> simp only [he] at h ⊢
    · rw [uses_checkNamed]
      rfl
    · rw [checkItems_eq, Findings.hasErrors_all] at h
      rw [checkItems_eq, Findings.uses_all, map_flatMap, Value.typedItems_eq]
      refine flatMap_congr fun item hi => ?_
      have hc := h item hi
      rw [checkItem] at hc ⊢
      split_ifs at hc ⊢
      · cases hc
      · exact ih item hi hc
  | object fields ih =>
    rw [checkValue] at h ⊢
    rw [Value.typedVariables]
    cases hin : registry.inputObject? exp.name <;> simp only [hin] at h ⊢
    · rw [uses_checkNamed]
      rfl
    · obtain ⟨hn, hfi, -⟩ := (checkFields_clean registry).mp h
      rw [Findings.uses_append, uses_missingFields, append_nil, checkFields_eq, markRepeats_eq_map hn,
        Findings.uses_all, flatMap_map, map_flatMap, Value.typedFields_eq]
      refine flatMap_congr fun field hf => ?_
      have hc := hfi field hf
      change (checkField registry _ _ loc field).uses.map VariableUse.name = _
      rw [checkField] at hc ⊢
      cases hfin : InputValueDefinition.find? _ field.1 <;> simp only [hfin] at hc ⊢
      · cases hc
      · exact ih field hf hc
  | int _ | float _ | string _ | boolean _ | enum _ =>
    rw [checkValue, uses_checkNamed, Value.typedVariables]
    · rfl
    all_goals simp

theorem names_checkArguments {owner : String} {defns : List InputValueDefinition}
    {args : List Argument} {loc : Location}
    (h : (checkArguments registry owner defns args loc).diagnostics.hasErrors = false) :
    (checkArguments registry owner defns args loc).uses.map VariableUse.name =
      Argument.typedVariables registry defns args := by
  rw [uses_checkArguments h, map_flatMap]
  refine flatMap_congr fun arg ha => ?_
  have hc := (checkArguments_clean.mp h).2.1 arg ha
  rw [checkArgument] at hc ⊢
  cases hf : InputValueDefinition.find? defns arg.name <;> simp only [hf] at hc ⊢
  · cases hc
  · exact names_checkValue _ hc

variable {place : DirectiveLocation}

theorem names_checkDirectives {uses : List DirectiveUse}
    (h : (checkDirectives registry place uses).diagnostics.hasErrors = false) :
    (checkDirectives registry place uses).uses.map VariableUse.name = typedVariables registry uses := by
  rw [uses_checkDirectives, map_flatMap]
  refine flatMap_congr fun use hu => ?_
  have hc := (checkDirectives_clean.mp h).1 use hu
  rw [checkUse] at hc ⊢
  cases hf : registry.directive? use.name with
  | none =>
    rw [hf] at hc
    cases hc
  | some dir =>
    simp only [hf, Findings.diagnostics_append, Diagnostics.append_clean] at hc
    simp only [← names_checkArguments hc.2]
    split_ifs <;> rfl

variable {scope : Scope}

/-- Whether a variable is used by a bound fragment that selections spread. -/
def Scope.UsedBySpread (scope : Scope) (spreads : List Spread) (name : String) : Prop :=
  ∃ spread ∈ spreads, ∃ fragment, scope.bound.find? spread.name = some fragment ∧
    name ∈ fragment.uses.map VariableUse.name

theorem Scope.usedBySpread_append {first second : List Spread} : scope.UsedBySpread (first ++ second) name ↔
      scope.UsedBySpread first name ∨ scope.UsedBySpread second name := by
  simp [UsedBySpread, or_and_right, exists_or]

theorem Scope.usedBySpread_nil : ¬ scope.UsedBySpread [] name := by
  simp [UsedBySpread]

/-- **What notes collect**: these variables, and those that the bound fragments of these spreads use. -/
def Scope.Collects (scope : Scope) (notes : Notes) (names : List String) (spreads : List Spread) : Prop :=
  ∀ name, name ∈ notes.uses.map VariableUse.name ↔ name ∈ names ∨ scope.UsedBySpread spreads name

namespace Scope

variable {parent : String} {selections : List Selection}

theorem Collects.append {notes more : Notes} {names names' : List String} {spreads spreads' : List Spread}
    (h : scope.Collects notes names spreads) (h' : scope.Collects more names' spreads') :
    scope.Collects (notes ++ more) (names ++ names') (spreads ++ spreads') := by
  intro name
  rw [uses_append, map_append, mem_append, h name, h' name, mem_append, usedBySpread_append]
  tauto

theorem collects_directiveNotes {uses : List DirectiveUse}
    (h : (scope.directiveNotes place uses).diagnostics.hasErrors = false) :
    scope.Collects (scope.directiveNotes place uses) (typedVariables scope.registry uses) [] := by
  intro name
  rw [or_iff_left usedBySpread_nil, ← names_checkDirectives h]
  rfl

theorem collects_fieldNotes {he : FieldHead} {f : FieldDefinition}
    (h : (scope.fieldNotes parent he f).diagnostics.hasErrors = false) : scope.Collects (scope.fieldNotes parent he f)
      (Argument.typedVariables scope.registry f.arguments he.arguments) [] := by
  have hu : (deprecationNotes parent he f).uses = [] := by
    rw [deprecationNotes]
    split <;> rfl
  intro name
  rw [fieldNotes, clean_append] at h
  rw [fieldNotes, uses_append, hu, nil_append, uses_ofFindings, names_checkArguments h.2, or_iff_left usedBySpread_nil]

theorem Binds.collects {sel : Selection} {res : Option BoundSelection} {notes : Notes}
    (hbi : scope.Binds parent sel res notes) (h : notes.diagnostics.hasErrors = false)
    (hi : ∀ target, scope.Clean target sel.children → scope.Collects (scope.bindSet target sel.children).2
      (Selection.typedVariablesIn scope.registry target sel.children) (Selection.spreadsIn sel.children)) :
    scope.Collects notes (sel.typedVariables scope.registry parent) sel.spreads := by
  have hr : ∀ parent name, (Scope.mk scope.registry [] []).fieldDefinition? parent name =
      scope.fieldDefinition? parent name := fun _ _ => rfl
  cases hbi with
  | typename hn =>
    rw [Selection.typedVariables, if_pos hn, append_nil]
    exact collects_directiveNotes h
  | leaf hn hf =>
    rw [clean_append] at h
    simp only [Selection.typedVariables, if_neg hn, hr, hf, Selection.typedVariablesIn, append_nil]
    exact (collects_directiveNotes h.1).append (collects_fieldNotes h.2)
  | composite hn hf =>
    rw [clean_append, clean_append] at h
    simp only [Selection.typedVariables, if_neg hn, hr, hf, ← append_assoc]
    exact ((collects_directiveNotes h.1.1).append (collects_fieldNotes h.1.2)).append (hi _ h.2)
  | @spread spread _ _ hb =>
    rw [clean_append, clean_append] at h
    intro name
    simp [Selection.typedVariables, Selection.spreads, UsedBySpread, hb, collects_directiveNotes h.1.1 name]
  | unbound _ hb =>
    rw [clean_append] at h
    intro name
    simp [Selection.typedVariables, Selection.spreads, UsedBySpread, hb, collects_directiveNotes h.1 name]
  | «inline» =>
    rw [clean_append] at h
    exact (collects_directiveNotes h.1).append (hi _ h.2)

theorem collects_set (h : scope.Clean parent selections) : scope.Collects (scope.bindSet parent selections).2
    (Selection.typedVariablesIn scope.registry parent selections) (Selection.spreadsIn selections) :=
  Clean.induct (P := fun parent sel _ notes => scope.Collects notes
    (sel.typedVariables scope.registry parent) sel.spreads)
    (fun _ name => by simp [bindSet, bindEach, Selection.typedVariablesIn, Selection.spreadsIn, UsedBySpread])
    (fun h h' => h.append h') Binds.collects h

theorem collects_element {dirs : List DirectiveUse}
    (h : (scope.directiveNotes place dirs ++ (scope.bindSet parent selections).2).diagnostics.hasErrors = false) :
    scope.Collects (scope.directiveNotes place dirs ++ (scope.bindSet parent selections).2)
      (typedElementVariables scope.registry parent dirs selections) (Selection.spreadsIn selections) := by
  rw [clean_append] at h
  exact (collects_directiveNotes h.1).append (collects_set h.2)

end Scope

/-- Whether a variable occurs at a place with a type in a fragment that selections lead to. -/
def Scope.ReachedTyped (scope : Scope) (selections : List Selection) (name : String) : Prop :=
  ∃ fragment, Reached scope.declared selections fragment ∧
    name ∈ typedElementVariables scope.registry fragment.condition.name fragment.directives
      fragment.selections

theorem Scope.Complete.usedBySpread_iff (hc : scope.Complete) {selections : List Selection} {name : String}
    (h : ∀ spread ∈ Selection.spreadsIn selections, ∀ frag, scope.declared.find? spread.name = some frag →
        (name ∈ (scope.fragmentResult frag).uses.map VariableUse.name ↔
          name ∈ typedElementVariables scope.registry frag.condition.name frag.directives
            frag.selections ∨ scope.ReachedTyped frag.selections name)) :
    scope.UsedBySpread (Selection.spreadsIn selections) name ↔ scope.ReachedTyped selections name := by
  constructor
  · rintro ⟨spread, hs, res, he, hn⟩
    rw [hc.bound] at he
    obtain ⟨frag, hf, rfl⟩ := map_eq_some_iff.mp he
    rcases (h spread hs frag hf).mp hn with hn | ⟨last, hr, hn⟩
    · exact ⟨frag, .here hs hf, hn⟩
    · exact ⟨last, .through hs hf hr, hn⟩
  · rintro ⟨last, hr, hn⟩
    cases hr with
    | here hs hf =>
      refine ⟨_, hs, _, ?_, (h _ hs last hf).mpr (.inl hn)⟩
      rw [hc.bound, hf, map_some]
    | through hs hf hr =>
      refine ⟨_, hs, _, ?_, (h _ hs _ hf).mpr (.inr ⟨last, hr, hn⟩)⟩
      rw [hc.bound, hf, map_some]

/-- A fragment collects what occurs at places with a type in it or in a fragment that it leads to. -/
theorem Scope.Complete.mem_names_fragment (hc : scope.Complete) {name : String}
    {frag : FragmentDefinition} {key : String} (hf : scope.declared.find? key = some frag) :
    name ∈ (scope.fragmentResult frag).uses.map VariableUse.name ↔
      name ∈ typedElementVariables scope.registry frag.condition.name frag.directives
        frag.selections ∨ scope.ReachedTyped frag.selections name := by
  refine hc.induct (P := fun found => name ∈ (scope.fragmentResult found).uses.map VariableUse.name ↔
    name ∈ typedElementVariables scope.registry found.condition.name found.directives found.selections ∨
      scope.ReachedTyped found.selections name) (fun other frag ho ih => ?_) hf
  rw [← hc.usedBySpread_iff ih]
  exact collects_element (hc.clean other frag ho) name

theorem Scope.Complete.mem_names_operation (hc : scope.Complete) {root name : String}
    {op : OperationDefinition} (h : (scope.directiveNotes op.kind.place op.directives ++
      (scope.bindSet root op.selections).2).diagnostics.hasErrors = false) :
    name ∈ (scope.directiveNotes op.kind.place op.directives ++
        (scope.bindSet root op.selections).2).uses.map VariableUse.name ↔
      op.MentionsTyped scope.registry scope.declared root name := by
  rw [collects_element h name, hc.usedBySpread_iff fun _ _ _ hf =>
    hc.mem_names_fragment hf]
  rfl

end Collected

end GraphClient
