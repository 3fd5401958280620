import GraphClient.Proofs.Operation.Bind
import GraphClient.Proofs.Operation.Shape
import GraphClient.Proofs.Schema.Conformance

/-!
# Bound selections and the fields they select

In a complete scope, every selection without errors becomes one bound selection, and the selections inside
it are bound sets again. So what is known of bound sets holds at every depth.
-/

namespace GraphClient

open List BoundSelection TypeRef Registry

/-! ## Bound sets -/

namespace Scope

/-- **What a selection on the type `parent` becomes.** -/
inductive Elaborates (scope : Scope) (parent : String) : Selection → BoundSelection → Prop
  | typename {head : FieldHead} (hname : head.name = typename) (harguments : head.arguments = []) :
    Elaborates scope parent (.field head []) (.field (.typename head.label head.directives head.location) [])
  | leaf {head : FieldHead} {field : FieldDefinition} (hname : head.name ≠ typename)
      (hfield : scope.fieldDefinition? parent head.name = some field)
      (hleaf : scope.isComposite field.type = false) :
    Elaborates scope parent (.field head []) (.field (boundField head field) [])
  | composite {head : FieldHead} {selections : List Selection} {field : FieldDefinition}
      (hname : head.name ≠ typename)
      (hfield : scope.fieldDefinition? parent head.name = some field)
      (hcomposite : scope.isComposite field.type) (hselections : selections ≠ [])
      (hclean : scope.Clean field.type.name selections) :
    Elaborates scope parent (.field head selections)
      (.field (boundField head field) (scope.bindSet field.type.name selections).1)
  | spread {spread : Spread} {fragment : FragmentDefinition}
      (hfragment : scope.declared.find? spread.name = some fragment)
      (hclean : scope.Clean fragment.condition.name fragment.selections) :
    Elaborates scope parent (.spread spread)
      (.fragment ⟨some fragment.condition.name, some fragment.name, spread.directives, spread.location⟩
        (scope.bindSet fragment.condition.name fragment.selections).1)
  | inline {condition : Option NamedRef} {directives : List DirectiveUse}
      {selections : List Selection} {location : Location}
      (hclean : scope.Clean ((condition.map NamedRef.name).getD parent) selections) :
    Elaborates scope parent (.inline condition directives selections location)
      (.fragment ⟨condition.map NamedRef.name, none, directives, location⟩
        (scope.bindSet ((condition.map NamedRef.name).getD parent) selections).1)

structure FieldElaborates (scope : Scope) (head : FieldHead) (selections : List Selection)
    (bound : BoundField) (inner : List BoundSelection) : Prop where
  key : bound.responseKey = head.responseKey
  name : bound.name = head.name
  arguments : bound.arguments = head.arguments
  isConditional : bound.isConditional = DirectiveUse.isConditional head.directives
  clean : selections ≠ [] → scope.Clean bound.type.name selections
  inner : inner = if selections = [] then [] else (scope.bindSet bound.type.name selections).1

variable {scope : Scope} {parent : String} {sels : List Selection} {bound : BoundSelection}

theorem Elaborates.field {hd : FieldHead} (h : scope.Elaborates parent (.field hd sels) bound) :
    ∃ f inner, bound = .field f inner ∧ scope.FieldElaborates hd sels f inner := by
  cases h with
  | typename hn ha =>
    exact ⟨_, _, rfl, by rw [FieldHead.responseKey, hn]; rfl, hn.symm, ha.symm, rfl, fun he => absurd rfl he, rfl⟩
  | leaf => exact ⟨_, _, rfl, rfl, rfl, rfl, rfl, fun he => absurd rfl he, rfl⟩
  | composite _ _ _ hs hclean =>
    exact ⟨_, _, rfl, rfl, rfl, rfl, rfl, fun _ => hclean, by rw [if_neg hs]; rfl⟩

theorem clean_iff : scope.Clean parent sels ↔
    ∀ sel ∈ sels, (scope.bindSelection parent sel).2.diagnostics.hasErrors = false := by
  change (scope.bindEach parent sels).2.diagnostics.hasErrors = false ↔ _
  induction sels with
  | nil => simp [bindEach]
  | cons first rest ih => simp [bindEach, ih]

theorem clean_operation {defn : OperationDefinition} {op : BoundOperation} (hb : (scope.bindOperation defn).1 = some op)
    (ha : (scope.bindOperation defn).2.hasErrors = false) : scope.Clean op.root defn.selections := by
  obtain ⟨_, root, -, hr, -, hn, -⟩ := bindOperation_clean.mp ha
  obtain rfl := Option.some.inj (hr.symm.trans (bindOperation_some hb).2.1)
  rw [operationNotes, Notes.clean_append] at hn
  exact hn.2

theorem mem_bindEach : bound ∈ (scope.bindEach parent sels).1 ↔
    ∃ sel ∈ sels, (scope.bindSelection parent sel).1 = some bound := by
  induction sels with
  | nil => simp [bindEach]
  | cons first rest ih => simp [bindEach, ih]

/-- Whether the name of the type is added to a set: on interfaces and unions, if its key is free. -/
def AddsTypename (scope : Scope) (parent : String) (selections : List Selection) : Prop :=
  scope.registry.HasKind TypeKind.isAbstract parent ∧
    ∀ head inner, .field head inner ∈ selections → head.responseKey ≠ typename

theorem mem_addTypename {bound : List BoundSelection} {e : BoundSelection} :
    e ∈ scope.addTypename parent sels bound ↔ e ∈ bound ∨
      (scope.registry.HasKind TypeKind.isAbstract parent ∧ bound.any (hasKey typename) = false) ∧
        e = .field (.typename none [] ((sels.head?.map Selection.location).getD .builtin)) [] := by
  rw [addTypename.eq_def, HasKind]
  cases hk : scope.registry.kind? parent with
  | none => simp
  | some kind =>
    simp only [Option.some.injEq, exists_eq_left']
    split_ifs with ha
    · rw [Bool.and_eq_true, Bool.not_eq_true'] at ha
      rw [mem_cons, and_iff_right ha, or_comm]
      cases sels <;> rfl
    · rw [Bool.and_eq_true, Bool.not_eq_true'] at ha
      simp only [ha, false_and, or_false]

theorem subset_addTypename (bound : List BoundSelection) : bound ⊆ scope.addTypename parent sels bound := by
  intro e he
  rw [addTypename.eq_def]
  dsimp only
  split_ifs
  · exact mem_cons_of_mem _ he
  · exact he

/-- **A set on an interface or union selects something under the key of the type's name.** -/
theorem exists_hasKey_typename (ha : scope.registry.HasKind TypeKind.isAbstract parent)
    (sels : List Selection) : ∃ e ∈ (scope.bindSet parent sels).1, e.hasKey typename := by
  cases hn : (scope.bindEach parent sels).1.any (hasKey typename) with
  | true =>
    obtain ⟨e, he, hk⟩ := any_eq_true.mp hn
    exact ⟨e, subset_addTypename _ he, hk⟩
  | false => exact ⟨_, mem_addTypename.mpr (Or.inr ⟨⟨ha, hn⟩, rfl⟩), rfl⟩

namespace Complete

variable (h : scope.Complete)

include h

theorem clean_fragment {name : String} {frag : FragmentDefinition} (hf : scope.declared.find? name = some frag) :
    scope.Clean frag.condition.name frag.selections := by
  have hclean := h.clean name frag hf
  rw [fragmentNotes, Notes.clean_append] at hclean
  exact hclean.2

variable {sel : Selection}

/-- **Every selection without errors becomes one bound selection.** -/
theorem elaborates (hclean : (scope.bindSelection parent sel).2.diagnostics.hasErrors = false) :
    ∃ bound, (scope.bindSelection parent sel).1 = some bound ∧ scope.Elaborates parent sel bound := by
  have hi := binds_of_clean hclean
  revert hclean hi
  generalize (scope.bindSelection parent sel).1 = res
  generalize (scope.bindSelection parent sel).2 = notes
  intro hclean hi
  cases hi with
  | typename hn ha => exact ⟨_, rfl, .typename hn ha⟩
  | leaf hn hfi hl => exact ⟨_, rfl, .leaf hn hfi hl⟩
  | composite hn hfi hc hs =>
    rw [Notes.clean_append] at hclean
    exact ⟨_, rfl, .composite hn hfi hc hs hclean.2⟩
  | @spread spread frag hd hb hap =>
    obtain ⟨defn, hf⟩ := Option.isSome_iff_exists.mp hd
    rw [h.bound, hf] at hb
    obtain rfl := Option.some.inj hb
    exact ⟨_, rfl, .spread hf (h.clean_fragment hf)⟩
  | @unbound spread hd hb =>
    obtain ⟨defn, hf⟩ := Option.isSome_iff_exists.mp hd
    rw [h.bound, hf] at hb
    cases hb
  | «inline» hco =>
    rw [Notes.clean_append] at hclean
    exact ⟨_, rfl, .inline hclean.2⟩

variable (hclean : scope.Clean parent sels)

include hclean

theorem any_hasKey_iff : (scope.bindEach parent sels).1.any (hasKey typename) = false ↔
      ∀ ha inner, .field ha inner ∈ sels → ha.responseKey ≠ typename := by
  rw [any_eq_false]
  constructor
  · intro hn ha inner hm hk
    obtain ⟨bound, hs, he⟩ := h.elaborates (clean_iff.mp hclean _ hm)
    obtain ⟨field, below, rfl, hf⟩ := he.field
    exact hn _ (mem_bindEach.mpr ⟨_, hm, hs⟩) (beq_iff_eq.mpr (hf.key.trans hk))
  · intro hr bound hb hk
    obtain ⟨selection, hm, hs⟩ := mem_bindEach.mp hb
    obtain ⟨other, ho, he⟩ := h.elaborates (clean_iff.mp hclean _ hm)
    obtain rfl := Option.some.inj (hs.symm.trans ho)
    cases selection with
    | field ha inner =>
      obtain ⟨field, below, rfl, hf⟩ := he.field
      exact hr ha inner hm (hf.key.symm.trans (beq_iff_eq.mp hk))
    | spread target | «inline» cond dirs inside loc =>
      cases he
      cases hk

/-- **A member of a bound set comes from a selection**, or it is the name of the type, which is added. -/
theorem mem_bindSet {bound : BoundSelection} (hb : bound ∈ (scope.bindSet parent sels).1) :
    (∃ sel ∈ sels, scope.Elaborates parent sel bound) ∨
      scope.AddsTypename parent sels ∧ ∃ loc, bound = .field (.typename none [] loc) [] := by
  rcases mem_addTypename.mp hb with hm | ⟨⟨ha, hn⟩, rfl⟩
  · obtain ⟨sel, hs, hso⟩ := mem_bindEach.mp hm
    obtain ⟨other, ho, he⟩ := h.elaborates (clean_iff.mp hclean sel hs)
    obtain rfl := Option.some.inj (hso.symm.trans ho)
    exact Or.inl ⟨sel, hs, he⟩
  · exact Or.inr ⟨⟨ha, (h.any_hasKey_iff hclean).mp hn⟩, _, rfl⟩

theorem exists_typename (ha : scope.AddsTypename parent sels) :
    ∃ loc, .field (.typename none [] loc) [] ∈ (scope.bindSet parent sels).1 :=
  ⟨_, mem_addTypename.mpr (Or.inr ⟨⟨ha.1, (h.any_hasKey_iff hclean).mpr ha.2⟩, rfl⟩)⟩

theorem exists_bound (hs : sel ∈ sels) :
    ∃ bound ∈ (scope.bindSet parent sels).1, scope.Elaborates parent sel bound := by
  obtain ⟨bound, ho, he⟩ := h.elaborates (clean_iff.mp hclean sel hs)
  exact ⟨bound, subset_addTypename _ (mem_bindEach.mpr ⟨sel, hs, ho⟩), he⟩

theorem bindSet_ne_nil (hn : sels ≠ []) : (scope.bindSet parent sels).1 ≠ [] := by
  obtain ⟨sel, hs⟩ := exists_mem_of_ne_nil sels hn
  obtain ⟨bound, hb, -⟩ := h.exists_bound hclean hs
  exact ne_nil_of_mem hb

end Complete

end Scope

/-! ## Selected fields -/

/-- A field inside a fragment that can be left out if `isConditional`. -/
def Collected.under (isConditional : Bool) (entry : Collected) : Collected :=
  { entry with isConditional := isConditional || entry.isConditional }

theorem Collected.under_under (outer inner : Bool) (e : Collected) :
    (e.under inner).under outer = e.under (outer || inner) := by
  simp [Collected.under, Bool.or_assoc]

namespace Registry

/-- **The fields that bound selections ask an object for.** -/
inductive Selects (registry : Registry) (object : String) : List BoundSelection → Collected → Prop
  | field {selections inner : List BoundSelection} {head : BoundField}
      (hmem : .field head inner ∈ selections) :
    Selects registry object selections ⟨head.isConditional, head, inner⟩
  | fragment {selections inside : List BoundSelection} {use : FragmentUse} {entry : Collected}
      (hmem : .fragment use inside ∈ selections) (happlies : registry.applies use.condition object)
      (hinside : Selects registry object inside entry) :
    Selects registry object selections (entry.under use.isConditional)

variable {reg : Registry} {obj : String} {e : Collected} {sels : List BoundSelection} {parent : String}

theorem Selects.mono {more : List BoundSelection} (h : reg.Selects obj sels e)
    (hs : sels ⊆ more) : reg.Selects obj more e := by
  cases h with
  | field hm => exact .field (hs hm)
  | fragment hm ha hi => exact .fragment (hs hm) ha hi

theorem Selects.exists_member (h : reg.Selects obj sels e) :
    ∃ bound ∈ sels, ∀ more, bound ∈ more → reg.Selects obj more e := by
  cases h with
  | field he => exact ⟨_, he, fun _ hm => .field hm⟩
  | fragment he ha hi => exact ⟨_, he, fun _ hm => .fragment hm ha hi⟩

theorem mem_collectFrom {isCond : Bool} : e ∈ reg.collectFrom obj isCond sels ↔
      ∃ selection ∈ sels, e ∈ reg.collectOne obj isCond selection := by
  induction sels with
  | nil => simp [collectFrom]
  | cons first rest ih => simp [collectFrom, ih]

theorem Selects.under_mem (h : reg.Selects obj sels e) (isCond : Bool) :
    e.under isCond ∈ reg.collectFrom obj isCond sels := by
  induction h generalizing isCond with
  | field hm => exact mem_collectFrom.mpr ⟨_, hm, mem_singleton_self _⟩
  | @fragment _ _ use e hm ha _ ih =>
    refine mem_collectFrom.mpr ⟨_, hm, ?_⟩
    rw [collectOne, if_pos ha, Collected.under_under]
    exact ih _

mutual

variable {e : Collected}

theorem selects_of_mem_collectOne {isCond : Bool} : (sel : BoundSelection) → e ∈ reg.collectOne obj isCond sel →
      ∃ inside, reg.Selects obj [sel] inside ∧ e = inside.under isCond
  | .field head sels, he =>
    ⟨_, .field (mem_singleton_self _), mem_singleton.mp he⟩
  | .fragment use sels, he => by
    rw [collectOne] at he
    split_ifs at he with ha
    · obtain ⟨inside, hi, rfl⟩ := selects_of_mem_collectFrom sels he
      exact ⟨_, .fragment (mem_singleton_self _) ha hi, (Collected.under_under _ _ _).symm⟩
    · cases he

theorem selects_of_mem_collectFrom {isCond : Bool} :
    (sels : List BoundSelection) → e ∈ reg.collectFrom obj isCond sels →
      ∃ inside, reg.Selects obj sels inside ∧ e = inside.under isCond
  | [], he => by cases he
  | sel :: rest, he => by
    rcases mem_append.mp he with he | he
    · obtain ⟨inside, hi, hq⟩ := selects_of_mem_collectOne sel he
      exact ⟨inside, hi.mono (cons_subset_cons _ (nil_subset _)), hq⟩
    · obtain ⟨inside, hi, hq⟩ := selects_of_mem_collectFrom rest he
      exact ⟨inside, hi.mono (subset_cons_self _ _), hq⟩

end

/-- **The collected fields are those that are asked for.** -/
theorem mem_collect : e ∈ reg.collect obj sels ↔ reg.Selects obj sels e := by
  constructor
  · intro h
    obtain ⟨inside, hi, rfl⟩ := selects_of_mem_collectFrom sels h
    exact hi
  · exact fun h => h.under_mem false

/-! ## Fields of objects -/

/-- Types whose objects have one set of fields: object types, and types without objects. -/
def Uniform (registry : Registry) (object : String) : Prop :=
  registry.kind? object = some .object ∨ registry.possibleTypes object = []

theorem applies_some {type : String} : reg.applies (some type) obj ↔ type = obj ∨ obj ∈ reg.possibleTypes type := by
  simp [applies, isPossibleType]

theorem Named.exists_interface (h : reg.Named) (hk : reg.kind? parent = some .interface)
    (ho : obj ∈ reg.possibleTypes parent) : ∃ type iface, reg.type? obj = some type ∧ reg.type? parent = some iface ∧
      ∃ e ∈ type.implements, e.name = parent := by
  obtain ⟨iface, hi⟩ : ∃ iface, reg.type? parent = some iface := by
    cases hf : reg.type? parent with
    | none => simp [kind?, hf] at hk
    | some iface => exact ⟨iface, rfl⟩
  rw [kind?_of_type? hi, Option.some.injEq] at hk
  obtain ⟨type, ht, -, hl⟩ := (h.mem_possibleTypes_interface hi hk).mp ho
  exact ⟨type, iface, ht, hi, mem_map.mp hl⟩

variable {name : String}

theorem field?_of_interface (hv : reg.Valid) {f : FieldDefinition}
    (hk : reg.kind? parent = some .interface) (ho : obj ∈ reg.possibleTypes parent)
    (hf : reg.field? parent name = some f) : ∃ decls, reg.field? obj name = some decls ∧
      decls.type.isCovariant f.type := by
  obtain ⟨type, iface, ht, hi, e, he, rfl⟩ :=
    hv.named.exists_interface hk ho
  rw [field?_of_type? hi] at hf
  obtain ⟨actual, ha, hc⟩ := hv.conforming obj type ht e he iface
    hi f (mem_of_find?_eq_some hf)
  have hn : f.name = name := by simpa using find?_some hf
  rw [hn] at ha
  exact ⟨actual, (field?_of_type? ht).trans ha, hc⟩

/-- **An object has the fields of the types it stands for**, with types that fit. -/
theorem field?_of_applies {scope : Scope} (hv : scope.registry.Valid)
    (hu : scope.registry.Uniform obj) {field : FieldDefinition} (ha : scope.registry.applies (some parent) obj)
    (hf : scope.fieldDefinition? parent name = some field) :
    ∃ decl, scope.registry.field? obj name = some decl ∧ decl.type.isCovariant field.type := by
  rw [Scope.fieldDefinition?] at hf
  cases hk : scope.registry.kind? parent with
  | none => simp [hk] at hf
  | some kind =>
    cases kind with
    | object =>
      simp only [hk] at hf
      have he : parent = obj := by
        rcases applies_some.mp ha with he | hob
        · exact he
        · rcases hv.named.possibleTypes_cases hob with ⟨-, he⟩ | ⟨kind, ho, hab⟩
          · exact he.symm
          · rw [hk, Option.some.injEq] at ho
            subst ho
            cases hab
      exact ⟨field, he ▸ hf, isCovariant_refl _⟩
    | interface =>
      simp only [hk] at hf
      rcases applies_some.mp ha with rfl | hob
      · exact ⟨field, hf, isCovariant_refl _⟩
      · exact field?_of_interface hv hk hob hf
    | union =>
      simp only [hk] at hf
      cases hp : scope.registry.possibleTypes parent with
      | nil => simp [hp] at hf
      | cons first rest =>
        have hob : obj ∈ first :: rest := by
          rcases applies_some.mp ha with rfl | hob
          · rcases hu with ho | hn
            · rw [hk] at ho
              cases ho
            · rw [hp] at hn
              cases hn
          · rwa [← hp]
        cases hfi : scope.registry.field? first name with
        | none => simp [hp, hfi] at hf
        | some found =>
          simp only [hp, hfi, Option.ite_none_right_eq_some, all_eq_true, Option.some.injEq] at hf
          obtain ⟨hs, rfl⟩ := hf
          rcases mem_cons.mp hob with rfl | hob
          · exact ⟨found, hfi, isCovariant_refl _⟩
          · have ho := hs obj hob
            cases hd : scope.registry.field? obj name with
            | none => simp [hd] at ho
            | some decl =>
              simp only [hd, beq_iff_eq] at ho
              exact ⟨decl, rfl, by rw [ho]; exact isCovariant_refl _⟩
    | scalar | enum | inputObject => simp [hk] at hf

end Registry

/-! ## Types of selected fields -/

namespace Scope

/-- A member of some set on the type `parent` that is bound without errors. -/
def Yields (scope : Scope) (parent : String) (bound : BoundSelection) : Prop :=
  ∃ selections, scope.Clean parent selections ∧ bound ∈ (scope.bindSet parent selections).1

/-- **A field that an object is asked for, next to what the object declares.** It is the name of the type,
or a field of the object whose type fits; it has selections just if its type has fields. -/
def FieldTyped (scope : Scope) (object : String) (head : BoundField) (inner : List BoundSelection) : Prop :=
  head.name = typename ∧ head.type = (named "String").nonNull ∧ inner = [] ∨
    head.name ≠ typename ∧ ∃ declared, scope.registry.field? object head.name = some declared ∧
      declared.type.isCovariant head.type ∧
      (inner ≠ [] ↔ scope.registry.HasKind TypeKind.isComposite declared.type.name) ∧
      ∀ bound ∈ inner, scope.Yields declared.type.name bound

theorem isComposite_iff {scope : Scope} {type : TypeRef} :
    scope.isComposite type ↔ scope.registry.HasKind TypeKind.isComposite type.name := by
  rw [isComposite, HasKind]
  cases scope.registry.kind? type.name <;> simp

variable {scope : Scope} {obj : String} {parent : String}

theorem Complete.field_typed (h : scope.Complete) (hv : scope.registry.Valid) (hu : scope.registry.Uniform obj)
    (ha : scope.registry.applies (some parent) obj) {head : BoundField}
    {inner : List BoundSelection} (hy : scope.Yields parent (.field head inner)) : scope.FieldTyped obj head inner := by
  obtain ⟨sels, hclean, hm⟩ := hy
  rcases h.mem_bindSet hclean hm with ⟨sel, -, he⟩ | ⟨-, loc, hq⟩
  · cases he with
    | typename => exact Or.inl ⟨rfl, rfl, rfl⟩
    | leaf hn hf hl =>
      obtain ⟨decls, hd, hc⟩ :=
        field?_of_applies hv hu ha hf
      refine Or.inr ⟨hn, decls, hd, hc, ?_, fun _ hb => absurd hb not_mem_nil⟩
      rw [name_of_isCovariant hc, ← isComposite_iff, hl]
      simp
    | composite hn hf ho hs hi =>
      obtain ⟨decls, hd, hc⟩ :=
        field?_of_applies hv hu ha hf
      have hsa : decls.type.name = _ := name_of_isCovariant hc
      refine Or.inr ⟨hn, decls, hd, hc, ?_, fun bound hb => ?_⟩
      · rw [hsa, ← isComposite_iff]
        exact iff_of_true (h.bindSet_ne_nil hi hs) ho
      · rw [hsa]
        exact ⟨_, hi, hb⟩
  · obtain ⟨rfl, rfl⟩ := field.inj hq
    exact Or.inl ⟨rfl, rfl, rfl⟩

theorem Complete.yields_inside (h : scope.Complete) {use : FragmentUse}
    {inside : List BoundSelection} (hy : scope.Yields parent (.fragment use inside)) :
    ∀ bound ∈ inside, scope.Yields (use.condition.getD parent) bound := by
  obtain ⟨sels, hclean, hm⟩ := hy
  rcases h.mem_bindSet hclean hm with ⟨sel, -, he⟩ | ⟨-, loc, hq⟩
  · cases he with
    | spread hf hi | «inline» hi => exact fun bound hb => ⟨_, hi, hb⟩
  · cases hq

/-- **Every field that an object is asked for is typed.** The induction follows the fragments around the
field; the object stands for the condition of each of them. -/
theorem Complete.selects_typed (h : scope.Complete) (hv : scope.registry.Valid)
    (hu : scope.registry.Uniform obj) {sels : List BoundSelection} (hy : ∀ bound ∈ sels, scope.Yields parent bound)
    (ha : scope.registry.applies (some parent) obj) {e : Collected} (hs : scope.registry.Selects obj sels e) :
    scope.FieldTyped obj e.field e.selections := by
  induction hs generalizing parent with
  | field hm => exact h.field_typed hv hu ha (hy _ hm)
  | @fragment _ _ use _ hm ho _ ih =>
    refine ih (h.yields_inside (hy _ hm)) ?_
    cases hc : use.condition with
    | none => exact ha
    | some cond => rwa [hc] at ho

end Scope

end GraphClient
