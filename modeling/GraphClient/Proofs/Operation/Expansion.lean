import GraphClient.Proofs.Operation.Places
import GraphClient.Proofs.Operation.Permuted

/-!
# Selections as they are written

The fields that an object is asked for can be read off the definitions: each fragment is looked up where it
is spread, and the fields under one key lead on to the next object. Binding fragments once, on their own
conditions, comes to the same.

* **`Scope.Accepts.place_of_requested`**, **`Scope.Accepts.requested_of_place`**: all places.
-/

namespace GraphClient

open Collected List Option

namespace Registry

variable (registry : Registry) (fragments : List FragmentDefinition)

/-- Whether a fragment on the type `condition` applies to an object. -/
def Satisfies (object condition : String) : Prop :=
  condition = object ∨ registry.IsOf object condition

/-- **The selection sets that apply to an object**, from a set on the type `parent`: that set and those of
the fragments in it that apply. Each comes with its type, and with whether a fragment around it can be left
out. -/
inductive Expands (object parent : String) (selections : List Selection) :
    Bool → String → List Selection → Prop
  | self : Expands object parent selections false parent selections
  | spread {isConditional : Bool} {type : String} {set : List Selection} {spread : Spread}
      {fragment : FragmentDefinition} (hset : Expands object parent selections isConditional type set)
      (hmem : .spread spread ∈ set) (hfragment : fragment ∈ fragments) (hname : fragment.name = spread.name)
      (happlies : registry.Satisfies object fragment.condition.name) :
    Expands object parent selections (isConditional || DirectiveUse.isConditional spread.directives)
      fragment.condition.name fragment.selections
  | inline {isConditional : Bool} {type : String} {set : List Selection} {condition : Option NamedRef}
      {directives : List DirectiveUse} {inside : List Selection} {location : Location}
      (hset : Expands object parent selections isConditional type set)
      (hmem : .inline condition directives inside location ∈ set)
      (happlies : ∀ named ∈ condition, registry.Satisfies object named.name) :
    Expands object parent selections (isConditional || DirectiveUse.isConditional directives)
      ((condition.map NamedRef.name).getD type) inside

/-- **The fields that an object is asked for**, with the selections on each. -/
def Asks (object parent : String) (selections : List Selection) (head : FieldHead)
    (inner : List Selection) : Prop :=
  ∃ isConditional type set, registry.Expands fragments object parent selections isConditional type set ∧
    .field head inner ∈ set

/-- **The selection sets that meet at a response path**, with the type there. -/
inductive Requested (root : String) (selections : List Selection) :
    List (String × String) → String → List Selection → Prop
  | root : Requested root selections [] root selections
  | field {path : List (String × String)} {type object : String} {set inner : List Selection}
      {head : FieldHead} {declared : FieldDefinition} (hset : Requested root selections path type set)
      (hobject : registry.Represents object type) (hasks : registry.Asks fragments object type set head inner)
      (hdeclared : registry.field? object head.name = some declared) (hinner : inner ≠ []) :
    Requested root selections ((object, head.responseKey) :: path) declared.type.name inner

variable {registry}

theorem Valid.satisfies_iff (h : registry.Valid) {obj cond : String} :
    registry.applies (some cond) obj ↔ registry.Satisfies obj cond :=
  h.applies_iff

end Registry

namespace Scope

variable {scope : Scope} {fragments : List FragmentDefinition} {obj parent type : String}
  {sels set : List Selection} {isCond : Bool}

/-- The fragments that a scope looks up are those of the documents. -/
def Declares (scope : Scope) (fragments : List FragmentDefinition) : Prop :=
  ∀ name fragment, scope.declared.find? name = some fragment ↔ fragment ∈ fragments ∧ fragment.name = name

/-- A field that is asked for in a set, as it is written there or as it is added. -/
def WrittenIn (scope : Scope) (isConditional : Bool) (type : String) (set : List Selection)
    (entry : Collected) : Prop :=
  (∃ head inner, .field head inner ∈ set ∧ scope.FieldElaborates head inner entry.field entry.selections ∧
    entry.isConditional = (isConditional || DirectiveUse.isConditional head.directives)) ∨
  scope.AddsTypename type set ∧ ∃ location, entry = ⟨isConditional, .typename none [] location, []⟩

section

variable (h : scope.Complete) (hvalid : scope.registry.Valid) (hdeclares : scope.Declares fragments)

include h hvalid hdeclares

/-- **The fields of a bound set stand in the written sets that apply to the object.** The induction follows
the bound fragments around the field. -/
theorem Complete.exists_expands (hc : scope.Clean type set) {e : Collected}
    (hs : scope.registry.Selects obj (scope.bindSet type set).1 e)
    (ht : scope.registry.Expands fragments obj parent sels isCond type set) :
    ∃ isConditional' type' set', scope.registry.Expands fragments obj parent sels isConditional' type' set' ∧
        scope.WrittenIn isConditional' type' set' (e.under isCond) := by
  generalize hb : (scope.bindSet type set).1 = bound at hs
  induction hs generalizing type set isCond with
  | @field _ inner head hm =>
    subst hb
    refine ⟨isCond, type, set, ht, ?_⟩
    rcases h.mem_bindSet hc hm with ⟨sel, hse, he⟩ | ⟨hd, loc, hq⟩
    · cases sel with
      | field written below =>
        obtain ⟨_, _, hq, hf⟩ := he.field
        obtain ⟨rfl, rfl⟩ := BoundSelection.field.inj hq
        exact Or.inl ⟨written, below, hse, hf, by rw [← hf.isConditional]; rfl⟩
      | spread target | «inline» cond dirs inside loc => cases he
    · obtain ⟨rfl, rfl⟩ := BoundSelection.field.inj hq
      exact Or.inr ⟨hd, loc, by simp [under, BoundField.isConditional, BoundField.typename, DirectiveUse.isConditional]⟩
  | @fragment _ inside use e hm ha _ ih =>
    subst hb
    rw [under_under]
    rcases h.mem_bindSet hc hm with ⟨sel, hse, he⟩ | ⟨-, loc, hq⟩
    · cases he with
      | @spread target frag hr hi =>
        obtain ⟨hme, hna⟩ := (hdeclares _ _).mp hr
        exact ih hi (.spread ht hse hme hna (hvalid.satisfies_iff.mp ha)) rfl
      | @«inline» cond dirs written loc hi =>
        refine ih hi (.inline ht hse ?_) rfl
        rintro named hn
        rw [mem_def.mp hn] at ha
        exact hvalid.satisfies_iff.mp ha
    · cases hq

/-- **What a written set that applies to an object asks for, the bound set asks for.** -/
theorem Complete.selects_of_expands (hc : scope.Clean parent sels)
    (hs : scope.registry.Expands fragments obj parent sels isCond type set) :
    scope.Clean type set ∧ ∀ e, scope.registry.Selects obj (scope.bindSet type set).1 e →
      scope.registry.Selects obj (scope.bindSet parent sels).1 (e.under isCond) := by
  induction hs with
  | self => exact ⟨hc, fun e he => he⟩
  | spread _ hm hf hn ha ih =>
    obtain ⟨hab, hl⟩ := ih
    obtain ⟨bound, hb, hel⟩ := h.exists_bound hab hm
    cases hel with
    | @spread _ found ho hi =>
      obtain rfl := some.inj (ho.symm.trans ((hdeclares _ _).mpr ⟨hf, hn⟩))
      refine ⟨hi, fun e he => ?_⟩
      rw [← under_under]
      exact hl _ (.fragment hb (hvalid.satisfies_iff.mpr ha) he)
  | @«inline» _ _ _ cond dirs inside loc _ hm ha ih =>
    obtain ⟨hab, hl⟩ := ih
    obtain ⟨bound, hb, hel⟩ := h.exists_bound hab hm
    cases hel with
    | «inline» hi =>
      refine ⟨hi, fun e he => ?_⟩
      rw [← under_under]
      refine hl _ (.fragment hb ?_ he)
      cases cond with
      | none => rfl
      | some named => exact hvalid.satisfies_iff.mpr (ha named rfl)

/-- A field that is written in a set that applies to an object is one that the bound set asks for. -/
theorem Complete.selects_of_asks (hc : scope.Clean parent sels)
    (hs : scope.registry.Expands fragments obj parent sels isCond type set)
    {ha : FieldHead} {inner : List Selection} (hm : .field ha inner ∈ set) :
    ∃ e, scope.registry.Selects obj (scope.bindSet parent sels).1 e ∧
      scope.FieldElaborates ha inner e.field e.selections ∧
      e.isConditional = (isCond || DirectiveUse.isConditional ha.directives) := by
  obtain ⟨hc', hl⟩ := h.selects_of_expands hvalid hdeclares hc hs
  obtain ⟨bound, hb, he⟩ := h.exists_bound hc' hm
  obtain ⟨f, below, rfl, hf⟩ := he.field
  exact ⟨_, hl _ (.field hb), hf, by rw [← hf.isConditional]; rfl⟩

end

variable {defn : OperationDefinition} {op : BoundOperation}
  {path : List (String × String)} {merged : List BoundSelection}
  (h : scope.Accepts defn op) (hdeclares : scope.Declares fragments)

include h hdeclares

theorem Accepts.place_of_requested (hse : scope.registry.Requested fragments op.root defn.selections path type set) :
    scope.Clean type set ∧ ∃ merged, scope.registry.Place op.root op.selections path type merged ∧
        (scope.bindSet type set).1 ⊆ merged := by
  induction hse with
  | root => exact ⟨h.clean, _, .root, by rw [h.selections]; exact Subset.refl _⟩
  | @field _ _ obj _ inner head decl _ ho ha hd hi ih =>
    obtain ⟨hc, merged, hp, hu⟩ := ih
    obtain ⟨_, _, _, hx, hm⟩ := ha
    obtain ⟨e, hs, hf, -⟩ :=
      h.complete.selects_of_asks h.valid hdeclares hc hx hm
    have he := Registry.mem_collect.mpr (hs.mono hu)
    obtain ⟨group, hg, hk⟩ := FieldGroup.exists_mem_ofList he
    have hin : e ∈ group.entries := (FieldGroup.mem_entries hg).mpr ⟨he, hk.symm⟩
    have ht : e.field.type.name = decl.type.name := by
      rcases h.typed hp ho he with ⟨-, -, hno⟩ | ⟨-, other, hot, hco, -, -⟩
      · rw [hf.inner, if_neg hi] at hno
        exact absurd hno (h.complete.bindSet_ne_nil (hf.clean hi) hi)
      · rw [hf.name, hd, some.injEq] at hot
        rw [hot, TypeRef.name_of_isCovariant hco]
    have hc' : scope.Clean decl.type.name inner := ht ▸ hf.clean hi
    have hb : (scope.bindSet decl.type.name inner).1 ⊆ group.selections := by
      intro bound hbo
      refine mem_flatMap.mpr ⟨e, hin, ?_⟩
      rwa [hf.inner, if_neg hi, ht]
    have hne : group.selections ≠ [] := by
      obtain ⟨bound, hbo⟩ := exists_mem_of_ne_nil _ (h.complete.bindSet_ne_nil hc' hi)
      exact ne_nil_of_mem (hb hbo)
    have hn := Registry.Place.field hp ho hg hne
    rw [(h.same_first hp ho hg hin).2, ht, hk, hf.key] at hn
    exact ⟨hc', group.selections, hn, hb⟩

theorem Accepts.exists_written (hm : ∀ bound ∈ merged, ∃ set,
      scope.registry.Requested fragments op.root defn.selections path type set ∧ bound ∈ (scope.bindSet type set).1)
    {e : Collected} (he : e ∈ scope.registry.collect obj merged) :
    ∃ set, scope.registry.Requested fragments op.root defn.selections path type set ∧
      ∃ isCond type' set', scope.registry.Expands fragments obj type set isCond type' set' ∧
          scope.WrittenIn isCond type' set' e := by
  obtain ⟨bound, hb, hs⟩ := (Registry.mem_collect.mp he).exists_member
  obtain ⟨set, hse, hme⟩ := hm bound hb
  have hc := (h.place_of_requested hdeclares hse).1
  exact ⟨set, hse, h.complete.exists_expands h.valid hdeclares hc (hs _ hme) .self⟩

theorem Accepts.requested_of_place
    (hp : scope.registry.Place op.root op.selections path type merged) : ∀ bound ∈ merged, ∃ set,
      scope.registry.Requested fragments op.root defn.selections path type set ∧
        bound ∈ (scope.bindSet type set).1 := by
  induction hp with
  | root => exact fun bound hb => ⟨_, .root, by rwa [← h.selections]⟩
  | @field _ type obj _ group hp ho hg _ ih =>
    intro bound hb
    obtain ⟨e, hin, hb⟩ := mem_flatMap.mp hb
    obtain ⟨he, hk⟩ := (FieldGroup.mem_entries hg).mp hin
    obtain ⟨set, hs, _, _, _, hex, hw⟩ := h.exists_written hdeclares ih he
    rcases hw with ⟨head, inner, hm, hf, -⟩ | ⟨-, loc, rfl⟩
    · have hi : inner ≠ [] := by
        rintro rfl
        rw [hf.inner] at hb
        cases hb
      rcases h.typed hp ho he with ⟨-, -, hno⟩ | ⟨-, decl, hd, hc, -, -⟩
      · rw [hno] at hb
        cases hb
      · rw [hf.name] at hd
        have hn := Registry.Requested.field hs ho ⟨_, _, _, hex, hm⟩ hd hi
        rw [TypeRef.name_of_isCovariant hc, ← (h.same_first hp ho hg hin).2, ← hf.key, hk] at hn
        rw [hf.inner, if_neg hi] at hb
        exact ⟨inner, hn, by rwa [(h.same_first hp ho hg hin).2]⟩
    · cases hb

theorem Accepts.exists_requested (hp : scope.registry.Place op.root op.selections path type merged) :
    ∃ set, scope.registry.Requested fragments op.root defn.selections path type set := by
  have hm := h.requested_of_place hdeclares hp
  cases hp with
  | root => exact ⟨_, .root⟩
  | field _ _ _ hb =>
    obtain ⟨bound, ho⟩ := exists_mem_of_ne_nil _ hb
    exact (hm bound ho).imp fun _ hs => hs.1

end Scope

theorem declares_of_isOk {srcs : List Source} (ho : (analyze srcs).isOk) :
    (Source.scope srcs).Declares ((Source.documents srcs).flatMap Document.fragments) := by
  have hc := (Bindings.ofDocuments_clean.mp (isOk_iff.mp ho).2).1
  simp only [Scope.ofDocuments, Diagnostics.append_clean] at hc
  intro name frag
  rw [declared_scope, find?_declaredFragments (repeatedFragments_clean.mp hc.1.1)]

end GraphClient
