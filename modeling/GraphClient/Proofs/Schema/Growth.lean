import GraphClient.Proofs.Schema.Build

/-!
# Registries over time

A registry is changed by calls alone, and a call that fails changes nothing. So every state that calls lead
to is the built-in one with something added.
-/

namespace GraphClient

open List Option Function

/-! ## Growth -/

/-- **A type keeps what it is, and its lists grow at their ends.** -/
structure TypeDefinition.GrowsInto (earlier later : TypeDefinition) : Prop where
  name : later.name = earlier.name
  description : later.description = earlier.description
  location : later.location = earlier.location
  kind : later.kind = earlier.kind
  directives : earlier.directives <+: later.directives
  refs : earlier.body.refs <+: later.body.refs
  fields : earlier.body.fields <+: later.body.fields
  values : earlier.body.values <+: later.body.values
  inputs : earlier.body.inputs <+: later.body.inputs

namespace TypeDefinition.GrowsInto

theorem refl (type : TypeDefinition) : type.GrowsInto type :=
  ⟨rfl, rfl, rfl, rfl, prefix_rfl, prefix_rfl, prefix_rfl, prefix_rfl, prefix_rfl⟩

theorem trans {a b c : TypeDefinition} (ha : a.GrowsInto b) (hb : b.GrowsInto c) : a.GrowsInto c where
  name := hb.name.trans ha.name
  description := hb.description.trans ha.description
  location := hb.location.trans ha.location
  kind := hb.kind.trans ha.kind
  directives := ha.directives.trans hb.directives
  refs := ha.refs.trans hb.refs
  fields := ha.fields.trans hb.fields
  values := ha.values.trans hb.values
  inputs := ha.inputs.trans hb.inputs

end TypeDefinition.GrowsInto

namespace Registry

/-- **A later state keeps the types, directives and roots of an earlier one**, and all of a frozen one. -/
structure GrowsInto (earlier later : Registry) : Prop where
  types : ∀ {name type}, earlier.type? name = some type → ∃ grown, later.type? name = some grown ∧ type.GrowsInto grown
  directives : ∀ {name directive}, earlier.directive? name = some directive → later.directive? name = some directive
  roots : ∀ {kind root}, earlier.declaredRoot? kind = some root → later.declaredRoot? kind = some root
  frozen : earlier.isFrozen → later = earlier

variable {reg grown : Registry}

theorem GrowsInto.refl (reg : Registry) : reg.GrowsInto reg :=
  ⟨fun h => ⟨_, h, .refl _⟩, id, id, fun _ => rfl⟩

theorem GrowsInto.trans {a b c : Registry} (ha : a.GrowsInto b) (hb : b.GrowsInto c) : a.GrowsInto c where
  types := fun h => by
    obtain ⟨middle, hm, he⟩ := ha.types h
    obtain ⟨last, hl, hla⟩ := hb.types hm
    exact ⟨last, hl, he.trans hla⟩
  directives := fun h => hb.directives (ha.directives h)
  roots := fun h => hb.roots (ha.roots h)
  frozen := fun h => by
    obtain rfl := ha.frozen h
    exact hb.frozen h

/-! ## Calls -/

/-- The calls that can change a registry. -/
inductive Call
  | declare (type : TypeDefinition)
  | extend (extension : TypeDefinition)
  | declareDirective (directive : DirectiveDefinition)
  | setRoot (kind : OperationKind) (root : NamedRef)
  | freeze

/-- The name and place of what a call adds. -/
def Call.subject? : Call → Option (String × Location)
  | .declare type => some (type.name, type.location)
  | .extend extension => some (extension.name, extension.location)
  | .declareDirective directive => some (directive.name, directive.location)
  | .setRoot _ root => some (root.name, root.location)
  | .freeze => none

/-- What a call does. -/
def Call.action : Call → Action
  | .declare type => Registry.declare type
  | .extend extension => Registry.extend extension
  | .declareDirective directive => Registry.declareDirective directive
  | .setRoot kind root => Registry.setRoot kind root
  | .freeze => modify .freeze

/-- The registry that a list of calls leaves behind, whether they succeed or fail. -/
def after (registry : Registry) (calls : List Call) : Registry :=
  calls.foldl (fun current call => (current.run call.action).2) registry

/-- **When a call succeeds**: a definition or root needs a free place, an extension a type of its kind. -/
def Call.Fits (registry : Registry) : Call → Prop
  | .declare type => registry.isFrozen = false ∧ registry.type? type.name = none
  | .extend extension => registry.isFrozen = false ∧ registry.kind? extension.name = some extension.kind
  | .declareDirective directive => registry.isFrozen = false ∧ registry.directive? directive.name = none
  | .setRoot kind _ => registry.isFrozen = false ∧ registry.declaredRoot? kind = none
  | .freeze => True

/-- **What a call stores.** All else stays as it was. -/
def Call.Stored (before after : Registry) : Call → Prop
  | .declare type => after.type? = update before.type? type.name (some type) ∧
    { after with types := before.types } = before
  | .extend extension => (∃ base grown, before.type? extension.name = some base ∧ Grown [extension] base grown ∧
      after.type? = update before.type? extension.name (some grown)) ∧
    { after with types := before.types } = before
  | .declareDirective directive =>
    after.directive? = update before.directive? directive.name (some directive) ∧
      { after with directives := before.directives } = before
  | .setRoot kind root => after.declaredRoot? = update before.declaredRoot? kind (some root) ∧
    { after with roots := before.roots } = before
  | .freeze => after = { before with isFrozen := true }

/-- **What a call does to a registry**: it stores its entry if it fits, and leaves all as it was if it fails. -/
structure Call.Outcome (registry : Registry) (call : Call) : Prop where
  succeeds : (∃ left, registry.run call.action = (.ok (), left)) ↔ call.Fits registry
  stored : ∀ {left}, registry.run call.action = (.ok (), left) → call.Stored registry left
  failed : ∀ {problem left}, registry.run call.action = (.error problem, left) → left = registry

variable {call : Call}

theorem atomic_action (call : Call) : call.action.Atomic := by
  cases call with
  | declare | declareDirective | setRoot => exact atomic_addNew
  | extend ext => exact atomic_extend ext
  | freeze => rintro reg left problem ⟨⟩

theorem run_frozen (h : reg.isFrozen) {name : String} {loc : Location} (hs : call.subject? = some (name, loc)) :
    reg.run call.action = (.error (.registryFrozen name loc), reg) := by
  cases call <;> cases hs <;>
    simp [Call.action, declare, declareDirective, setRoot, run_addNew, run_extend, h]

theorem find?_insert_eq {α : Type} (m : NameMap α) (name : String) (v : α) :
    (m.insert name v).find? = Function.update m.find? name (some v) := by
  funext other
  rw [NameMap.find?_insert, update_apply]
  exact if_congr eq_comm rfl rfl

theorem find?_insertBy {α : Type} {cmp : α → α → Ordering} {p : α → Bool} {x : α} {xs : List α}
    (h : ∀ y ∈ xs, p y → p x = false) : (insertBy cmp x xs).find? p = if p x then some x else xs.find? p := by
  induction xs with
  | nil => cases hx : p x <;> simp [insertBy, hx]
  | cons y ys ih =>
    obtain ⟨hy, hys⟩ := forall_mem_cons.mp h
    rw [insertBy]
    split
    · rw [find?_cons, find?_cons, ih hys]
      cases hp : p y <;> simp_all
    · rw [find?_cons]
      cases p x <;> rfl

theorem declaredRoot?_insert {kind : OperationKind} (root : NamedRef) (hn : reg.declaredRoot? kind = none) :
    { reg with roots := insertBy rootOrder (kind, root) reg.roots : Registry }.declaredRoot? =
      update reg.declaredRoot? kind (some root) := by
  funext other
  have hk := declaredRoot?_eq_none.mp hn
  rw [update_apply, declaredRoot?, declaredRoot?, find?_insertBy fun old ho he => ?_]
  · by_cases ho : other = kind
    · simp [ho]
    · simp [ho, Ne.symm ho]
  · rw [← eq_of_beq he, beq_eq_false_iff_ne]
    rintro rfl
    exact hk (mem_map_of_mem ho)

theorem fits_iff (reg : Registry) (call : Call) :
    (∃ left, reg.run call.action = (.ok (), left)) ↔ call.Fits reg := by
  cases call with
  | declare type => simp [Call.action, declare_ok, Call.Fits, type?, NameMap.contains]
  | declareDirective dir => simp [Call.action, declareDirective_ok, Call.Fits, directive?, NameMap.contains]
  | setRoot kind root => simp [Call.action, setRoot_ok, Call.Fits]
  | freeze => exact ⟨fun _ => trivial, fun _ => ⟨_, rfl⟩⟩
  | extend ext =>
    simp only [Call.action, extend_ok, Call.Fits, kind?, exists_and_left, and_congr_right_iff]
    intro _
    cases reg.type? ext.name with
    | none => simp
    | some base =>
      have hs := @TypeBody.append?_isSome base.body ext.body.sorted
      rw [TypeBody.kind_sorted, isSome_iff_exists] at hs
      simp [← hs, TypeDefinition.kind]

theorem stored_of_ok (h : reg.run call.action = (.ok (), grown)) : call.Stored reg grown := by
  cases call with
  | declare type =>
    obtain ⟨-, -, rfl⟩ := declare_ok.mp h
    exact ⟨find?_insert_eq _ _ _, rfl⟩
  | extend ext =>
    obtain ⟨-, base, body, hb, ho, rfl⟩ := extend_ok.mp h
    exact ⟨⟨base, _, hb, (isJoin_singleton ext).grown ho, find?_insert_eq _ _ _⟩, rfl⟩
  | declareDirective dir =>
    obtain ⟨-, -, rfl⟩ := declareDirective_ok.mp h
    exact ⟨find?_insert_eq _ _ _, rfl⟩
  | setRoot kind root =>
    obtain ⟨-, hn, rfl⟩ := setRoot_ok.mp h
    exact ⟨declaredRoot?_insert root hn, rfl⟩
  | freeze => exact (congrArg Prod.snd h).symm

theorem outcome (reg : Registry) (call : Call) : call.Outcome reg :=
  ⟨fits_iff reg call, stored_of_ok, atomic_action call⟩

/-! ## Runs -/

theorem update_of_some {κ β : Type} [DecidableEq κ] {f : κ → Option β} {k x : κ} {v w : β} (hk : f k = none)
    (hx : f x = some w) : update f k (some v) x = some w := by
  rw [update_of_ne, hx]
  rintro rfl
  cases hk.symm.trans hx

theorem Grown.growsInto {ext base type : TypeDefinition} (h : Grown [ext] base type) : base.GrowsInto type :=
  ⟨h.name, h.description, h.location, h.kind, ⟨_, h.directives.symm⟩, ⟨_, h.refs.symm⟩, ⟨_, h.fields.symm⟩,
    ⟨_, h.values.symm⟩, ⟨_, h.inputs.symm⟩⟩

/-- **A call that succeeds keeps what the registry has.** -/
theorem growsInto_of_ok (h : reg.run call.action = (.ok (), grown)) : reg.GrowsInto grown := by
  have hs := stored_of_ok h
  have hf := (fits_iff reg call).mp ⟨grown, h⟩
  have hr : reg.isFrozen → grown = reg := fun hr => by
    cases hc : call.subject? with
    | some subject => cases h.symm.trans (run_frozen hr hc)
    | none =>
      cases call <;> cases hc
      rw [hs, ← hr]
  have ha : ∀ {name type}, reg.type? name = some type →
      ∃ later, reg.type? name = some later ∧ type.GrowsInto later := fun hn => ⟨_, hn, .refl _⟩
  cases call with
  | declare type =>
    obtain ⟨-, -, rfl⟩ := declare_ok.mp h
    exact ⟨fun hn => ⟨_, hs.1 ▸ update_of_some hf.2 hn, .refl _⟩, id, id, hr⟩
  | extend ext =>
    obtain ⟨⟨base, type, hb, hg, ht⟩, -⟩ := hs
    obtain ⟨-, _, _, -, -, rfl⟩ := extend_ok.mp h
    refine ⟨fun {name old} hn => ?_, id, id, hr⟩
    rw [ht, update_apply]
    split_ifs with he
    · obtain rfl := some.inj (hb.symm.trans (he ▸ hn))
      exact ⟨type, rfl, hg.growsInto⟩
    · exact ha hn
  | declareDirective dir =>
    obtain ⟨-, -, rfl⟩ := declareDirective_ok.mp h
    exact ⟨ha, fun hn => hs.1 ▸ update_of_some hf.2 hn, id, hr⟩
  | setRoot kind root =>
    obtain ⟨-, -, rfl⟩ := setRoot_ok.mp h
    exact ⟨ha, id, fun hn => hs.1 ▸ update_of_some hf.2 hn, hr⟩
  | freeze =>
    obtain rfl := hs
    exact ⟨ha, id, id, hr⟩

theorem Named.action (h : reg.Named) (ho : reg.run call.action = (.ok (), grown)) : grown.Named := by
  cases call with
  | declare type => exact h.declare ho
  | extend ext => exact h.extend ho
  | declareDirective dir => exact h.declareDirective ho
  | setRoot kind root => exact h.setRoot ho
  | freeze =>
    obtain rfl : reg.freeze = grown := congrArg Prod.snd ho
    exact h.freeze

/-- **What calls keep when they succeed, a run keeps.** -/
theorem after_keeps {P : Registry → Prop} (hs : ∀ {r r' call}, r.run (Call.action call) = (.ok (), r') → P r → P r')
    (calls : List Call) (h : P reg) : P (reg.after calls) := by
  refine calls.foldlRecOn _ h fun r hr call _ => ?_
  rcases ho : r.run call.action with ⟨result, left⟩
  cases result with
  | ok => exact hs ho hr
  | error problem => exact atomic_action call ho ▸ hr

/-- **Calls keep what the registry has.** -/
theorem growsInto_after (reg : Registry) (calls : List Call) : reg.GrowsInto (reg.after calls) :=
  after_keeps (fun ho h => h.trans (growsInto_of_ok ho)) calls (.refl reg)

theorem isFrozen_after_freeze (reg : Registry) (calls : List Call) : (reg.after (.freeze :: calls)).isFrozen := by
  have hf : reg.after (.freeze :: calls) = reg.freeze.after calls := rfl
  rw [hf, (growsInto_after reg.freeze calls).frozen rfl]
  rfl

/-- **Calls are atomic and monotone.** Behind every list of calls, the next one stores its entry if it fits and
leaves the registry as it is if it fails; behind a freeze every call that adds something is refused; definitions are
stored under their names; the built-in definitions are there; and every earlier state grows into the last one. -/
theorem calls_atomic_and_monotone (calls : List Call) : (∀ call, Call.Outcome (initial.after calls) call) ∧
    (.freeze ∈ calls → ∀ call name location, Call.subject? call = some (name, location) →
      (initial.after calls).run call.action = (.error (.registryFrozen name location), initial.after calls)) ∧
    (∀ entry ∈ (initial.after calls).types, entry.2.name = entry.1) ∧
    (∀ entry ∈ (initial.after calls).directives, entry.2.name = entry.1) ∧
    (∀ name ∈ builtinScalars, (initial.after calls).kind? name = some .scalar) ∧
    (∀ directive ∈ builtinDirectives, (initial.after calls).directive? directive.name = some directive) ∧
    ∀ before rest, calls = before ++ rest → (initial.after before).GrowsInto (initial.after calls) := by
  have hnamed : (initial.after calls).Named := after_keeps (fun hok h => .action h hok) calls named_initial
  have hgrown := growsInto_after initial calls
  refine ⟨outcome _, fun hmem call name location => ?_, hnamed.types_named, hnamed.directives_named, ?_, ?_, ?_⟩
  · obtain ⟨before, rest, rfl⟩ := append_of_mem hmem
    rw [after, foldl_append]
    exact run_frozen (isFrozen_after_freeze _ rest)
  · intro name hname
    obtain ⟨scalar, hscalar, hgrows⟩ := hgrown.types (type?_initial hname)
    rw [kind?, hscalar, map_some, hgrows.kind]
    rfl
  · intro directive hdirective
    have hbuiltin : ∀ directive ∈ builtinDirectives, initial.directive? directive.name = some directive := by
      simp [builtinDirectives, initial, directive?, NameMap.find?, DirectiveDefinition.deprecated,
        DirectiveDefinition.condition, DirectiveDefinition.specifiedBy]
    exact hgrown.directives (hbuiltin directive hdirective)
  · rintro before rest rfl
    rw [after, after, foldl_append]
    exact growsInto_after _ rest

end Registry

end GraphClient
