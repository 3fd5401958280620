import GraphClient.Proofs.Order
import GraphClient.Schema.Build

/-!
# What a registry keeps while it grows

* **`Registry.run_addNew`**, **`Registry.run_extend`**: what the calls return and leave behind.
* **`Registry.named_build`**: every definition of a registry is stored under its name.
-/

namespace GraphClient

open NameMap

variable {name : String} {type : TypeDefinition}

namespace Registry

variable {reg grown : Registry}

section Calls

variable {loc : Location} {isTaken : Registry → Bool} {problem : Problem} {add : Registry → Registry}
  {ext : TypeDefinition}

theorem run_get (next : Registry → Action) : reg.run (get >>= next) = reg.run (next reg) := rfl

theorem run_ensureMutable (next : Unit → Action) : reg.run (ensureMutable name loc >>= next) =
    if reg.isFrozen then (.error (.registryFrozen name loc), reg) else reg.run (next ()) := by
  have h : reg.run (ensureMutable name loc >>= next) =
      reg.run ((if reg.isFrozen then throw (.registryFrozen name loc) else pure ()) >>= next) := rfl
  rw [h]
  cases reg.isFrozen <;> rfl

/-- **What a call that adds an entry does.** -/
theorem run_addNew : reg.run (addNew name loc isTaken problem add) =
    if reg.isFrozen then (.error (.registryFrozen name loc), reg)
    else if isTaken reg then (.error problem, reg) else (.ok (), add reg) := by
  rw [addNew, run_ensureMutable, run_get]
  cases isTaken reg <;> rfl

theorem addNew_ok : reg.run (addNew name loc isTaken problem add) = (.ok (), grown) ↔
    reg.isFrozen = false ∧ isTaken reg = false ∧ grown = add reg := by
  rw [run_addNew]
  cases reg.isFrozen <;> cases isTaken reg <;> simp [eq_comm]

theorem declare_ok : reg.run (declare type) = (.ok (), grown) ↔ reg.isFrozen = false ∧
    reg.types.contains type.name = false ∧ grown = { reg with types := reg.types.insert type.name type } := addNew_ok

theorem declareDirective_ok {dir : DirectiveDefinition} : reg.run (declareDirective dir) = (.ok (), grown) ↔
    reg.isFrozen = false ∧ reg.directives.contains dir.name = false ∧
      grown = { reg with directives := reg.directives.insert dir.name dir } := addNew_ok

theorem setRoot_ok {kind : OperationKind} {root : NamedRef} : reg.run (setRoot kind root) = (.ok (), grown) ↔
    reg.isFrozen = false ∧ reg.declaredRoot? kind = none ∧
      grown = { reg with roots := insertBy rootOrder (kind, root) reg.roots } :=
  addNew_ok.trans (by simp)

/-- A type with an extension merged into it, which has the given body. -/
def merged (base extension : TypeDefinition) (body : TypeBody) : TypeDefinition :=
  { base with body, directives := base.directives ++ DirectiveUse.sorted extension.directives }

/-- **What an extension does.** -/
theorem run_extend : reg.run (extend ext) =
    if reg.isFrozen then (.error (.registryFrozen ext.name ext.location), reg)
    else match reg.type? ext.name with
      | none => (.error (.unknownType ext.name ext.location), reg)
      | some base =>
        match base.body.append? ext.body.sorted with
        | none => (.error (.kindMismatch ext.name ("an extension of " ++ base.kind.text) ext.kind ext.location), reg)
        | some body => (.ok (), { reg with types := reg.types.insert ext.name (merged base ext body) }) := by
  rw [extend, run_ensureMutable, run_get]
  cases reg.type? ext.name with
  | none => rfl
  | some base => cases hb : base.body.append? ext.body.sorted <;> simp only [hb] <;> rfl

theorem extend_ok : reg.run (extend ext) = (.ok (), grown) ↔ reg.isFrozen = false ∧ ∃ base body,
    reg.type? ext.name = some base ∧ base.body.append? ext.body.sorted = some body ∧
      grown = { reg with types := reg.types.insert ext.name (merged base ext body) } := by
  rw [run_extend]
  cases reg.isFrozen with
  | true => simp
  | false =>
    cases reg.type? ext.name with
    | none => simp
    | some base => cases hb : base.body.append? ext.body.sorted <;> simp [hb, eq_comm]

/-- **A call that changes nothing when it fails.** -/
def Action.Atomic (action : Action) : Prop :=
  ∀ {registry left : Registry} {problem : Problem}, registry.run action = (.error problem, left) → left = registry

theorem atomic_addNew : (addNew name loc isTaken problem add).Atomic := by
  intro reg left _ h
  rw [run_addNew] at h
  split_ifs at h <;> cases h <;> rfl

theorem atomic_extend (ext : TypeDefinition) : (extend ext).Atomic := by
  intro reg left _ h
  rw [run_extend] at h
  split at h
  · cases h; rfl
  · cases ht : reg.type? ext.name with
    | none => rw [ht] at h; cases h; rfl
    | some base => cases hb : base.body.append? ext.body.sorted <;> simp only [ht, hb] at h <;> cases h; rfl

end Calls

variable {P : Registry → Prop}

/-- **What calls keep when they succeed, a run keeps**, if they change nothing when they fail. -/
theorem attemptAll_keeps {α : Type} {call : α → Action} (ha : ∀ x, (call x).Atomic)
    (hs : ∀ {r r' : Registry} {x : α}, r.run (call x) = (.ok (), r') → P r → P r') (es : List α)
    (h : P reg) : P (attemptAll call reg es).1 := by
  induction es generalizing reg with
  | nil => exact h
  | cons e rest ih =>
    rw [attemptAll]
    rcases hr : reg.run (call e) with ⟨result, left⟩
    cases result with
    | ok => exact ih (hs hr h)
    | error problem =>
      rw [ha e hr]
      exact ih h

section

variable (hroot : ∀ {r r' : Registry} {kind root}, r.run (setRoot kind root) = (.ok (), r') → P r → P r')
  (hschema : ∀ {r : Registry} (loc directives), P r →
    P { r with schemaLocation := some loc, schemaDirectives := directives })

include hroot hschema

theorem applySchema_keeps (sch : SchemaDefinition) (h : P reg) : P (reg.applySchema sch).1 := by
  rw [applySchema]
  split_ifs
  · exact attemptAll_keeps (fun _ => atomic_addNew) hroot _ h
  · exact h
  · exact attemptAll_keeps (fun _ => atomic_addNew) hroot _ (hschema _ _ h)

theorem applyEach_keeps (schs : List SchemaDefinition) (h : P reg) : P (reg.applyEach schs).1 := by
  induction schs generalizing reg with
  | nil => exact h
  | cons sch rest ih => exact ih (applySchema_keeps hroot hschema sch h)

end

/-- Every definition is stored under its own name, in the order of names. -/
structure Named (registry : Registry) : Prop where
  types_sorted : registry.types.Sorted
  types_named : ∀ entry ∈ registry.types, entry.2.name = entry.1
  directives_sorted : registry.directives.Sorted
  directives_named : ∀ entry ∈ registry.directives, entry.2.name = entry.1

theorem Named.name_eq (h : reg.Named) (ht : reg.type? name = some type) : type.name = name :=
  h.types_named _ (mem_of_find? ht)

theorem Named.freeze (h : reg.Named) : reg.freeze.Named :=
  ⟨h.types_sorted, h.types_named, h.directives_sorted, h.directives_named⟩

theorem Named.possibleTypes_cases {type obj : String} (h : reg.Named)
    (ho : obj ∈ reg.possibleTypes type) : reg.kind? type = some .object ∧ obj = type ∨
      ∃ kind, reg.kind? type = some kind ∧ kind.isAbstract := by
  rw [possibleTypes] at ho
  cases ht : reg.type? type with
  | none => simp [ht] at ho
  | some defn =>
    have hk : reg.kind? type = some defn.body.kind := by rw [kind?, ht]; rfl
    rw [hk]
    cases hb : defn.body with
    | object => exact Or.inl ⟨rfl, by simpa [ht, hb, h.name_eq ht] using ho⟩
    | interface | union => exact Or.inr ⟨_, rfl, rfl⟩
    | scalar | enum | inputObject => simp [ht, hb] at ho

theorem named_initial : initial.Named where
  types_sorted := by unfold Sorted; decide
  types_named := by decide
  directives_sorted := by unfold Sorted; decide
  directives_named := by decide

theorem type?_initial (h : name ∈ builtinScalars) : initial.type? name = some (.builtinScalar name) := by
  revert name
  simp [builtinScalars, initial, type?, find?]

theorem builtin_of_initial (h : initial.type? name = some type) :
    name ∈ builtinScalars ∧ type = .builtinScalar name := by
  obtain ⟨scalar, hs, he⟩ := List.mem_map.mp (mem_of_find? h)
  obtain ⟨rfl, rfl⟩ := Prod.mk.inj he
  exact ⟨hs, rfl⟩

theorem Named.insert_type (h : reg.Named) : { reg with types := reg.types.insert type.name type : Registry }.Named where
  types_sorted := sorted_insert _ _ h.types_sorted
  types_named := fun e he => by
    rcases mem_insert he with rfl | he
    · rfl
    · exact h.types_named e he
  directives_sorted := h.directives_sorted
  directives_named := h.directives_named

theorem Named.declareDirective {dir : DirectiveDefinition} (h : reg.Named)
    (ho : reg.run (declareDirective dir) = (.ok (), grown)) : grown.Named := by
  obtain ⟨-, -, rfl⟩ := declareDirective_ok.mp ho
  refine ⟨h.types_sorted, h.types_named, sorted_insert _ _ h.directives_sorted, ?_⟩
  intro e he
  rcases mem_insert he with rfl | he
  · rfl
  · exact h.directives_named e he

theorem Named.declare (h : reg.Named) (ho : reg.run (declare type) = (.ok (), grown)) : grown.Named := by
  obtain ⟨-, -, rfl⟩ := declare_ok.mp ho
  exact h.insert_type

theorem Named.setRoot {kind : OperationKind} {root : NamedRef} (h : reg.Named)
    (ho : reg.run (setRoot kind root) = (.ok (), grown)) : grown.Named := by
  obtain ⟨-, -, rfl⟩ := setRoot_ok.mp ho
  exact ⟨h.types_sorted, h.types_named, h.directives_sorted, h.directives_named⟩

theorem Named.extend {ext : TypeDefinition} (h : reg.Named)
    (ho : reg.run (extend ext) = (.ok (), grown)) : grown.Named := by
  obtain ⟨-, base, body, hb, -, rfl⟩ := extend_ok.mp ho
  have hn : base.name = ext.name := h.name_eq hb
  rw [← show (merged base ext body).name = ext.name from hn]
  exact h.insert_type

theorem named_build (docs : List Document) : (build docs).1.Named := by
  refine attemptAll_keeps atomic_extend (fun ho h => .extend h ho) _ ?_
  have hs : ∀ {r : Registry}, r.Named → (r.applySchemas docs).1.Named := fun h => by
    have := applyEach_keeps (P := Named) (fun ho h => .setRoot h ho)
      (fun _ _ h => ⟨h.types_sorted, h.types_named, h.directives_sorted, h.directives_named⟩)
      (orderedSchemas docs) h
    exact ⟨this.types_sorted, this.types_named, this.directives_sorted, this.directives_named⟩
  refine hs (attemptAll_keeps (fun _ => atomic_addNew) (fun ho h => .declareDirective h ho) _ ?_)
  exact attemptAll_keeps (fun _ => atomic_addNew) (fun ho h => .declare h ho) _ named_initial

end Registry

end GraphClient
