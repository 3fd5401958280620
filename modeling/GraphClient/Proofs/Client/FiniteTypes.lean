import GraphClient.Proofs.Client.Leaves
import GraphClient.Proofs.Client.Wrapping
import Mathlib.Logic.Relation

/-!
# Types of finite size

A type that holds a value of itself in place would have no size. Values of types that can refer to each
other are boxed or in lists, the variants of a union hold the structs of object types, and a response type
holds the types of smaller shapes. So only names that are in use twice can close a circle.
-/

namespace GraphClient

open List Source Registry

namespace Rust

/-! ## Values in place -/

/-- The types whose values stand in place in a value of a type, neither boxed nor in a list. -/
def TypeExpr.held : TypeExpr → List String
  | .named name => [name]
  | .option inner => inner.held
  | .vec _ => []
  | .boxed _ => []

/-- The type that an item declares, if any, with the types that its values hold in place. -/
def Item.type? : Item → Option (String × List String)
  | .alias _ name target => some (name, [target])
  | .wrapper _ name target _ _ => some (name, [target])
  | .struct _ _ name fields => some (name, fields.flatMap fun field => field.type.held)
  | .enum _ _ name variants => some (name, variants.filterMap Variant.payload)
  | _ => none

/-- Whether values of one type hold values of another in place. -/
def Holds (types : List (String × List String)) (owner part : String) : Prop :=
  ∃ parts, (owner, parts) ∈ types ∧ part ∈ parts

/-- The types that a client takes from elsewhere. -/
def foreignTypes (options : Options) : List String :=
  ["String", "i32", "f64", "bool", "serde_json::Value"] ++ options.scalars.values.map ScalarMapping.type

/-- The names of declared types differ from each other and from those of foreign types. -/
structure Apart (options : Options) (types : List (String × List String)) : Prop where
  names : (types.map Prod.fst).Nodup
  foreign : ∀ name ∈ foreignTypes options, name ∉ types.map Prod.fst

/-- No circle goes through a type: there is an end to what its values hold in place. -/
def Finite (types : List (String × List String)) (name : String) : Prop :=
  Acc (fun part owner => Holds types owner part) name

theorem held_wrap (type : TypeRef) (inner : TypeExpr) :
    (TypeExpr.wrap type inner).held = if type.isList then [] else inner.held := by
  have h : (TypeExpr.wrap type inner).held = type.wrap (fun _ => []) id inner.held :=
    TypeRef.map_wrap (f := TypeExpr.held) (fun _ => rfl) (fun _ => rfl) type inner
  rw [h, TypeRef.wrap_eq_nest, TypeRef.isList]
  cases type.elements <;> cases type.isNonNull <;> rfl

variable {types : List (String × List String)} {options : Options}

namespace Finite

theorem of_notMem {name : String} (h : name ∉ types.map Prod.fst) : Finite types name :=
  ⟨_, fun _ ⟨_, hm, _⟩ => absurd (mem_map_of_mem hm) h⟩

theorem of_mem (ha : Apart options types) {name : String} {parts : List String} (hm : (name, parts) ∈ types)
    (h : ∀ part ∈ parts, Finite types part) : Finite types name := by
  refine ⟨_, fun part ⟨others, ho, hp⟩ => h part ?_⟩
  obtain ⟨-, rfl⟩ := Prod.mk.inj (inj_on_of_nodup_map ha.names hm ho rfl)
  exact hp

end Finite

/-! ## Schema types -/

/-- The types that a value of a schema type holds in place. -/
def typeParts (target : Target) (type : TypeDefinition) : List String :=
  match type.body with
  | .scalar =>
    match target.scalar? type.name with
    | some (.mapped mapping) => [mapping.type]
    | _ => ["serde_json::Value"]
  | .enum _ => []
  | .object _ fields => fields.flatMap fun field => (recordType target field.type).held
  | .interface _ fields =>
    if (target.registry.possibleTypes type.name).isEmpty then
      fields.flatMap fun field => (recordType target field.type).held
    else (target.registry.possibleTypes type.name).map identifier
  | .union _ => (target.registry.possibleTypes type.name).map identifier
  | .inputObject fields => fields.flatMap fun field => (recordType target field.type).held

/-- A value that can be left out holds the same in place. -/
theorem held_optionalType (target : Target) (type : TypeRef) (p : Prop) [Decidable p] :
    (if p then recordType target type else optionalType target type).held = (recordType target type).held := by
  rw [optionalType]
  split_ifs <;> rfl

theorem types_typeModule (target : Target) (type : TypeDefinition) :
    (typeModule target type).items.filterMap Item.type? = [(identifier type.name, typeParts target type)] := by
  rw [typeModule, typeParts]
  cases hb : type.body with
  | scalar =>
    rcases target.scalar? type.name with _ | (_ | mapping | _)
    case some.mapped =>
      simp only [mappedScalar]
      split_ifs <;> rfl
    all_goals rfl
  | enum values => simp [enumItem, Item.type?]
  | object _ fields => simp [recordFields, Item.type?, flatMap_map]
  | interface _ fields =>
    simp only [abstractItem, hb]
    split_ifs <;> simp [recordFields, Item.type?, flatMap_map]
  | union members =>
    simp only [abstractItem, hb]
    split_ifs <;> simp_all [Item.type?]
  | inputObject fields => simp [inputItems, inputStructField, Item.type?, flatMap_map, held_optionalType]

theorem mapping_of_scalar? {target : Target} {name : String} {mapping : ScalarMapping}
    (h : target.scalar? name = some (.mapped mapping)) : target.options.scalars.find? name = some mapping := by
  rw [Target.scalar?] at h
  split_ifs at h
  split at h
  · cases h
  · split at h <;> simp_all

theorem builtin_isNative : ∀ name ∈ builtinScalars, (nativeType .rust name).isSome := by decide

theorem mem_foreignTypes {reg : Registry} {name type : String}
    (h : Target.native? ⟨.rust, reg, options⟩ name = some type) : type ∈ foreignTypes options := by
  rw [Target.native?_eq] at h
  refine mem_append_left _ ?_
  split_ifs at h
  unfold nativeType at h
  split at h <;> simp_all

/-- The types that a value of a response type holds in place. -/
def planParts (target : Target) : ShapePlan → List String
  | .object plan => plan.ownFields.flatMap fun field => (planFieldType target field).held
  | .union plan => plan.variants.map Prod.snd

theorem types_operationModule (target : Target) (op : BoundOperation) (document root : String)
    (plans : List ShapePlan) : (operationModule target op document root plans).items.filterMap Item.type? =
      (op.name ++ "Variables", op.parameters.flatMap fun entry => (recordType target entry.type).held) ::
        plans.map fun plan => (plan.name, planParts target plan) := by
  have hp : Item.type? ∘ planItem target = some ∘ fun plan => (plan.name, planParts target plan) := by
    funext plan
    cases plan <;> simp [planItem, Item.type?, planParts, ShapePlan.name, flatMap_map]
  simp [operationModule, Item.type?, filterMap_cons, flatMap_map, filterMap_map, variableField, held_optionalType, hp]

section Types

variable {srcs : List Source} (hids : ∀ source ∈ srcs, source.id ≠ Location.builtinSource)
  (hok : (analyze srcs).isOk) (ha : Apart options types)
  (hu : ∀ type ∈ (registry srcs).userTypes,
    (identifier type.name, typeParts ⟨.rust, registry srcs, options⟩ type) ∈ types)

include ha hu

theorem finite_leafType {type : TypeDefinition} (ht : type ∈ (registry srcs).userTypes)
    (hk : type.kind = .scalar ∨ type.kind = .enum) : Finite types (identifier type.name) := by
  refine .of_mem ha (hu type ht) fun part hp => .of_notMem (ha.foreign part ?_)
  rw [typeParts] at hp
  cases hb : type.body with
  | scalar =>
    rw [hb] at hp
    rcases hs : Target.scalar? ⟨.rust, registry srcs, options⟩ type.name with _ | (_ | mapping | _)
    case some.mapped =>
      simp only [hs, mem_singleton] at hp
      exact hp ▸ mem_append_right _ (mem_map_of_mem (mem_map_of_mem (NameMap.mem_of_find? (mapping_of_scalar? hs))))
    all_goals simp_all [foreignTypes]
  | enum values =>
    rw [hb] at hp
    cases hp
  | _ => simp [TypeDefinition.kind, hb, TypeBody.kind] at hk

include hids hok

theorem finite_leaf {name : String} (h : (registry srcs).IsLeaf name) : Finite types
    ((Target.native? ⟨.rust, registry srcs, options⟩ name).getD (identifier name)) := by
  cases hn : Target.native? ⟨.rust, registry srcs, options⟩ name with
  | some type => exact .of_notMem (ha.foreign type (mem_foreignTypes hn))
  | none =>
    have hb : name ∉ builtinScalars := fun hb => by
      have hs := builtin_isNative name hb
      rw [Target.native?_eq, if_pos (kind?_builtin hok hb)] at hn
      simp [hn] at hs
    rcases h with h | h
    all_goals
      obtain ⟨type, ht, rfl, hk⟩ := (mem_userTypes_or_builtin hids hok h).resolve_right fun h => hb h.1
      exact finite_leafType ha hu ht (by simp [hk])

theorem finite_recordType {type : TypeRef} {ok : TypeKind → Bool} (h : (registry srcs).HasKind ok type.name) :
    ∀ part ∈ (recordType ⟨.rust, registry srcs, options⟩ type).held, Finite types part := by
  obtain ⟨kind, hk, -⟩ := h
  rw [recordType, held_wrap]
  split_ifs with hl hb
  · simp
  · simp [TypeExpr.held]
  · have hk : (registry srcs).IsLeaf type.name := by
      cases kind <;> simp_all [isBoxed, IsLeaf]
    simpa [namedType, TypeExpr.held] using finite_leaf hids hok ha hu hk

theorem finite_fields {impls : List NamedRef} {fields : List FieldDefinition}
    (h : (registry srcs).FieldedWellFormed impls fields) :
    ∀ part ∈ fields.flatMap fun field => (recordType ⟨.rust, registry srcs, options⟩ field.type).held,
      Finite types part :=
  forall_mem_flatMap.mpr fun field hf => finite_recordType hids hok ha hu (h.kinds field hf)

theorem finite_possible {type obj : String} (h : obj ∈ (registry srcs).possibleTypes type) :
    Finite types (identifier obj) := by
  have hv := valid_of_passed hids (passed_of_isOk hok)
  obtain ⟨defn, hd, rfl, hk⟩ := (mem_userTypes_or_builtin hids hok (hv.named.kind?_of_possible h)).resolve_right
    fun h => by cases h.2
  have hw := hv.wellFormed.types defn (mem_of_mem_filter hd)
  refine .of_mem ha (hu defn hd) ?_
  rw [typeParts]
  cases hb : defn.body with
  | object impls fields =>
    rw [hb] at hw
    exact finite_fields hids hok ha hu hw
  | _ => simp [TypeDefinition.kind, hb, TypeBody.kind] at hk

/-- **Schema types are finite.** -/
theorem finite_type {type : TypeDefinition} (h : type ∈ (registry srcs).userTypes) :
    Finite types (identifier type.name) := by
  have hw := (valid_of_passed hids (passed_of_isOk hok)).wellFormed.types type (mem_of_mem_filter h)
  have hp : ∀ part ∈ ((registry srcs).possibleTypes type.name).map identifier, Finite types part :=
    forall_mem_map.mpr fun _ ho => finite_possible hids hok ha hu ho
  have hm := hu type h
  cases hb : type.body with
  | scalar => exact finite_leafType ha hu h (.inl (congrArg TypeBody.kind hb))
  | enum values => exact finite_leafType ha hu h (.inr (congrArg TypeBody.kind hb))
  | object _ fields =>
    simp only [typeParts, hb] at hw hm
    exact .of_mem ha hm (finite_fields hids hok ha hu hw)
  | interface _ fields =>
    simp only [typeParts, hb] at hw hm
    split_ifs at hm
    · exact .of_mem ha hm (finite_fields hids hok ha hu hw)
    · exact .of_mem ha hm hp
  | union members =>
    simp only [typeParts, hb] at hm
    exact .of_mem ha hm hp
  | inputObject fields =>
    simp only [typeParts, hb] at hw hm
    exact .of_mem ha hm
      (forall_mem_flatMap.mpr fun input hi => finite_recordType hids hok ha hu (hw.2.kinds input hi))

/-! ## Response types -/

/-- **Response types are finite**, by induction on the shape that they are planned from. -/
theorem finite_plan {plans : List ShapePlan}
    (hp : ∀ plan ∈ plans, (plan.name, planParts ⟨.rust, registry srcs, options⟩ plan) ∈ types)
    (hc : ∀ plan ∈ plans, ∀ e ∈ plan.entries, e.Stands (registry srcs) plans)
    (shape : ResultShape) : ∀ plan ∈ plans, plan.PlannedFrom plans shape → Finite types plan.name := by
  induction hs : sizeOf shape using Nat.strong_induction_on generalizing shape with
  | _ size ih =>
  subst hs
  have ho : ∀ plan, .object plan ∈ plans → ShapePlan.PlannedFrom plans shape (.object plan) →
      Finite types plan.name := by
    intro plan hm hf
    refine .of_mem ha (hp _ hm) (forall_mem_flatMap.mpr fun e he => ?_)
    have he : e ∈ plan.fields := plan.ownFields_sublist.subset he
    have hi : ∃ name, planFieldType ⟨.rust, registry srcs, options⟩ e = .wrap e.field.type (.named name) ∧
        Finite types name := by
      rw [planFieldType]
      rcases hc _ hm e he with ⟨hn, hl⟩ | ⟨inner, hi, other, hot, hn, hof⟩
      · exact ⟨_, by rw [hn]; rfl, finite_leaf hids hok ha hu hl⟩
      · obtain ⟨obj, hd⟩ := hf.describes he
        exact ⟨_, by rw [hn], ih _ (hd.sizeOf_lt hi) inner rfl other hot (.inl hof)⟩
    obtain ⟨name, hw, hn⟩ := hi
    rw [hw, held_wrap]
    split_ifs
    · exact fun _ h => absurd h not_mem_nil
    · exact forall_mem_singleton.mpr hn
  intro plan hm hf
  cases plan with
  | object plan => exact ho plan hm hf
  | union plan =>
    refine .of_mem ha (hp _ hm) fun name hn => ?_
    obtain ⟨inner, hi, rfl, hv⟩ := hf.union.exists_variant hn
    exact ho inner hi hv

end Types

/-! ## Clients -/

/-- The types of the files of a client. -/
def declaredTypes (sources : List Source) (options : Options) (taken : TakenNames) : List (String × List String) :=
  (planFiles (analyze sources).declarations taken).flatMap fun file => (file.rustModule
    ⟨.rust, (analyze sources).registry, options⟩ (analyze sources).fragments).items.filterMap Item.type?

theorem finite_declaredTypes {srcs : List Source} (hids : ∀ source ∈ srcs, source.id ≠ Location.builtinSource)
    (hok : (analyze srcs).isOk) {taken : TakenNames} (hd : declaredTypes srcs options taken = types)
    (ha : Apart options types) (name : String) : Finite types name := by
  have hr := registry_of_passed (passed_of_isOk hok)
  rw [declaredTypes, hr] at hd
  have hm : ∀ file ∈ planFiles (analyze srcs).declarations taken, ∀ entry ∈ (file.rustModule
      ⟨.rust, registry srcs, options⟩ (analyze srcs).fragments).items.filterMap Item.type?, entry ∈ types :=
    fun file hf entry he => hd ▸ mem_flatMap.mpr ⟨file, hf, he⟩
  have ht : ∀ {type}, .type type ∈ planFiles (analyze srcs).declarations taken ↔ type ∈ (registry srcs).userTypes := by
    rw [← hr]
    exact Analysis.type_mem
  have hu : ∀ type ∈ (registry srcs).userTypes,
      (identifier type.name, typeParts ⟨.rust, registry srcs, options⟩ type) ∈ types :=
    fun type h => hm _ (ht.mpr h) _ (types_typeModule _ type ▸ mem_cons_self)
  by_cases hn : name ∈ types.map Prod.fst
  · obtain ⟨entry, he, rfl⟩ := mem_map.mp hn
    obtain ⟨file, hf, hi⟩ := mem_flatMap.mp (hd ▸ he)
    cases file with
    | type defn =>
      rw [PlannedFile.rustModule, types_typeModule, mem_singleton] at hi
      rw [hi]
      exact finite_type hids hok ha hu (ht.mp hf)
    | operation op root plans =>
      obtain ⟨ho, -, hp⟩ := operation_cases hids hok hf
      have hparts := hm _ hf
      rw [PlannedFile.rustModule, types_operationModule] at hi hparts
      obtain ⟨-, hparts⟩ := forall_mem_cons.mp hparts
      rcases mem_cons.mp hi with rfl | hi
      · refine .of_mem ha he (forall_mem_flatMap.mpr fun entry he => ?_)
        exact finite_recordType hids hok ha hu (isInput_of_mem_parameters hok ho he)
      · obtain ⟨plan, hpl, rfl⟩ := mem_map.mp hi
        obtain ⟨⟨shape, hs⟩, -⟩ := hp plan hpl
        exact finite_plan hids hok ha hu (forall_mem_map.mp hparts) (fun plan h => (hp plan h).2) shape plan hpl hs
  · exact .of_notMem hn

/-- **No type of a client holds a value of itself in place**, through others or directly, if the names of its
types differ from each other and from those of native types and the targets of scalars. -/
theorem finite_of_apart (sources : List Source) (hids : ∀ source ∈ sources, source.id ≠ Location.builtinSource)
    (options : Options) {client : GeneratedClient} (hgenerate : generate (analyze sources) options .rust = .ok client) :
    let target : Target := ⟨.rust, (analyze sources).registry, options⟩
    ∃ taken, reservedNames (analyze sources).declarations = .ok taken ∧
      client.files.map GeneratedFile.contents = ((planFiles (analyze sources).declarations taken).map fun file =>
          (file.rustModule target (analyze sources).fragments).text) ++
        [target.supportFile.contents, (target.indexFile (analyze sources).declarations).contents] ∧
      (Apart options (declaredTypes sources options taken) →
        ∀ name, ¬Relation.TransGen (Holds (declaredTypes sources options taken)) name name) := by
  obtain ⟨hok, taken, hreserved, -, hfiles⟩ := generate_eq_ok hgenerate
  refine ⟨taken, hreserved, ?_, fun hapart name hcircle => ?_⟩
  · rw [hfiles, map_append, map_map]
    refine congrArg (· ++ _) (map_congr_left fun file _ => ?_)
    cases file <;> rfl
  have hwf : WellFounded fun part owner => Holds _ owner part := ⟨finite_declaredTypes hids hok rfl hapart⟩
  exact hwf.transGen.irrefl.irrefl name (Relation.transGen_swap.mp hcircle)

/-- Types, inputs, a union and a query that refer to each other in circles. -/
def circleSources : List Source := number [("circle",
  "type Query\x7ba:A!\x7dtype A\x7bu:U! q:Query! n:Int\x7dunion U=A|Query input I\x7bi:I d:[D!]! j:I!\x7dscalar D
   query Q($i:I)\x7ba\x7bu\x7b...on A\x7bn\x7d\x7d\x7d\x7d")]

instance (options : Options) (types : List (String × List String)) : Decidable (Apart options types) :=
  decidable_of_iff ((types.map Prod.fst).Nodup ∧ ∀ name ∈ foreignTypes options, name ∉ types.map Prod.fst)
    ⟨fun h => ⟨h.1, h.2⟩, fun h => ⟨h.names, h.foreign⟩⟩

theorem finite_of_apart_circle : ∃ client taken, generate (analyze circleSources) {} .rust = .ok client ∧
    reservedNames (analyze circleSources).declarations = .ok taken ∧
    ∀ name, ¬Relation.TransGen (Holds (declaredTypes circleSources {} taken)) name name := by
  have hgenerated : (generate (analyze circleSources) {} .rust).isOk := by decide +kernel
  have hapart : ∀ taken ∈ (reservedNames (analyze circleSources).declarations).toOption,
      Apart {} (declaredTypes circleSources {} taken) := by decide +kernel
  obtain ⟨client, hgenerate⟩ := exists_client hgenerated
  obtain ⟨taken, hreserved, -, hfinite⟩ := finite_of_apart circleSources (by decide +kernel) {} hgenerate
  rw [hreserved] at hapart
  exact ⟨client, taken, hgenerate, hreserved, hfinite (hapart taken rfl)⟩

/-- A type that is named like a native one. -/
def nativeSources : List Source := number [("native", "type Query\x7ba:i32\x7dtype i32\x7bx:Int\x7d")]

/-- **A type can hold a value of itself**: the struct `i32` has a field for a number, whose type has its name. -/
theorem infinite_i32 : ∃ client taken, generate (analyze nativeSources) {} .rust = .ok client ∧
    reservedNames (analyze nativeSources).declarations = .ok taken ∧
    Relation.TransGen (Holds (declaredTypes nativeSources {} taken)) "i32" "i32" := by
  have hgenerated : (generate (analyze nativeSources) {} .rust).isOk := by decide +kernel
  have hheld : ∀ taken ∈ (reservedNames (analyze nativeSources).declarations).toOption,
      ("i32", ["i32"]) ∈ declaredTypes nativeSources {} taken := by decide +kernel
  obtain ⟨client, hgenerate⟩ := exists_client hgenerated
  obtain ⟨-, taken, hreserved, -⟩ := generate_eq_ok hgenerate
  rw [hreserved] at hheld
  exact ⟨client, taken, hgenerate, hreserved, .single ⟨_, hheld taken rfl, mem_cons_self⟩⟩

end Rust

end GraphClient
