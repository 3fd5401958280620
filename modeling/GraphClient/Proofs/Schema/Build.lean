import GraphClient.Proofs.Diagnostic
import GraphClient.Proofs.Schema.Body
import GraphClient.Proofs.Schema.Registry

/-!
# Built registries

When a registry is built without errors, and what it then holds. Both are said without an order of the
definitions.

* **`Registry.build_clean`**: when a build reports no error.
* **`Registry.type?_build`**: the types of such a build.
-/

namespace GraphClient

open List Prod TypeBody NameMap

namespace Registry

variable {reg grown : Registry}

/-! ## Runs of calls -/

section Attempts

variable {α : Type} {call : α → Action} {e : α} {rest added : List α}

theorem attemptAll_of_ok (h : reg.run (call e) = (.ok (), grown)) :
    attemptAll call reg (e :: rest) = attemptAll call grown rest := by
  rw [attemptAll, h]

theorem attemptAll_of_error {problem : Problem} (h : reg.run (call e) = (.error problem, grown)) :
    attemptAll call reg (e :: rest) =
      ((attemptAll call grown rest).1, problem.diagnostic :: (attemptAll call grown rest).2) := by
  rw [attemptAll, h]

theorem attemptAll_cons_clean : (attemptAll call reg (e :: rest)).2.hasErrors = false ↔
      ∃ grown, reg.run (call e) = (.ok (), grown) ∧ (attemptAll call grown rest).2.hasErrors = false := by
  rw [attemptAll]
  rcases reg.run (call e) with ⟨result, left⟩
  cases result with
  | ok | error problem => simp

/-- Calls that store an entry under its key, unless the key is taken. -/
structure Stores {κ : Type} (call : α → Action) (key : α → κ)
    (keys : Registry → List κ) (store : Registry → α → Registry) : Prop where
  run_ok : ∀ {r x r'}, r.run (call x) = (.ok (), r') ↔ r.isFrozen = false ∧ key x ∉ keys r ∧ r' = store r x
  mem_keys : ∀ {r x k}, k ∈ keys (store r x) ↔ k = key x ∨ k ∈ keys r
  isFrozen_store : ∀ r x, (store r x).isFrozen = r.isFrozen

variable {κ : Type} {key : α → κ} {keys : Registry → List κ} {store : Registry → α → Registry}

/-- **When a run of such calls reports no error.** -/
theorem Stores.clean_iff (h : Stores call key keys store) (hm : reg.isFrozen = false) :
    (attemptAll call reg added).2.hasErrors = false ↔
      (added.map key).Nodup ∧ ∀ x ∈ added, key x ∉ keys reg := by
  induction added generalizing reg with
  | nil => simp [attemptAll]
  | cons x rest ih =>
    rw [attemptAll_cons_clean, map_cons, nodup_cons, forall_mem_cons]
    constructor
    · rintro ⟨grown, hs, hr⟩
      obtain ⟨-, he, rfl⟩ := h.run_ok.mp hs
      obtain ⟨hn, hf⟩ := (ih ((h.isFrozen_store _ _).trans hm)).mp hr
      simp only [h.mem_keys, not_or] at hf
      refine ⟨⟨fun hme => ?_, hn⟩, he, fun y hy => (hf y hy).2⟩
      obtain ⟨y, hy, hk⟩ := mem_map.mp hme
      exact (hf y hy).1 hk
    · rintro ⟨⟨hx, hn⟩, he, hf⟩
      refine ⟨_, h.run_ok.mpr ⟨hm, he, rfl⟩, ?_⟩
      refine (ih ((h.isFrozen_store _ _).trans hm)).mpr ⟨hn, fun y hy => ?_⟩
      rw [h.mem_keys, not_or]
      exact ⟨fun hk => hx (hk ▸ mem_map_of_mem hy), hf y hy⟩

/-- **What a run of such calls yields.** -/
theorem Stores.result (h : Stores call key keys store) (hc : (attemptAll call reg added).2.hasErrors = false) :
    (attemptAll call reg added).1 = added.foldl store reg := by
  induction added generalizing reg with
  | nil => rfl
  | cons x rest ih =>
    obtain ⟨grown, hs, hr⟩ := attemptAll_cons_clean.mp hc
    rw [attemptAll_of_ok hs, ih hr]
    obtain ⟨-, -, rfl⟩ := h.run_ok.mp hs
    rfl

end Attempts

def addAll {α : Type} (name : α → String) (entries : List α) (m : NameMap α) : NameMap α :=
  (entries.map fun entry => (name entry, entry)).foldl (fun m entry => m.insert entry.1 entry.2) m

theorem not_mem_names {α : Type} {m : NameMap α} {name : String} : name ∉ m.names ↔ m.contains name = false := by
  rw [← contains_iff_mem_names, Bool.not_eq_true]

theorem declare_stores : Stores declare TypeDefinition.name (fun reg => reg.types.names)
    fun reg type => { reg with types := reg.types.insert type.name type } where
  run_ok := by
    intro r type r'
    rw [declare_ok, not_mem_names]
  mem_keys := mem_names_insert
  isFrozen_store := fun _ _ => rfl

theorem foldl_types (types : List TypeDefinition) : types.foldl (fun reg type =>
    { reg with types := reg.types.insert type.name type }) reg =
      { reg with types := addAll TypeDefinition.name types reg.types } := by
  induction types generalizing reg with
  | nil => rfl
  | cons type rest ih => exact ih

theorem declareDirective_stores : Stores declareDirective DirectiveDefinition.name (fun reg => reg.directives.names)
      fun reg dir => { reg with directives := reg.directives.insert dir.name dir } where
  run_ok := by
    intro r dir r'
    rw [declareDirective_ok, not_mem_names]
  mem_keys := mem_names_insert
  isFrozen_store := fun _ _ => rfl

theorem foldl_directives (dirs : List DirectiveDefinition) : dirs.foldl (fun reg dir =>
    { reg with directives := reg.directives.insert dir.name dir }) reg =
      { reg with directives := addAll DirectiveDefinition.name dirs reg.directives } := by
  induction dirs generalizing reg with
  | nil => rfl
  | cons dir rest ih => exact ih

/-! ## Roots -/

/-- Declares a root. -/
def takeRoot (root : OperationKind × NamedRef) : Action := setRoot root.1 root.2

def withRoots (registry : Registry) (roots : List (OperationKind × NamedRef)) : Registry :=
  { registry with roots := roots.foldl (fun rs root => insertBy rootOrder root rs) registry.roots }

theorem declaredRoot?_eq_none {kind : OperationKind} : reg.declaredRoot? kind = none ↔ kind ∉ reg.roots.map fst := by
  rw [declaredRoot?, Option.map_eq_none_iff, find?_eq_none]
  constructor
  · intro h hm
    obtain ⟨root, hr, rfl⟩ := mem_map.mp hm
    exact h root hr (beq_self_eq_true root.1)
  · intro h root hr hk
    exact h (eq_of_beq hk ▸ mem_map_of_mem hr)

variable {root : OperationKind × NamedRef} {roots : List (OperationKind × NamedRef)}
  {schemas : List SchemaDefinition} {ext : TypeDefinition} {gs : List TypeDefinition}
  (schema : Option SchemaDefinition)

theorem mem_roots_withRoots : root ∈ (reg.withRoots roots).roots ↔ root ∈ reg.roots ∨ root ∈ roots := by
  rw [withRoots]
  generalize reg.roots = found
  induction roots generalizing found with
  | nil => simp
  | cons first rest ih =>
    rw [foldl_cons, ih, insertBy_eq, mem_orderedInsert, mem_cons]
    tauto

theorem takeRoot_stores : Stores takeRoot fst (fun reg => reg.roots.map fst) fun reg root => reg.withRoots [root] where
  run_ok := by
    intro r root r'
    rw [← declaredRoot?_eq_none]
    exact setRoot_ok
  mem_keys := by
    intro r root kind
    simp only [mem_map, mem_roots_withRoots, mem_singleton, or_and_right, exists_or, exists_eq_left]
    rw [or_comm, eq_comm]
  isFrozen_store := fun _ _ => rfl

theorem withRoots_eq_foldl : reg.withRoots roots = roots.foldl (fun reg root => reg.withRoots [root]) reg := by
  induction roots generalizing reg with
  | nil => rfl
  | cons root rest ih => exact @ih (reg.withRoots [root])

/-! ## Schema blocks -/

/-- The definition among schema blocks; the others are extensions. -/
def schemaOf (schemas : List SchemaDefinition) : Option SchemaDefinition :=
  schemas.find? fun schema => !schema.isExtension

def withSchema (registry : Registry) (schema : Option SchemaDefinition) : Registry :=
  match schema with
  | none => registry
  | some schema =>
    { registry with schemaLocation := some schema.location, schemaDirectives := schema.directives }

@[simp] theorem roots_withSchema : (reg.withSchema schema).roots = reg.roots := by
  cases schema <;> rfl

@[simp] theorem isFrozen_withSchema : (reg.withSchema schema).isFrozen = reg.isFrozen := by
  cases schema <;> rfl

theorem applySchema_clean (hm : reg.isFrozen = false) {schema : SchemaDefinition} :
    (reg.applySchema schema).2.hasErrors = false ↔ (reg.schemaLocation.isSome → schema.isExtension) ∧
        (schema.roots.map fst).Nodup ∧ ∀ root ∈ schema.roots, root.1 ∉ reg.roots.map fst := by
  rw [applySchema]
  by_cases he : schema.isExtension
  · rw [if_pos he]
    exact (takeRoot_stores.clean_iff hm).trans (by simp [he])
  · rw [if_neg he]
    by_cases hs : reg.schemaLocation.isSome
    · simp [he, hs]
    · rw [if_neg hs]
      have hm' : (reg.withSchema (some schema)).isFrozen = false := hm
      have hc : (attemptAll takeRoot (reg.withSchema (some schema)) schema.roots).2.hasErrors =
          false ↔ _ := takeRoot_stores.clean_iff hm'
      exact hc.trans (by simp [hs])

theorem applySchema_eq {schema : SchemaDefinition} (hc : (reg.applySchema schema).2.hasErrors = false) :
    (reg.applySchema schema).1 = (reg.withSchema (schemaOf [schema])).withRoots schema.roots := by
  rw [applySchema] at hc ⊢
  by_cases he : schema.isExtension
  · have hn : schemaOf [schema] = none := by simp [schemaOf, he]
    rw [if_pos he] at hc ⊢
    rw [hn, withRoots_eq_foldl]
    exact takeRoot_stores.result hc
  · have ho : schemaOf [schema] = some schema := by simp [schemaOf, he]
    rw [if_neg he] at hc ⊢
    by_cases hs : reg.schemaLocation.isSome
    · rw [if_pos hs] at hc
      cases hc
    · rw [if_neg hs] at hc ⊢
      rw [ho, withRoots_eq_foldl]
      exact takeRoot_stores.result hc

/-- **When schema blocks are taken without errors**: there is at most one definition, and no operation
kind has two roots. -/
theorem applyEach_clean (hm : reg.isFrozen = false) : (reg.applyEach schemas).2.hasErrors = false ↔
      (reg.schemaLocation.isSome → ∀ schema ∈ schemas, schema.isExtension) ∧
        schemas.Pairwise (fun a b => a.isExtension ∨ b.isExtension) ∧
        ((schemas.flatMap SchemaDefinition.roots).map fst).Nodup ∧
        ∀ root ∈ schemas.flatMap SchemaDefinition.roots, root.1 ∉ reg.roots.map fst := by
  induction schemas generalizing reg with
  | nil => simp [applyEach]
  | cons schema rest ih =>
    rw [applyEach, Diagnostics.append_clean, applySchema_clean hm]
    by_cases hi : (reg.applySchema schema).2.hasErrors = false
    swap
    · constructor
      · rintro ⟨h, -⟩
        exact absurd ((applySchema_clean hm).mpr h) hi
      · rintro ⟨hon, hp, hn, hf⟩
        refine absurd ((applySchema_clean hm).mpr ⟨fun h => hon h schema mem_cons_self, ?_,
          fun root hr => hf root (mem_flatMap.mpr ⟨schema, mem_cons_self, hr⟩)⟩) hi
        rw [flatMap_cons, map_append, nodup_append] at hn
        exact hn.1
    have hg := applySchema_eq hi
    have hm' : (reg.applySchema schema).1.isFrozen = false := by
      rw [hg]
      exact (isFrozen_withSchema _).trans hm
    have hl : (reg.applySchema schema).1.schemaLocation.isSome ↔
        reg.schemaLocation.isSome ∨ schema.isExtension = false := by
      rw [hg]
      change (reg.withSchema (schemaOf [schema])).schemaLocation.isSome ↔ _
      by_cases he : schema.isExtension <;> simp [schemaOf, withSchema, he]
    have hro : ∀ kind, kind ∉ (reg.applySchema schema).1.roots.map fst ↔
        kind ∉ reg.roots.map fst ∧ kind ∉ schema.roots.map fst := by
      intro kind
      rw [hg, ← not_or, mem_map, mem_map, mem_map]
      simp [mem_roots_withRoots, exists_or]
    rw [ih hm', pairwise_cons, flatMap_cons, map_append, nodup_append]
    simp only [hl, hro, mem_append, forall_mem_cons]
    constructor
    · rintro ⟨⟨hon, hn, hf⟩, hre, hp, hn', hf'⟩
      refine ⟨fun h => ⟨hon h, hre (Or.inl h)⟩, ⟨fun other ho => ?_, hp⟩, ⟨hn, hn', ?_⟩, ?_⟩
      · by_cases he : schema.isExtension
        · exact Or.inl he
        · exact Or.inr (hre (Or.inr (by simpa using he)) other ho)
      · intro kind hk other ho hq
        obtain ⟨root, hr, rfl⟩ := mem_map.mp ho
        exact (hf' root hr).2 (hq ▸ hk)
      · rintro root (hr | hr)
        · exact hf root hr
        · exact (hf' root hr).1
    · rintro ⟨hon, ⟨ha, hp⟩, ⟨hn, hn', hd⟩, hf⟩
      refine ⟨⟨fun h => (hon h).1, hn, fun root hr => hf root (Or.inl hr)⟩, ?_, hp,
        hn', fun root hr => ⟨hf root (Or.inr hr), fun hme => ?_⟩⟩
      · rintro (h | h) other ho
        · exact (hon h).2 other ho
        · exact (ha other ho).resolve_left (by simp [h])
      · exact hd root.1 hme root.1 (mem_map_of_mem hr) rfl

theorem withRoots_withRoots (roots more : List (OperationKind × NamedRef)) :
    (reg.withRoots roots).withRoots more = reg.withRoots (roots ++ more) := by
  simp [withRoots]

theorem withSchema_withRoots (roots : List (OperationKind × NamedRef)) :
    (reg.withRoots roots).withSchema schema = (reg.withSchema schema).withRoots roots := by
  cases schema <;> rfl

/-- **What schema blocks leave behind.** -/
theorem applyEach_eq (hm : reg.isFrozen = false)
    (hc : (reg.applyEach schemas).2.hasErrors = false) : (reg.applyEach schemas).1 =
      (reg.withSchema (schemaOf schemas)).withRoots (schemas.flatMap SchemaDefinition.roots) := by
  induction schemas generalizing reg with
  | nil => rfl
  | cons schema rest ih =>
    have hp := ((applyEach_clean hm).mp hc).2.1
    rw [applyEach, Diagnostics.append_clean] at hc
    have hg := applySchema_eq hc.1
    have hm' : (reg.applySchema schema).1.isFrozen = false := by
      rw [hg]
      exact (isFrozen_withSchema _).trans hm
    rw [applyEach]
    rw [ih hm' hc.2, hg, withSchema_withRoots, withRoots_withRoots]
    by_cases he : schema.isExtension
    · simp [schemaOf, withSchema, he]
    · have hr : schemaOf rest = none := by
        rw [schemaOf, find?_eq_none]
        intro other ho
        simp [((pairwise_cons.mp hp).1 other ho).resolve_left he]
      rw [hr]
      simp [schemaOf, withSchema, he]

/-! ## Extensions -/

/-- A type with an extension merged into it, if it is of the same kind. -/
def mergeOne (type extension : TypeDefinition) : TypeDefinition :=
  match type.body.append? extension.body.sorted with
  | some body => merged type extension body
  | none => type

theorem kind_mergeOne (type ext : TypeDefinition) : (mergeOne type ext).kind = type.kind := by
  rw [mergeOne]
  split
  · next body hb => exact (append?_eq_some hb).1
  · rfl

theorem extend_step (h : reg.run (extend ext) = (.ok (), grown)) (name : String) :
    grown.type? name = (reg.type? name).map fun type =>
      if ext.name = name then mergeOne type ext else type := by
  obtain ⟨-, base, body, hb, ho, rfl⟩ := extend_ok.mp h
  rw [type?, find?_insert]
  by_cases hn : ext.name = name
  · rw [← hn, hb]
    simp [mergeOne, ho]
  · simp only [if_neg hn, Option.map_id']
    rfl

theorem extend_keeps (h : reg.run (extend ext) = (.ok (), grown)) :
    grown.isFrozen = reg.isFrozen ∧ (∀ name, grown.kind? name = reg.kind? name) ∧
      ∃ types, grown = { reg with types } := by
  refine ⟨?_, fun name => ?_, ?_⟩
  · obtain ⟨-, base, body, -, -, rfl⟩ := extend_ok.mp h
    rfl
  · rw [kind?, extend_step h, Option.map_map]
    congr 1
    funext type
    split_ifs
    · exact kind_mergeOne type ext
    · rfl
  · obtain ⟨-, base, body, -, -, rfl⟩ := extend_ok.mp h
    exact ⟨_, rfl⟩

/-- What is wrong with an extension that finds no type of its kind. -/
def strayProblem? (registry : Registry) (extension : TypeDefinition) : Option Problem :=
  match registry.kind? extension.name with
  | none => some (.unknownType extension.name extension.location)
  | some kind =>
    if kind = extension.kind then none
    else some (.kindMismatch extension.name ("an extension of " ++ kind.text) extension.kind extension.location)

theorem strayProblem?_eq_none : reg.strayProblem? ext = none ↔ reg.kind? ext.name = some ext.kind := by
  rw [strayProblem?]
  cases reg.kind? ext.name <;> simp

/-- **An extension is merged if it finds a type of its kind, and refused otherwise.** -/
theorem extend_cases (hm : reg.isFrozen = false) (ext : TypeDefinition) :
    (∃ grown, reg.run (extend ext) = (.ok (), grown) ∧ reg.strayProblem? ext = none) ∨
      ∃ problem, reg.run (extend ext) = (.error problem, reg) ∧ reg.strayProblem? ext = some problem ∧
        ∀ type, reg.type? ext.name = some type → mergeOne type ext = type := by
  rw [run_extend, hm, strayProblem?, kind?]
  cases reg.type? ext.name with
  | none =>
    refine .inr ⟨_, rfl, rfl, ?_⟩
    rintro _ ⟨⟩
  | some base =>
    have hs := @append?_isSome base.body ext.body.sorted
    rw [kind_sorted] at hs
    by_cases hk : base.kind = ext.kind
    · obtain ⟨body, hb⟩ := Option.isSome_iff_exists.mp (hs.mpr hk)
      exact .inl ⟨_, by simp only [hb]; rfl, if_pos hk⟩
    · have hb : base.body.append? ext.body.sorted = none := by
        simpa using mt hs.mp hk
      refine .inr ⟨_, by simp only [hb]; rfl, if_neg hk, ?_⟩
      rintro _ ⟨⟩
      simp only [mergeOne, hb]

/-- **What extensions leave behind**: each is merged into the type of its name, and those that find no type of their
kind are reported. -/
theorem attemptAll_extend (hm : reg.isFrozen = false) (gs : List TypeDefinition) :
    (∀ name, (attemptAll extend reg gs).1.type? name = (reg.type? name).map fun type =>
        (gs.filter fun group => group.name == name).foldl mergeOne type) ∧
      (attemptAll extend reg gs).2 = (gs.filterMap reg.strayProblem?).map Problem.diagnostic ∧
      ∃ types, (attemptAll extend reg gs).1 = { reg with types } := by
  induction gs generalizing reg with
  | nil => exact ⟨fun name => by simp [attemptAll], rfl, reg.types, rfl⟩
  | cons group rest ih =>
    rcases extend_cases hm group with ⟨grown, hs, hfi⟩ | ⟨problem, hs, hst, hme⟩
    · have hlo := extend_step hs
      obtain ⟨hf, hk, types, rfl⟩ := extend_keeps hs
      obtain ⟨ht, hr, last, hl⟩ := ih (hf.trans hm)
      rw [attemptAll_of_ok hs, filterMap_cons_none hfi]
      refine ⟨fun name => ?_, hr.trans ?_, last, hl⟩
      · rw [ht, hlo, Option.map_map]
        congr 1
        funext type
        by_cases hn : group.name = name <;> simp [hn]
      · congr 2
        funext other
        rw [strayProblem?, hk, strayProblem?]
    · obtain ⟨ht, hr, hl⟩ := ih hm
      rw [attemptAll_of_error hs, filterMap_cons_some hst, hr]
      refine ⟨fun name => ?_, rfl, hl⟩
      rw [ht]
      refine Option.map_congr fun type hty => ?_
      rw [filter_cons]
      split_ifs with hn
      · rw [foldl_cons, hme type (eq_of_beq hn ▸ hty)]
      · rfl

/-- Extensions of other kinds do not change a type. -/
theorem foldl_mergeOne (type : TypeDefinition) (gs : List TypeDefinition) :
    gs.foldl mergeOne type = (gs.filter fun group => group.kind == type.kind).foldl mergeOne type := by
  induction gs generalizing type with
  | nil => rfl
  | cons group rest ih =>
    rw [foldl_cons, ih, kind_mergeOne, filter_cons]
    split_ifs with hk
    · rfl
    · congr 1
      have hn : type.body.append? group.body.sorted = none := by
        rw [← Option.not_isSome_iff_eq_none, append?_isSome, kind_sorted]
        exact fun h => hk (beq_iff_eq.mpr h.symm)
      simp only [mergeOne, hn]

end Registry

end GraphClient
