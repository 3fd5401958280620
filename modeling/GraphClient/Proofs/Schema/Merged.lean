import GraphClient.Proofs.Schema.Build
import GraphClient.Proofs.Schema.Reports

/-!
# Merged documents

Documents whose definitions fit together are built without errors, references apart. Their registry holds each
type with its extensions merged into it.
-/

namespace GraphClient

open List Document NameMap Prod

namespace Registry

/-! ## Groups of extensions -/

/-- The extensions of a name in all documents, by place. -/
def extensionsOf (documents : List Document) (name : String) : List TypeDefinition :=
  sortBy (fun a b => compare a.location b.location)
    ((documents.flatMap Document.extensions).filter fun extension => extension.name == name)

/-- Those of one name and kind, by place. -/
def extensionsAt (extensions : List TypeDefinition) (key : String × TypeKind) : List TypeDefinition :=
  sortBy (fun a b => compare a.location b.location)
    (extensions.filter fun extension => extensionKey extension == key)

/-- The extensions of a key, as one. -/
def groupOf (extensions : List TypeDefinition) (key : String × TypeKind) : Option TypeDefinition :=
  match extensionsAt extensions key with
  | [] => none
  | first :: rest => some (rest.foldl joinExtensions first)

def extensionKeys (extensions : List TypeDefinition) : List (String × TypeKind) :=
  (sortBy keyOrder (extensions.map extensionKey)).eraseDups

theorem extensionGroups_eq (docs : List Document) : extensionGroups docs =
      (extensionKeys (docs.flatMap extensions)).filterMap (groupOf (docs.flatMap extensions)) := rfl

variable {exts : List TypeDefinition} {key : String × TypeKind}

theorem mem_extensionKeys : key ∈ extensionKeys exts ↔ ∃ ext ∈ exts, extensionKey ext = key := by
  rw [extensionKeys, mem_eraseDups, mem_sortBy, mem_map]

theorem nodup_extensionKeys (exts : List TypeDefinition) : (extensionKeys exts).Nodup := nodup_eraseDups _

theorem mem_extensionsAt {ext : TypeDefinition} :
    ext ∈ extensionsAt exts key ↔ ext ∈ exts ∧ extensionKey ext = key := by
  rw [extensionsAt, mem_sortBy, mem_filter, beq_iff_eq]

theorem groupOf_eq_some {group : TypeDefinition} (h : groupOf exts key = some group) :
    extensionKey group = key ∧ IsJoin (extensionsAt exts key) group := by
  rw [groupOf] at h
  split at h
  · cases h
  · next first rest hs =>
    have hk : ∀ ext ∈ first :: rest, extensionKey ext = key := fun ext he =>
      (mem_extensionsAt.mp (hs ▸ he)).2
    obtain rfl := Option.some.inj h
    obtain rfl := hk first mem_cons_self
    obtain ⟨hj, hn, hi⟩ := isJoin_foldl fun ext hr =>
      congrArg snd (hk ext (mem_cons_of_mem _ hr))
    rw [hs]
    exact ⟨Prod.ext hn hi, hj⟩

theorem groupOf_eq_none : groupOf exts key = none ↔ extensionsAt exts key = [] := by
  rw [groupOf]
  split <;> simp_all

theorem exists_groupOf (h : key ∈ extensionKeys exts) : ∃ group, groupOf exts key = some group := by
  obtain ⟨ext, he, hk⟩ := mem_extensionKeys.mp h
  refine Option.ne_none_iff_exists'.mp fun hn => not_mem_nil (a := ext) ?_
  rw [← groupOf_eq_none.mp hn]
  exact mem_extensionsAt.mpr ⟨he, hk⟩

theorem forall_mem_extensionGroups {docs : List Document} (P : String × TypeKind → Prop) :
    (∀ group ∈ extensionGroups docs, P (extensionKey group)) ↔
      ∀ ext ∈ docs.flatMap extensions, P (extensionKey ext) := by
  rw [extensionGroups_eq]
  constructor
  · intro h ext he
    have hk := mem_extensionKeys.mpr ⟨ext, he, rfl⟩
    obtain ⟨group, hg⟩ := exists_groupOf hk
    rw [← (groupOf_eq_some hg).1]
    exact h group (mem_filterMap.mpr ⟨_, hk, hg⟩)
  · intro h group hg
    obtain ⟨key, hk, hg⟩ := mem_filterMap.mp hg
    obtain ⟨ext, he, rfl⟩ := mem_extensionKeys.mp hk
    rw [(groupOf_eq_some hg).1]
    exact h ext he

/-- **The extensions of one name and kind, as one.** -/
theorem filter_extensionGroups (docs : List Document) (key : String × TypeKind) :
    (extensionGroups docs).filter (fun group => extensionKey group == key) =
      (groupOf (docs.flatMap extensions) key).toList := by
  rw [extensionGroups_eq]
  generalize docs.flatMap extensions = exts
  have hf : ((extensionKeys exts).filterMap (groupOf exts)).filter (extensionKey · == key) =
      ((extensionKeys exts).filter (· == key)).filterMap (groupOf exts) := by
    rw [filter_filterMap, filterMap_filter]
    refine filterMap_congr fun other _ => ?_
    cases hg : groupOf exts other with
    | none => simp
    | some group => rw [Option.filter_some, (groupOf_eq_some hg).1]
  rw [hf, filter_beq]
  by_cases hk : key ∈ extensionKeys exts
  · obtain ⟨group, hg⟩ := exists_groupOf hk
    rw [count_eq_one_of_mem (nodup_extensionKeys _) hk, hg]
    exact filterMap_cons_some hg
  · rw [count_eq_zero_of_not_mem hk, groupOf_eq_none.mpr]
    · rfl
    · refine eq_nil_iff_forall_not_mem.mpr fun ext he => hk (mem_extensionKeys.mpr ?_)
      exact ⟨ext, mem_extensionsAt.mp he⟩

/-! ## Maps of definitions -/

variable {α : Type} {name : α → String}

theorem find?_eq_of_unique {p : α → Bool} {xs ys : List α} (hp : xs.Perm ys)
    (h : xs.Pairwise fun a b => p a = false ∨ p b = false) : xs.find? p = ys.find? p := by
  have h' := (hp.pairwise_iff fun hab => hab.symm).mp h
  rw [← head?_filter, ← head?_filter, (hp.filter p).eq_of_pairwise ?_ (h.filter p) (h'.filter p)]
  intro a b ha hb hab
  simp [(mem_filter.mp ha).2, (mem_filter.mp hb).2] at hab

theorem find?_addAll {es : List α} (hn : (es.map name).Nodup) (m : NameMap α) (key : String) :
    (addAll name es m).find? key = (es.find? fun e => name e == key).or (m.find? key) := by
  rw [addAll, find?_foldl_insert (by simpa [Function.comp_def] using hn)]
  congr 1
  rw [NameMap.find?, List.find?_map, Option.map_map]
  exact Option.map_id'

theorem sorted_addAll (es : List α) {m : NameMap α} (h : Sorted m) : Sorted (addAll name es m) :=
  sorted_foldl_insert _ h

theorem addAll_eq_of_perm {es es' : List α} (hp : es.Perm es')
    (hn : (es.map name).Nodup) {m : NameMap α} (hs : Sorted m) : addAll name es m = addAll name es' m := by
  have hn' := (hp.map name).nodup_iff.mp hn
  refine ext (sorted_addAll _ hs) (sorted_addAll _ hs) fun key => ?_
  rw [find?_addAll hn, find?_addAll hn']
  congr 1
  refine find?_eq_of_unique hp ((pairwise_map.mp hn).imp fun he => ?_)
  rw [beq_eq_false_iff_ne, beq_eq_false_iff_ne, ← not_and_or]
  exact fun hb => he (hb.1.trans hb.2.symm)

/-! ## The build -/

/-- The types of documents and the built-in ones, before extensions. -/
def declaredTypes (documents : List Document) : NameMap TypeDefinition :=
  addAll TypeDefinition.name (documents.flatMap Document.types) initial.types

def declaredDirectives (documents : List Document) : NameMap DirectiveDefinition :=
  addAll DirectiveDefinition.name (documents.flatMap Document.directives) initial.directives

def declaredRoots (documents : List Document) : List (OperationKind × NamedRef) :=
  (documents.flatMap Document.schemas).flatMap SchemaDefinition.roots

/-- **The definitions of documents fit together.** -/
structure Declares (documents : List Document) : Prop where
  types_nodup : ((documents.flatMap Document.types).map TypeDefinition.name).Nodup
  types_new : ∀ type ∈ documents.flatMap Document.types, initial.types.contains type.name = false
  directives_nodup : ((documents.flatMap Document.directives).map DirectiveDefinition.name).Nodup
  directives_new : ∀ directive ∈ documents.flatMap Document.directives,
    initial.directives.contains directive.name = false
  one_schema : (documents.flatMap Document.schemas).Pairwise fun a b =>
    a.isExtension ∨ b.isExtension
  roots_nodup : ((declaredRoots documents).map Prod.fst).Nodup
  extensions_known : ∀ extension ∈ documents.flatMap Document.extensions,
    ((declaredTypes documents).find? extension.name).map TypeDefinition.kind = some extension.kind

variable {docs : List Document}

/-- The registry of the definitions of documents, before extensions. -/
def declaredRegistry (documents : List Document) : Registry :=
  let added := ((orderedSchemas documents).filter SchemaDefinition.isExtension).flatMap
    SchemaDefinition.directives
  { types := declaredTypes documents
    directives := declaredDirectives documents
    roots := sortBy rootOrder (declaredRoots documents)
    schemaDirectives := ((schemaOf (orderedSchemas documents)).map
      SchemaDefinition.directives).getD [] ++ DirectiveUse.sorted added
    schemaLocation := (schemaOf (orderedSchemas documents)).map SchemaDefinition.location
    isFrozen := false }

def typeStage (documents : List Document) : Registry × Diagnostics :=
  attemptAll declare initial (orderedTypes documents)

def directiveStage (documents : List Document) : Registry × Diagnostics :=
  attemptAll declareDirective (typeStage documents).1 (orderedDirectives documents)

def schemaStage (documents : List Document) : Registry × Diagnostics :=
  (directiveStage documents).1.applySchemas documents

def extensionStage (documents : List Document) : Registry × Diagnostics :=
  attemptAll extend (schemaStage documents).1 (extensionGroups documents)

theorem build_eq (docs : List Document) : build docs = ((extensionStage docs).1, (typeStage docs).2 ++
      (directiveStage docs).2 ++ (schemaStage docs).2 ++ (extensionStage docs).2 ++
        (extensionStage docs).1.checkReferences) := rfl

theorem typeStage_clean : (typeStage docs).2.hasErrors = false ↔
    ((docs.flatMap Document.types).map TypeDefinition.name).Nodup ∧
      ∀ type ∈ docs.flatMap Document.types, initial.types.contains type.name = false := by
  rw [typeStage, declare_stores.clean_iff rfl, orderedTypes, ((sortBy_perm _ _).map _).nodup_iff]
  simp only [mem_sortBy, not_mem_names]

theorem typeStage_eq (h : (typeStage documents).2.hasErrors = false) :
    (typeStage documents).1 = { initial with types := declaredTypes documents } := by
  have hn := (typeStage_clean.mp h).1
  rw [typeStage, declare_stores.result h, foldl_types, declaredTypes, orderedTypes,
    addAll_eq_of_perm (sortBy_perm _ _).symm hn named_initial.types_sorted]

theorem directiveStage_clean (ht : (typeStage docs).2.hasErrors = false) : (directiveStage docs).2.hasErrors = false ↔
      ((docs.flatMap Document.directives).map DirectiveDefinition.name).Nodup ∧
        ∀ dir ∈ docs.flatMap Document.directives, initial.directives.contains dir.name = false := by
  rw [directiveStage, typeStage_eq ht, declareDirective_stores.clean_iff rfl, orderedDirectives,
    ((sortBy_perm _ _).map _).nodup_iff]
  simp only [mem_sortBy, not_mem_names]

theorem directiveStage_eq (ht : (typeStage documents).2.hasErrors = false)
    (h : (directiveStage documents).2.hasErrors = false) : (directiveStage documents).1 = { initial with
      types := declaredTypes documents, directives := declaredDirectives documents } := by
  have hn := ((directiveStage_clean ht).mp h).1
  rw [directiveStage, typeStage_eq ht] at h ⊢
  rw [declareDirective_stores.result h, foldl_directives, declaredDirectives, orderedDirectives,
    addAll_eq_of_perm (sortBy_perm _ _).symm hn named_initial.directives_sorted]

theorem applySchemas_eq (reg : Registry) (docs : List Document) : reg.applySchemas docs =
      ({ (reg.applyEach (orderedSchemas docs)).1 with
          schemaDirectives := (reg.applyEach (orderedSchemas docs)).1.schemaDirectives ++
            DirectiveUse.sorted (((orderedSchemas docs).filter SchemaDefinition.isExtension).flatMap
              SchemaDefinition.directives) },
        (reg.applyEach (orderedSchemas docs)).2) := rfl

theorem schemaStage_clean (ht : (typeStage docs).2.hasErrors = false) (hd : (directiveStage docs).2.hasErrors = false) :
    (schemaStage docs).2.hasErrors = false ↔
      ((docs.flatMap schemas).Pairwise fun a b => a.isExtension ∨ b.isExtension) ∧
      ((declaredRoots docs).map Prod.fst).Nodup := by
  have hp : (orderedSchemas docs).Perm (docs.flatMap schemas) := sortBy_perm _ _
  rw [schemaStage, directiveStage_eq ht hd, applySchemas_eq]
  rw [applyEach_clean rfl, hp.pairwise_iff fun h => h.symm, ((hp.flatMap_right SchemaDefinition.roots).map _).nodup_iff]
  simp [initial, declaredRoots]

instance : Std.TransCmp rootOrder :=
  inferInstanceAs (Std.TransCmp (compareOn fun root : OperationKind × NamedRef => root.1.rank))

theorem rootOrder_eq {a b : OperationKind × NamedRef} (h : rootOrder a b = .eq) : a.1 = b.1 := by
  have hr : a.1.rank = b.1.rank := Std.LawfulEqOrd.eq_of_compare h
  revert hr
  cases a.1 <;> cases b.1 <;> simp [OperationKind.rank]

theorem schemaStage_eq (hy : (typeStage documents).2.hasErrors = false)
    (hd : (directiveStage documents).2.hasErrors = false) (h : (schemaStage documents).2.hasErrors = false) :
    (schemaStage documents).1 = declaredRegistry documents := by
  have hn := ((schemaStage_clean hy hd).mp h).2
  have hp : ((orderedSchemas documents).flatMap SchemaDefinition.roots).Perm
      (declaredRoots documents) := (sortBy_perm _ _).flatMap_right _
  have ht : ∀ a ∈ declaredRoots documents, ∀ b ∈ declaredRoots documents, rootOrder a b = .eq → a = b :=
    fun a ha b hb ht => inj_on_of_nodup_map hn ha hb (rootOrder_eq ht)
  rw [schemaStage, directiveStage_eq hy hd, applySchemas_eq] at h ⊢
  rw [applyEach_eq rfl h, declaredRegistry, sortBy_eq_of_perm hp.symm ht,
    ← foldl_insertBy_eq fun a ha b hb => ht a (hp.mem_iff.mp ha) b (hp.mem_iff.mp hb)]
  cases schemaOf (orderedSchemas documents) <;> rfl

/-- Directives and schema blocks leave the types as they are. -/
theorem schemaStage_keeps (docs : List Document) :
    (schemaStage docs).1.types = (typeStage docs).1.types ∧ (schemaStage docs).1.isFrozen = false := by
  let Keeps (reg : Registry) : Prop :=
    reg.types = (typeStage docs).1.types ∧ reg.isFrozen = false
  have ht : (typeStage docs).1.isFrozen = false := by
    refine attemptAll_keeps (P := fun reg => reg.isFrozen = false) (fun _ => atomic_addNew) (fun ho hm => ?_) _ rfl
    obtain ⟨-, -, rfl⟩ := declare_ok.mp ho
    exact hm
  have hd : Keeps (directiveStage docs).1 := by
    refine attemptAll_keeps (P := Keeps) (fun _ => atomic_addNew) (fun ho hk => ?_) _ ⟨rfl, ht⟩
    obtain ⟨-, -, rfl⟩ := declareDirective_ok.mp ho
    exact hk
  refine applyEach_keeps (P := Keeps) (fun ho hk => ?_) (fun _ _ hk => hk) _ hd
  obtain ⟨-, -, rfl⟩ := setRoot_ok.mp ho
  exact hk

theorem extensionStage_clean (hs : (schemaStage docs).1 = declaredRegistry docs) :
    (extensionStage docs).2.hasErrors = false ↔ ∀ ext ∈ docs.flatMap extensions,
        ((declaredTypes docs).find? ext.name).map TypeDefinition.kind = some ext.kind := by
  rw [extensionStage, hs, (attemptAll_extend rfl _).2.1, ← (Diagnostics.Fatal.map fun _ => rfl).eq_nil_iff,
    map_eq_nil_iff, filterMap_eq_nil_iff]
  simp only [strayProblem?_eq_none]
  exact forall_mem_extensionGroups fun key =>
    ((declaredTypes docs).find? key.1).map TypeDefinition.kind = some key.2

theorem Declares.stages (h : Declares docs) :
    (typeStage docs).2.hasErrors = false ∧ (directiveStage docs).2.hasErrors = false ∧
      (schemaStage docs).2.hasErrors = false ∧ (schemaStage docs).1 = declaredRegistry docs := by
  have ht := typeStage_clean.mpr ⟨h.types_nodup, h.types_new⟩
  have hd := (directiveStage_clean ht).mpr ⟨h.directives_nodup, h.directives_new⟩
  have hs := (schemaStage_clean ht hd).mpr ⟨h.one_schema, h.roots_nodup⟩
  exact ⟨ht, hd, hs, schemaStage_eq ht hd hs⟩

/-- **When documents are built without errors**: their definitions fit together, and every reference
names a type of the result. -/
theorem build_clean : (build docs).2.hasErrors = false ↔
    Declares docs ∧ (build docs).1.checkReferences.hasErrors = false := by
  rw [build_eq]
  simp only [Diagnostics.append_clean]
  constructor
  · rintro ⟨⟨⟨⟨ht, hd⟩, hs⟩, he⟩, hr⟩
    obtain ⟨hn, hne⟩ := typeStage_clean.mp ht
    obtain ⟨hn', he'⟩ := (directiveStage_clean ht).mp hd
    obtain ⟨ho, hro⟩ := (schemaStage_clean ht hd).mp hs
    have hk := (extensionStage_clean (schemaStage_eq ht hd hs)).mp he
    exact ⟨⟨hn, hne, hn', he', ho, hro, hk⟩, hr⟩
  · rintro ⟨h, hr⟩
    obtain ⟨ht, hd, hs, hst⟩ := h.stages
    exact ⟨⟨⟨⟨ht, hd⟩, hs⟩, (extensionStage_clean hst).mpr h.extensions_known⟩, hr⟩

theorem Declares.build (h : Declares docs) : ∃ types, (build docs).1 = { declaredRegistry docs with types } := by
  rw [build_eq, extensionStage, h.stages.2.2.2]
  exact (attemptAll_extend rfl _).2.2

/-- **The types of a build**: those declared, with the extensions of their kind merged into them. -/
theorem type?_build (docs : List Document) (name : String) :
    (Registry.build docs).1.type? name = none ∧ (schemaStage docs).1.type? name = none ∨
      ∃ base type, (schemaStage docs).1.type? name = some base ∧ (Registry.build docs).1.type? name = some type ∧
        Grown (extensionsAt (docs.flatMap extensions) (name, base.kind)) base type := by
  rw [build_eq, extensionStage, (attemptAll_extend (schemaStage_keeps docs).2 _).1]
  cases (schemaStage docs).1.type? name with
  | none => exact .inl ⟨rfl, rfl⟩
  | some base =>
    refine .inr ⟨base, _, rfl, rfl, ?_⟩
    have hr : ((extensionGroups docs).filter fun group => group.name == name).filter
        (fun group => group.kind == base.kind) =
          (groupOf (docs.flatMap extensions) (name, base.kind)).toList := by
      rw [filter_filter, ← filter_extensionGroups]
      exact filter_congr fun group _ => Bool.and_comm _ _
    dsimp only
    rw [foldl_mergeOne, hr]
    cases hg : groupOf (docs.flatMap extensions) (name, base.kind) with
    | none =>
      rw [groupOf_eq_none.mp hg]
      exact grown_nil base
    | some group =>
      obtain ⟨hk, hj⟩ := groupOf_eq_some hg
      obtain ⟨body, hb⟩ := Option.isSome_iff_exists.mp (TypeBody.append?_isSome.mpr
        ((congrArg snd hk).symm.trans (TypeBody.kind_sorted group.body).symm))
      simp only [Option.toList_some, foldl_cons, foldl_nil, mergeOne, hb]
      exact hj.grown hb

/-- The same for documents that fit together: their extensions are of the kind of their type. -/
theorem Declares.type?_build (h : Declares docs) (name : String) :
    (Registry.build docs).1.type? name = none ∧ (declaredTypes docs).find? name = none ∨
      ∃ base type, (declaredTypes docs).find? name = some base ∧ (Registry.build docs).1.type? name = some type ∧
        Grown (extensionsOf docs name) base type := by
  have ht : (schemaStage docs).1.type? name = (declaredTypes docs).find? name := by
    rw [h.stages.2.2.2]
    rfl
  rw [← ht]
  refine (Registry.type?_build docs name).imp_right fun ⟨base, type, hb, hy, hg⟩ =>
    ⟨base, type, hb, hy, ?_⟩
  have hs : extensionsAt (docs.flatMap extensions) (name, base.kind) = extensionsOf docs name := by
    rw [extensionsAt, extensionsOf]
    congr 1
    refine filter_congr fun ext he => ?_
    rw [Bool.eq_iff_iff, beq_iff_eq, beq_iff_eq]
    refine ⟨congrArg Prod.fst, fun hn => Prod.ext hn ?_⟩
    have hk := h.extensions_known ext he
    rw [hn, ← ht, hb] at hk
    exact (Option.some.inj hk).symm
  rwa [hs] at hg

end Registry

end GraphClient
