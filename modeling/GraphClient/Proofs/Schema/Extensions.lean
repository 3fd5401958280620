import GraphClient.Proofs.Schema.Merged
import GraphClient.Proofs.Analysis

/-!
# Extensions of types

An extension is looked for by its name and its kind. All extensions of one name and kind count as one.
-/

namespace GraphClient

open List Option

namespace Registry

/-- **The definition of a name that is kept**: the built-in one, or the first one in the order of places. -/
def keptType? (documents : List Document) (name : String) : Option TypeDefinition :=
  (initial.type? name).or ((orderedTypes documents).find? fun type => type.name == name)

theorem type?_attemptAll_declare {reg : Registry} (hm : reg.isFrozen = false)
    (types : List TypeDefinition) (name : String) : (attemptAll declare reg types).1.type? name =
      (reg.type? name).or (types.find? fun type => type.name == name) := by
  induction types generalizing reg with
  | nil => exact or_none.symm
  | cons type rest ih =>
    rw [find?_cons]
    cases hk : reg.types.contains type.name with
    | true =>
      have hs : reg.run (declare type) = (.error (.duplicateType type.name type.location), reg) := by
        rw [declare, run_addNew, hm, hk]
        rfl
      rw [attemptAll_of_error hs]
      refine (ih hm).trans ?_
      cases hn : type.name == name with
      | false => rfl
      | true =>
        obtain ⟨known, hf⟩ := isSome_iff_exists.mp hk
        rw [← eq_of_beq hn, type?, hf, some_or, some_or]
    | false =>
      rw [attemptAll_of_ok (declare_ok.mpr ⟨hm, hk, rfl⟩), ih (by exact hm), type?, NameMap.find?_insert]
      cases hn : type.name == name with
      | false => rw [if_neg (ne_of_beq_false hn)]; rfl
      | true =>
        obtain rfl := eq_of_beq hn
        have ho : reg.type? type.name = none := isSome_eq_false_iff.mp hk |> isNone_iff_eq_none.mp
        rw [if_pos rfl, ho, none_or, some_or]

variable {docs : List Document}

theorem type?_schemaStage (name : String) : (schemaStage docs).1.type? name = keptType? docs name := by
  rw [type?, (schemaStage_keeps docs).1]
  exact type?_attemptAll_declare rfl _ name

/-- The names and kinds of the extensions that find no type of their kind. -/
def strayKeys (documents : List Document) : List (String × TypeKind) :=
  (extensionKeys (documents.flatMap Document.extensions)).filter fun key =>
    (keptType? documents key.1).map TypeDefinition.kind != some key.2

/-- What is reported of them, at the first one. -/
def strayProblem (documents : List Document) (key : String × TypeKind) : Problem :=
  let place := ((extensionsAt (documents.flatMap Document.extensions) key).map TypeDefinition.location).headD .builtin
  match keptType? documents key.1 with
  | none => .unknownType key.1 place
  | some base => .kindMismatch key.1 ("an extension of " ++ base.kind.text) key.2 place

theorem location_groupOf {exts : List TypeDefinition} {key : String × TypeKind} {group : TypeDefinition}
    (h : groupOf exts key = some group) :
    group.location = ((extensionsAt exts key).map TypeDefinition.location).headD .builtin := by
  have hf : ∀ (rest : List TypeDefinition) first, (rest.foldl joinExtensions first).location = first.location := by
    intro rest
    induction rest with
    | nil => exact fun _ => rfl
    | cons second rest ih =>
      intro first
      rw [foldl_cons, ih, joinExtensions]
      split <;> rfl
  rw [groupOf] at h
  split at h
  · cases h
  · next first rest hs =>
    rw [← some.inj h, hf, hs]
    rfl

theorem reports_extensionStage : (extensionStage docs).2 =
    (strayKeys docs).map fun key => (strayProblem docs key).diagnostic := by
  rw [extensionStage, (attemptAll_extend (schemaStage_keeps docs).2 _).2.1, extensionGroups_eq, strayKeys,
    filterMap_filterMap, map_filterMap]
  conv_rhs => rw [← filterMap_eq_map, filterMap_filter]
  refine filterMap_congr fun key he => ?_
  obtain ⟨group, hg⟩ := exists_groupOf he
  obtain ⟨rfl, -⟩ := groupOf_eq_some hg
  rw [hg, bind_some, strayProblem?, kind?, type?_schemaStage]
  change _ = if _ then _ else _
  cases hk : keptType? docs group.name with
  | none => simp [strayProblem, hk, extensionKey, location_groupOf hg]
  | some base =>
    by_cases hi : base.kind = group.kind
    · simp [hi, extensionKey, hk]
    · simp [hi, extensionKey, hk, strayProblem, location_groupOf hg]

/-- **Extensions are merged without loss or duplication.** Each type is the one that is kept, with the extensions of
its kind behind it, and every other group of extensions is reported once. -/
theorem extensions_merged (documents : List Document) :
    (∀ name, keptType? documents name = none → (build documents).1.type? name = none) ∧
    (∀ name base, keptType? documents name = some base → ∃ type, (build documents).1.type? name = some type ∧
      Grown (extensionsAt (documents.flatMap Document.extensions) (name, base.kind)) base type) ∧
    (build documents).2 = (typeStage documents).2 ++ (directiveStage documents).2 ++ (schemaStage documents).2 ++
      (strayKeys documents).map (fun key => (strayProblem documents key).diagnostic) ++
      (build documents).1.checkReferences ∧ (strayKeys documents).Nodup ∧ (∀ key, key ∈ strayKeys documents ↔
      (∃ extension ∈ documents.flatMap Document.extensions, extensionKey extension = key) ∧
        (keptType? documents key.1).map TypeDefinition.kind ≠ some key.2) ∧
    ∀ key, (strayProblem documents key).diagnostic.code =
      if (keptType? documents key.1).isSome then "E0015" else "E0010" := by
  refine ⟨fun name hnone => ?_, fun name base hbase => ?_, ?_, (nodup_extensionKeys _).filter _, fun key => ?_,
    fun key => ?_⟩
  · rcases type?_build documents name with ⟨hbuilt, -⟩ | ⟨base, -, hkept, -⟩
    · exact hbuilt
    · rw [type?_schemaStage, hnone] at hkept
      cases hkept
  · rcases type?_build documents name with ⟨-, hnone⟩ | ⟨other, type, hkept, htype, hgrown⟩
    · rw [type?_schemaStage, hbase] at hnone
      cases hnone
    · rw [type?_schemaStage, hbase] at hkept
      obtain rfl := some.inj hkept
      exact ⟨type, htype, hgrown⟩
  · rw [← reports_extensionStage]
    rfl
  · rw [strayKeys, mem_filter, mem_extensionKeys, bne_iff_ne]
  · cases hkept : keptType? documents key.1 <;> simp only [strayProblem, hkept] <;> rfl

/-- The built-in types can be extended, too: no document declares `Int`, and nothing is reported. -/
theorem builtin_extension_accepted : ∃ documents key,
    (∃ extension ∈ documents.flatMap Document.extensions, extensionKey extension = key) ∧
      key.1 ∉ (documents.flatMap Document.types).map TypeDefinition.name ∧ (build documents).2 = [] := by
  let documents := Source.documents (Source.number [("a", "directive @d on SCALAR extend scalar Int @d")])
  obtain ⟨hkeys, hundeclared, hclean⟩ : (documents.flatMap Document.extensions).map extensionKey = [("Int", .scalar)] ∧
      "Int" ∉ (documents.flatMap Document.types).map TypeDefinition.name ∧ (build documents).2 = [] := by
    decide +kernel
  refine ⟨documents, ("Int", .scalar), mem_map.mp ?_, hundeclared, hclean⟩
  rw [hkeys]
  exact mem_singleton.mpr rfl

end Registry

end GraphClient
