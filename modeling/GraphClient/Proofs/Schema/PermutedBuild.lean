import GraphClient.Proofs.Schema.Permuted

/-!
# Registries of documents in another order

Documents that differ in their order and in places give the same registry, up to places and the order of
directives.

* **`Registry.outline_build`**: the registries have the same outline.
* **`Registry.build_rearranged`**: a schema is accepted in every order of its documents.
-/

namespace GraphClient

open List Diagnostics TypeDefinition

variable {move : Location → Location} {docs documents' : List Document}

namespace Registry

section Documents

variable (hd : Declares docs) (h : Rearranged move docs documents')

include h

theorem orderedSchemas_rearranged :
    PermBy (SchemaDefinition.relocate move) (orderedSchemas docs) (orderedSchemas documents') :=
  h.schemas.sorted _

include hd

theorem schemaOf_rearranged : (schemaOf (orderedSchemas docs)).map (SchemaDefinition.relocate move) =
      (schemaOf (orderedSchemas documents')).map (SchemaDefinition.relocate move) := by
  have hm : ∀ schs : List SchemaDefinition, (schemaOf schs).map (.relocate move) =
        schemaOf (schs.map (.relocate move)) := by
    intro schs
    rw [schemaOf, schemaOf, find?_map]
    rfl
  rw [hm, hm]
  refine find?_eq_of_unique (orderedSchemas_rearranged h) (pairwise_map.mpr ?_)
  have ho : (orderedSchemas docs).Pairwise fun a b =>
      a.isExtension ∨ b.isExtension :=
    ((sortBy_perm _ _).pairwise_iff fun ha => ha.symm).mpr hd.one_schema
  refine ho.imp fun ha => ?_
  simpa [SchemaDefinition.relocate] using ha

theorem outline_build (hi : ∀ {name type}, (build docs).1.type? name = some type → Distinct type) :
    (build docs).1.outline move = (build documents').1.outline move := by
  have hd' := hd.rearranged h
  have ht : (build docs).1.types.map (fun e => (e.1, e.2.outline move)) =
      (build documents').1.types.map fun e => (e.1, e.2.outline move) := by
    refine NameMap.ext (NameMap.sorted_map _ (named_build docs).types_sorted)
      (NameMap.sorted_map _ (named_build documents').types_sorted) fun name => ?_
    rw [NameMap.find?_map, NameMap.find?_map]
    change ((build docs).1.type? name).map _ = ((build documents').1.type? name).map _
    have hbas := declaredTypes_rearranged h hd.types_nodup name
    rcases hd.type?_build name with ⟨hn, hba⟩ | ⟨base, type, hba, htype, hg⟩ <;>
      rcases hd'.type?_build name with ⟨hn', hb'⟩ | ⟨base', type', hb', htype', hg'⟩ <;>
      rw [hba, hb'] at hbas
    · rw [hn, hn']
    · cases hbas
    · cases hbas
    · rw [htype, htype', Option.map_some, Option.map_some,
        outline_grown hg hg' (Option.some.inj hbas) (extensionsOf_rearranged h name)
          (hi htype)]
  have hdir := declaredDirectives_rearranged h hd.directives_nodup
  have hr : (sortBy rootOrder (declaredRoots docs)).map (fun root => (root.1, root.2.relocate move)) =
      (sortBy rootOrder (declaredRoots documents')).map fun root => (root.1, root.2.relocate move) := by
    have ho := map_sortBy rootOrder rootOrder (fun root => (root.1, root.2.relocate move)) fun _ _ => rfl
    rw [ho, ho]
    refine sortBy_eq_of_perm (declaredRoots_rearranged h) fun a ha b hb hti => ?_
    refine inj_on_of_nodup_map ?_ ha hb (rootOrder_eq hti)
    rw [map_map]
    exact hd.roots_nodup
  have hs := congrArg (Option.map SchemaDefinition.location) (schemaOf_rearranged hd h)
  rw [Option.map_map, Option.map_map] at hs
  obtain ⟨types, hu⟩ := hd.build
  obtain ⟨types', hu'⟩ := hd'.build
  rw [hu, hu'] at ht ⊢
  rw [outline, outline, mk.injEq]
  refine ⟨ht, hdir, hr, rfl, ?_, rfl⟩
  rw [declaredRegistry, declaredRegistry, Option.map_map, Option.map_map]
  exact hs

section Types

variable {name : String} {type type' : TypeDefinition} (htype : (build docs).1.type? name = some type)
  (htype' : (build documents').1.type? name = some type')

include htype htype'

theorem exists_bases : ∃ base base', base.relocate move = base'.relocate move ∧
      Grown (extensionsOf docs name) base type ∧ Grown (extensionsOf documents' name) base' type' := by
  have ha := declaredTypes_rearranged h hd.types_nodup name
  rcases hd.type?_build name with ⟨hn, -⟩ | ⟨base, grown, hb, hg, hp⟩
  · rw [hn] at htype
    cases htype
  rcases (hd.rearranged h).type?_build name with ⟨hn, -⟩ | ⟨base', grown', hb', hg', hp'⟩
  · rw [hn] at htype'
    cases htype'
  obtain rfl := Option.some.inj (hg.symm.trans htype)
  obtain rfl := Option.some.inj (hg'.symm.trans htype')
  rw [hb, hb'] at ha
  exact ⟨base, base', Option.some.inj ha, hp, hp'⟩

theorem directives_build : PermBy (DirectiveUse.relocate move) type.directives type'.directives := by
  obtain ⟨base, base', hb, hg, hg'⟩ := exists_bases hd h htype htype'
  exact directives_grown hg hg' hb (extensionsOf_rearranged h name)

end Types

/-- The directives that extensions add to the schema, by place. -/
def addedSchemaUses (documents : List Document) : List DirectiveUse :=
  ((orderedSchemas documents).filter SchemaDefinition.isExtension).flatMap SchemaDefinition.directives

def ownSchemaUses (documents : List Document) : List DirectiveUse :=
  ((schemaOf (orderedSchemas documents)).map SchemaDefinition.directives).getD []

omit h in
theorem Declares.schemaDirectives_build : (Registry.build docs).1.schemaDirectives =
      ownSchemaUses docs ++ DirectiveUse.sorted (addedSchemaUses docs) := by
  obtain ⟨types, hb⟩ := hd.build
  rw [hb]
  rfl

omit hd in
theorem addedSchemaUses_rearranged :
    PermBy (DirectiveUse.relocate move) (addedSchemaUses docs) (addedSchemaUses documents') :=
  PermBy.flatMap ((orderedSchemas_rearranged h).filter SchemaDefinition.isExtension fun _ => rfl)
    SchemaDefinition.directives fun _ => rfl

theorem ownSchemaUses_rearranged : (ownSchemaUses docs).map (DirectiveUse.relocate move) =
    (ownSchemaUses documents').map (DirectiveUse.relocate move) := by
  have hm : ∀ sch : Option SchemaDefinition,
      ((sch.map SchemaDefinition.directives).getD []).map (.relocate move) =
        ((sch.map (.relocate move)).map SchemaDefinition.directives).getD [] := by
    intro sch
    cases sch <;> rfl
  rw [ownSchemaUses, ownSchemaUses, hm, hm, schemaOf_rearranged hd h]

theorem schemaDirectives_perm : PermBy (DirectiveUse.relocate move) (build docs).1.schemaDirectives
    (build documents').1.schemaDirectives := by
  rw [hd.schemaDirectives_build, (hd.rearranged h).schemaDirectives_build, PermBy, map_append,
    map_append, ownSchemaUses_rearranged hd h]
  exact List.Perm.append_left _ ((addedSchemaUses_rearranged h).sorted _)

end Documents

section Rules

variable {rev : Revision} {reg reg' revised : Registry} (h : Revised rev reg revised)
  (h' : Revised rev reg' revised)

include h h'

theorem type?_of_revised {name : String} {type' : TypeDefinition} (hf : reg'.type? name = some type') :
    ∃ type, reg.type? name = some type ∧ type.revise rev = type'.revise rev := by
  have hs := (h.type?_eq name).symm.trans (h'.type?_eq name)
  rw [hf] at hs
  exact Option.map_eq_some_iff.mp hs

/-- **Directives are accepted in every order.** -/
theorem checkUses_of_perm {place : DirectiveLocation} {uses uses' : List DirectiveUse}
    (hp : PermBy (DirectiveUse.relocate rev.move) uses uses') (hc : (reg.checkUses place uses).hasErrors = false) :
    (reg'.checkUses place uses').hasErrors = false := by
  rw [← hasErrors_moved rev.move, ← h.checkUses] at hc
  rw [← hasErrors_moved rev.move, ← h'.checkUses]
  rw [checkUses, checkDirectives_clean] at hc ⊢
  refine ⟨fun use hu => hc.1 use (hp.mem_iff.mpr hu), (List.Perm.pairwise_iff ?_ hp).mp hc.2⟩
  intro a b ha hn
  rw [hn.symm]
  exact ha hn.symm

theorem checkReferences_of_revised (hc : reg.checkReferences.hasErrors = false) :
    reg'.checkReferences.hasErrors = false := by
  rw [← hasErrors_moved rev.move, ← h'.checkReferences, h.checkReferences]
  rwa [hasErrors_moved]

theorem checkType_of_revised {type type' : TypeDefinition} (htype : type.revise rev = type'.revise rev)
    (hd : PermBy (DirectiveUse.relocate rev.move) type.directives type'.directives)
    (hc : (reg.checkType type).hasErrors = false) : (reg'.checkType type').hasErrors = false := by
  have hk : type.kind = type'.kind := by
    rw [← kind_revise rev, htype, kind_revise]
  have hn : type.name = type'.name := (congrArg name htype :)
  have hl : rev.move type.location = rev.move type'.location := (congrArg location htype :)
  simp only [checkType, append_clean] at hc ⊢
  obtain ⟨⟨hr, hu⟩, hb⟩ := hc
  refine ⟨⟨?_, ?_⟩, ?_⟩
  · rw [← hasErrors_moved rev.move, ← checkReserved_relocate] at hr ⊢
    rwa [← hn, ← hl]
  · rw [← hk]
    exact checkUses_of_perm h h' hd hu
  · rwa [← hasErrors_moved rev.move, ← h'.checkBody, ← htype, h.checkBody, hasErrors_moved]

/-- **Registries with the same definitions satisfy the same rules**, whatever the order of directives. -/
theorem validate_of_revised (ht : ∀ type' ∈ reg'.userTypes, ∃ type ∈ reg.userTypes, type.revise rev = type'.revise rev ∧
      PermBy (DirectiveUse.relocate rev.move) type.directives type'.directives)
    (hi : ∀ dir' ∈ reg'.userDirectives, ∃ dir ∈ reg.userDirectives, dir.revise rev = dir'.revise rev)
    (hsc : (reg.checkUses .schema reg.schemaDirectives).hasErrors = false →
      (reg'.checkUses .schema reg'.schemaDirectives).hasErrors = false)
    (hc : reg.validate.hasErrors = false) : reg'.validate.hasErrors = false := by
  simp only [validate, append_clean, hasErrors_flatMap] at hc ⊢
  obtain ⟨⟨⟨hh, hde⟩, ho⟩, hu⟩ := hc
  refine ⟨⟨⟨fun type' htype' => ?_, fun dir' hd' => ?_⟩, fun root' hr' => ?_⟩, hsc hu⟩
  · obtain ⟨type, htype, hs, hp⟩ := ht type' htype'
    exact checkType_of_revised h h' hs hp (hh type htype)
  · obtain ⟨dir, hd, hs⟩ := hi dir' hd'
    rw [← hasErrors_moved rev.move, ← h'.checkDirectiveDefinition, ← hs, h.checkDirectiveDefinition, hasErrors_moved]
    exact hde dir hd
  · have he : (root'.1, root'.2.relocate rev.move) ∈ revised.roots :=
      h'.roots ▸ mem_map_of_mem (f := fun root => (root.1, root.2.relocate rev.move)) hr'
    rw [h.roots] at he
    obtain ⟨root, hr, hm⟩ := mem_map.mp he
    have hn : root.2.name = root'.2.name := congrArg (fun e => e.2.name) hm
    have hl : rev.move root.2.location = rev.move root'.2.location := congrArg (fun e => e.2.location) hm
    rw [← hasErrors_moved rev.move, ← h'.checkKind, ← hn, ← hl, h.checkKind, hasErrors_moved]
    exact ho root hr

end Rules

/-- **Registries with the same outline satisfy the same rules** if their directives are the same in some
order. -/
theorem validate_of_outline {reg reg' : Registry} (ho : reg.outline move = reg'.outline move)
    (hb : ∀ l : Location, (move l).isBuiltin = l.isBuiltin) (hn : reg.Named) (hn' : reg'.Named)
    (hi : ∀ {name type type'}, reg.type? name = some type → reg'.type? name = some type' →
      PermBy (DirectiveUse.relocate move) type.directives type'.directives)
    (hsc : PermBy (DirectiveUse.relocate move) reg.schemaDirectives reg'.schemaDirectives)
    (hc : reg.validate.hasErrors = false) : reg'.validate.hasErrors = false := by
  have h := reg.revised_outline move
  have h' : Revised ⟨move, id⟩ reg' (reg.outline move) := ho ▸ reg'.revised_outline move
  refine validate_of_revised h h' (fun type' htype' => ?_) (fun dir' hd' => ?_)
    (checkUses_of_perm h h' hsc) hc
  · obtain ⟨⟨name, ha⟩, hp⟩ := (mem_userTypes hn').mp htype'
    obtain ⟨type, htype, hs⟩ := type?_of_revised h h' ha
    have hl : move type.location = move type'.location := (congrArg location hs :)
    refine ⟨type, (mem_userTypes hn).mpr ⟨⟨name, htype⟩, ?_⟩, hs, hi htype ha⟩
    rw [← hb, hl, hb, hp]
  · obtain ⟨hme, hp⟩ := mem_filter.mp hd'
    obtain ⟨e', he', rfl⟩ := mem_map.mp hme
    have hr : (e'.1, e'.2.revise ⟨move, id⟩) ∈ (reg.outline move).directives :=
      h'.directives ▸ mem_map_of_mem (f := fun e => (e.1, e.2.revise ⟨move, id⟩)) he'
    obtain ⟨e, he, hm⟩ := mem_map.mp hr
    have hs : e.2.revise ⟨move, id⟩ = e'.2.revise ⟨move, id⟩ := congrArg Prod.snd hm
    have hl : move e.2.location = move e'.2.location := (congrArg DirectiveDefinition.location hs :)
    refine ⟨e.2, mem_filter.mpr ⟨mem_map_of_mem he, ?_⟩, hs⟩
    rw [← hb, hl, hb]
    exact hp

theorem build_rearranged (hb : ∀ l : Location, (move l).isBuiltin = l.isBuiltin)
    (hp : Placed docs) (h : Rearranged move docs documents') (hu : (build docs).2.hasErrors = false)
    (hv : (build docs).1.validate.hasErrors = false) :
    (build documents').2.hasErrors = false ∧ (build documents').1.validate.hasErrors = false ∧
      (build docs).1.outline move = (build documents').1.outline move := by
  obtain ⟨hd, hr⟩ := build_clean.mp hu
  have ho := outline_build hd h fun htype => hd.distinct htype hp hv
  have hr' := checkReferences_of_revised (revised_outline move _)
    (ho ▸ revised_outline move (build documents').1) hr
  refine ⟨build_clean.mpr ⟨hd.rearranged h, hr'⟩, ?_, ho⟩
  exact validate_of_outline ho hb (named_build docs) (named_build documents')
    (directives_build hd h) (schemaDirectives_perm hd h) hv

end Registry

end GraphClient
