import GraphClient.Proofs.Schema.Merged
import GraphClient.Proofs.Schema.RelocateValidation

/-!
# Documents in another order

What documents declare when they come in another order and their definitions stand at other places.

* **`Registry.Declares.rearranged`**: their definitions fit together at the same time.
* **`Registry.outline_grown`**, `Registry.directives_grown`: a type whose extensions come in another order.
-/

namespace GraphClient

open List Diagnostics TypeDefinition NameMap

variable {α β : Type}

/-! ## Elements in another order -/

/-- The elements of one list are those of the other in some order, as far as `view` tells them apart. -/
def PermBy (view : α → β) (xs ys : List α) : Prop := (xs.map view).Perm (ys.map view)

namespace PermBy

variable {view : α → β} {xs ys : List α} (h : PermBy view xs ys)

section Labels

variable {γ : Type} {name : α → γ} (label : β → γ) (hname : ∀ x, label (view x) = name x)

include hname

theorem map_view (xs : List α) : (xs.map view).map label = xs.map name := by
  rw [map_map]
  exact map_congr_left fun x _ => hname x

include h

theorem map : (xs.map name).Perm (ys.map name) := by
  rw [← map_view label hname, ← map_view label hname]
  exact List.Perm.map label h

end Labels

include h

theorem exists_of_mem {y : α} (hy : y ∈ ys) : ∃ x ∈ xs, view x = view y :=
  mem_map.mp (h.mem_iff.mpr (mem_map_of_mem hy))

theorem flatMap {γ δ : Type} {f : α → List γ} {view' : γ → δ} (g : β → List δ)
    (hg : ∀ x, g (view x) = (f x).map view') : PermBy view' (xs.flatMap f) (ys.flatMap f) := by
  have ha : ∀ zs : List α, (zs.flatMap f).map view' = (zs.map view).flatMap g := fun zs => by
    simp only [map_flatMap, flatMap_map, hg]
  rw [PermBy, ha, ha]
  exact h.flatMap_right g

theorem filter {p : α → Bool} (q : β → Bool) (hq : ∀ x, q (view x) = p x) :
    PermBy view (xs.filter p) (ys.filter p) := by
  have ha : ∀ zs : List α, (zs.filter p).map view = (zs.map view).filter q := fun zs => by
    rw [filter_map, show q ∘ view = p from funext hq]
  rw [PermBy, ha, ha]
  exact List.Perm.filter q h

theorem sorted (cmp : α → α → Ordering) : PermBy view (sortBy cmp xs) (sortBy cmp ys) :=
  ((sortBy_perm cmp xs).map view).trans (List.Perm.trans h ((sortBy_perm cmp ys).map view).symm)

theorem sortBy_name_eq {name : α → String} (label : β → String) (hname : ∀ x, label (view x) = name x)
    (hn : (xs.map name).Nodup) : (sortBy (fun a b => compare (name a) (name b)) xs).map view =
      (sortBy (fun a b => compare (name a) (name b)) ys).map view := by
  have hs := map_sortBy (fun a b => compare (name a) (name b)) (fun a b => compare (label a) (label b)) view
    fun a b => by rw [hname, hname]
  rw [hs, hs]
  exact sortBy_name_eq_of_perm h (map_view label hname xs ▸ hn)

end PermBy

/-- **Documents that differ in their order and in places.** -/
def Rearranged (move : Location → Location) (documents documents' : List Document) : Prop :=
  PermBy (Document.relocate move) documents documents'

variable {move : Location → Location} {documents documents' : List Document} (hd : Registry.Declares documents)
  (h : Rearranged move documents documents')

namespace Rearranged

include h

theorem types : PermBy (TypeDefinition.relocate move) (documents.flatMap Document.types)
    (documents'.flatMap Document.types) := h.flatMap Document.types fun _ => rfl

theorem extensions : PermBy (TypeDefinition.relocate move) (documents.flatMap Document.extensions)
    (documents'.flatMap Document.extensions) := h.flatMap Document.extensions fun _ => rfl

theorem directives : PermBy (DirectiveDefinition.relocate move) (documents.flatMap Document.directives)
    (documents'.flatMap Document.directives) := h.flatMap Document.directives fun _ => rfl

theorem schemas : PermBy (SchemaDefinition.relocate move) (documents.flatMap Document.schemas)
    (documents'.flatMap Document.schemas) := h.flatMap Document.schemas fun _ => rfl

theorem operations : PermBy (OperationDefinition.relocate move) (documents.flatMap Document.operations)
    (documents'.flatMap Document.operations) := h.flatMap Document.operations fun _ => rfl

theorem fragments : PermBy (FragmentDefinition.relocate move) (documents.flatMap Document.fragments)
    (documents'.flatMap Document.fragments) := h.flatMap Document.fragments fun _ => rfl

end Rearranged

namespace Registry

/-! ## Definitions -/

section AddAll

variable {name : α → String} (label : β → String) {view : α → β} (hname : ∀ x, label (view x) = name x)

include hname

theorem addAll_map (es : List α) (m : NameMap α) : addAll label (es.map view) (m.map fun e => (e.1, view e.2)) =
      (addAll name es m).map fun e => (e.1, view e.2) := by
  have he : (es.map view).map (fun e => (label e, e)) =
      (es.map fun e => (name e, e)).map fun e => (e.1, view e.2) := by
    simp [hname]
  rw [addAll, he, foldl_insert_map, addAll]

theorem addAll_rearranged {xs ys : List α} (h : PermBy view xs ys) (hn : (xs.map name).Nodup)
    {m : NameMap α} (hs : Sorted m) : (addAll name xs m).map (fun e => (e.1, view e.2)) =
      (addAll name ys m).map fun e => (e.1, view e.2) := by
  rw [← addAll_map label hname, ← addAll_map label hname]
  exact addAll_eq_of_perm h (PermBy.map_view label hname xs ▸ hn) (sorted_map view hs)

end AddAll

include h

theorem declaredTypes_rearranged
    (hn : ((documents.flatMap Document.types).map TypeDefinition.name).Nodup) (name : String) :
    ((declaredTypes documents).find? name).map (TypeDefinition.relocate move) =
      ((declaredTypes documents').find? name).map (TypeDefinition.relocate move) := by
  rw [← NameMap.find?_map, ← NameMap.find?_map]
  exact congrArg (NameMap.find? · name)
    (addAll_rearranged TypeDefinition.name (fun _ => rfl) h.types hn named_initial.types_sorted)

theorem declaredDirectives_rearranged
    (hn : ((documents.flatMap Document.directives).map DirectiveDefinition.name).Nodup) :
    (declaredDirectives documents).map (fun e => (e.1, e.2.relocate move)) =
      (declaredDirectives documents').map fun e => (e.1, e.2.relocate move) :=
  addAll_rearranged DirectiveDefinition.name (fun _ => rfl) h.directives hn named_initial.directives_sorted

theorem declaredRoots_rearranged :
    PermBy (fun root => (root.1, root.2.relocate move)) (declaredRoots documents) (declaredRoots documents') :=
  h.schemas.flatMap SchemaDefinition.roots fun _ => rfl

include hd in
theorem Declares.rearranged : Declares documents' where
  types_nodup := (h.types.map name fun _ => rfl).nodup_iff.mp hd.types_nodup
  types_new := by
    intro type htype
    obtain ⟨other, ho, hm⟩ := h.types.exists_of_mem htype
    have hname : other.name = type.name := (congrArg name hm :)
    exact hname ▸ hd.types_new other ho
  directives_nodup := (h.directives.map DirectiveDefinition.name fun _ => rfl).nodup_iff.mp hd.directives_nodup
  directives_new := by
    intro dir hi
    obtain ⟨other, ho, hm⟩ := h.directives.exists_of_mem hi
    have hname : other.name = dir.name := (congrArg DirectiveDefinition.name hm :)
    exact hname ▸ hd.directives_new other ho
  one_schema := by
    have ha : ∀ schemas : List SchemaDefinition, (schemas.Pairwise fun a b => a.isExtension ∨ b.isExtension) ↔
          (schemas.map (SchemaDefinition.relocate move)).Pairwise fun a b =>
            a.isExtension ∨ b.isExtension := by
      intro schemas
      rw [pairwise_map]
      rfl
    rw [ha, ← List.Perm.pairwise_iff (fun hb => hb.symm) h.schemas, ← ha]
    exact hd.one_schema
  roots_nodup := ((declaredRoots_rearranged h).map Prod.fst fun _ => rfl).nodup_iff.mp hd.roots_nodup
  extensions_known := by
    intro ext he
    obtain ⟨other, ho, hm⟩ := h.extensions.exists_of_mem he
    have hname : other.name = ext.name := (congrArg name hm :)
    have hki : other.kind = ext.kind := by
      rw [← kind_relocate move, hm, kind_relocate]
    have hk := congrArg (Option.map kind)
      (declaredTypes_rearranged h hd.types_nodup ext.name)
    simp only [Option.map_map, Function.comp_def, kind_relocate] at hk
    rw [← hki, ← hd.extensions_known other ho, hname]
    exact hk.symm

/-! ## Types -/

theorem extensionsOf_rearranged (name : String) :
    PermBy (TypeDefinition.relocate move) (extensionsOf documents name) (extensionsOf documents' name) :=
  (h.extensions.filter (fun ext => ext.name == name) fun _ => rfl).sorted _

omit h

/-- No part of the type has two entries of one name. -/
structure Distinct (type : TypeDefinition) : Prop where
  refs : (type.body.refs.map NamedRef.name).Nodup
  fields : (type.body.fields.map FieldDefinition.name).Nodup
  values : (type.body.values.map EnumValueDefinition.name).Nodup
  inputs : (type.body.inputs.map InputValueDefinition.name).Nodup

section Grown

variable {base base' type type' : TypeDefinition} {extensions extensions' : List TypeDefinition}
  (hgrown : Grown extensions base type) (hgrown' : Grown extensions' base' type')
  (hbase : base.relocate move = base'.relocate move)
  (hextensions : PermBy (TypeDefinition.relocate move) extensions extensions')

include hbase hextensions in
/-- One part of a type in two orders of its extensions. -/
theorem part_eq {name : α → String} (f : TypeDefinition → List α) {r : α → α}
    (hf : ∀ t : TypeDefinition, f (t.relocate move) = (f t).map r) (hname : ∀ x, name (r x) = name x)
    (hp : f type = f base ++ sortBy (fun a b => compare (name a) (name b)) (extensions.flatMap f))
    (hp' : f type' = f base' ++ sortBy (fun a b => compare (name a) (name b)) (extensions'.flatMap f))
    (hn : ((f type).map name).Nodup) : f (type.relocate move) = f (type'.relocate move) := by
  rw [hp, map_append, nodup_append] at hn
  have ha := (hextensions.flatMap f hf).sortBy_name_eq name hname
    (((sortBy_perm _ _).map name).nodup_iff.mp hn.2.1)
  rw [hf, hf, hp, hp', map_append, map_append, ha, ← hf, ← hf, hbase]

include hgrown hgrown' hbase hextensions

theorem outline_grown (hd : Distinct type) : type.outline move = type'.outline move := by
  have hk : type.body.kind = type'.body.kind := by
    have h := congrArg kind hbase
    rw [kind_relocate, kind_relocate] at h
    exact hgrown.kind.trans (h.trans hgrown'.kind.symm)
  rw [TypeDefinition.outline, TypeDefinition.outline, TypeDefinition.mk.injEq]
  refine ⟨?_, ?_, rfl, TypeBody.ext_parts ?_ ?_ ?_ ?_ ?_, ?_⟩
  · rw [hgrown.name, hgrown'.name]
    exact (congrArg name hbase :)
  · rw [hgrown.description, hgrown'.description]
    exact (congrArg description hbase :)
  · rw [TypeBody.kind_relocate, TypeBody.kind_relocate, hk]
  · exact part_eq hbase hextensions (fun t => t.body.refs) (fun t => TypeBody.refs_relocate move t.body)
      (fun _ => rfl) hgrown.refs hgrown'.refs hd.refs
  · exact part_eq hbase hextensions (fun t => t.body.fields) (fun t => TypeBody.fields_relocate move t.body)
      (fun _ => rfl) hgrown.fields hgrown'.fields hd.fields
  · exact part_eq hbase hextensions (fun t => t.body.values) (fun t => TypeBody.values_relocate move t.body)
      (fun _ => rfl) hgrown.values hgrown'.values hd.values
  · exact part_eq hbase hextensions (fun t => t.body.inputs) (fun t => TypeBody.inputs_relocate move t.body)
      (fun _ => rfl) hgrown.inputs hgrown'.inputs hd.inputs
  · rw [hgrown.location, hgrown'.location]
    exact (congrArg location hbase :)

theorem directives_grown : PermBy (DirectiveUse.relocate move) type.directives type'.directives := by
  have ha : PermBy (DirectiveUse.relocate move) (extensions.flatMap TypeDefinition.directives)
      (extensions'.flatMap TypeDefinition.directives) :=
    hextensions.flatMap TypeDefinition.directives fun _ => rfl
  rw [hgrown.directives, hgrown'.directives, PermBy, map_append, map_append]
  exact List.Perm.append (List.Perm.of_eq (congrArg TypeDefinition.directives hbase :)) (ha.sorted _)

end Grown

/-! ## Accepted types -/

theorem nodup_of_clean {name : α → String} {es : List α} {check : α × Bool → Diagnostics}
    (hh : ∀ e, (check (e, true)).hasErrors)
    (h : Diagnostics.hasErrors ((markRepeats name es).flatMap check) = false) : (es.map name).Nodup := by
  refine markRepeats_unmarked.mp fun marked hm => ?_
  obtain ⟨e, repeated⟩ := marked
  cases repeated with
  | false => rfl
  | true =>
    have hc := (hasErrors_flatMap _ _).mp h _ hm
    rw [hh] at hc
    cases hc

variable {reg : Registry} {type : TypeDefinition} {name : String}

theorem distinct_of_fielded (h : (reg.checkFielded type).hasErrors = false) :
    (type.fields.map FieldDefinition.name).Nodup ∧ (type.implements.map NamedRef.name).Nodup := by
  simp only [checkFielded, append_clean] at h
  refine ⟨nodup_of_clean (fun field => ?_) h.1.2, nodup_of_clean (fun e => ?_) h.2⟩
  · simp [checkRepeated]
  · simp [checkImplemented]

/-- **The parts of an accepted type have different names.** -/
theorem distinct_of_checkBody (h : (reg.checkBody type).hasErrors = false) : Distinct type := by
  have hf : (reg.checkFielded type).hasErrors = false →
      (type.fields.map FieldDefinition.name).Nodup ∧ (type.implements.map NamedRef.name).Nodup :=
    distinct_of_fielded
  obtain ⟨name, desc, dirs, body, loc⟩ := type
  have hn : ∀ {α : Type} (label : α → String), (([] : List α).map label).Nodup := fun _ => nodup_nil
  cases body with
  | scalar => exact ⟨hn _, hn _, hn _, hn _⟩
  | object impls fields | interface impls fields =>
    exact ⟨(hf h).2, (hf h).1, hn _, hn _⟩
  | union members =>
    simp only [checkBody, append_clean] at h
    exact ⟨nodup_of_clean (fun member => by simp [checkMember]) h.2, hn _, hn _, hn _⟩
  | enum vals =>
    simp only [checkBody, append_clean] at h
    exact ⟨hn _, hn _, nodup_of_clean (fun value => by simp [checkEnumValue, checkRepeated]) h.2, hn _⟩
  | inputObject fields =>
    simp only [checkBody, append_clean] at h
    exact ⟨hn _, hn _, hn _, nodup_of_clean (fun input => by simp [checkRepeated]) h.2⟩

theorem mem_values (h : reg.Named) : type ∈ reg.types.values ↔ ∃ name, reg.type? name = some type := by
  rw [values, mem_map]
  constructor
  · rintro ⟨⟨name, _⟩, he, rfl⟩
    exact ⟨name, find?_of_mem h.types_sorted he⟩
  · rintro ⟨name, hname⟩
    exact ⟨(name, type), mem_of_find? hname, rfl⟩

theorem mem_userTypes (h : reg.Named) : type ∈ reg.userTypes ↔ (∃ name, reg.type? name = some type) ∧
      type.location.isBuiltin = false := by
  rw [userTypes, mem_filter, mem_values h, Bool.not_eq_true']

def Placed (documents : List Document) : Prop :=
  ∀ type ∈ documents.flatMap Document.types, type.location.isBuiltin = false

include hd

/-- **A built registry holds the built-in scalars, with what extensions add to them.** -/
theorem Declares.grown_builtin (h : name ∈ builtinScalars) :
    ∃ type, (Registry.build documents).1.type? name = some type ∧
      Grown (extensionsOf documents name) (.builtinScalar name) type := by
  have hi : initial.types.find? name = some (.builtinScalar name) := type?_initial h
  have hu : (documents.flatMap Document.types).find? (fun type => type.name == name) = none := by
    refine find?_eq_none.mpr fun type htype hname => ?_
    have he := hd.types_new type htype
    rw [eq_of_beq hname, NameMap.contains, hi] at he
    cases he
  have hs : (declaredTypes documents).find? name = some (.builtinScalar name) := by
    rw [declaredTypes, find?_addAll hd.types_nodup, hu, hi]
    rfl
  rcases hd.type?_build name with ⟨-, hn⟩ | ⟨base, type, hbase, htype, hgrown⟩
  · rw [hs] at hn
    cases hn
  · obtain rfl := Option.some.inj (hs.symm.trans hbase)
    exact ⟨type, htype, hgrown⟩

omit hd in
theorem Grown.body_builtin {extensions : List TypeDefinition}
    (h : Grown extensions (.builtinScalar name) type) : type.body = .scalar := by
  have hk : type.body.kind = .scalar := h.kind
  cases hb : type.body <;> rw [hb] at hk <;> first | rfl | cases hk

variable (htype : (Registry.build documents).1.type? name = some type)

include htype

/-- **Every type of a built registry is declared by the documents or built in**, apart from extensions. -/
theorem Declares.declared_or_builtin :
    (∃ base ∈ documents.flatMap Document.types, base.name = name ∧ Grown (extensionsOf documents name) base type) ∨
      name ∈ builtinScalars ∧ Grown (extensionsOf documents name) (.builtinScalar name) type := by
  rcases hd.type?_build name with ⟨hn, -⟩ | ⟨base, grown, hbase, hgrown, hp⟩
  · rw [hn] at htype
    cases htype
  obtain rfl := Option.some.inj (hgrown.symm.trans htype)
  rw [declaredTypes, find?_addAll hd.types_nodup, Option.or_eq_some_iff] at hbase
  rcases hbase with hbase | ⟨-, hbase⟩
  · exact Or.inl ⟨base, mem_of_find?_eq_some hbase, by simpa using find?_some hbase, hp⟩
  · obtain ⟨hname, rfl⟩ := builtin_of_initial hbase
    exact Or.inr ⟨hname, hp⟩

theorem Declares.exists_declared (hp : type.location.isBuiltin = false) :
    ∃ base ∈ documents.flatMap Document.types, base.name = name ∧ Grown (extensionsOf documents name) base type := by
  refine (hd.declared_or_builtin htype).resolve_right fun hb => ?_
  rw [hb.2.location] at hp
  cases hp

theorem Declares.user_or_grown (hp : Placed documents) : type ∈ (Registry.build documents).1.userTypes ∨
      name ∈ builtinScalars ∧ Grown (extensionsOf documents name) (.builtinScalar name) type := by
  refine (hd.declared_or_builtin htype).imp_left fun ⟨base, hbase, _, hgrown⟩ => ?_
  rw [mem_userTypes (named_build documents), hgrown.location]
  exact ⟨⟨name, htype⟩, hp base hbase⟩

theorem Declares.user_or_scalar (hp : Placed documents) :
    type ∈ (Registry.build documents).1.userTypes ∨ type.body = .scalar :=
  (hd.user_or_grown htype hp).imp_right fun h => h.2.body_builtin

theorem Declares.distinct (hp : Placed documents)
    (hv : (Registry.build documents).1.validate.hasErrors = false) : Distinct type := by
  rcases hd.user_or_scalar htype hp with hu | hb
  · simp only [validate, append_clean] at hv
    have hc := (hasErrors_flatMap _ _).mp hv.1.1.1 type hu
    simp only [checkType, append_clean] at hc
    exact distinct_of_checkBody hc.2
  · constructor <;> rw [hb] <;> exact nodup_nil

end Registry

end GraphClient
