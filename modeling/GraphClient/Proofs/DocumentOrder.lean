import GraphClient.Proofs.Analysis
import GraphClient.Proofs.Operation.Permuted
import GraphClient.Proofs.Schema.PermutedBuild
import GraphClient.Proofs.Schema.Printed
import GraphClient.Proofs.Sources

/-!
# The order of inputs

What a run finds does not depend on the order of its inputs, with one exception: directives that several
extensions add to a type. They are sorted by name and arguments, and those that agree in both are printed
in the order of the inputs, so it shows which of them writes its arguments in which order.
-/

namespace GraphClient

open List Printer DirectiveUse Source

theorem Printer.length_directives_of_perm {move : Location → Location} {uses uses' : List DirectiveUse}
    (h : PermBy (relocate move) uses uses') : (directives uses).length = (directives uses').length := by
  have hj : ∀ texts : List String, (String.join texts).length = (texts.map String.length).sum := by
    intro texts
    induction texts with
    | nil => rfl
    | cons text rest ih => rw [String.join_cons, String.length_append, ih, map_cons, sum_cons]
  rw [← directives_relocate move uses, ← directives_relocate move uses', directives_eq, directives_eq, hj, hj]
  exact ((List.Perm.map useText h).map String.length).sum_nat

namespace Registry

/-- The directives that extensions add to a type, by place. -/
def addedUses (documents : List Document) (type : String) : List DirectiveUse :=
  (extensionsOf documents type).flatMap TypeDefinition.directives

/-- **Two lists of uses write those of the same name and arguments alike**, one after the other. -/
def WrittenAlike (uses uses' : List DirectiveUse) : Prop :=
  ∀ key, (ofKey uses key).map useText = (ofKey uses' key).map useText

variable {move : Location → Location} {documents documents' : List Document}

theorem keys_of_perm {uses uses' : List DirectiveUse} (h : PermBy (relocate move) uses uses') :
    (uses.map key).Perm (uses'.map key) := by
  refine h.map key fun use => ?_
  simp only [key, argumentKey, relocate, map_map]
  rfl

theorem addedUses_rearranged (h : Rearranged move documents documents') (type : String) :
    PermBy (relocate move) (addedUses documents type) (addedUses documents' type) :=
  (extensionsOf_rearranged h type).flatMap TypeDefinition.directives fun _ => rfl

/-- The directives of a type, and what extensions add to them. -/
theorem directives_type_iff (hd : Declares documents) (h : Rearranged move documents documents')
    {name : String} {type type' : TypeDefinition} (ht : (build documents).1.type? name = some type)
    (ht' : (build documents').1.type? name = some type') :
    Printer.directives type.directives = Printer.directives type'.directives ↔
      WrittenAlike (addedUses documents name) (addedUses documents' name) := by
  obtain ⟨base, base', hb, hp, hp'⟩ := exists_bases hd h ht ht'
  have hf : (base.relocate move).directives = (base'.relocate move).directives := by rw [hb]
  have he : Printer.directives base.directives = Printer.directives base'.directives := by
    simpa [TypeDefinition.relocate] using
      congrArg Printer.directives hf
  rw [hp.directives, hp'.directives, directives_append, directives_append, he, String.append_right_inj]
  exact directives_sorted_iff (keys_of_perm (addedUses_rearranged h name))

/-- The directives of the schema, and what extensions add to them. -/
theorem directives_schema_iff (hd : Declares documents) (h : Rearranged move documents documents') :
    Printer.directives (build documents).1.schemaDirectives = Printer.directives (build documents').1.schemaDirectives ↔
      WrittenAlike (addedSchemaUses documents) (addedSchemaUses documents') := by
  have ht : Printer.directives (ownSchemaUses documents) = Printer.directives (ownSchemaUses documents') := by
    simpa using
      congrArg Printer.directives (ownSchemaUses_rearranged hd h)
  rw [hd.schemaDirectives_build, (hd.rearranged h).schemaDirectives_build, directives_append,
    directives_append, ht, String.append_right_inj]
  exact directives_sorted_iff (keys_of_perm (addedSchemaUses_rearranged h))

theorem Declares.type?_declared (hd : Declares documents) {type : TypeDefinition}
    (ht : type ∈ documents.flatMap Document.types) :
    ∃ grown, (Registry.build documents).1.type? type.name = some grown ∧ grown.location = type.location := by
  have hf : (declaredTypes documents).find? type.name = some type := by
    rw [declaredTypes, find?_addAll hd.types_nodup, Option.or_eq_some_iff]
    refine Or.inl ?_
    cases ho : (documents.flatMap Document.types).find? fun e => e.name == type.name with
    | none => exact absurd (beq_self_eq_true type.name) (find?_eq_none.mp ho type ht)
    | some other =>
      have hn : other.name = type.name := by simpa using find?_some ho
      rw [inj_on_of_nodup_map hd.types_nodup (mem_of_find?_eq_some ho) ht hn]
  rcases hd.type?_build type.name with ⟨-, hno⟩ | ⟨base, grown, hb, hg, hp⟩
  · rw [hno] at hf
    cases hf
  · rw [hb] at hf
    exact ⟨grown, hg, hp.location.trans (congrArg _ (Option.some.inj hf))⟩

/-- **When two orders of documents are printed alike.** -/
theorem print_rearranged_iff (hb : ∀ l : Location, (move l).isBuiltin = l.isBuiltin)
    (hp : Placed documents) (hd : Declares documents) (h : Rearranged move documents documents')
    (ho : (build documents).1.outline move = (build documents').1.outline move) :
    (build documents).1.print = (build documents').1.print ↔ (∀ type ∈ documents.flatMap Document.types,
        WrittenAlike (addedUses documents type.name) (addedUses documents' type.name)) ∧
      ((build documents).1.hasSchema → WrittenAlike (addedSchemaUses documents) (addedSchemaUses documents')) := by
  rw [print_eq_iff ho hb (named_build documents) (named_build documents')
    (fun ht ht' => length_directives_of_perm (directives_build hd h ht ht'))
    (length_directives_of_perm (schemaDirectives_perm hd h)), directives_schema_iff hd h]
  refine and_congr_left fun _ => ⟨fun ha type ht => ?_, fun ha name type type' ht ht' hpl => ?_⟩
  · obtain ⟨grown, hg, hl⟩ := hd.type?_declared ht
    obtain ⟨grown', hg', -⟩ := type?_of_revised (revised_outline move (build documents').1)
      (ho ▸ revised_outline move (build documents).1) hg
    refine (directives_type_iff hd h hg hg').mp (ha hg hg' ?_)
    rw [hl]
    exact hp type ht
  · obtain ⟨decl, he, rfl, -⟩ := hd.exists_declared ht hpl
    exact (directives_type_iff hd h ht ht').mpr (ha decl he)

end Registry

theorem rearranged_of_perm {inputs inputs' : List (String × String)} (h : inputs.Perm inputs') :
    Rearranged .forget (documents (number inputs)) (documents (number inputs')) := by
  rw [Rearranged, PermBy, documents, documents, Document.readAll_number, Document.readAll_number]
  exact h.map _

theorem Registry.print_freeze (reg : Registry) : reg.freeze.print = reg.print := rfl

theorem Registry.hasSchema_freeze (reg : Registry) : reg.freeze.hasSchema = reg.hasSchema := rfl

theorem Registry.outline_freeze {move : Location → Location} {reg reg' : Registry}
    (h : reg.outline move = reg'.outline move) : reg.freeze.outline move = reg'.freeze.outline move := by
  simp only [outline, mk.injEq] at h ⊢
  tauto

theorem map_bare_relocate (move : Location → Location) (ops : List BoundOperation) :
    (ops.map (BoundOperation.relocate move)).map BoundOperation.bare = ops.map BoundOperation.bare := by
  rw [map_map]
  exact map_congr_left fun op _ => op.bare_relocate move

theorem map_document_relocate (move : Location → Location) (ops : List BoundOperation)
    (frags : NameMap BoundFragment) : (ops.map (.relocate move)).map (BoundOperation.document ·
        (frags.map fun e => (e.1, e.2.relocate move))) = ops.map (BoundOperation.document · frags) := by
  rw [map_map]
  exact map_congr_left fun op _ => op.document_relocate move frags

/-- **Two orders of a run write directives alike**: on each declared type and on the schema, the directives
of the same name and arguments that extensions add have the same texts, one after the other. -/
def Source.WriteAlike (sources sources' : List Source) : Prop :=
  (∀ type ∈ (documents sources).flatMap Document.types,
    Registry.WrittenAlike (Registry.addedUses (documents sources) type.name)
      (Registry.addedUses (documents sources') type.name)) ∧
  ((registry sources).hasSchema → Registry.WrittenAlike (Registry.addedSchemaUses (documents sources))
      (Registry.addedSchemaUses (documents sources')))

/-- **A run in another order of its inputs** is accepted too, and it has the same operations and request
documents. Its schema is printed alike just if both orders write directives alike. -/
theorem analyze_perm_iff {inputs inputs' : List (String × String)} (hperm : inputs.Perm inputs')
    (hok : (analyze (Source.number inputs)).isOk) : (analyze (Source.number inputs')).isOk ∧
      (analyze (Source.number inputs)).operations.map BoundOperation.bare =
        (analyze (Source.number inputs')).operations.map BoundOperation.bare ∧
      (analyze (Source.number inputs)).operations.map
          (BoundOperation.document · (analyze (Source.number inputs)).fragments) =
        (analyze (Source.number inputs')).operations.map
          (BoundOperation.document · (analyze (Source.number inputs')).fragments) ∧
      ((analyze (Source.number inputs)).registry.print = (analyze (Source.number inputs')).registry.print ↔
        Source.WriteAlike (Source.number inputs) (Source.number inputs')) := by
  have hrearranged := rearranged_of_perm hperm
  obtain ⟨hpassed, hbindings⟩ := isOk_iff.mp hok
  have hstages := hpassed
  simp only [Source.schemaProblems, Diagnostics.hasErrors_append, Bool.or_eq_false_iff] at hstages
  obtain ⟨⟨htexts, hbuild⟩, hvalid⟩ := hstages
  have hplaced : Registry.Placed (Source.documents (Source.number inputs)) :=
    fun type htype => Document.isBuiltin_readAll htype
  obtain ⟨hbuild', hvalid', houtline⟩ :=
    Registry.build_rearranged Location.isBuiltin_forget hplaced hrearranged hbuild hvalid
  have htexts' : (Document.readAll (Source.number inputs')).2.hasErrors = false := by
    rw [Document.readAll_clean] at htexts ⊢
    exact fun text htext => htexts text ((hperm.map Prod.snd).mem_iff.mpr htext)
  have hpassed' : (Source.schemaProblems (Source.number inputs')).hasErrors = false := by
    simp only [Source.schemaProblems, Diagnostics.hasErrors_append, Bool.or_eq_false_iff]
    exact ⟨⟨htexts', hbuild'⟩, hvalid'⟩
  have hfrozen : (Source.registry (Source.number inputs)).outline Location.forget =
      (Source.registry (Source.number inputs')).outline Location.forget :=
    Registry.outline_freeze houtline
  obtain ⟨hbindings', hoperations, hfragments⟩ := Bindings.ofDocuments_rearranged
    Location.forget_builtin hfrozen hrearranged hbindings
  refine ⟨isOk_iff.mpr ⟨hpassed', hbindings'⟩, ?_, ?_, ?_⟩
  · rw [operations_of_passed hpassed, operations_of_passed hpassed',
      ← map_bare_relocate Location.forget, hoperations, map_bare_relocate]
  · rw [operations_of_passed hpassed, operations_of_passed hpassed', bound_of_passed hpassed,
      bound_of_passed hpassed', ← map_document_relocate Location.forget, hoperations, hfragments,
      map_document_relocate]
  · rw [registry_of_passed hpassed, registry_of_passed hpassed', Source.WriteAlike, Source.registry,
      Source.registry, Registry.print_freeze, Registry.print_freeze, Registry.hasSchema_freeze]
    exact Registry.print_rearranged_iff Location.isBuiltin_forget hplaced
      (Registry.build_clean.mp hbuild).1 hrearranged houtline

/-- Extensions of one type in two inputs, a schema extension and a fragment in a third. -/
def extensionInputs : List (String × String) :=
  [("a", "directive @tag(a: Int, b: Int) repeatable on OBJECT | SCHEMA type Query \x7b x: Int \x7d"),
    ("b", "extend type Query @tag(b: 2) \x7b z: Int \x7d query Q \x7b ...F \x7d"),
    ("c", "schema \x7b query: Query \x7d extend schema @tag fragment F on Query \x7b x y z \x7d"),
    ("d", "extend type Query @tag(a: 1) \x7b y: Int \x7d")]

theorem analyze_perm_iff_extensions : (analyze (number extensionInputs)).isOk ∧
      (analyze (number extensionInputs.reverse)).isOk ∧
      (analyze (Source.number extensionInputs)).operations.map BoundOperation.bare =
        (analyze (Source.number extensionInputs.reverse)).operations.map BoundOperation.bare ∧
      (analyze (number extensionInputs)).operations.map
          (BoundOperation.document · (analyze (Source.number extensionInputs)).fragments) =
        (analyze (number extensionInputs.reverse)).operations.map
          (BoundOperation.document · (analyze (Source.number extensionInputs.reverse)).fragments) ∧
      ((analyze (number extensionInputs)).registry.print =
          (analyze (number extensionInputs.reverse)).registry.print ↔
        WriteAlike (number extensionInputs) (number extensionInputs.reverse)) := by
  have hok : (analyze (number extensionInputs)).isOk := by decide +kernel
  exact ⟨hok, analyze_perm_iff (reverse_perm _).symm hok⟩

/-- Two extensions that write the same arguments in two orders. -/
def swappedArguments : List (String × String) :=
  [("a", "directive @tag(a: Int, b: Int) repeatable on OBJECT type Query \x7b x: Int \x7d"),
    ("b", "extend type Query @tag(b: 2, a: 1)"), ("c", "extend type Query @tag(a: 1, b: 2)")]

/-- The order of these inputs shows in the printed schema. -/
theorem print_ne_of_swappedArguments : (analyze (number swappedArguments)).isOk ∧
      (analyze (number swappedArguments.reverse)).isOk ∧
      (analyze (number swappedArguments)).registry.print ≠
        (analyze (number swappedArguments.reverse)).registry.print := by
  decide +kernel

end GraphClient
