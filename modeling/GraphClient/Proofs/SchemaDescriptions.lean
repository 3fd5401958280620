import GraphClient.Proofs.SchemaDocument
import GraphClient.Proofs.Spelling.Blocks

/-!
# Descriptions of a printed schema

A printed schema is read again with the descriptions of its definitions and their members, as far as the layout
of a block string keeps them. The descriptions of arguments are not printed. A negative infinity cannot be read
at all, and then there is nothing to describe.
-/

namespace GraphClient

open List Word DirectiveDefinition

/-- Whether the description of an element is read as it was. -/
def Described.survives (entry : Described) : Bool :=
  match entry.kind with
  | .argument => entry.text.isNone
  | _ => entry.text.all Text.isStable

theorem Text.map_reread_eq_self_iff (depth : Nat) (text : Option String) :
    text.map (reread depth) = text ↔ text.all isStable := by
  cases text with
  | none => simp
  | some text => rw [Option.map_some, Option.some_inj, Text.reread_eq_self_iff, Option.all_some]

theorem Described.reread_eq_self_iff (e : Described) : e.reread = e ↔ e.survives := by
  obtain ⟨path, kind, text⟩ := e
  cases kind <;>
    simp [Described.reread, Described.survives, Text.map_reread_eq_self_iff, eq_comm (a := none)]

theorem Described.map_reread_eq_self_iff (es : List Described) :
    es.map .reread = es ↔ ∀ e ∈ es, e.survives := by
  conv_lhs => rw [← map_id es, map_map]
  rw [map_inj_left]
  exact forall₂_congr fun e _ => e.reread_eq_self_iff

/-- The word that a negative infinity starts with. -/
def Word.minus : Word := ⟨.error, "-"⟩

theorem Value.minus_mem_words (value : Value) (h : .infinite true ∈ value.floats) : minus ∈ value.words := by
  induction value with
  | float x =>
    obtain rfl : .infinite true = x := mem_singleton.mp h
    exact mem_cons_self
  | list items ih =>
    rw [floats, itemFloats_eq] at h
    obtain ⟨item, hi, h⟩ := mem_flatMap.mp h
    rw [words, itemWords_eq]
    exact .tail _ (mem_append_left _ (mem_flatMap_of_mem hi (ih item hi h)))
  | object fields ih =>
    rw [floats, fieldFloats_eq] at h
    obtain ⟨field, hf, h⟩ := mem_flatMap.mp h
    rw [words, fieldWords_eq]
    exact .tail _ (mem_append_left _ (mem_flatMap_of_mem hf (.tail _ (.tail _ (ih field hf h)))))
  | _ => cases h

theorem mem_enclosed {α β : Type} {f : α → List β} {words : α → List Word} {items : List α} {b : β} {word : Word}
    (h : ∀ item, b ∈ f item → word ∈ words item) (hm : b ∈ items.flatMap f) :
    word ∈ items.flatMap words ∧ word ∈ enclosed words items ∧ word ∈ bracedWords words items := by
  obtain ⟨item, hi, hb⟩ := mem_flatMap.mp hm
  have hw : word ∈ items.flatMap words := mem_flatMap.mpr ⟨item, hi, h item hb⟩
  have hn : word ∈ items.flatMap words ++ [.mark .rightParen] := mem_append_left _ hw
  rw [enclosed, if_neg (by simpa using ne_nil_of_mem hi)]
  exact ⟨hw, .tail _ hn, .tail _ (mem_append_left _ hw)⟩

variable {uses : List DirectiveUse}

theorem DirectiveUse.minus_mem_words
    (h : .infinite true ∈ uses.flatMap floats) : minus ∈ uses.flatMap words :=
  (mem_enclosed (fun _ hu => .tail _ (.tail _ (mem_enclosed (fun arg ha =>
    .tail _ (.tail _ (arg.value.minus_mem_words ha))) hu).2.1)) h).1

theorem InputValueDefinition.minus_mem_words (input : InputValueDefinition) (h : .infinite true ∈ input.floats) :
    minus ∈ input.words := by
  refine .tail _ (.tail _ (mem_append_right _ (mem_append.mpr ((mem_append.mp h).imp (fun h => ?_)
    DirectiveUse.minus_mem_words))))
  cases hv : input.defaultValue with
  | none => simp [hv] at h
  | some v => exact .tail _ (v.minus_mem_words (by simpa [hv] using h))

theorem FieldDefinition.minus_mem_words (f : FieldDefinition) (h : .infinite true ∈ f.floats) : minus ∈ f.words := by
  simp only [words, bareWords, mem_append, mem_cons]
  rcases mem_append.mp h with h | h
  · exact .inr (.inr (.inl (mem_enclosed InputValueDefinition.minus_mem_words h).2.1))
  · exact .inr (.inr (.inr (.inr (.inr (DirectiveUse.minus_mem_words h)))))

theorem TypeBody.minus_mem_words {body : TypeBody}
    (h : .infinite true ∈ uses.flatMap DirectiveUse.floats ++ body.floats) : minus ∈ body.words uses := by
  have hv : ∀ value : EnumValueDefinition, .infinite true ∈ value.floats → minus ∈ value.words :=
    fun _ h => mem_append_right _ (.tail _ (DirectiveUse.minus_mem_words h))
  have hi : ∀ input : InputValueDefinition, .infinite true ∈ input.floats → minus ∈ input.fieldWords :=
    fun input h => mem_append_right _ (input.minus_mem_words h)
  replace h := (mem_append.mp h).imp_left DirectiveUse.minus_mem_words
  cases body with
  | scalar => exact h.resolve_right not_mem_nil
  | object _ fields | interface _ fields =>
    exact mem_append_right _ (mem_append.mpr (h.imp_right fun h =>
      (mem_enclosed FieldDefinition.minus_mem_words h).2.2))
  | union => exact mem_append_left _ (h.resolve_right not_mem_nil)
  | enum vals => exact mem_append.mpr (h.imp_right fun h => (mem_enclosed hv h).2.2)
  | inputObject fields => exact mem_append.mpr (h.imp_right fun h => (mem_enclosed hi h).2.2)

/-- **A part with a negative infinity cannot be read.** -/
theorem SchemaPart.minus_mem_words (part : SchemaPart) (h : .infinite true ∈ part.floats) : minus ∈ part.words := by
  cases part with
  | directive defn =>
    exact mem_append_right _ (.tail _ (.tail _ (.tail _ (mem_append_left _
      (mem_enclosed InputValueDefinition.minus_mem_words h).2.1))))
  | schema defn => exact .tail _ (mem_append_left _ (DirectiveUse.minus_mem_words h))
  | type defn => exact mem_append_right _ (.tail _ (.tail _ (TypeBody.minus_mem_words h)))

namespace Registry

variable {reg : Registry}

theorem Rereads.descriptions {again : Registry} (h : reg.Rereads again) :
    again.descriptions = reg.descriptions.map .reread := by
  have ht := congrArg (List.flatMap TypeDefinition.described) h.types
  have hd := congrArg (List.flatMap described) h.directives
  simp only [flatMap_map, TypeDefinition.described_relocate, TypeDefinition.described_reread] at ht
  simp only [flatMap_map, described_relocate, described_reread] at hd
  rw [Registry.descriptions, Registry.descriptions, ht, hd, map_append, map_flatMap, map_flatMap]

/-- **The printed schemas that can be read** are those without a negative infinity. -/
theorem read_print_iff (h : ∀ part ∈ reg.parts, part.isWellFormed) (src : Nat) (path : String) :
    (Document.read ⟨src, path, reg.print⟩).2 = [] ↔ .infinite true ∉ reg.floats := by
  refine ⟨fun hc hi => ?_, fun hi => (read_print h hi src path).1⟩
  obtain ⟨part, hp, hf⟩ := mem_flatMap.mp hi
  obtain ⟨ts, last, ht, hw, -⟩ := (lexes_print h).tokenize
  have hr := (Syntax.parse_readable hc).2
  rw [ht] at hr
  have hm : minus ∈ reg.parts.flatMap SchemaPart.words :=
    mem_flatMap.mpr ⟨part, hp, part.minus_mem_words hf⟩
  rw [← hw] at hm
  obtain ⟨t, ho, hmi⟩ := mem_map.mp hm
  exact hr t (mem_append_left _ ho) (congrArg kind hmi)

theorem directive_of_checkUse {place : DirectiveLocation} {use : DirectiveUse}
    (h : (checkUse reg place use false).diagnostics.hasErrors = false) :
    ∃ dir, reg.directive? use.name = some dir ∧ dir.locations.contains place := by
  rw [checkUse] at h
  cases hf : reg.directive? use.name with
  | none =>
    rw [hf] at h
    cases h
  | some dir =>
    refine ⟨dir, rfl, ?_⟩
    by_contra hp
    simp only [hf, if_neg hp, Findings.diagnostics_append, Diagnostics.append_clean] at h
    cases h.1.1

variable {docs : List Document}

theorem DeclaresOwn.placed_of_schema (hd : DeclaresOwn docs) {name : String}
    {dir : DirectiveDefinition} (h : (build docs).1.directive? name = some dir)
    (hs : dir.locations.contains .schema) : dir.location.isBuiltin = false := by
  obtain ⟨types, hu⟩ := hd.build
  rw [hu] at h
  change (declaredDirectives docs).find? name = some dir at h
  rw [declaredDirectives, find?_addAll hd.directives_nodup, Option.or_eq_some_iff] at h
  rcases h with h | ⟨-, h⟩
  · exact hd.directives_placed dir (mem_of_find?_eq_some h)
  · have hb : ∀ e ∈ initial.directives, e.2.locations.contains .schema = false := by decide
    cases hs.symm.trans (hb _ (NameMap.mem_of_find? h))

/-- A valid registry with a float in a printed value has something to describe. -/
theorem DeclaresOwn.descriptions_ne_nil (hd : DeclaresOwn docs)
    (hv : (build docs).1.validate.hasErrors = false) {float : Binary64}
    (h : float ∈ (build docs).1.floats) : (build docs).1.descriptions ≠ [] := by
  intro hn
  rw [descriptions, append_eq_nil_iff, flatMap_eq_nil_iff, flatMap_eq_nil_iff] at hn
  have hi : (build docs).1.userDirectives = [] :=
    eq_nil_iff_forall_not_mem.mpr fun dir hm => cons_ne_nil _ _ (hn.1 dir hm)
  have ht : (build docs).1.userTypes = [] :=
    eq_nil_iff_forall_not_mem.mpr fun type hm => cons_ne_nil _ _ (hn.2 type hm)
  obtain ⟨use, hu⟩ : ∃ use, use ∈ (build docs).1.schemaDirectives := by
    rw [floats, parts, hi, ht] at h
    obtain ⟨part, hp, hl⟩ := mem_flatMap.mp h
    obtain rfl : part = .schema (build docs).1.schema := by
      revert hp
      split_ifs <;> simp
    obtain ⟨use, hu, -⟩ := mem_flatMap.mp hl
    exact ⟨use, hu⟩
  have hc : (checkUse (build docs).1 .schema use false).diagnostics.hasErrors = false := by
    simp only [validate, Diagnostics.append_clean] at hv
    exact (checkDirectives_clean.mp hv.2).1 use hu
  obtain ⟨dir, hf, hs⟩ := directive_of_checkUse hc
  have hm : dir ∈ (build docs).1.userDirectives := mem_filter.mpr
    ⟨mem_map.mpr ⟨_, NameMap.mem_of_find? hf, rfl⟩, by rw [hd.placed_of_schema hf hs]; rfl⟩
  rw [hi] at hm
  exact not_mem_nil hm

end Registry

theorem descriptions_analyze {srcs : List Source} (h : (Document.readAll srcs).2 = []) :
    (analyze srcs).registry.descriptions = (Registry.build (Source.documents srcs)).1.descriptions := by
  simp only [analyze, h]
  change (analyzeDocuments (Source.documents srcs) []).registry.descriptions = _
  simp only [analyzeDocuments]
  split_ifs <;> rfl

/-- **The runs whose descriptions survive printing.** The printed schema of an accepted run is read with the same
descriptions just if no argument has one, those of several lines hold no carriage return, have content in their
first and last line and a line without indentation, and no negative infinity is printed. -/
theorem descriptions_print_iff (sources : List Source) (source : Source)
    (hids : ∀ source ∈ sources, source.id ≠ Location.builtinSource) (hid : source.id ≠ Location.builtinSource)
    (hok : (analyze sources).isOk) (htext : source.text = (analyze sources).registry.print) :
    (analyze [source]).registry.descriptions = (analyze sources).registry.descriptions ↔
      (∀ entry ∈ (analyze sources).registry.descriptions, entry.survives) ∧
        .infinite true ∉ (analyze sources).registry.floats := by
  have hpassed := passed_of_isOk hok
  rw [registry_of_passed hpassed] at htext ⊢
  by_cases hinfinite : .infinite true ∈ (Source.registry sources).floats
  · refine iff_of_false (fun hsame => ?_) fun h => h.2 hinfinite
    have hunread : (Document.readAll [source]).2.hasErrors := by
      have hunread : (Document.read source).2 ≠ [] := fun hread => by
        rw [show source = ⟨source.id, source.path, (Source.registry sources).print⟩ from htext ▸ rfl,
          Registry.read_print_iff (Source.parts_isWellFormed hpassed).1] at hread
        exact hread hinfinite
      rw [Document.readAll, map_singleton, flatMap_singleton]
      by_contra hclean
      exact hunread ((Syntax.parse_fatal _ _).eq_nil (Bool.eq_false_iff.mpr hclean))
    have hnone : (analyze [source]).registry.descriptions = [] := by
      simp only [analyze, hunread, if_true]
      rfl
    rw [hnone] at hsame
    simp only [Source.schemaProblems, Diagnostics.hasErrors_append, Bool.or_eq_false_iff] at hpassed
    have hd : Registry.DeclaresOwn (Source.documents sources) :=
      ⟨(Registry.build_clean.mp hpassed.1.2).1, placed_documents hids, directivesPlaced_documents hids⟩
    exact hd.descriptions_ne_nil hpassed.2 hinfinite hsame.symm
  · obtain ⟨hread, -, hrereads, -⟩ := Source.rereads_print hid hpassed htext hinfinite
    rw [descriptions_analyze hread, hrereads.descriptions, Described.map_reread_eq_self_iff]
    exact (and_iff_left hinfinite).symm

/-- Descriptions of several lines, on a definition and on a field. -/
def stableSources : List Source :=
  Source.number [("a", "\"\"\"\nOne.\n  Two.\n\"\"\" type Query \x7b \"A\\nB\" a: Int \x7d")]

theorem descriptions_print_stable : (analyze stableSources).isOk ∧
      (analyze stableSources).registry.descriptions =
        [⟨["Query"], .definition, some "One.\n  Two."⟩, ⟨["Query", "a"], .member, some "A\nB"⟩] ∧
      (analyze [⟨0, "schema", (analyze stableSources).registry.print⟩]).registry.descriptions =
        (analyze stableSources).registry.descriptions := by
  have hids : ∀ source ∈ stableSources, source.id ≠ Location.builtinSource := by decide
  have hid : (0 : Nat) ≠ Location.builtinSource := by decide
  have hfacts : (analyze stableSources).isOk ∧ (analyze stableSources).registry.descriptions =
        [⟨["Query"], .definition, some "One.\n  Two."⟩, ⟨["Query", "a"], .member, some "A\nB"⟩] ∧
      (∀ entry ∈ (analyze stableSources).registry.descriptions, entry.survives) ∧
      .infinite true ∉ (analyze stableSources).registry.floats := by decide +kernel
  have hagain : ∀ text, text = (analyze stableSources).registry.print →
      (analyze [⟨0, "schema", text⟩]).registry.descriptions = (analyze stableSources).registry.descriptions :=
    fun text htext =>
      (descriptions_print_iff stableSources ⟨0, "schema", text⟩ hids hid hfacts.1 htext).mpr hfacts.2.2
  exact ⟨hfacts.1, hfacts.2.1, hagain _ rfl⟩

def argumentSources : List Source := Source.number [("a", "type Query \x7b f(\"d\" a: Int): Int \x7d")]

/-- **The descriptions of arguments do not survive printing.** -/
theorem argument_description_lost : (analyze argumentSources).isOk ∧
      ⟨["Query", "f", "a"], .argument, some "d"⟩ ∈ (analyze argumentSources).registry.descriptions ∧
      (analyze argumentSources).registry.print = "type Query \x7b\n  f(a: Int): Int\n\x7d\n" ∧
      ⟨["Query", "f", "a"], .argument, none⟩ ∈
        (analyze [⟨0, "schema", "type Query \x7b\n  f(a: Int): Int\n\x7d\n"⟩]).registry.descriptions := by
  decide +kernel

end GraphClient
