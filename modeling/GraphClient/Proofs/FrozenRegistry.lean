import GraphClient.Proofs.Analysis
import GraphClient.Proofs.Schema.Conformance
import GraphClient.Proofs.Sources

/-!
# Frozen registries

A run freezes its registry just when neither the texts nor the schema have errors. So whatever works on a
frozen registry can rely on its form.

* **`valid_of_passed`**: such a registry has no problems.
-/

namespace GraphClient

open Source Registry

theorem Registry.isFrozen_build (docs : List Document) : (build docs).1.isFrozen = false := by
  obtain ⟨types, hb⟩ := (attemptAll_extend (schemaStage_keeps docs).2 (extensionGroups docs)).2.2
  rw [build_eq, extensionStage, hb]
  exact (schemaStage_keeps docs).2

variable {srcs : List Source}

/-- **When a run freezes its registry.** -/
theorem isFrozen_iff : (analyze srcs).registry.isFrozen ↔ (schemaProblems srcs).hasErrors = false := by
  refine ⟨fun hf => ?_, fun ha => by rw [registry_of_passed ha]; rfl⟩
  cases hp : (schemaProblems srcs).hasErrors with
  | false => rfl
  | true =>
    have hm : (analyze srcs).registry.isFrozen = false := by
      simp only [schemaProblems, documents] at hp
      cases ht : (Document.readAll srcs).2.hasErrors with
      | true => simp [analyze, ht, initial]
      | false =>
        simp only [analyze, ht, Bool.false_eq_true, if_false, analyzeDocuments, hp, if_true, isFrozen_build]
    rw [hm] at hf
    cases hf

section Foreign

variable (hids : ∀ source ∈ srcs, source.id ≠ Location.builtinSource)

include hids

theorem placed_documents : Placed (documents srcs) := fun type ht => by
  obtain ⟨src, hs, hi⟩ := Document.source_of_mem_types ht
  rw [Location.isBuiltin, hi]
  exact beq_false_of_ne (hids src hs)

theorem directivesPlaced_documents : DirectivesPlaced (documents srcs) := fun dir h => by
  obtain ⟨src, hs, hi⟩ := Document.source_of_mem_directives h
  rw [Location.isBuiltin, hi]
  exact beq_false_of_ne (hids src hs)

theorem hierarchical_of_passed (hp : (schemaProblems srcs).hasErrors = false) : (registry srcs).Hierarchical := by
  simp only [schemaProblems, Diagnostics.append_clean] at hp
  exact hierarchical_build (placed_documents hids) hp.1.2 hp.2

theorem valid_of_passed (hp : (schemaProblems srcs).hasErrors = false) : (registry srcs).Valid := by
  have hc := (hierarchical_of_passed hids hp).conforming
  simp only [schemaProblems, Diagnostics.append_clean] at hp
  have hf := wellFormed_build (placed_documents hids) (directivesPlaced_documents hids)
    hp.1.2 hp.2
  exact ⟨named_registry srcs, hf.freeze, hc⟩

end Foreign

/-- **A frozen registry is well formed.** The number of the built-in definitions is the only one that a
source cannot have; numbering by position never gives it. -/
theorem wellFormed_of_isFrozen (sources : List Source) (hids : ∀ source ∈ sources, source.id ≠ Location.builtinSource)
    (hfrozen : (analyze sources).registry.isFrozen) : (analyze sources).registry.WellFormed := by
  have hpassed := isFrozen_iff.mp hfrozen
  rw [registry_of_passed hpassed]
  exact (valid_of_passed hids hpassed).wellFormed

/-- Types of every kind, spread over extensions in two inputs. -/
def extendedSources : List Source :=
  number [ ("a", "directive @tag(a: [In!]) on OBJECT interface Node \x7b id: ID! \x7d union Any = Query " ++
      "enum Color \x7b RED \x7d input In \x7b n: Int \x7d schema \x7b query: Query \x7d"),
    ("b", "type Query implements Node \x7b id: ID! \x7d extend type Query \x7b any(in: In): Any \x7d " ++
      "extend enum Color \x7b BLUE \x7d extend input In \x7b c: Color \x7d")]

theorem wellFormed_of_isFrozen_extended : (∀ source ∈ extendedSources, source.id ≠ Location.builtinSource) ∧
      (analyze extendedSources).registry.isFrozen ∧ (analyze extendedSources).registry.WellFormed := by
  have hids : ∀ source ∈ extendedSources, source.id ≠ Location.builtinSource := by decide
  have hfrozen : (analyze extendedSources).registry.isFrozen := by decide +kernel
  exact ⟨hids, hfrozen, wellFormed_of_isFrozen extendedSources hids hfrozen⟩

end GraphClient
