import GraphClient.Proofs.FrozenRegistry
import Mathlib.Logic.Relation

/-!
# The hierarchy of interfaces

A type names all interfaces that it implements, those of its interfaces included. Only its own name is left
out of that rule, so two interfaces that implement each other are accepted.
-/

namespace GraphClient

variable {srcs : List Source}

namespace Registry

variable {reg : Registry} {name : String} {e : NamedRef}

theorem Valid.kind?_of_implements (h : reg.Valid) {type : TypeDefinition}
    (ht : reg.type? name = some type) (he : e ∈ type.implements) : reg.kind? e.name = some .interface :=
  h.wellFormed.interfaces ((mem_values h.named).mpr ⟨name, ht⟩) he

theorem Valid.possibleTypes_subset (h : reg.Valid) (hh : reg.Hierarchical)
    {iface : TypeDefinition} (hf : reg.type? name = some iface)
    (hk : iface.kind = .interface) (he : e ∈ iface.implements) : reg.possibleTypes name ⊆ reg.possibleTypes e.name := by
  intro obj ho
  obtain ⟨type, ht, hok, hi⟩ := (h.named.mem_possibleTypes_interface hf hk).mp ho
  obtain ⟨listed, hl, rfl⟩ := List.mem_map.mp hi
  obtain ⟨parent, hp, hpk⟩ := Option.map_eq_some_iff.mp (h.kind?_of_implements hf he)
  rw [h.named.mem_possibleTypes_interface hp hpk]
  refine ⟨type, ht, hok, ?_⟩
  refine ((hh _ _ ht _ hl _ hf).interfaces e he).resolve_left fun hs => ?_
  rw [hs, h.named.name_eq ht] at hp
  obtain rfl := Option.some.inj (hp.symm.trans ht)
  rw [hok] at hpk
  cases hpk

end Registry

/-- **Interfaces can be used in place of their implementations.** Every object type of an interface has its
fields, each standing for the one of the interface, and is of every interface that the interface implements. -/
theorem interfaces_substitutable (sources : List Source)
    (hids : ∀ source ∈ sources, source.id ≠ Location.builtinSource) (hok : (analyze sources).isOk)
    (name : String) (interface : TypeDefinition) (hfound : (analyze sources).registry.type? name = some interface)
    (hkind : interface.kind = .interface) :
    (∀ object ∈ (analyze sources).registry.possibleTypes name, ∀ expected ∈ interface.fields,
      ∃ actual, (analyze sources).registry.field? object expected.name = some actual ∧
        Registry.StandsFor actual expected) ∧ ∀ parent ∈ interface.implements,
      (analyze sources).registry.possibleTypes name ⊆ (analyze sources).registry.possibleTypes parent.name := by
  have hpassed := passed_of_isOk hok
  rw [registry_of_passed hpassed] at hfound ⊢
  have hvalid := valid_of_passed hids hpassed
  have hhierarchy := hierarchical_of_passed hids hpassed
  refine ⟨fun object hobject expected hexpected => ?_,
    fun parent hparent => hvalid.possibleTypes_subset hhierarchy hfound hkind hparent⟩
  obtain ⟨type, htype, -, hlists⟩ := (hvalid.named.mem_possibleTypes_interface hfound hkind).mp hobject
  obtain ⟨listed, hlisted, rfl⟩ := List.mem_map.mp hlists
  rw [Registry.field?_of_type? htype]
  exact (hhierarchy _ _ htype _ hlisted _ hfound).fields expected hexpected

/-- Three levels of interfaces, with a field that narrows its type and adds an argument. -/
def leveledSources : List Source :=
  Source.number [
    ("a", "interface Node \x7b id: ID \x7d interface Item implements Node \x7b id: ID name(short: Int): String \x7d"),
    ("b", "type Query implements Item \x7b id: ID! name(short: Int, size: Int): String! \x7d " ++
      "extend type Query implements Node")]

theorem interfaces_substitutable_leveled : ∃ interface,
    (analyze leveledSources).registry.type? "Item" = some interface ∧
      "Query" ∈ (analyze leveledSources).registry.possibleTypes "Item" ∧
      (∀ object ∈ (analyze leveledSources).registry.possibleTypes "Item", ∀ expected ∈ interface.fields,
        ∃ actual, (analyze leveledSources).registry.field? object expected.name = some actual ∧
          Registry.StandsFor actual expected) ∧
      ∀ parent ∈ interface.implements, (analyze leveledSources).registry.possibleTypes "Item" ⊆
        (analyze leveledSources).registry.possibleTypes parent.name := by
  obtain ⟨hok, hkind, hobject⟩ : (analyze leveledSources).isOk ∧
      (analyze leveledSources).registry.kind? "Item" = some .interface ∧
      "Query" ∈ (analyze leveledSources).registry.possibleTypes "Item" := by decide +kernel
  obtain ⟨interface, hfound, hkind⟩ := Option.map_eq_some_iff.mp hkind
  have hids : ∀ source ∈ leveledSources, source.id ≠ Location.builtinSource := by decide
  exact ⟨interface, hfound, hobject, interfaces_substitutable leveledSources hids hok "Item" interface hfound hkind⟩

namespace Registry

/-- The type `a` names `b` among the interfaces that it implements. -/
def Implements (registry : Registry) (a b : String) : Prop :=
  ∃ type, registry.type? a = some type ∧ b ∈ type.implements.map NamedRef.name

variable {reg : Registry} {a b : String}

theorem implements_iff : reg.Implements a b ↔ (reg.type? a).any (TypeDefinition.lists · b) := by
  cases h : reg.type? a <;> simp [Implements, h, lists_iff]

instance : Decidable (reg.Implements a b) := decidable_of_iff _ implements_iff.symm

/-- One step up leads to another type, and two steps up are one or lead back. -/
theorem Valid.implements_step (h : reg.Valid) (hh : reg.Hierarchical)
    (ha : reg.Implements a b) : a ≠ b ∧ ∀ c, reg.Implements b c → c = a ∨ reg.Implements a c := by
  obtain ⟨type, ht, hb⟩ := ha
  obtain ⟨e, he, rfl⟩ := List.mem_map.mp hb
  obtain ⟨iface, hf, -⟩ := Option.map_eq_some_iff.mp (h.kind?_of_implements ht he)
  have hi := hh _ _ ht _ he _ hf
  have hn := h.named.name_eq ht
  refine ⟨fun hq => hi.ne ?_, ?_⟩
  · rw [h.named.name_eq hf, hn, hq]
  · rintro c ⟨other, ho, hc⟩
    obtain rfl := Option.some.inj (hf.symm.trans ho)
    obtain ⟨inherited, hin, rfl⟩ := List.mem_map.mp hc
    exact (hi.interfaces inherited hin).imp (·.trans hn) fun hm => ⟨type, ht, hm⟩

/-- **Whatever is above a type is named by it**, the type itself apart. -/
theorem Valid.implements_of_path (h : reg.Valid) (hh : reg.Hierarchical)
    (hp : Relation.ReflTransGen reg.Implements a b) : b = a ∨ reg.Implements a b := by
  induction hp with
  | refl => exact .inl rfl
  | @tail b c _ hb ih =>
    rcases ih with rfl | ha
    · exact .inr hb
    · exact (h.implements_step hh ha).2 c hb

end Registry

/-- **Cycles are pairs of interfaces that implement each other.** So the hierarchy of a frozen registry has
no cycles just when there is no such pair. -/
theorem hierarchy_acyclic_iff (sources : List Source) (hids : ∀ source ∈ sources, source.id ≠ Location.builtinSource)
    (hfrozen : (analyze sources).registry.isFrozen) :
    (∀ name, (analyze sources).registry.kind? name = some .interface →
      ¬ Relation.TransGen (analyze sources).registry.Implements name name) ↔
    ∀ a b, (analyze sources).registry.Implements a b → ¬ (analyze sources).registry.Implements b a := by
  have hpassed := isFrozen_iff.mp hfrozen
  rw [registry_of_passed hpassed]
  have hvalid := valid_of_passed hids hpassed
  have hhierarchy := hierarchical_of_passed hids hpassed
  constructor
  · intro hacyclic a b hab hba
    obtain ⟨type, htype, ha⟩ := id hba
    obtain ⟨entry, hentry, rfl⟩ := List.mem_map.mp ha
    exact hacyclic _ (hvalid.kind?_of_implements htype hentry) (.tail (.single hab) hba)
  · intro hpairs name _ hcycle
    -- The last step of a cycle comes from an interface that is above the type, or from the type itself.
    obtain ⟨last, hpath, hlast⟩ := Relation.TransGen.tail'_iff.mp hcycle
    rcases hvalid.implements_of_path hhierarchy hpath with rfl | habove
    · exact (hvalid.implements_step hhierarchy hlast).1 rfl
    · exact hpairs _ _ habove hlast

theorem hierarchy_acyclic_leveled : (∀ source ∈ leveledSources, source.id ≠ Location.builtinSource) ∧
      (analyze leveledSources).registry.isFrozen ∧
      ∀ name, (analyze leveledSources).registry.kind? name = some .interface →
        ¬ Relation.TransGen (analyze leveledSources).registry.Implements name name := by
  have hids : ∀ source ∈ leveledSources, source.id ≠ Location.builtinSource := by decide
  obtain ⟨hfrozen, hpairs⟩ : (analyze leveledSources).registry.isFrozen ∧
      ∀ entry ∈ (analyze leveledSources).registry.types, ∀ listed ∈ entry.2.implements,
        ¬ (analyze leveledSources).registry.Implements listed.name entry.1 := by decide +kernel
  refine ⟨hids, hfrozen, (hierarchy_acyclic_iff leveledSources hids hfrozen).mpr ?_⟩
  rintro a b ⟨type, htype, hb⟩
  obtain ⟨listed, hlisted, rfl⟩ := List.mem_map.mp hb
  exact hpairs (a, type) (NameMap.mem_of_find? htype) listed hlisted

/-- Two interfaces that implement each other. -/
def mutualSources : List Source :=
  Source.number [
    ("a", "interface A implements B \x7b x: Int \x7d interface B implements A \x7b x: Int \x7d " ++
      "type Query \x7b a: A \x7d")]

theorem mutual_interfaces_accepted : (analyze mutualSources).registry.isFrozen ∧
      (analyze mutualSources).registry.kind? "A" = some .interface ∧
      Relation.TransGen (analyze mutualSources).registry.Implements "A" "A" := by
  obtain ⟨hfrozen, hkind, hab, hba⟩ : (analyze mutualSources).registry.isFrozen ∧
      (analyze mutualSources).registry.kind? "A" = some .interface ∧
      (analyze mutualSources).registry.Implements "A" "B" ∧
      (analyze mutualSources).registry.Implements "B" "A" := by decide +kernel
  exact ⟨hfrozen, hkind, .tail (.single hab) hba⟩

end GraphClient
