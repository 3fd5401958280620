import GraphClient.Proofs.Sources
import GraphClient.Proofs.Syntax.Starts
import GraphClient.Schema.Build

/-!
# Documents in another order

The definitions of all documents are sorted before they are used. No two of them tie: definitions of
different sources differ in the source, and those of one text start at different offsets. So neither the
registry nor the bound operations depend on the order of the documents, whatever problems they have.
-/

namespace GraphClient

open List Std Document Ordering

instance : TransOrd Span := inferInstanceAs (TransCmp (compareLex (compareOn Span.start) (compareOn Span.stop)))

instance : LawfulEqOrd Span where
  eq_of_compare {a b} h := by
    obtain ⟨hs, ht⟩ := then_eq_eq.mp h
    cases a
    cases b
    rw [Span.mk.injEq]
    exact ⟨LawfulEqOrd.eq_of_compare hs, LawfulEqOrd.eq_of_compare ht⟩

instance : TransOrd Location :=
  inferInstanceAs (TransCmp (compareLex (compareOn Location.source) (compareOn Location.span)))

instance : LawfulEqOrd Location where
  eq_of_compare {a b} h := by
    obtain ⟨hs, hp⟩ := then_eq_eq.mp h
    cases a
    cases b
    rw [Location.mk.injEq]
    exact ⟨LawfulEqOrd.eq_of_compare hs, LawfulEqOrd.eq_of_compare hp⟩

instance : TransOrd TypeKind := inferInstanceAs (TransCmp (compareOn TypeKind.rank))

instance : LawfulEqOrd TypeKind where
  eq_of_compare {a b} h := by
    have hr : a.rank = b.rank := LawfulEqOrd.eq_of_compare h
    revert hr
    cases a <;> cases b <;> simp [TypeKind.rank]

def PlacedApart {α : Type} (place : α → Location) (entries : List α) : Prop :=
  ∀ a ∈ entries, ∀ b ∈ entries, place a = place b → a = b

/-- **Definitions of one sort at the same place are the same**, in a list of documents. -/
structure Document.Apart (documents : List Document) : Prop where
  types : PlacedApart TypeDefinition.location (documents.flatMap Document.types)
  extensions : PlacedApart TypeDefinition.location (documents.flatMap Document.extensions)
  schemas : PlacedApart SchemaDefinition.location (documents.flatMap Document.schemas)
  directives : PlacedApart DirectiveDefinition.location (documents.flatMap Document.directives)
  operations : PlacedApart OperationDefinition.location (documents.flatMap Document.operations)
  fragments : PlacedApart FragmentDefinition.location (documents.flatMap Document.fragments)

variable {α : Type} {srcs : List Source}

theorem apart_readAll_part {place : α → Location} (part : Document → List α) (g : Nat → Syntax.Definition → Option α)
    (hpa : ∀ src tree, part (.ofSyntax src tree) = tree.definitions.filterMap (g src))
    (hp : ∀ src defn a, g src defn = some a →
      (place a).source = src ∧ (place a).span.start = defn.start) (hids : (srcs.map Source.id).Nodup) :
    PlacedApart place ((Document.readAll srcs).1.flatMap part) := by
  have hm : ∀ a ∈ (readAll srcs).1.flatMap part, ∃ src ∈ srcs,
      ∃ defn ∈ (Syntax.parse src.id src.text).1.definitions, g src.id defn = some a := by
    intro a ha
    obtain ⟨doc, ho, ha⟩ := mem_flatMap.mp ha
    simp only [readAll, map_map, mem_map] at ho
    obtain ⟨src, hs, rfl⟩ := ho
    rw [Function.comp_apply, Document.read, hpa, mem_filterMap] at ha
    exact ⟨src, hs, ha⟩
  intro a ha b hb hab
  obtain ⟨src, hs, defn, hd, hg⟩ := hm a ha
  obtain ⟨source', hs', definition', hd', hg'⟩ := hm b hb
  obtain ⟨hi, ht⟩ := hp _ _ _ hg
  obtain ⟨hi', ht'⟩ := hp _ _ _ hg'
  obtain rfl : src = source' :=
    inj_on_of_nodup_map hids hs hs' (by rw [← hi, ← hi', hab])
  have hsa : defn.start = definition'.start := by rw [← ht, ← ht', hab]
  obtain rfl : defn = definition' :=
    Syntax.eq_of_mem_places hd hd' mem_cons_self (hsa ▸ mem_cons_self)
  exact Option.some.inj (hg.symm.trans hg')

theorem Document.apart_readAll (hi : (srcs.map Source.id).Nodup) : Apart (readAll srcs).1 := by
  constructor <;>
    refine apart_readAll_part _ _ (fun _ _ => rfl) (fun src defn a h => ?_) hi <;>
    cases defn <;> simp only [Option.some.injEq, reduceCtorEq] at h <;> subst h <;> exact ⟨rfl, rfl⟩

/-- Entries at different places, sorted by a comparison that goes on to the place. -/
theorem PlacedApart.sortBy_eq {place : α → Location} {es entries' : List α}
    (h : PlacedApart place es) (hperm : es.Perm entries') {cmp : α → α → Ordering} [TransCmp cmp]
    (hc : ∀ a b, cmp a b = .eq → compare (place a) (place b) = .eq) : sortBy cmp es = sortBy cmp entries' :=
  sortBy_eq_of_perm hperm fun a ha b hb ht => h a ha b hb (LawfulEqOrd.eq_of_compare (hc a b ht))

theorem PlacedApart.filter {place : α → Location} {es : List α} (h : PlacedApart place es)
    (p : α → Bool) : PlacedApart place (es.filter p) :=
  fun a ha b hb => h a (mem_of_mem_filter ha) b (mem_of_mem_filter hb)

instance transCmp_then_place {α β : Type} [Ord β] [TransOrd β] (key : α → β) (place : α → Location) :
    TransCmp fun a b => (compare (key a) (key b)).then (compare (place a) (place b)) :=
  inferInstanceAs (TransCmp (compareLex (compareOn key) (compareOn place)))

instance transCmp_place {α : Type} (place : α → Location) :
    TransCmp fun a b => compare (place a) (place b) := transCmp_of_key place

section Permuted

variable {docs documents' : List Document} (h : Apart docs) (hperm : docs.Perm documents')

include h hperm

namespace Registry

theorem orderedTypes_perm : orderedTypes docs = orderedTypes documents' :=
  h.types.sortBy_eq (hperm.flatMap_right _) fun _ _ ht => (then_eq_eq.mp ht).2

theorem orderedDirectives_perm : orderedDirectives docs = orderedDirectives documents' :=
  h.directives.sortBy_eq (hperm.flatMap_right _) fun _ _ ht => (then_eq_eq.mp ht).2

theorem orderedSchemas_perm : orderedSchemas docs = orderedSchemas documents' :=
  h.schemas.sortBy_eq (hperm.flatMap_right _) fun _ _ ht => (then_eq_eq.mp ht).2

theorem extensionGroups_perm : extensionGroups docs = extensionGroups documents' := by
  have he := hperm.flatMap_right extensions
  have : TransCmp keyOrder :=
    inferInstanceAs (TransCmp (compareLex (compareOn Prod.fst) (compareOn (Prod.snd : String × TypeKind → _))))
  have hk : sortBy keyOrder ((docs.flatMap extensions).map extensionKey) =
      sortBy keyOrder ((documents'.flatMap extensions).map extensionKey) := by
    refine sortBy_eq_of_perm (he.map _) fun a _ b _ ht => ?_
    obtain ⟨hn, hi⟩ := then_eq_eq.mp ht
    exact Prod.ext (LawfulEqOrd.eq_of_compare hn) (LawfulEqOrd.eq_of_compare hi)
  have hp : ∀ key : String × TypeKind, sortBy (fun a b => compare a.location b.location)
          ((docs.flatMap extensions).filter fun ext => extensionKey ext == key) =
        sortBy (fun a b => compare a.location b.location)
          ((documents'.flatMap extensions).filter fun ext => extensionKey ext == key) :=
    fun key => (h.extensions.filter _).sortBy_eq (he.filter _) fun _ _ ht => ht
  simp only [extensionGroups, hk, hp]

/-- **The registry of documents in another order**, with the same reports in the same order. -/
theorem build_perm : build documents' = build docs := by
  simp [build, applySchemas, orderedTypes_perm h hperm, orderedDirectives_perm h hperm, orderedSchemas_perm h hperm,
    extensionGroups_perm h hperm]

end Registry

theorem orderedFragments_perm : orderedFragments docs = orderedFragments documents' :=
  h.fragments.sortBy_eq (hperm.flatMap_right _) fun _ _ ht => ht

theorem orderedOperations_perm : orderedOperations docs = orderedOperations documents' :=
  congrArg (orderedOperations.markNamed [])
    (h.operations.sortBy_eq (hperm.flatMap_right _) fun _ _ ht => ht)

/-- **Operations and fragments of documents in another order**, with the same reports in the same order. -/
theorem Bindings.ofDocuments_perm (reg : Registry) :
    Bindings.ofDocuments reg documents' = Bindings.ofDocuments reg docs := by
  simp [Bindings.ofDocuments, Scope.ofDocuments, declaredFragments, repeatedFragments, orderedFragments_perm h hperm,
    orderedOperations_perm h hperm]

end Permuted

/-- **The documents of sources with different numbers can come in any order**: the registry, the operations
and fragments bound with it and all reports are the same, whatever problems the documents have. -/
theorem build_and_bind_perm {sources : List Source} (hids : (sources.map Source.id).Nodup)
    {documents : List Document} (hperm : documents.Perm (readAll sources).1) :
    Registry.build documents = Registry.build (Document.readAll sources).1 ∧
      ∀ registry, Bindings.ofDocuments registry documents =
        Bindings.ofDocuments registry (Document.readAll sources).1 :=
  have hapart := apart_readAll hids
  ⟨Registry.build_perm hapart hperm.symm, Bindings.ofDocuments_perm hapart hperm.symm⟩

/-- Three sources with a type and a schema declared twice, an unknown name, a cycle of fragments and two
definitions of an operation. -/
def clashingSources : List Source :=
  [⟨7, "a", "type Query \x7b x: Int y: Missing \x7d schema \x7b query: Query \x7d type T \x7b a: Int \x7d"⟩,
    ⟨3, "b", "type T \x7b b: Int \x7d schema \x7b query: T \x7d " ++
      "fragment F on Query \x7b ...G \x7d query Q \x7b ...F \x7d"⟩,
    ⟨5, "c", "extend type T \x7b c: Int \x7d fragment G on Query \x7b ...F \x7d query Q \x7b x \x7d"⟩]

theorem build_and_bind_perm_clashing : (clashingSources.map Source.id).Nodup ∧
      (Document.readAll clashingSources).1.reverse.Perm (Document.readAll clashingSources).1 ∧
      (Registry.build (Document.readAll clashingSources).1).2.length = 3 ∧
      (Bindings.ofDocuments (Registry.build (Document.readAll clashingSources).1).1
        (Document.readAll clashingSources).1).2.length = 4 ∧
      Registry.build (Document.readAll clashingSources).1.reverse =
        Registry.build (Document.readAll clashingSources).1 ∧
      ∀ registry, Bindings.ofDocuments registry (Document.readAll clashingSources).1.reverse =
        Bindings.ofDocuments registry (Document.readAll clashingSources).1 := by
  have hids : (clashingSources.map Source.id).Nodup := by decide
  exact ⟨hids, reverse_perm _, by decide +kernel, by decide +kernel, build_and_bind_perm hids (reverse_perm _)⟩

end GraphClient
