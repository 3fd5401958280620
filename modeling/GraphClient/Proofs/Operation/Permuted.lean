import GraphClient.Proofs.Operation.RelocateOperation
import GraphClient.Proofs.Schema.Permuted

/-!
# Operations of documents in another order

* **`Bindings.ofDocuments_rearranged`**: the operations of documents that come in another order are
  accepted at the same time, and they are the same up to places.
-/

namespace GraphClient

open List FragmentDefinition NameMap

variable {move : Location → Location} {docs docs' : List Document}

theorem repeatedFragments_clean : (repeatedFragments docs).hasErrors = false ↔
    ((docs.flatMap Document.fragments).map name).Nodup := by
  have hp : (orderedFragments docs).Perm (docs.flatMap Document.fragments) := sortBy_perm _ _
  rw [← (hp.map _).nodup_iff, ← markRepeats_unmarked, Diagnostics.hasErrors_eq_false]
  constructor
  · intro h marked hm
    obtain ⟨frag, repeated⟩ := marked
    cases repeated with
    | false => rfl
    | true =>
      have hr := h (Problem.duplicateName "fragment" frag.name frag.location).diagnostic
        (mem_filterMap.mpr ⟨(frag, true), hm, rfl⟩)
      cases hr
  · intro h d hd
    obtain ⟨⟨frag, repeated⟩, hm, hs⟩ := mem_filterMap.mp hd
    obtain rfl : repeated = false := h _ hm
    cases hs

theorem find?_declaredFragments {docs : List Document}
    (hn : ((docs.flatMap Document.fragments).map FragmentDefinition.name).Nodup) {name : String}
    {frag : FragmentDefinition} : (declaredFragments docs).find? name = some frag ↔
      frag ∈ docs.flatMap Document.fragments ∧ frag.name = name := by
  have ho : ((orderedFragments docs).map FragmentDefinition.name).Nodup :=
    ((sortBy_perm _ _).map _).nodup_iff.mpr hn
  have hm : (name, frag) ∈ declaredFragments docs ↔
      frag ∈ docs.flatMap Document.fragments ∧ frag.name = name := by
    rw [declaredFragments, firsts_eq_self ho, mem_ofList (by rwa [map_map])]
    simp only [orderedFragments, mem_map, Prod.mk.injEq, mem_sortBy]
    constructor
    · rintro ⟨other, ht, ha, rfl⟩
      exact ⟨ht, ha⟩
    · exact fun h => ⟨frag, h.1, h.2, rfl⟩
  rw [← hm]
  exact ⟨mem_of_find?, find?_of_mem (sorted_ofList _)⟩

theorem orderedFragments_rearranged (h : Rearranged move docs docs') :
    PermBy (relocate move) (orderedFragments docs) (orderedFragments docs') :=
  h.fragments.sorted _

theorem relocate_declaredFragments (hn : ((docs.flatMap Document.fragments).map name).Nodup) :
    relocateDeclared move (declaredFragments docs) = ofList (((orderedFragments docs).map (relocate move)).map
        fun frag => (frag.name, frag)) := by
  have hn' : ((orderedFragments docs).map name).Nodup :=
    ((sortBy_perm _ _).map _).nodup_iff.mpr hn
  rw [relocateDeclared, declaredFragments, firsts_eq_self hn', ← ofList_map, map_map, map_map]
  rfl

/-- **The declared fragments are the same in every order**, up to places. -/
theorem declaredFragments_rearranged (h : Rearranged move docs docs')
    (hn : ((docs.flatMap Document.fragments).map name).Nodup) : relocateDeclared move (declaredFragments docs) =
      relocateDeclared move (declaredFragments docs') := by
  have hn' := (h.fragments.map name fun _ => rfl).nodup_iff.mp hn
  rw [relocate_declaredFragments hn, relocate_declaredFragments hn']
  refine ofList_eq_of_perm (List.Perm.map _ (orderedFragments_rearranged h)) ?_
  rw [map_map, map_map]
  exact ((sortBy_perm _ _).map name).nodup_iff.mpr hn

variable {reg reg' : Registry} (hmove : move .builtin = .builtin)
  (houtline : reg.outline move = reg'.outline move) (h : Rearranged move docs docs')

include hmove houtline h

theorem Scope.ofDocuments_rearranged (hc : (Scope.ofDocuments reg docs).2.hasErrors = false) :
    (Scope.ofDocuments reg' docs').2.hasErrors = false ∧ (Scope.ofDocuments reg docs).1.relocate move =
        (Scope.ofDocuments reg' docs').1.relocate move := by
  rw [ofDocuments_eq] at *
  simp only [Diagnostics.append_clean] at hc ⊢
  obtain ⟨hr, hd⟩ := hc
  have hn := repeatedFragments_clean.mp hr
  have hn' := (h.fragments.map name fun _ => rfl).nodup_iff.mp hn
  have hs : ofDeclared (reg.outline move) (relocateDeclared move (declaredFragments docs)) =
      ofDeclared (reg'.outline move) (relocateDeclared move (declaredFragments docs')) := by
    rw [houtline, declaredFragments_rearranged h hn]
  rw [ofDeclared_relocate hmove, ofDeclared_relocate hmove, Prod.mk.injEq] at hs
  refine ⟨⟨repeatedFragments_clean.mpr hn', ?_⟩, hs.1⟩
  rw [← Diagnostics.hasErrors_relocate, ← hs.2, Diagnostics.hasErrors_relocate]
  exact hd

namespace Bindings

omit hmove houtline in
theorem definitions_rearranged : PermBy (OperationDefinition.relocate move) (definitions docs) (definitions docs') :=
  h.operations.sorted _

theorem ofDocuments_rearranged (hc : (ofDocuments reg docs).2.hasErrors = false) :
    (ofDocuments reg' docs').2.hasErrors = false ∧
      (ofDocuments reg docs).1.operations.map (BoundOperation.relocate move) =
        (ofDocuments reg' docs').1.operations.map (BoundOperation.relocate move) ∧
      (ofDocuments reg docs).1.fragments.map (fun entry => (entry.1, entry.2.relocate move)) =
        (ofDocuments reg' docs').1.fragments.map fun entry => (entry.1, entry.2.relocate move) := by
  obtain ⟨hs, hn, hr⟩ := ofDocuments_clean.mp hc
  obtain ⟨hs', ha⟩ := Scope.ofDocuments_rearranged hmove houtline h hs
  have hd := definitions_rearranged h
  have hn' : ((definitions docs').filterMap OperationDefinition.name).Nodup := by
    have hna : ∀ ds : List OperationDefinition, ds.filterMap OperationDefinition.name =
        (ds.map (OperationDefinition.relocate move)).filterMap OperationDefinition.name := by
      intro ds
      rw [filterMap_map]
      rfl
    rw [hna] at hn ⊢
    exact (List.Perm.filterMap _ hd).nodup_iff.mp hn
  have hr' : ∀ definition ∈ definitions docs',
      ((Scope.ofDocuments reg' docs').1.bindOperation definition).2.hasErrors = false := by
    intro definition he
    obtain ⟨other, ho, hm⟩ := hd.exists_of_mem he
    rw [← (Scope.bindOperation_relocate _ hmove _).2, ← ha, ← hm, (Scope.bindOperation_relocate _ hmove _).2]
    exact hr other ho
  refine ⟨ofDocuments_clean.mpr ⟨hs', hn', hr'⟩, ?_, ?_⟩
  · rw [ofDocuments_eq hn, ofDocuments_eq hn']
    have hm : ∀ (scope : Scope) (ds : List OperationDefinition),
        ((ds.map scope.bindOperation).filterMap Prod.fst).map (BoundOperation.relocate move) =
          (ds.map (OperationDefinition.relocate move)).filterMap fun definition =>
            ((scope.relocate move).bindOperation definition).1 := by
      intro scope ds
      rw [filterMap_map, map_filterMap, filterMap_map]
      refine filterMap_congr fun definition _ => ?_
      exact (scope.bindOperation_relocate hmove definition).1.symm
    refine PermBy.sortBy_name_eq ?_ BoundOperation.name (fun _ => rfl) ?_
    · rw [PermBy, hm, hm, ha]
      exact List.Perm.filterMap _ hd
    · have hna : (((definitions docs).map (Scope.ofDocuments reg docs).1.bindOperation).filterMap Prod.fst).map
            BoundOperation.name = (definitions docs).filterMap OperationDefinition.name := by
        rw [filterMap_map, map_filterMap]
        exact filterMap_congr fun definition he =>
          Scope.name_bindOperation (hr definition he)
      exact hna ▸ hn
  · exact congrArg Scope.bound ha

end Bindings

end GraphClient
