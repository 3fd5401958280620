import GraphClient.Proofs.Operation.Permuted
import GraphClient.Proofs.Operation.Rebind
import GraphClient.Proofs.Operation.UsedFragments

/-!
# Request documents on their own

A request document holds one operation of a run and the fragments that it uses. Bound on its own, it gives
the operation again.

* **`Scope.Complete.ofDocuments_request`**: a request document is bound to its operation.
-/

namespace GraphClient

open List Bindings NameMap

namespace Scope

variable {scope : Scope}

/-- **Fragments that a scope binds like its own**, with all that they spread. -/
structure Restricts (scope : Scope) (declared : NameMap FragmentDefinition) : Prop where
  restated : ∀ name fragment, declared.find? name = some fragment →
    ∃ original, scope.declared.find? name = some original ∧ scope.bindFragment fragment = scope.bindFragment original ∧
      Selection.spreadsIn fragment.selections = Selection.spreadsIn original.selections
  closed : ∀ name fragment, declared.find? name = some fragment →
    ∀ spread ∈ Selection.spreadsIn fragment.selections, declared.contains spread.name

namespace Restricts

variable {decl : NameMap FragmentDefinition} (h : scope.Restricts decl)

include h

theorem contains {name : String} (hn : decl.contains name) : scope.declared.contains name := by
  obtain ⟨frag, hf⟩ := Option.isSome_iff_exists.mp hn
  obtain ⟨orig, ho, -⟩ := h.restated name frag hf
  exact contains_of_find? ho

theorem fragmentOrder_eq_nil (hc : scope.Complete) : (fragmentOrder decl).2 = [] := by
  obtain ⟨order, hb, ha⟩ := hc.ordered
  refine fragmentOrder_clean order.idxOf fun name other hs => ?_
  obtain ⟨frag, hf, spread, hp, hd, ht⟩ := spreads_iff.mp hs
  obtain ⟨orig, ho, -, hr⟩ := h.restated name frag hf
  refine hb.idxOf_lt (ha name (contains_of_find? ho)) (spreads_iff.mpr ?_)
  exact ⟨orig, ho, spread, hr ▸ hp, h.contains hd, ht⟩

theorem bindFragments (hc : scope.Complete) {order : List String} (hbe : Behind decl order) :
    ∃ bound, ((Scope.mk scope.registry decl []).bindFragments order).1 = ⟨scope.registry, decl, bound⟩ ∧
      ((Scope.mk scope.registry decl []).bindFragments order).2.hasErrors = false ∧
      ∀ name ∈ order, bound.find? name = scope.bound.find? name := by
  induction hbe with
  | nil => exact ⟨[], rfl, rfl, fun _ hn => absurd hn not_mem_nil⟩
  | @snoc order name frag hor hf hne hp ih =>
    obtain ⟨bound, hsc, hcl, hb⟩ := ih
    obtain ⟨orig, ho, hr, -⟩ := h.restated name frag hf
    have haccepted := hc.accepted name orig ho
    have hi : (Scope.mk scope.registry decl bound).bindFragment frag = scope.bindFragment orig := by
      rw [← hr]
      refine (bindFragment_congr fun spread hs => ?_).1
      have hd := h.closed name frag hf spread hs
      exact ⟨hd.trans (h.contains hd).symm, hb _ (hp spread hs hd)⟩
    have hre : (scope.bindFragment orig).1 = some (scope.fragmentResult orig) := by
      rw [(bindFragment_clean.mp haccepted).1]
    have hn : (scope.fragmentResult orig).name = name := hc.named name orig ho
    rw [bindFragments_snoc _ order name frag hf, hsc, hi, hre]
    refine ⟨bound.insert (scope.fragmentResult orig).name (scope.fragmentResult orig), rfl, ?_, fun other ht => ?_⟩
    · rw [Diagnostics.hasErrors_append, hcl, haccepted]
      rfl
    · rw [find?_insert, hn]
      split_ifs with he
      · rw [hc.bound, ← he, ho]
        rfl
      · refine hb other ((mem_append.mp ht).resolve_right fun hl => he ?_)
        exact (mem_singleton.mp hl).symm

end Restricts

theorem Restricts.ofDocuments {docs : List Document} (h : scope.Restricts (declaredFragments docs))
    (hc : scope.Complete) (hn : ((docs.flatMap Document.fragments).map FragmentDefinition.name).Nodup) :
    ∃ bound, (Scope.ofDocuments scope.registry docs).1 = ⟨scope.registry, declaredFragments docs, bound⟩ ∧
      (Scope.ofDocuments scope.registry docs).2.hasErrors = false ∧ ∀ name, (declaredFragments docs).contains name →
        bound.find? name = scope.bound.find? name := by
  have hy := h.fragmentOrder_eq_nil hc
  obtain ⟨hb, ha⟩ := fragmentOrder_behind hy
  obtain ⟨bound, hs, hl, ho⟩ := h.bindFragments hc hb
  refine ⟨bound, hs, ?_, fun name hna => ho name (ha name hna)⟩
  simp only [Scope.ofDocuments, Diagnostics.hasErrors_append, hy, hl, repeatedFragments_clean.mpr hn]
  rfl

theorem bindOperation_congr {decl : NameMap FragmentDefinition} {bound : NameMap BoundFragment}
    {defn : OperationDefinition} (h : scope.Agrees decl bound (Selection.spreadsIn defn.selections)) :
    (Scope.mk scope.registry decl bound).bindOperation defn = scope.bindOperation defn := by
  simp only [bindOperation, fun root => bindSet_congr root h]
  rfl

theorem fragments_request (op : BoundOperation) (bound : NameMap BoundFragment) (src : Nat) :
    [op.requestDocument bound src].flatMap Document.fragments =
      (op.usedFragments bound).map BoundFragment.unbind := append_nil _

theorem Complete.find?_of_reached (h : scope.Complete) {sels : List Selection}
    {frag : FragmentDefinition} (hr : Reached scope.declared sels frag) :
    scope.declared.find? frag.name = some frag := by
  induction hr with
  | here _ hf => rwa [h.named _ _ hf]
  | through _ _ _ ih => exact ih

namespace Complete

variable (h : scope.Complete) {defn : OperationDefinition} {op : BoundOperation}
  (hbind : (scope.bindOperation defn).1 = some op)
  (haccepted : (scope.bindOperation defn).2.hasErrors = false)

include h hbind haccepted

theorem mem_fragments {name : String} : name ∈ op.fragments ↔
      ∃ frag, Reached scope.declared defn.selections frag ∧ frag.name = name := by
  rw [← h.mem_spreads (clean_operation hbind haccepted)]
  obtain ⟨_, root, -, -, rfl⟩ := exists_operationResult hbind
  simp [operationResult, operationNotes]

theorem mem_usedFragments {bound : BoundFragment} : bound ∈ op.usedFragments scope.bound ↔
      ∃ orig, Reached scope.declared defn.selections orig ∧ bound = scope.fragmentResult orig := by
  rw [BoundOperation.usedFragments, mem_filterMap]
  simp only [h.mem_fragments hbind haccepted, h.bound]
  constructor
  · rintro ⟨_, ⟨orig, hr, rfl⟩, hb⟩
    rw [h.find?_of_reached hr, Option.map_some, Option.some.injEq] at hb
    exact ⟨orig, hr, hb.symm⟩
  · rintro ⟨orig, hr, rfl⟩
    refine ⟨orig.name, ⟨orig, hr, rfl⟩, ?_⟩
    rw [h.find?_of_reached hr, Option.map_some]

theorem names_usedFragments : (op.usedFragments scope.bound).map BoundFragment.name = op.fragments := by
  rw [BoundOperation.usedFragments, map_filterMap]
  refine Eq.trans (filterMap_congr fun name hn => ?_) filterMap_some
  obtain ⟨orig, hr, rfl⟩ := (h.mem_fragments hbind haccepted).mp hn
  rw [h.bound, h.find?_of_reached hr]
  rfl

variable (src : Nat)

theorem nodup_request : (([op.requestDocument scope.bound src].flatMap
    Document.fragments).map FragmentDefinition.name).Nodup := by
  have hn : ((op.usedFragments scope.bound).map BoundFragment.unbind).map
      FragmentDefinition.name = op.fragments := by
    rw [map_map]
    exact h.names_usedFragments hbind haccepted
  rw [fragments_request, hn]
  obtain ⟨_, root, -, -, rfl⟩ := exists_operationResult hbind
  exact NameSet.Sorted.nodup (NameSet.sorted_ofList _)

/-- **The fragments of a request document.** -/
theorem find?_request {name : String} {frag : FragmentDefinition} :
    (declaredFragments [op.requestDocument scope.bound src]).find? name = some frag ↔
      ∃ orig, Reached scope.declared defn.selections orig ∧ orig.name = name ∧
        frag = (scope.fragmentResult orig).unbind := by
  rw [find?_declaredFragments (h.nodup_request hbind haccepted src), fragments_request, mem_map]
  constructor
  · rintro ⟨⟨bound, hb, rfl⟩, rfl⟩
    obtain ⟨orig, hr, rfl⟩ := (h.mem_usedFragments hbind haccepted).mp hb
    exact ⟨orig, hr, rfl, rfl⟩
  · rintro ⟨orig, hr, rfl, rfl⟩
    exact ⟨⟨_, (h.mem_usedFragments hbind haccepted).mpr ⟨orig, hr, rfl⟩, rfl⟩, rfl⟩

theorem contains_request {orig : FragmentDefinition} (hr : Reached scope.declared defn.selections orig) :
    (declaredFragments [op.requestDocument scope.bound src]).contains orig.name :=
  contains_of_find?
    ((h.find?_request hbind haccepted src).mpr ⟨orig, hr, rfl, rfl⟩)

theorem restricts_request : scope.Restricts (declaredFragments [op.requestDocument scope.bound src]) := by
  constructor
  · intro name frag hf
    obtain ⟨orig, hr, rfl, rfl⟩ := (h.find?_request hbind haccepted src).mp hf
    have ho := h.find?_of_reached hr
    exact ⟨orig, ho, h.bindFragment_unbind ho, h.spreadsIn_unbind ho⟩
  · intro name frag hf spread hs
    obtain ⟨orig, hr, rfl, rfl⟩ := (h.find?_request hbind haccepted src).mp hf
    have ho := h.find?_of_reached hr
    rw [h.spreadsIn_unbind ho] at hs
    have hd := (notesSpreads_set (h.clean_fragment ho)).declared spread hs
    obtain ⟨inner, hi⟩ := Option.isSome_iff_exists.mp hd
    rw [← h.named _ _ hi]
    exact h.contains_request hbind haccepted src (hr.trans (.here hs hi))

theorem ofDocuments_request : let bindings := Bindings.ofDocuments scope.registry [op.requestDocument scope.bound src]
    bindings.2.hasErrors = false ∧ bindings.1.operations = [op] ∧
      ∀ name ∈ op.fragments, bindings.1.fragments.find? name = scope.bound.find? name := by
  intro bindings
  have ho {orig : FragmentDefinition}
      (hr : Reached scope.declared defn.selections orig) :=
    h.contains_request hbind haccepted src hr
  obtain ⟨bound, hsc, hl, hb⟩ :=
    (h.restricts_request hbind haccepted src).ofDocuments h (h.nodup_request hbind haccepted src)
  obtain ⟨hre, ha⟩ := h.bindOperation_unbind hbind haccepted
  -- the operation spreads fragments that the document holds
  have hsa : (Scope.ofDocuments scope.registry [op.requestDocument scope.bound src]).1.bindOperation op.unbind =
      scope.bindOperation op.unbind := by
    rw [hsc]
    refine bindOperation_congr fun spread hs => ?_
    rw [(h.restatesSet_operation hbind haccepted).spreads] at hs
    have hd := (notesSpreads_set (clean_operation hbind haccepted)).declared spread hs
    obtain ⟨orig, hf⟩ := Option.isSome_iff_exists.mp hd
    have hc := ho (.here hs hf)
    rw [h.named _ _ hf] at hc
    exact ⟨hc.trans hd.symm, hb _ hc⟩
  have he : definitions [op.requestDocument scope.bound src] = [op.unbind] := rfl
  have hn : ((definitions [op.requestDocument scope.bound src]).filterMap
      OperationDefinition.name).Nodup := nodup_singleton op.name
  refine ⟨ofDocuments_clean.mpr ⟨hl, hn, ?_⟩, ?_, fun name hna => ?_⟩
  · rw [he, forall_mem_singleton, hsa]
    exact ha
  · simp only [bindings, Bindings.ofDocuments_eq hn, he, map_cons, hsa, filterMap_cons, hre]
    rfl
  · obtain ⟨orig, hr, rfl⟩ := (h.mem_fragments hbind haccepted).mp hna
    rw [fragments_ofDocuments, hsc]
    exact hb _ (ho hr)

end Complete

end Scope

end GraphClient
