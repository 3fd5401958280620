import Mathlib.Data.List.Nodup
import GraphClient.Repeats

/-!
# Lists without repeated names

* **`markRepeats_unmarked`**: nothing is marked only if no name is repeated.
-/

namespace GraphClient

open List

variable {α : Type} {name : α → String}

theorem map_fst_markRepeatsAfter (seen : List String) (es : List α) :
    (markRepeatsAfter name seen es).map Prod.fst = es := by
  induction es generalizing seen with
  | nil => rfl
  | cons e rest ih => rw [markRepeatsAfter, map_cons, ih]

theorem map_fst_markRepeats (es : List α) : (markRepeats name es).map Prod.fst = es :=
  map_fst_markRepeatsAfter [] es

theorem fst_mem_of_mem_markRepeats {es : List α} {marked : α × Bool} (h : marked ∈ markRepeats name es) :
    marked.1 ∈ es := by
  rw [← @map_fst_markRepeats _ name es]
  exact mem_map_of_mem h

variable {β : Type} {A : α → Prop}

theorem markRepeatsAfter_map {label : β → String} {f : α → β}
    (h : ∀ e, label (f e) = name e) (seen : List String) (es : List α) : markRepeatsAfter label seen (es.map f) =
      (markRepeatsAfter name seen es).map fun marked => (f marked.1, marked.2) := by
  induction es generalizing seen with
  | nil => rfl
  | cons e rest ih => simp [markRepeatsAfter, h, ih]

theorem markRepeats_map {label : β → String} {f : α → β}
    (h : ∀ e, label (f e) = name e) (es : List α) : markRepeats label (es.map f) =
      (markRepeats name es).map fun marked => (f marked.1, marked.2) :=
  markRepeatsAfter_map h [] es

variable {es : List α} {seen : List String}

theorem forall_mem_markRepeatsAfter (B : String → Prop) : (∀ marked ∈ markRepeatsAfter name seen es,
      A marked.1 ∧ (marked.2 → B (name marked.1))) ↔ (∀ e ∈ es, A e ∧ (name e ∈ seen → B (name e))) ∧
        es.Pairwise fun a b => name a = name b → B (name b) := by
  induction es generalizing seen with
  | nil => simp [markRepeatsAfter]
  | cons e rest ih =>
    rw [markRepeatsAfter, forall_mem_cons, forall_mem_cons, ih, pairwise_cons]
    simp only [contains_iff_mem, mem_cons]
    constructor
    · rintro ⟨he, hr, hp⟩
      refine ⟨⟨he, fun other h => ⟨(hr other h).1, fun hs => (hr other h).2 (.inr hs)⟩⟩,
        fun other h hq => (hr other h).2 (.inl hq.symm), hp⟩
    · rintro ⟨⟨he, hr⟩, hf, hp⟩
      refine ⟨he, fun other h => ⟨(hr other h).1, fun hs => ?_⟩, hp⟩
      exact hs.elim (fun hq => hf other h hq.symm) (hr other h).2

theorem forall_mem_markRepeats (B : String → Prop) :
    (∀ marked ∈ markRepeats name es, A marked.1 ∧ (marked.2 → B (name marked.1))) ↔
      (∀ e ∈ es, A e) ∧ es.Pairwise fun a b => name a = name b → B (name b) := by
  rw [markRepeats, forall_mem_markRepeatsAfter]
  simp

theorem markRepeats_unmarked : (∀ marked ∈ markRepeats name es, marked.2 = false) ↔ (es.map name).Nodup := by
  have h : (∀ marked ∈ markRepeats name es, True ∧ (marked.2 → False)) ↔ _ :=
    forall_mem_markRepeats (A := fun _ => True) fun _ => False
  simpa [Nodup, pairwise_map] using h

theorem markRepeats_eq_map (hn : (es.map name).Nodup) : markRepeats name es = es.map fun e => (e, false) := by
  conv_rhs => rw [← @map_fst_markRepeats _ name es, map_map]
  refine ((map_congr_left fun marked hm => ?_).trans (map_id _)).symm
  exact Prod.ext rfl (markRepeats_unmarked.mpr hn marked hm).symm

theorem firsts_eq_self (hn : (es.map name).Nodup) : firsts name es = es := by
  rw [firsts, markRepeats_eq_map hn, filterMap_map]
  exact filterMap_some

theorem mem_of_mem_firsts {e : α} (h : e ∈ firsts name es) : e ∈ es := by
  obtain ⟨marked, hm, hs⟩ := mem_filterMap.mp h
  have he := fst_mem_of_mem_markRepeats hm
  split at hs
  next first repeated =>
    split_ifs at hs
    exact Option.some.inj hs ▸ he

end GraphClient
