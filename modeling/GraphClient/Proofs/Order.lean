import GraphClient.Order
import Mathlib.Data.List.Sort

/-!
# Laws of ordered lists

* **`sortBy_eq_of_perm`**: the order of the input does not matter when no two of its elements tie.
* **`filter_sortBy`**: elements that tie keep their order.
* **`NameMap.ext`**: two maps in order that hold the same are equal.
-/

namespace GraphClient

open List Std Prod

variable {α β : Type}

section Sorting

variable (cmp : α → α → Ordering)

theorem insertBy_eq (x : α) (xs : List α) : insertBy cmp x xs = xs.orderedInsert (fun a b => ¬cmp b a = .lt) x := by
  induction xs with
  | nil => rfl
  | cons y ys ih => rw [insertBy, orderedInsert_cons, ih, ite_not]

theorem sortBy_eq (xs : List α) : sortBy cmp xs = xs.insertionSort fun a b => ¬cmp b a = .lt := by
  rw [sortBy, funext fun x => funext (insertBy_eq cmp x)]
  rfl

theorem sortBy_perm (xs : List α) : (sortBy cmp xs).Perm xs := by
  rw [sortBy_eq]
  exact perm_insertionSort _ xs

variable {xs : List α}

theorem mem_sortBy {x : α} : x ∈ sortBy cmp xs ↔ x ∈ xs := (sortBy_perm cmp xs).mem_iff

theorem map_sortBy (cmp' : β → β → Ordering) (f : α → β) (h : ∀ a b, cmp' (f a) (f b) = cmp a b)
    (xs : List α) : (sortBy cmp xs).map f = sortBy cmp' (xs.map f) := by
  rw [sortBy_eq, sortBy_eq]
  exact map_insertionSort _ _ f xs fun a _ b _ => by rw [h]

variable {cmp}

/-- **The result of sorting is in order.** -/
theorem pairwise_sortBy [TransCmp cmp] (xs : List α) : (sortBy cmp xs).Pairwise fun a b => cmp a b ≠ .gt := by
  have hl : ∀ a b, ¬cmp b a = .lt ↔ (cmp a b).isLE := fun a b => by
    rw [← OrientedCmp.gt_iff_lt, Ordering.isLE_iff_ne_gt]
  have : Std.Total fun a b => ¬cmp b a = .lt := ⟨fun _ _ => not_or_of_imp OrientedCmp.not_lt_of_lt⟩
  have : IsTrans α fun a b => ¬cmp b a = .lt := ⟨fun a b c => by
    simpa only [hl] using TransCmp.isLE_trans⟩
  rw [sortBy_eq]
  refine (pairwise_insertionSort _ xs).imp fun ha => ?_
  exact Ordering.isLE_iff_ne_gt.mp ((hl _ _).mp ha)

variable {ys : List α}

theorem sortBy_eq_of_perm [TransCmp cmp] (hp : xs.Perm ys)
    (ht : ∀ a ∈ xs, ∀ b ∈ xs, cmp a b = .eq → a = b) : sortBy cmp xs = sortBy cmp ys := by
  refine ((sortBy_perm cmp xs).trans (hp.trans (sortBy_perm cmp ys).symm)).eq_of_pairwise ?_
    (pairwise_sortBy xs) (pairwise_sortBy ys)
  intro a b ha hb hab hba
  refine ht a ((mem_sortBy cmp).mp ha) b (hp.mem_iff.mpr ((mem_sortBy cmp).mp hb)) ?_
  have hs : cmp b a = (cmp a b).swap := OrientedCmp.eq_swap
  cases hc : cmp a b <;> simp_all

theorem transCmp_of_key {cmp : β → β → Ordering} [TransCmp cmp] (f : α → β) : TransCmp fun a b => cmp (f a) (f b) where
  eq_swap := OrientedCmp.eq_swap
  isLE_trans := TransCmp.isLE_trans

/-- **The sort is stable**: elements that do not come before each other keep their order. -/
theorem filter_sortBy {p : α → Bool} (h : ∀ a b, p a → p b → cmp a b ≠ .lt) (xs : List α) :
    (sortBy cmp xs).filter p = xs.filter p := by
  have hs : (xs.filter p).Sublist (sortBy cmp xs) := by
    rw [sortBy_eq]
    refine sublist_insertionSort (pairwise_filter.mpr ?_) filter_sublist
    exact pairwise_of_forall fun a b ha hb => h b a hb ha
  have hk := hs.filter p
  rw [filter_filter, funext fun a => Bool.and_self (p a)] at hk
  exact (hk.eq_of_length ((sortBy_perm cmp xs).filter p).length_eq.symm).symm

theorem sortBy_name_eq_of_perm {name : α → String} (hp : xs.Perm ys) (hn : (xs.map name).Nodup) :
    sortBy (fun a b => compare (name a) (name b)) xs = sortBy (fun a b => compare (name a) (name b)) ys := by
  have : TransCmp fun a b => compare (name a) (name b) := transCmp_of_key name
  refine sortBy_eq_of_perm hp fun a ha b hb ht => ?_
  exact inj_on_of_nodup_map hn ha hb (LawfulEqOrd.eq_of_compare ht)

theorem sortBy_eq_self (h : xs.Pairwise fun a b => cmp b a ≠ .lt) : sortBy cmp xs = xs := by
  rw [sortBy_eq]
  exact List.Pairwise.insertionSort_eq h

theorem foldl_insertBy_eq [TransCmp cmp] (ht : ∀ a ∈ xs, ∀ b ∈ xs, cmp a b = .eq → a = b) :
    xs.foldl (fun ys x => insertBy cmp x ys) [] = sortBy cmp xs := by
  rw [foldl_eq_foldr_reverse]
  exact (sortBy_eq_of_perm (reverse_perm xs).symm ht).symm

end Sorting

/-- Lists in strictly increasing order of a key are equal if they have the same elements. -/
theorem eq_of_mem_iff_of_lt {key : α → String} {xs ys : List α}
    (hx : xs.Pairwise fun a b => compare (key a) (key b) = .lt)
    (hy : ys.Pairwise fun a b => compare (key a) (key b) = .lt) (h : ∀ x, x ∈ xs ↔ x ∈ ys) : xs = ys := by
  have : Std.Irrefl fun a b => compare (key a) (key b) = .lt := ⟨fun _ => by simp⟩
  have : Std.Antisymm fun a b => compare (key a) (key b) = .lt :=
    ⟨fun _ _ ha hb => absurd (TransCmp.lt_trans ha hb) (by simp)⟩
  exact hx.eq_of_mem_iff hy h

theorem nodup_eraseDups [BEq α] [LawfulBEq α] : (xs : List α) → xs.eraseDups.Nodup
  | [] => by simp
  | x :: rest => by
    rw [eraseDups_cons, nodup_cons]
    exact ⟨by simp [mem_eraseDups], nodup_eraseDups (rest.filter fun y => !y == x)⟩
termination_by xs => xs.length
decreasing_by exact Nat.lt_succ_of_le (length_filter_le _ _)

variable {name : String}

namespace NameSet

def Sorted (set : NameSet) : Prop := set.Pairwise fun a b => compare a b = .lt

variable {set : NameSet} {names : List String}

theorem mem_insert {other : String} : other ∈ insert name set ↔ other = name ∨ other ∈ set := by
  induction set with
  | nil => simp [insert]
  | cons first rest ih =>
    rw [insert]
    cases hc : compare name first with
    | lt => simp
    | eq =>
      obtain rfl := LawfulEqOrd.eq_of_compare hc
      simp
    | gt => simp [ih, or_left_comm]

theorem sorted_insert (name : String) (h : Sorted set) : Sorted (insert name set) := by
  induction set with
  | nil => exact pairwise_singleton _ _
  | cons first rest ih =>
    obtain ⟨hf, hr⟩ := pairwise_cons.mp h
    rw [insert]
    cases hc : compare name first with
    | lt =>
      refine pairwise_cons.mpr ⟨fun other ho => ?_, h⟩
      rcases mem_cons.mp ho with rfl | ho
      · exact hc
      · exact TransCmp.lt_trans hc (hf other ho)
    | eq => exact h
    | gt =>
      refine pairwise_cons.mpr ⟨fun other ho => ?_, ih hr⟩
      rcases mem_insert.mp ho with rfl | ho
      · exact OrientedCmp.lt_of_gt hc
      · exact hf other ho

theorem mem_insertAll : name ∈ insertAll names set ↔ name ∈ names ∨ name ∈ set := by
  rw [insertAll]
  induction names generalizing set with
  | nil => simp
  | cons first rest ih =>
    rw [foldl_cons, ih, mem_insert, mem_cons]
    tauto

@[simp] theorem mem_ofList : name ∈ ofList names ↔ name ∈ names := by
  rw [ofList, mem_insertAll, or_iff_left not_mem_nil]

theorem sorted_ofList (names : List String) : Sorted (ofList names) :=
  foldlRecOn names _ List.Pairwise.nil fun _ hs name _ => sorted_insert name hs

theorem Sorted.nodup (h : Sorted set) : set.Nodup := by
  refine h.imp ?_
  rintro a _ ha rfl
  simp at ha

end NameSet

namespace NameMap

/-- The entries are in strictly increasing order of name. -/
def Sorted (entries : NameMap α) : Prop := entries.Pairwise fun a b => compare a.1 b.1 = .lt

@[simp] theorem find?_nil (name : String) : find? ([] : NameMap α) name = none := rfl

theorem find?_cons (key name : String) (value : α) (rest : NameMap α) :
    find? ((key, value) :: rest) name = if key = name then some value else find? rest name := by
  rw [find?, List.find?_cons]
  by_cases h : key = name
  · simp [h]
  · rw [if_neg h, show (key == name) = false by simpa using h]
    rfl

theorem find?_map (f : α → β) (es : NameMap α) (name : String) :
    find? (es.map fun e => (e.1, f e.2)) name = (find? es name).map f := by
  rw [find?, find?, List.find?_map, Option.map_map, Option.map_map]
  rfl

theorem insert_map (f : α → β) (name : String) (value : α) (es : NameMap α) :
    insert name (f value) (es.map fun e => (e.1, f e.2)) = (insert name value es).map fun e => (e.1, f e.2) := by
  induction es with
  | nil => rfl
  | cons e rest ih =>
    simp only [map_cons, insert]
    split
    · rfl
    · rfl
    · rw [ih, map_cons]

variable {es : NameMap α} {e : String × α} {value : α}

theorem sorted_map (f : α → β) (h : Sorted es) : Sorted (es.map fun e => (e.1, f e.2)) :=
  pairwise_map.mpr h

/-- **A map after an insertion.** -/
theorem find?_insert (key : String) (value : α) (es : NameMap α) (name : String) :
    find? (insert key value es) name = if key = name then some value else find? es name := by
  induction es with
  | nil => simp [insert, find?_cons]
  | cons e rest ih =>
    obtain ⟨other, old⟩ := e
    rw [insert]
    cases hc : compare key other with
    | lt => simp only [find?_cons]
    | eq =>
      obtain rfl := LawfulEqOrd.eq_of_compare hc
      simp only [find?_cons]
      split_ifs <;> rfl
    | gt =>
      simp only [find?_cons]
      split_ifs with h1 h2 <;> simp_all

variable {key : String}

theorem mem_insert (h : e ∈ insert key value es) : e = (key, value) ∨ e ∈ es := by
  induction es with
  | nil => simpa [insert] using h
  | cons first rest ih =>
    obtain ⟨other, old⟩ := first
    rw [insert] at h
    cases hc : compare key other <;> rw [hc] at h <;> simp only [mem_cons] at h ⊢
    · exact h
    · tauto
    · rcases h with h | h
      · exact Or.inr (Or.inl h)
      · exact (ih h).imp_right Or.inr

theorem names_insert (key : String) (value : α) (es : NameMap α) :
    names (insert key value es) = NameSet.insert key (names es) := by
  induction es with
  | nil => rfl
  | cons e rest ih =>
    obtain ⟨other, old⟩ := e
    simp only [names, map_cons, insert, NameSet.insert]
    cases hc : compare key other with
    | lt => rfl
    | eq => rw [LawfulEqOrd.eq_of_compare hc]; rfl
    | gt => exact congrArg (other :: ·) ih

theorem sorted_iff : Sorted es ↔ NameSet.Sorted (names es) := by
  rw [NameSet.Sorted, names, pairwise_map]
  rfl

theorem sorted_insert (key : String) (value : α) (h : Sorted es) : Sorted (insert key value es) := by
  rw [sorted_iff, names_insert]
  exact NameSet.sorted_insert key (sorted_iff.mp h)

theorem Sorted.nodup (h : Sorted es) : (es.map fst).Nodup := NameSet.Sorted.nodup (sorted_iff.mp h)

theorem mem_of_find? (h : find? es name = some value) : (name, value) ∈ es := by
  induction es with
  | nil => simp at h
  | cons first rest ih =>
    obtain ⟨key, old⟩ := first
    rw [find?_cons] at h
    split_ifs at h with hk
    · obtain rfl := Option.some.inj h
      rw [hk]
      exact mem_cons_self
    · exact mem_cons_of_mem _ (ih h)

/-- **With different names**, what is found is what is there. -/
theorem find?_eq_some_iff (hd : (es.map fst).Nodup) : find? es name = some value ↔ (name, value) ∈ es := by
  refine ⟨mem_of_find?, fun h => ?_⟩
  induction es with
  | nil => simp at h
  | cons first rest ih =>
    obtain ⟨he, hr⟩ := nodup_cons.mp hd
    rw [find?_cons]
    rcases mem_cons.mp h with rfl | h
    · rw [if_pos rfl]
    · rw [if_neg fun hk => he (mem_map.mpr ⟨_, h, hk.symm⟩), ih hr h]

theorem find?_of_mem (hs : Sorted es) (h : (name, value) ∈ es) : find? es name = some value :=
  (find?_eq_some_iff hs.nodup).mpr h

theorem contains_of_find? (h : find? es name = some value) : contains es name := by
  rw [contains, h]
  rfl

theorem contains_iff_mem_names : contains es name ↔ name ∈ names es := by
  simp [contains, find?, names]

theorem mem_names_insert {other : String} : other ∈ names (insert key value es) ↔ other = key ∨ other ∈ names es := by
  rw [names_insert, NameSet.mem_insert]

theorem ext {entries' : NameMap α} (hs : Sorted es) (hs' : Sorted entries')
    (h : ∀ name, find? es name = find? entries' name) : es = entries' :=
  eq_of_mem_iff_of_lt hs hs' fun e => by
    rw [← find?_eq_some_iff hs.nodup, h, find?_eq_some_iff hs'.nodup]

section OfList

theorem foldl_insert_map (f : α → β) (es : List (String × α)) (m : NameMap α) :
    (es.map fun e => (e.1, f e.2)).foldl (fun m e => insert e.1 e.2 m) (m.map fun e => (e.1, f e.2)) =
      (es.foldl (fun m e => insert e.1 e.2 m) m).map fun e => (e.1, f e.2) := by
  rw [foldl_map]
  exact foldl_hom (List.map _) fun m e => insert_map f e.1 e.2 m

theorem ofList_map (f : α → β) (es : List (String × α)) : ofList (es.map fun e => (e.1, f e.2)) =
      (ofList es).map fun e => (e.1, f e.2) :=
  foldl_insert_map f es []

variable {m : NameMap α} {es : List (String × α)}

theorem sorted_foldl_insert (es : List (String × α)) (h : Sorted m) :
    Sorted (es.foldl (fun m e => insert e.1 e.2 m) m) :=
  foldlRecOn es _ h fun _ hm _ _ => sorted_insert _ _ hm

theorem sorted_ofList (es : List (String × α)) : Sorted (ofList es) :=
  sorted_foldl_insert es List.Pairwise.nil

theorem mem_of_mem_foldl_insert (h : e ∈ es.foldl (fun m e => insert e.1 e.2 m) m) : e ∈ es ∨ e ∈ m := by
  induction es generalizing m with
  | nil => exact Or.inr h
  | cons first rest ih =>
    rcases ih h with h | h
    · exact Or.inl (mem_cons_of_mem _ h)
    · rcases mem_insert h with rfl | h
      · exact Or.inl mem_cons_self
      · exact Or.inr h

theorem mem_of_mem_ofList (h : e ∈ ofList es) : e ∈ es :=
  (mem_of_mem_foldl_insert h).resolve_right not_mem_nil

theorem find?_foldl_insert (hd : (es.map fst).Nodup)
    (m : NameMap α) (name : String) : find? (es.foldl (fun m e => insert e.1 e.2 m) m) name =
      (find? es name).or (find? m name) := by
  induction es generalizing m with
  | nil => rfl
  | cons e rest ih =>
    obtain ⟨key, value⟩ := e
    obtain ⟨hk, hr⟩ := nodup_cons.mp hd
    rw [foldl_cons, ih hr, find?_insert, find?_cons]
    split_ifs with h
    · subst h
      have : find? rest key = none := Option.not_isSome_iff_eq_none.mp fun h =>
        hk (contains_iff_mem_names.mp h)
      rw [this]
      rfl
    · rfl

/-- **A map of entries with different names** holds each of them. -/
theorem find?_ofList (hd : (es.map fst).Nodup) (name : String) : find? (ofList es) name = find? es name := by
  rw [ofList, find?_foldl_insert hd, find?_nil, Option.or_none]

theorem mem_ofList (hd : (es.map fst).Nodup) : e ∈ ofList es ↔ e ∈ es := by
  rw [← find?_eq_some_iff (sorted_ofList es).nodup, find?_ofList hd, find?_eq_some_iff hd]

theorem ofList_eq_of_perm {entries' : List (String × α)} (hp : es.Perm entries')
    (hd : (es.map fst).Nodup) : ofList es = ofList entries' := by
  have hd' : (entries'.map fst).Nodup := (hp.map fst).nodup_iff.mp hd
  refine eq_of_mem_iff_of_lt (sorted_ofList _) (sorted_ofList _) fun e => ?_
  rw [mem_ofList hd, mem_ofList hd', hp.mem_iff]

end OfList

end NameMap

end GraphClient
