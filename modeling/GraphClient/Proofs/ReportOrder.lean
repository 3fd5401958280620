import GraphClient.Proofs.DocumentPermutation

/-!
# The order of reports

Reports are sorted by place, code and title. The rest of a report is not compared, so two different reports
that agree in these three parts stay in the order in which they came.

* **`sorted_ne_of_messages`**: two values that are wrong at one place tie.
-/

namespace GraphClient

open List Std Location

theorem Location.transCmp_compareOptional : TransCmp compareOptional where
  eq_swap {a b} := match a, b with
    | none, none | none, some _ | some _, none => rfl
    | some a, some b => (OrientedCmp.eq_swap : compare a b = (compare b a).swap)
  isLE_trans {a b c} ha hb := match a, b, c with
    | none, _, none | none, _, some _ => rfl
    | some a, some _, some c => (TransCmp.isLE_trans ha hb : (compare a c).isLE)
    | some _, none, _ => nomatch ha
    | some _, some _, none => nomatch hb

instance Diagnostic.transCmp_order : TransCmp order :=
  have : TransCmp fun a b : Diagnostic => compareOptional a.primary b.primary :=
    have := transCmp_compareOptional
    transCmp_of_key primary
  inferInstanceAs (TransCmp (compareLex (compareLex (fun a b : Diagnostic =>
    compareOptional a.primary b.primary) (compareOn code)) (compareOn title)))

namespace Diagnostics

variable {ds : Diagnostics}

theorem sorted_sorted : ds.sorted.sorted = ds.sorted :=
  sortBy_eq_self ((pairwise_sortBy ds).imp fun h => OrientedCmp.gt_iff_lt.not.mp h)

/-- Reports that tie keep the order in which they came. -/
theorem filter_sorted (d : Diagnostic) :
    ds.sorted.filter (fun a => d.order a = .eq) = ds.filter (fun a => d.order a = .eq) := by
  refine filter_sortBy (fun a b ha hb => ?_) ds
  have hd : a.order d = .eq := OrientedCmp.eq_symm (of_decide_eq_true ha)
  rw [TransCmp.congr_left hd, of_decide_eq_true hb]
  exact Ordering.noConfusion

/-- If sorting hides the order in which reports came, reports that tie are equal. -/
theorem eq_of_sorted_unique (h : ∀ ds', ds'.Perm ds → sorted ds' = ds.sorted) {a b : Diagnostic} (ha : a ∈ ds)
    (hb : b ∈ ds) (ht : a.order b = .eq) : a = b := by
  by_contra hn
  have hb' : b ∈ ds.erase a := (mem_erase_of_ne (Ne.symm hn)).mpr hb
  -- The two can come first, in either order.
  have hp : (a :: b :: (ds.erase a).erase b).Perm ds :=
    ((perm_cons_erase hb').symm.cons a).trans (perm_cons_erase ha).symm
  have hs := congrArg (filter fun d => a.order d = .eq) ((h _ hp).trans (h _ ((Perm.swap a b _).trans hp)).symm)
  have ha' : a.order a = .eq := ReflCmp.compare_self
  simp only [filter_sorted, filter_cons, ha', ht, decide_true, if_true] at hs
  exact hn (cons.inj hs).1

/-- **Sorted reports**: the reports in order of place, code and title, which sorting again does not change. They
do not depend on the order in which they came just if those that agree in the three parts are equal. -/
theorem sorted_unique_iff (ds : Diagnostics) :
    (ds.sorted.Perm ds ∧ ds.sorted.Pairwise (fun a b => a.order b ≠ .gt) ∧ ds.sorted.sorted = ds.sorted) ∧
      ((∀ ds', ds'.Perm ds → sorted ds' = ds.sorted) ↔ ∀ a ∈ ds, ∀ b ∈ ds, a.order b = .eq → a = b) := by
  refine ⟨⟨sortBy_perm _ ds, pairwise_sortBy ds, sorted_sorted⟩, fun h a ha b hb => eq_of_sorted_unique h ha hb, ?_⟩
  intro h ds' hp
  exact (sortBy_eq_of_perm hp.symm h).symm

/-- A value that is wrong in the argument at bytes 10 to 20 of the first source. -/
def wrongValue (message : String) : Diagnostic := .error .invalidValue "invalid value" ⟨0, ⟨10, 20⟩⟩ message

theorem sorted_ne_of_messages :
    [wrongValue "second", wrongValue "first"].Perm [wrongValue "first", wrongValue "second"] ∧
      sorted [wrongValue "second", wrongValue "first"] ≠ sorted [wrongValue "first", wrongValue "second"] :=
  ⟨Perm.swap _ _ _, by decide⟩

end Diagnostics

end GraphClient
