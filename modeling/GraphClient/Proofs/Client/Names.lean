import GraphClient.Client.Names
import Mathlib.Data.List.Nodup
import Mathlib.Data.List.Perm.Subperm

/-!
# Free names

* `TakenNames.Claims`: what a run of claims leaves behind.
* `TakenNames.claims_claim`: one claim.
-/

namespace GraphClient.TakenNames

open List Nat

variable {taken : TakenNames} {base : String}

theorem numbered_injective (base : String) : Function.Injective (numbered base) := by
  intro n m h
  have hd : toDigits 10 n = toDigits 10 m := by
    have ht := congrArg String.toList h
    simpa [numbered] using ht
  simpa using congrArg (fun digits => ofDigitChars 10 digits 0) hd

theorem firstFree_mem {tries n : Nat} (h : taken.firstFree base tries n ∈ taken) :
    ∀ m, n ≤ m → m ≤ n + tries → numbered base m ∈ taken := by
  induction tries generalizing n with
  | zero =>
    intro m hl hg
    rwa [show n = m by omega] at h
  | succ tries ih =>
    rw [firstFree] at h
    split_ifs at h with hn
    · intro m hl hg
      rcases Nat.eq_or_lt_of_le hl with rfl | hlt
      · simpa using hn
      · exact ih h m hlt (by omega)
    · simp [h] at hn

/-- **The name that is taken was free before.** There are more numbers to try than names in use. -/
theorem fresh_notMem (taken : TakenNames) (base : String) : taken.fresh base ∉ taken := by
  rw [fresh]
  split_ifs with hb
  · intro hm
    have ha := firstFree_mem hm
    have hs : (range (taken.length + 1)).map (fun i => numbered base (2 + i)) ⊆ taken := by
      intro name hna
      obtain ⟨i, hi, rfl⟩ := mem_map.mp hna
      have := mem_range.mp hi
      exact ha (2 + i) (by omega) (by omega)
    have hn : ((range (taken.length + 1)).map fun i => numbered base (2 + i)).Nodup :=
      nodup_range.map fun i j h => Nat.add_left_cancel (numbered_injective base h)
    have hl := (hn.subperm hs).length_le
    rw [length_map, length_range] at hl
    omega
  · simpa using hb

/-- **What a run of claims leaves behind**: the names that it took, besides those in use before. No name is
taken twice. -/
structure Claims (before after : TakenNames) (names : List String) : Prop where
  perm : after.Perm (names ++ before)
  nodup : before.Nodup → after.Nodup

namespace Claims

variable {before between after : TakenNames} {names more : List String}

theorem none (taken : TakenNames) : Claims taken taken [] := ⟨.refl _, id⟩

theorem trans (h : Claims before between names) (h' : Claims between after more) :
    Claims before after (names ++ more) := by
  refine ⟨?_, fun hn => h'.nodup (h.nodup hn)⟩
  calc after.Perm (more ++ between) := h'.perm
    _ |>.Perm (more ++ (names ++ before)) := h.perm.append_left more
    _ |>.Perm (names ++ more ++ before) := by
      rw [append_assoc]
      exact (perm_append_comm_assoc more names before)

theorem congr (h : Claims before after names) (hp : names.Perm more) : Claims before after more :=
  ⟨h.perm.trans (hp.append_right before), h.nodup⟩

theorem fresh (h : Claims before after names) (hn : before.Nodup) : names.Nodup ∧ ∀ name ∈ names, name ∉ before := by
  have ha := h.perm.nodup_iff.mp (h.nodup hn)
  rw [nodup_append] at ha
  exact ⟨ha.1, fun name hna hb => ha.2.2 name hna name hb rfl⟩

end Claims

theorem claims_claim (taken : TakenNames) (base : String) : Claims taken (taken.claim base).2 [(taken.claim base).1] :=
  ⟨.refl _, fun hn => nodup_cons.mpr ⟨fresh_notMem taken base, hn⟩⟩

end GraphClient.TakenNames
