import Mathlib.Data.List.Chain
import Mathlib.Data.List.Nodup
import Mathlib.Data.List.Perm.Subperm
import Mathlib.Data.List.TakeWhile
import GraphClient.Operation.FragmentOrder
import GraphClient.Proofs.Diagnostic

/-!
# Fragments in order

The walk along the spreads leaves every fragment behind those that it spreads, unless it reports a cycle.
-/

namespace GraphClient

open List Selection FragmentWalk NameMap Option

/-- The spread stands in the selection, at any depth. -/
inductive Spread.Within (spread : Spread) : Selection → Prop
  | here : spread.Within (.spread spread)
  | field {head : FieldHead} {selections : List Selection} {selection : Selection}
      (hmem : selection ∈ selections) (hinner : spread.Within selection) : spread.Within (.field head selections)
  | inline {condition : Option NamedRef} {directives : List DirectiveUse} {selections : List Selection}
      {location : Location} {selection : Selection} (hmem : selection ∈ selections)
      (hinner : spread.Within selection) : spread.Within (.inline condition directives selections location)

mutual

theorem Selection.mem_spreads {spread : Spread} : (sel : Selection) → (spread ∈ sel.spreads ↔ spread.Within sel)
  | .field _ sels => by
    rw [spreads, mem_spreadsIn sels]
    constructor
    · rintro ⟨_, hm, hi⟩
      exact .field hm hi
    · intro h
      cases h with
      | field hm hi => exact ⟨_, hm, hi⟩
  | .spread _ => by
    rw [spreads, mem_singleton]
    exact ⟨fun h => h ▸ .here, fun h => by cases h; rfl⟩
  | .inline _ _ sels _ => by
    rw [spreads, mem_spreadsIn sels]
    constructor
    · rintro ⟨_, hm, hi⟩
      exact .inline hm hi
    · intro h
      cases h with
      | «inline» hm hi => exact ⟨_, hm, hi⟩

theorem Selection.mem_spreadsIn {spread : Spread} : (sels : List Selection) →
    (spread ∈ spreadsIn sels ↔ ∃ sel ∈ sels, spread.Within sel)
  | [] => by simp [spreadsIn]
  | sel :: rest => by
    rw [spreadsIn, mem_append, mem_spreads sel, mem_spreadsIn rest, exists_mem_cons_iff]

end

/-- A declared fragment spreads another declared one. -/
def Spreads (declared : NameMap FragmentDefinition) (name other : String) : Prop :=
  declared.contains other ∧ ∃ fragment, declared.find? name = some fragment ∧
    ∃ selection ∈ fragment.selections, ∃ spread : Spread, spread.Within selection ∧ spread.name = other

/-- A walk along spreads that ends where it starts. -/
def ClosedWalk (declared : NameMap FragmentDefinition) (walk : List String) : Prop :=
  walk.IsChain (Spreads declared) ∧ ∃ name between, walk = name :: between ++ [name]

/-- **The report of a closed walk.** -/
def ReportsCycle (declared : NameMap FragmentDefinition) (d : Diagnostic) : Prop :=
  ∃ walk, ClosedWalk declared walk ∧ ∃ location, d = .error .fragmentCycle "fragment cycle" location
    ("fragments spread each other: " ++ String.intercalate " -> " walk)

/-- **Names of declared fragments, each behind those that it spreads.** -/
inductive Behind (declared : NameMap FragmentDefinition) : List String → Prop
  | nil : Behind declared []
  | snoc {order : List String} {name : String} {fragment : FragmentDefinition}
      (horder : Behind declared order) (hfind : declared.find? name = some fragment)
      (hnew : name ∉ order)
      (hspreads : ∀ spread ∈ spreadsIn fragment.selections,
        declared.contains spread.name → spread.name ∈ order) :
    Behind declared (order ++ [name])

variable {decl : NameMap FragmentDefinition} {name : String} {path : List String}

theorem spreads_iff {other : String} : Spreads decl name other ↔ ∃ frag,
    decl.find? name = some frag ∧ ∃ spread ∈ spreadsIn frag.selections,
      decl.contains spread.name ∧ spread.name = other := by
  simp only [mem_spreadsIn]
  constructor
  · rintro ⟨hd, frag, hf, sel, hm, spread, hw, rfl⟩
    exact ⟨frag, hf, spread, ⟨sel, hm, hw⟩, hd, rfl⟩
  · rintro ⟨frag, hf, spread, ⟨sel, hm, hw⟩, hd, rfl⟩
    exact ⟨hd, frag, hf, sel, hm, spread, hw, rfl⟩

theorem nodup_snoc {names : List String} (h : names.Nodup) (hn : name ∉ names) : (names ++ [name]).Nodup := by
  rw [← concat_eq_append]
  exact h.concat hn

namespace FragmentWalk

/-- What a part of the walk along `path` preserves. -/
structure Extends (declared : NameMap FragmentDefinition) (path : List String)
    (before after : FragmentWalk) : Prop where
  subset : before.order ⊆ after.order
  nodup : before.order.Nodup → after.order.Nodup
  declares : ∀ name ∈ after.order, name ∈ before.order ∨ declared.contains name
  /-- The fragments on the path are not left yet. -/
  apart : ∀ name ∈ path, name ∉ before.order → name ∉ after.order
  kept : before.diagnostics ⊆ after.diagnostics
  reports : ∀ d ∈ after.diagnostics, d ∈ before.diagnostics ∨ ReportsCycle declared d
  behind : after.diagnostics = [] → Behind declared before.order → Behind declared after.order

theorem Extends.clean {before after : FragmentWalk} (h : Extends decl path before after)
    (hc : after.diagnostics = []) : before.diagnostics = [] := subset_nil.mp (hc ▸ h.kept)

theorem Extends.refl (path : List String) (walk : FragmentWalk) : Extends decl path walk walk :=
  ⟨fun _ h => h, id, fun _ => .inl, fun _ _ h => h, fun _ h => h, fun _ => .inl, fun _ h => h⟩

theorem Extends.trans {first second third : FragmentWalk} (h : Extends decl path first second)
    (h' : Extends decl path second third) : Extends decl path first third where
  subset := fun _ hn => h'.subset (h.subset hn)
  nodup := h'.nodup ∘ h.nodup
  declares := fun name hn => (h'.declares name hn).elim (h.declares name) .inr
  apart := fun name hp hf => h'.apart name hp (h.apart name hp hf)
  kept := fun _ hd => h'.kept (h.kept hd)
  reports := fun d hd => (h'.reports d hd).elim (h.reports d) .inr
  behind := fun hc hf => h'.behind hc (h.behind (h'.clean hc) hf)

theorem reportsCycle_cycle {frag : FragmentDefinition} (hc : (path ++ [name]).IsChain (Spreads decl))
    (hi : decl.find? name = some frag) {spread : Spread}
    (hp : spread ∈ spreadsIn frag.selections) (hd : decl.contains spread.name)
    (hm : spread.name ∈ path ++ [name]) : ReportsCycle decl (cycle (path ++ [name]) spread) := by
  have hs := dropWhile_suffix (l := path ++ [name]) (· != spread.name)
  have hh := head?_dropWhile_not (· != spread.name) (path ++ [name])
  cases ht : (path ++ [name]).dropWhile (· != spread.name) with
  | nil => simpa using dropWhile_eq_nil_iff.mp ht _ hm
  | cons first rest =>
    rw [ht] at hs hh
    obtain rfl : first = spread.name := by simpa using hh
    refine ⟨_, ⟨isChain_append.mpr ⟨hc.suffix hs, isChain_singleton _, ?_⟩, _, rest, rfl⟩,
      spread.location, by rw [cycle, ht]⟩
    obtain ⟨front, hf⟩ := hs
    have hl : (spread.name :: rest).getLast? = some name := by
      rw [← getLast?_append_of_ne_nil front (cons_ne_nil _ _), hf, getLast?_concat]
    rintro _ hl' _ ⟨⟩
    obtain rfl := some.inj (hl.symm.trans hl')
    exact spreads_iff.mpr ⟨frag, hi, spread, hp, hd, rfl⟩

/-- What following a spread needs: a way back into the path is a closed walk, and the walk from another
fragment leaves it behind. -/
structure Follows (declared : NameMap FragmentDefinition) (path : List String)
    (enter : String → FragmentWalk → FragmentWalk) (spread : Spread) : Prop where
  cycle : spread.name ∈ path → ReportsCycle declared (cycle path spread)
  enter : spread.name ∉ path → ∀ walk : FragmentWalk, spread.name ∉ walk.order →
    Extends declared path walk (enter spread.name walk) ∧ spread.name ∈ (enter spread.name walk).order

variable {enter : String → FragmentWalk → FragmentWalk}

/-- One spread: unless a cycle is reported, its fragment is left behind. -/
theorem follow_extends {spread : Spread} (h : decl.contains spread.name → Follows decl path enter spread)
    (walk : FragmentWalk) : Extends decl path walk (follow decl path enter walk spread) ∧
      ((follow decl path enter walk spread).diagnostics = [] → decl.contains spread.name →
        spread.name ∈ (follow decl path enter walk spread).order) := by
  simp only [follow, Bool.not_eq_true', contains_iff_mem]
  split_ifs with hde hp ho
  · exact ⟨.refl path walk, fun _ h => absurd h (by simp [hde])⟩
  · rw [Bool.not_eq_false] at hde
    refine ⟨⟨fun _ h => h, id, fun _ => .inl, fun _ _ h => h, subset_append_left _ _, fun d hd => ?_, ?_⟩, ?_⟩
    · refine (mem_append.mp hd).imp_right fun hd => ?_
      rw [mem_singleton.mp hd]
      exact (h hde).cycle hp
    · simp
    · simp
  · exact ⟨.refl path walk, fun _ _ => ho⟩
  · obtain ⟨he, hm⟩ := (h (by simpa using hde)).enter hp walk ho
    exact ⟨he, fun _ _ => hm⟩

theorem foldl_follow_extends {spreads : List Spread}
    (h : ∀ spread ∈ spreads, decl.contains spread.name → Follows decl path enter spread) (walk : FragmentWalk) :
    Extends decl path walk (spreads.foldl (follow decl path enter) walk) ∧
      ((spreads.foldl (follow decl path enter) walk).diagnostics = [] → ∀ spread ∈ spreads, decl.contains spread.name →
          spread.name ∈ (spreads.foldl (follow decl path enter) walk).order) := by
  induction spreads generalizing walk with
  | nil => exact ⟨.refl path walk, fun _ => forall_mem_nil _⟩
  | cons spread rest ih =>
    rw [forall_mem_cons] at h
    obtain ⟨hf, he⟩ := follow_extends h.1 walk
    obtain ⟨hr, hm⟩ := ih h.2 (follow decl path enter walk spread)
    exact ⟨hf.trans hr, fun hc => forall_mem_cons.mpr ⟨fun hd => hr.subset (he (hr.clean hc) hd), hm hc⟩⟩

/-- **The walk from one fragment leaves it behind.** The fragments on the path differ, so the fuel is
enough. -/
theorem visit_extends (fuel : Nat) (path : List String) (name : String) (walk : FragmentWalk)
    (hfu : decl.length ≤ fuel + path.length) (hh : (path ++ [name]).Nodup)
    (hd : ∀ other ∈ path ++ [name], decl.contains other)
    (hch : (path ++ [name]).IsChain (Spreads decl)) (hn : name ∉ walk.order) :
    Extends decl path walk (visit decl fuel path name walk) ∧ name ∈ (visit decl fuel path name walk).order := by
  have hl : name ∈ path ++ [name] := mem_append_right _ (mem_singleton_self _)
  induction fuel generalizing path name walk with
  | zero =>
    have hu : path ++ [name] ⊆ decl.names := fun other h =>
      contains_iff_mem_names.mp (hd other h)
    have hle := (subperm_of_subset hh hu).length_le
    rw [length_append, length_singleton, names, length_map] at hle
    omega
  | succ fuel ih =>
    obtain ⟨frag, hf⟩ := isSome_iff_exists.mp (hd name hl)
    simp only [visit, hf]
    have hfo : ∀ spread ∈ spreadsIn frag.selections, decl.contains spread.name →
        Follows decl (path ++ [name]) (visit decl fuel (path ++ [name])) spread := by
      intro spread hs hc
      refine ⟨reportsCycle_cycle hch hf hs hc, fun hr walk hlef => ?_⟩
      refine ih _ spread.name walk (by simp; omega) (nodup_snoc hh hr)
        (forall_mem_append.mpr ⟨hd, forall_mem_singleton.mpr hc⟩)
        (isChain_append.mpr ⟨hch, isChain_singleton _, ?_⟩) hlef
        (mem_append_right _ (mem_singleton_self _))
      rintro _ hl _ ⟨⟩
      rw [getLast?_concat] at hl
      obtain rfl := some.inj hl
      exact spreads_iff.mpr ⟨frag, hf, spread, hs, hc, rfl⟩
    obtain ⟨he, hm⟩ := foldl_follow_extends hfo walk
    have ha := he.apart name hl hn
    refine ⟨{ subset := fun _ h => mem_append_left _ (he.subset h)
              nodup := fun h => nodup_snoc (he.nodup h) ha
              declares := forall_mem_append.mpr ⟨he.declares, forall_mem_singleton.mpr (.inr ?_)⟩
              apart := fun other ho hb => ?_
              kept := he.kept
              reports := he.reports
              behind := fun hcl hw => .snoc (he.behind hcl hw) hf ha (hm hcl) },
      mem_append_right _ (mem_singleton_self _)⟩
    · exact hd name hl
    · rw [mem_append, not_or, mem_singleton]
      refine ⟨he.apart other (mem_append_left _ ho) hb, ?_⟩
      rintro rfl
      exact (nodup_append.mp hh).2.2 other ho other (mem_singleton_self _) rfl

end FragmentWalk

theorem foldl_visit_extends (names : List String) (walk : FragmentWalk) (hn : ∀ name ∈ names, decl.contains name) :
    let last := names.foldl (fun (walk : FragmentWalk) name =>
      if walk.order.contains name then walk else walk.visit decl decl.length [] name) walk
    Extends decl [] walk last ∧ names ⊆ last.order := by
  induction names generalizing walk with
  | nil => exact ⟨.refl [] walk, nil_subset _⟩
  | cons name rest ih =>
    have hs : Extends decl [] walk
        (if walk.order.contains name then walk else walk.visit decl decl.length [] name) ∧
        name ∈ (if walk.order.contains name then walk
          else walk.visit decl decl.length [] name).order := by
      rw [forall_mem_cons] at hn
      split_ifs with h
      · exact ⟨.refl [] walk, contains_iff_mem.mp h⟩
      · exact visit_extends _ [] name walk (le_refl _) (nodup_singleton _)
          (forall_mem_singleton.mpr hn.1) (isChain_singleton _) (by simpa using h)
    obtain ⟨hr, hm⟩ := ih _ fun other h => hn other (mem_cons_of_mem _ h)
    exact ⟨hs.1.trans hr, cons_subset.mpr ⟨hr.subset hs.2, hm⟩⟩

/-- **What the whole walk preserves.** -/
theorem fragmentOrder_extends (decl : NameMap FragmentDefinition) :
    Extends decl [] {} ⟨(fragmentOrder decl).1, (fragmentOrder decl).2⟩ ∧
      ∀ name, decl.contains name → name ∈ (fragmentOrder decl).1 := by
  obtain ⟨he, hm⟩ := foldl_visit_extends decl.names {} fun _ hn =>
    contains_iff_mem_names.mpr hn
  exact ⟨he, fun name hn => hm (contains_iff_mem_names.mp hn)⟩

theorem fragmentOrder_reports {d : Diagnostic} (h : d ∈ (fragmentOrder decl).2) : ReportsCycle decl d :=
  ((fragmentOrder_extends decl).1.reports d h).resolve_left not_mem_nil

theorem fragmentOrder_fatal (decl : NameMap FragmentDefinition) : (fragmentOrder decl).2.Fatal := by
  intro d hd
  obtain ⟨_, -, _, rfl⟩ := fragmentOrder_reports hd
  rfl

/-- **Without a cycle, all declared fragments are in order.** -/
theorem fragmentOrder_behind (h : (fragmentOrder decl).2 = []) : Behind decl (fragmentOrder decl).1 ∧
      ∀ name, decl.contains name → name ∈ (fragmentOrder decl).1 :=
  ⟨(fragmentOrder_extends decl).1.behind h .nil, (fragmentOrder_extends decl).2⟩

theorem ClosedWalk.not_ranked {walk : List String} (h : ClosedWalk decl walk) (rank : String → Nat) :
    ¬ ∀ name other, Spreads decl name other → rank other < rank name := by
  obtain ⟨hc, name, between, rfl⟩ := h
  intro hr
  have hd : (name :: between ++ [name]).IsChain fun a b => rank b < rank a := hc.imp hr
  rw [isChain_iff_pairwise, cons_append, pairwise_cons] at hd
  exact lt_irrefl _ (hd.1 name (mem_append_right _ (mem_singleton_self _)))

/-- **No cycle is reported where the spreads lead downwards.** -/
theorem fragmentOrder_clean (rank : String → Nat)
    (hr : ∀ name other, Spreads decl name other → rank other < rank name) : (fragmentOrder decl).2 = [] := by
  refine eq_nil_iff_forall_not_mem.mpr fun d hd => ?_
  obtain ⟨_, hw, -⟩ := fragmentOrder_reports hd
  exact hw.not_ranked rank hr

namespace Behind

variable {order : List String}

theorem contains (h : Behind decl order) (hn : name ∈ order) : decl.contains name := by
  induction h with
  | nil => cases hn
  | snoc _ hl _ _ ih =>
    rcases mem_append.mp hn with h | h
    · exact ih h
    · rw [mem_singleton.mp h]
      exact contains_of_find? hl

theorem spreads_mem (h : Behind decl order) {frag : FragmentDefinition} (hn : name ∈ order)
    (hf : decl.find? name = some frag) {spread : Spread} (hp : spread ∈ spreadsIn frag.selections)
    (hd : decl.contains spread.name) : spread.name ∈ order := by
  induction h with
  | nil => cases hn
  | snoc _ hl _ hs ih =>
    rcases mem_append.mp hn with h | h
    · exact mem_append_left _ (ih h)
    · rw [mem_singleton.mp h, hl] at hf
      obtain rfl := some.inj hf
      exact mem_append_left _ (hs spread hp hd)

theorem induct (h : Behind decl order) {P : String → Prop} (ht : ∀ name frag, decl.find? name = some frag →
      (∀ spread ∈ spreadsIn frag.selections, decl.contains spread.name → P spread.name) →
        P name) : ∀ name ∈ order, P name := by
  induction h with
  | nil => exact forall_mem_nil _
  | snoc _ hf _ hs ih =>
    refine forall_mem_append.mpr ⟨ih, forall_mem_singleton.mpr ?_⟩
    exact ht _ _ hf fun spread hp hd => ih _ (hs spread hp hd)

theorem idxOf_lt (h : Behind decl order) {other : String} (hn : name ∈ order)
    (hs : Spreads decl name other) : order.idxOf other < order.idxOf name := by
  obtain ⟨frag, hf, spread, hsp, hd, rfl⟩ := spreads_iff.mp hs
  induction h with
  | nil => cases hn
  | @snoc order last _ hor hl hne hs ih =>
    rcases mem_append.mp hn with ho | ho
    · have hm := hor.spreads_mem ho hf hsp hd
      rw [idxOf_append_of_mem hm, idxOf_append_of_mem ho]
      exact ih ho
    · obtain rfl := mem_singleton.mp ho
      obtain rfl := some.inj (hl.symm.trans hf)
      have hm := hs spread hsp hd
      rw [idxOf_append_of_mem hm, idxOf_append_of_notMem hne]
      exact Nat.lt_add_right _ (idxOf_lt_length_iff.mpr hm)

end Behind

/-- **The order of fragments.** Each declared fragment is in it once. A cycle is reported just if some walk
along spreads leads back to its start, and each report shows such a walk. Without reports, every fragment comes
behind the declared ones that it spreads. -/
theorem fragmentOrder_exact (declared : NameMap FragmentDefinition) : (fragmentOrder declared).1.Nodup ∧
      (∀ name, name ∈ (fragmentOrder declared).1 ↔ declared.contains name) ∧
      ((fragmentOrder declared).2 ≠ [] ↔ ∃ walk, ClosedWalk declared walk) ∧
      (∀ d ∈ (fragmentOrder declared).2, ReportsCycle declared d) ∧
      ((fragmentOrder declared).2 = [] → ∀ name other, Spreads declared name other →
        (fragmentOrder declared).1.idxOf other < (fragmentOrder declared).1.idxOf name) := by
  obtain ⟨hextends, hall⟩ := fragmentOrder_extends declared
  have hbehind : (fragmentOrder declared).2 = [] → ∀ name other, Spreads declared name other →
      (fragmentOrder declared).1.idxOf other < (fragmentOrder declared).1.idxOf name := by
    intro hclean name other hspreads
    have hname : declared.contains name := by
      obtain ⟨-, _, hfind, -⟩ := hspreads
      exact contains_of_find? hfind
    exact (fragmentOrder_behind hclean).1.idxOf_lt (hall name hname) hspreads
  refine ⟨hextends.nodup nodup_nil, fun name => ⟨fun h => ?_, hall name⟩, ⟨fun h => ?_, ?_⟩,
    fun _ => fragmentOrder_reports, hbehind⟩
  · exact (hextends.declares name h).resolve_left not_mem_nil
  · obtain ⟨d, hd⟩ := exists_mem_of_ne_nil _ h
    obtain ⟨walk, hwalk, -⟩ := fragmentOrder_reports hd
    exact ⟨walk, hwalk⟩
  · rintro ⟨walk, hwalk⟩ hclean
    exact hwalk.not_ranked _ (hbehind hclean)

end GraphClient
