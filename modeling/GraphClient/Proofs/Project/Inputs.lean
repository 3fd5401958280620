import GraphClient.Proofs.Project.Changes

/-!
# The order of inputs

The files of all inputs are kept by path and each once, so their order hardly matters: of a file that
is found under two spellings, the first is kept.
-/

namespace GraphClient

open List GraphClient.Path Std PathSet Source

/-! ## The order of paths -/

namespace Path

theorem orderSteps_eq : orderSteps = List.compareLex Component.order := by
  funext as bs
  induction as generalizing bs with
  | nil => cases bs <;> rfl
  | cons a as ih =>
    cases bs with
    | nil => rfl
    | cons b bs =>
      rw [orderSteps, ih, List.compareLex]
      cases a.order b <;> rfl

instance : TransCmp Component.order :=
  inferInstanceAs (TransCmp (compareLex (compareOn Component.rank) (compareOn Component.text)))

instance : LawfulEqCmp Component.order where
  eq_of_compare {a b} h := by
    rw [Component.order, Ordering.then_eq_eq] at h
    have hr := LawfulEqOrd.eq_of_compare h.1
    have ht := LawfulEqOrd.eq_of_compare h.2
    cases a <;> cases b <;> simp_all [Component.rank, Component.text]

instance : TransCmp order := by
  have : TransCmp orderSteps := orderSteps_eq ▸ inferInstance
  exact transCmp_of_key components

theorem order_eq_iff {a b : Path} : a.order b = .eq ↔ a.components = b.components := by
  rw [order, orderSteps_eq]
  exact ⟨LawfulEqCmp.eq_of_compare, fun h => h ▸ ReflCmp.compare_self⟩

end Path

/-! ## Sets of paths -/

namespace PathSet

def IsOrdered (set : PathSet) : Prop := set.Pairwise fun a b => a.order b = .lt

variable {p q : Path} {set other : PathSet} {c : List Component}

theorem IsOrdered.eq_of_components (h : IsOrdered set) (hp : p ∈ set) (hq : q ∈ set)
    (hc : p.components = q.components) : p = q := by
  by_contra hn
  have : Symm fun a b : Path => a.order b ≠ .eq := ⟨fun a b ha hb => ha (OrientedCmp.eq_comm.mp hb)⟩
  have hs : set.Pairwise fun a b => a.order b ≠ .eq := h.imp fun ha => ha ▸ by decide
  exact hs.forall hp hq hn (order_eq_iff.mpr hc)

/-- **An ordered set is what is in it.** -/
theorem IsOrdered.ext (h : IsOrdered set) (ho : IsOrdered other) (hm : ∀ p, p ∈ set ↔ p ∈ other) : set = other := by
  have : Asymm fun a b : Path => a.order b = .lt := ⟨fun _ _ => OrientedCmp.not_lt_of_lt⟩
  exact Pairwise.eq_of_mem_iff h ho hm

theorem IsOrdered.map_components (h : IsOrdered set) (ho : IsOrdered other)
    (hm : ∀ c, c ∈ set.map components ↔ c ∈ other.map components) : set.map components = other.map components := by
  have : OrientedCmp orderSteps := orderSteps_eq ▸ inferInstance
  have : Asymm fun a b => orderSteps a b = .lt := ⟨fun _ _ => OrientedCmp.not_lt_of_lt⟩
  have hp {set : PathSet} (h : IsOrdered set) :
      (set.map components).Pairwise fun a b => orderSteps a b = .lt := pairwise_map.mpr h
  exact (hp h).eq_of_mem_iff (hp ho) hm

theorem mem_insert (h : IsOrdered set) : q ∈ insert p set ↔ q ∈ set ∨ q = p ∧ p.components ∉ set.map components := by
  induction set with
  | nil => simp [insert]
  | cons other rest ih =>
    obtain ⟨ho, hr⟩ := pairwise_cons.mp h
    have hc : p.components = other.components ↔ p.order other = .eq := order_eq_iff.symm
    rw [insert]
    cases hp : p.order other with
    | lt =>
      have hn : p.components ∉ rest.map components := by
        intro hm
        obtain ⟨b, hb, hbc⟩ := mem_map.mp hm
        have hl := TransCmp.lt_trans hp (ho b hb)
        rw [order_eq_iff.mpr hbc.symm] at hl
        cases hl
      simp only [mem_cons, map_cons, hc, hp, reduceCtorEq, false_or, hn, not_false_eq_true, and_true]
      tauto
    | eq => simp [hc, hp]
    | gt => simp only [mem_cons, map_cons, hc, hp, reduceCtorEq, false_or, ih hr, or_assoc]

theorem isOrdered_insert (h : IsOrdered set) : IsOrdered (insert p set) := by
  induction set with
  | nil => exact pairwise_singleton _ _
  | cons other rest ih =>
    obtain ⟨ho, hr⟩ := pairwise_cons.mp h
    rw [insert]
    split
    · rename_i hp
      refine pairwise_cons.mpr ⟨fun b hb => ?_, h⟩
      rcases mem_cons.mp hb with rfl | hb
      · exact hp
      · exact TransCmp.lt_trans hp (ho b hb)
    · exact h
    · rename_i hp
      refine pairwise_cons.mpr ⟨fun b hb => ?_, ih hr⟩
      rcases (mem_insert hr).mp hb with hb | ⟨rfl, -⟩
      · exact ho b hb
      · exact OrientedCmp.lt_of_gt hp

theorem components_insert (h : IsOrdered set) : c ∈ (insert p set).map components ↔
    c = p.components ∨ c ∈ set.map components := by
  simp only [mem_map, mem_insert h]
  constructor
  · rintro ⟨q, hq | ⟨rfl, -⟩, rfl⟩
    · exact .inr ⟨q, hq, rfl⟩
    · exact .inl rfl
  · rintro (rfl | ⟨q, hq, rfl⟩)
    · by_cases hm : p.components ∈ set.map components
      · obtain ⟨q, hq, hc⟩ := mem_map.mp hm
        exact ⟨q, .inl hq, hc⟩
      · exact ⟨p, .inr ⟨rfl, by simpa using hm⟩, rfl⟩
    · exact ⟨q, .inl hq, rfl⟩

/-! ## Many paths -/

variable (ps : List Path)

theorem insertAll_concat : insertAll (ps ++ [p]) set = insert p (insertAll ps set) := by
  rw [insertAll, foldl_append]
  rfl

theorem isOrdered_insertAll (h : IsOrdered set) : IsOrdered (insertAll ps set) := by
  induction ps using reverseRecOn with
  | nil => exact h
  | append_singleton ps p ih => exact insertAll_concat ps ▸ isOrdered_insert ih

theorem components_insertAll (h : IsOrdered set) : c ∈ (insertAll ps set).map components ↔
    c ∈ ps.map components ∨ c ∈ set.map components := by
  induction ps using reverseRecOn with
  | nil => simp [insertAll]
  | append_singleton ps p ih =>
    rw [insertAll_concat, components_insert (isOrdered_insertAll ps h), ih, map_append, mem_append, map_singleton,
      mem_singleton]
    tauto

theorem mem_insertAll (h : IsOrdered set) : q ∈ insertAll ps set ↔
    q ∈ set ∨ q ∈ insertAll ps [] ∧ q.components ∉ set.map components := by
  induction ps using reverseRecOn with
  | nil => simp [insertAll]
  | append_singleton ps p ih =>
    have hn : IsOrdered [] := Pairwise.nil
    rw [insertAll_concat, insertAll_concat, mem_insert (isOrdered_insertAll ps h),
      mem_insert (isOrdered_insertAll ps hn), components_insertAll ps h, components_insertAll ps hn]
    simp only [ih]
    constructor
    · rintro ((hq | hq) | ⟨rfl, hq⟩)
      · exact .inl hq
      · exact .inr ⟨.inl hq.1, hq.2⟩
      · exact .inr ⟨.inr ⟨rfl, by simpa using fun hm => hq (.inl hm)⟩, fun hm => hq (.inr hm)⟩
    · rintro (hq | ⟨hq | ⟨rfl, hq⟩, hs⟩)
      · exact .inl (.inl hq)
      · exact .inl (.inr ⟨hq, hs⟩)
      · exact .inr ⟨rfl, fun hm => hm.elim (fun hm => hq (.inl hm)) hs⟩

end PathSet

/-! ## Files of inputs -/

namespace FileTree

variable (tree : FileTree) {input file : Path} {inputs others : List Path} {files res : PathSet}

/-- A file that an input finds, as it spells it. -/
def Finds (input file : Path) : Prop := ∃ files, tree.outcome (expand [input]) = .ok files ∧ file ∈ files

/-- No file is found under two spellings. -/
def SpellsAlike (inputs : List Path) : Prop :=
  ∀ i ∈ inputs, ∀ j ∈ inputs, ∀ a b, tree.Finds i a → tree.Finds j b → a.same b → a = b

theorem outcome_bind {α β : Type} {program : ExceptT ProjectError (StateM FileTree) α} [Looks program]
    {rest : α → ExceptT ProjectError (StateM FileTree) β} {value : β} : tree.outcome (program >>= rest) = .ok value ↔
      ∃ a, tree.outcome program = .ok a ∧ tree.outcome (rest a) = .ok value := by
  rw [outcome, Looks.run_bind]
  cases tree.outcome program with
  | error error => simp
  | ok a => simp [outcome]

theorem expandInto_nil : tree.outcome (expandInto files []) = .ok files := rfl

theorem expandInto_cons : tree.outcome (expandInto files (input :: inputs)) = .ok res ↔
    ∃ found, tree.outcome (expandInput input) = .ok found ∧
      tree.outcome (expandInto (files.insertAll found) inputs) = .ok res := by
  rw [expandInto]
  exact outcome_bind tree

theorem finds_iff {found : List Path} (h : tree.outcome (expandInput input) = .ok found) :
    tree.Finds input file ↔ file ∈ insertAll found [] := by
  have he {files : PathSet} : tree.outcome (expand [input]) = .ok files ↔ insertAll found [] = files := by
    simp only [expand, expandInto_cons, h, expandInto_nil, Except.ok.injEq, exists_eq_left']
  simp only [Finds, he, exists_eq_left']

theorem exists_expandInto_iff : (∃ res, tree.outcome (expandInto files inputs) = .ok res) ↔
    ∀ i ∈ inputs, ∃ found, tree.outcome (expandInput i) = .ok found := by
  induction inputs generalizing files with
  | nil => exact iff_of_true ⟨files, expandInto_nil tree⟩ (forall_mem_nil _)
  | cons input inputs ih =>
    rw [forall_mem_cons]
    constructor
    · rintro ⟨res, hr⟩
      obtain ⟨found, hi, hr⟩ := (expandInto_cons tree).mp hr
      exact ⟨⟨found, hi⟩, ih.mp ⟨res, hr⟩⟩
    · rintro ⟨⟨found, hi⟩, hr⟩
      obtain ⟨res, hr⟩ := ih.mpr hr
      exact ⟨res, (expandInto_cons tree).mpr ⟨found, hi, hr⟩⟩

/-- **The files of inputs**: those found before stay, and each input adds those that it finds. -/
theorem expandInto_spec (hf : files.IsOrdered) (h : tree.outcome (expandInto files inputs) = .ok res) :
    res.IsOrdered ∧ files ⊆ res ∧ (∀ p ∈ res, p ∈ files ∨ ∃ i ∈ inputs, tree.Finds i p) ∧ ∀ c, c ∈ res.map components ↔
        c ∈ files.map components ∨ ∃ i ∈ inputs, ∃ p, tree.Finds i p ∧ p.components = c := by
  induction inputs generalizing files with
  | nil =>
    obtain rfl : files = res := Except.ok.inj ((expandInto_nil tree).symm.trans h)
    exact ⟨hf, List.Subset.refl _, fun p hp => .inl hp, by simp⟩
  | cons input inputs ih =>
    obtain ⟨found, hi, hr⟩ := (expandInto_cons tree).mp h
    obtain ⟨ho, hs, hp, hc⟩ := ih (isOrdered_insertAll found hf) hr
    have hfc : ∀ c, c ∈ found.map components ↔ ∃ p, tree.Finds input p ∧ p.components = c := fun c => by
      have hn := components_insertAll (c := c) found (Pairwise.nil : IsOrdered [])
      simp only [map_nil, not_mem_nil, or_false] at hn
      simp only [← hn, finds_iff tree hi, mem_map]
    refine ⟨ho, fun p hm => hs ((mem_insertAll found hf).mpr (.inl hm)), fun p hm => ?_, fun c => ?_⟩
    · rcases hp p hm with hm | ⟨i, hi', hm⟩
      · rcases (mem_insertAll found hf).mp hm with hm | ⟨hm, -⟩
        · exact .inl hm
        · exact .inr ⟨input, mem_cons_self, (finds_iff tree hi).mpr hm⟩
      · exact .inr ⟨i, mem_cons_of_mem _ hi', hm⟩
    · rw [hc, components_insertAll found hf, hfc, exists_mem_cons_iff, or_assoc, or_left_comm]

theorem expand_spec (h : tree.outcome (expand inputs) = .ok res) :
    res.IsOrdered ∧ (∀ p ∈ res, ∃ i ∈ inputs, tree.Finds i p) ∧
      ∀ c, c ∈ res.map components ↔ ∃ i ∈ inputs, ∃ p, tree.Finds i p ∧ p.components = c := by
  simpa using expandInto_spec tree Pairwise.nil h

variable (hm : ∀ i, i ∈ others ↔ i ∈ inputs)

include hm

theorem exists_expand_congr : (∃ files, tree.outcome (expand others) = .ok files) ↔
    ∃ files, tree.outcome (expand inputs) = .ok files := by
  simp only [expand, exists_expandInto_iff, hm]

theorem components_expand_congr (h : tree.outcome (expand inputs) = .ok files)
    (ho : tree.outcome (expand others) = .ok res) : res.map components = files.map components := by
  obtain ⟨hf, -, hc⟩ := expand_spec tree h
  obtain ⟨hr, -, hd⟩ := expand_spec tree ho
  exact hr.map_components hf fun c => by simp only [hc, hd, hm]

theorem SpellsAlike.expand_eq (ha : tree.SpellsAlike inputs) (h : tree.outcome (expand inputs) = .ok files) :
    tree.outcome (expand others) = .ok files := by
  obtain ⟨res, ho⟩ := (exists_expand_congr tree hm).mpr ⟨files, h⟩
  obtain ⟨hf, hi, hc⟩ := expand_spec tree h
  obtain ⟨hr, hj, hd⟩ := expand_spec tree ho
  -- A file of one list has a spelling in the other, and both spellings were found.
  have hs {a : Path} {p q : PathSet} (hp : ∀ a ∈ p, ∃ i ∈ inputs, tree.Finds i a)
      (hq : ∀ a ∈ q, ∃ i ∈ inputs, tree.Finds i a)
      (hpq : ∀ c, c ∈ p.map components → c ∈ q.map components) (hap : a ∈ p) : a ∈ q := by
    obtain ⟨b, hb, hab⟩ := mem_map.mp (hpq _ (mem_map_of_mem hap))
    obtain ⟨i, hi, hia⟩ := hp a hap
    obtain ⟨j, hj, hjb⟩ := hq b hb
    exact ha i hi j hj a b hia hjb (decide_eq_true hab.symm) ▸ hb
  have hj' : ∀ a ∈ res, ∃ i ∈ inputs, tree.Finds i a := by simpa only [hm] using hj
  rw [ho, hr.ext hf fun a => ⟨hs hj' hi fun c => ?_, hs hi hj' fun c => ?_⟩]
  all_goals simp only [hc, hd, hm, imp_self]

omit hm

/-- **The order of inputs matters just where a file is found under two spellings.** -/
theorem spellsAlike_of_expand_eq (h : tree.outcome (expand inputs) = .ok files)
    (hf : ∀ i ∈ inputs, tree.outcome (expand (i :: inputs)) = .ok files) : tree.SpellsAlike inputs := by
  have hu {i a : Path} (hi : i ∈ inputs) (ha : tree.Finds i a) : a ∈ files := by
    obtain ⟨found, hx, hr⟩ := (expandInto_cons tree).mp (hf i hi)
    have ho := isOrdered_insertAll found (Pairwise.nil : IsOrdered [])
    exact (expandInto_spec tree ho hr).2.1 ((finds_iff tree hx).mp ha)
  intro i hi j hj a b ha hb hab
  exact (expand_spec tree h).1.eq_of_components (hu hi ha) (hu hj hb) (of_decide_eq_true hab)

/-! ## Sources -/

theorem paths_readTexts {files : List Path} {texts : List (String × String)}
    (h : tree.outcome (readTexts files) = .ok texts) : texts.map Prod.fst = files.map Path.text := by
  induction files generalizing texts with
  | nil =>
    cases h
    rfl
  | cons file files ih =>
    rw [readTexts] at h
    obtain ⟨text, -, h⟩ := (outcome_bind tree).mp h
    split at h
    · have := looks_readTexts files
      obtain ⟨rest, hr, h⟩ := (outcome_bind tree).mp h
      cases h
      rw [map_cons, map_cons, ih hr]
    · cases h

variable {config other : Config} {srcs : List Source}

instance : Looks (expand inputs) := looks_expandInto [] inputs

theorem loadSources_congr (h : tree.outcome (expand other.inputs) = tree.outcome (expand config.inputs)) :
    tree.outcome (loadSources other) = tree.outcome (loadSources config) := by
  rw [outcome, outcome, loadSources, loadSources, Looks.run_bind, Looks.run_bind, h]

theorem loadSources_eq_ok (h : tree.outcome (loadSources config) = .ok srcs) :
    ∃ files texts, tree.outcome (expand config.inputs) = .ok files ∧ tree.outcome (readTexts files) = .ok texts ∧
      srcs = number texts := by
  obtain ⟨files, he, h⟩ := (outcome_bind tree).mp h
  split at h
  · cases h
  · have := looks_readTexts files
    obtain ⟨texts, ht, h⟩ := (outcome_bind tree).mp h
    cases h
    exact ⟨files, texts, he, ht, rfl⟩

theorem ids_number (inputs : List (String × String)) : (number inputs).map Source.id =
    (range (number inputs).length).map (min · (Location.builtinSource - 1)) := by
  rw [number, map_map, length_map, length_zipIdx, range_eq_range', ← zipIdx_map_snd, map_map]
  rfl

theorem paths_number (inputs : List (String × String)) : (number inputs).map path = inputs.map Prod.fst := by
  rw [number, map_map]
  conv_rhs => rw [← zipIdx_map_fst 0 inputs, map_map]
  rfl

/-- **The sources of a project.** They are numbered in the order of their paths, which are different. Inputs in
another order, or repeated, name the same files. The sources are then the same too, just if no file is found under
two spellings. -/
theorem loadSources_unordered_iff (tree : FileTree) (config : Config) :
    (∀ sources, tree.outcome (loadSources config) = .ok sources →
      sources.map Source.id = (range sources.length).map (min · (Location.builtinSource - 1)) ∧
      sources.Pairwise fun a b => order ⟨a.path⟩ ⟨b.path⟩ = .lt) ∧
    (∀ other : Config, (∀ i, i ∈ other.inputs ↔ i ∈ config.inputs) →
      ((∃ files, tree.outcome (expand other.inputs) = .ok files) ↔
        ∃ files, tree.outcome (expand config.inputs) = .ok files) ∧
      ∀ files files', tree.outcome (expand config.inputs) = .ok files →
        tree.outcome (expand other.inputs) = .ok files' → files'.map components = files.map components) ∧
    ∀ files, tree.outcome (expand config.inputs) = .ok files →
      ((∀ other : Config, (∀ i, i ∈ other.inputs ↔ i ∈ config.inputs) → tree.outcome (expand other.inputs) = .ok files ∧
        tree.outcome (loadSources other) = tree.outcome (loadSources config)) ↔ tree.SpellsAlike config.inputs) := by
  refine ⟨fun sources hs => ?_, fun other hm => ?_, fun files hf => ⟨fun h => ?_, fun ha other hm => ?_⟩⟩
  · obtain ⟨files, texts, he, ht, rfl⟩ := loadSources_eq_ok tree hs
    refine ⟨ids_number texts, ?_⟩
    have hp : (number texts).map (fun source => (⟨source.path⟩ : Path)) = files := by
      have hm := congrArg (map Path.mk) ((paths_number texts).trans (paths_readTexts tree ht))
      rw [map_map, map_map] at hm
      exact hm.trans (map_id files)
    have ho := (expand_spec tree he).1
    rwa [← hp, IsOrdered, pairwise_map] at ho
  · exact ⟨exists_expand_congr tree hm, fun files files' => components_expand_congr tree hm⟩
  · refine spellsAlike_of_expand_eq tree hf fun i hi => ?_
    refine (h { config with schema := i :: config.schema } fun j => ?_).1
    change j ∈ i :: config.inputs ↔ j ∈ config.inputs
    exact mem_cons.trans (or_iff_right_of_imp fun hj => hj ▸ hi)
  · have he := ha.expand_eq tree hm hf
    exact ⟨he, loadSources_congr tree (he.trans hf.symm)⟩

theorem outcome_eq_ok {α : Type} {program : ExceptT ProjectError (StateM FileTree) α} {value : α}
    (h : (tree.outcome program).toOption = some value) : tree.outcome program = .ok value := by
  cases ho : tree.outcome program with
  | error error => simp [ho, Except.toOption] at h
  | ok a => simpa [ho, Except.toOption] using h

def twoFiles : FileTree where
  nodes := [(["x"], .directory), (["x", "b.graphql"], .file (.text "type B")),
    (["x", "a.graphql"], .file (.text "type A"))]

/-- A file and the directory that it is in, in both orders. -/
theorem loadSources_unordered_iff_twoFiles :
    twoFiles.outcome (loadSources { schema := [⟨"x"⟩], operations := [⟨"x/b.graphql"⟩, ⟨"x"⟩] }) =
      .ok [⟨0, "x/a.graphql", "type A"⟩, ⟨1, "x/b.graphql", "type B"⟩] := by
  have hb : twoFiles.outcome (expand [⟨"x/b.graphql"⟩]) = .ok [⟨"x/b.graphql"⟩] := outcome_eq_ok _ (by decide +kernel)
  have hx : twoFiles.outcome (expand [⟨"x"⟩]) = .ok [⟨"x/a.graphql"⟩, ⟨"x/b.graphql"⟩] :=
    outcome_eq_ok _ (by decide +kernel)
  have ha : twoFiles.SpellsAlike [⟨"x/b.graphql"⟩, ⟨"x"⟩] := by
    have hf : ∀ i ∈ [(⟨"x/b.graphql"⟩ : Path), ⟨"x"⟩], ∀ a, twoFiles.Finds i a →
        a ∈ [(⟨"x/a.graphql"⟩ : Path), ⟨"x/b.graphql"⟩] := by
      simp +contextual [Finds, hb, hx]
    have hs : ∀ a ∈ [(⟨"x/a.graphql"⟩ : Path), ⟨"x/b.graphql"⟩], ∀ b ∈ [(⟨"x/a.graphql"⟩ : Path), ⟨"x/b.graphql"⟩],
        a.same b → a = b := by decide +kernel
    exact fun i hi j hj a b ha hb => hs a (hf i hi a ha) b (hf j hj b hb)
  have hl := ((loadSources_unordered_iff twoFiles { schema := [⟨"x/b.graphql"⟩, ⟨"x"⟩] }).2.2
    [⟨"x/a.graphql"⟩, ⟨"x/b.graphql"⟩] (outcome_eq_ok _ (by decide +kernel))).mpr ha
    { schema := [⟨"x"⟩], operations := [⟨"x/b.graphql"⟩, ⟨"x"⟩] } (by simp [Config.inputs, or_comm])
  rw [hl.2]
  exact outcome_eq_ok _ (by decide +kernel)

/-- **The first spelling is kept.** -/
theorem loadSources_first_spelling : twoFiles.outcome (loadSources { schema := [⟨"x//a.graphql"⟩, ⟨"x/a.graphql"⟩] }) =
      .ok [⟨0, "x//a.graphql", "type A"⟩] ∧
    twoFiles.outcome (loadSources { schema := [⟨"x/a.graphql"⟩, ⟨"x//a.graphql"⟩] }) =
      .ok [⟨0, "x/a.graphql", "type A"⟩] :=
  ⟨outcome_eq_ok _ (by decide +kernel), outcome_eq_ok _ (by decide +kernel)⟩

end FileTree

end GraphClient
