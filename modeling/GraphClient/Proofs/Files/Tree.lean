import GraphClient.Files.Tree
import GraphClient.Proofs.Files.Path

/-!
# Changes of file trees

Directories are made and never lost, and files are written and removed one at a time.

* **`FileTree.locate?_join`**: where the paths below a directory lead.
-/

namespace GraphClient.FileTree

open List Option GraphClient.Path Nat

variable {tree next : FileTree} {place other base : Place}

/-! ## Entries -/

@[simp] theorem node?_nil : tree.node? [] = some .directory := if_pos rfl

theorem node?_remove (tree : FileTree) (place : Place) (ho : other ≠ []) :
    (tree.remove place).node? other = if other = place then none else tree.node? other := by
  rw [node?, if_neg ho, remove]
  split_ifs with he
  · subst he
    rw [find?_eq_none.mpr (by simp), map_none]
  · rw [node?]
    grind

theorem node?_put (tree : FileTree) (place : Place) (node : FileNode) (ho : other ≠ []) :
    (tree.put place node).node? other = if other = place then some node else tree.node? other := by
  have hr := node?_remove tree place ho
  rw [node?, if_neg ho] at hr ⊢
  rw [put, find?_append, map_or, hr]
  split_ifs with he
  · simp [he]
  · cases tree.node? other <;> simp [Ne.symm he]

theorem node?_remove_of_ne (h : other ≠ place) : (tree.remove place).node? other = tree.node? other := by
  by_cases hn : other = []
  · simp [hn]
  · rw [node?_remove tree place hn, if_neg h]

variable {node : FileNode} {pieces names : List String}

theorem node?_put_of_ne (h : other ≠ place) : (tree.put place node).node? other = tree.node? other := by
  by_cases hn : other = []
  · simp [hn]
  · rw [node?_put tree place node hn, if_neg h]

theorem mem_nodes_of_node? (hp : place ≠ []) (h : tree.node? place = some node) : (place, node) ∈ tree.nodes := by
  rw [node?, if_neg hp, map_eq_some_iff] at h
  obtain ⟨e, he, rfl⟩ := h
  have hp : e.1 = place := by simpa using find?_some he
  exact hp ▸ mem_of_find?_eq_some he

theorem ne_nil_of_hasDirectory (h : tree.hasDirectory place = false) : place ≠ [] := by
  rintro rfl
  simp [hasDirectory] at h

variable {contents : FileContents} {path : Path}

theorem contents?_eq_some : tree.contents? place = some contents ↔ tree.node? place = some (.file contents) := by
  rw [contents?]
  split <;> simp_all

theorem hasDirectory_of_contents? (h : tree.contents? place = some contents) : tree.hasDirectory place = false := by
  simp [hasDirectory, contents?_eq_some.mp h]

/-! ## Well-formed trees -/

/-- An entry can have the place: its names are names of entries, and it lies in a directory. -/
def Admits (tree : FileTree) (place : Place) : Prop :=
  (∀ name ∈ place, IsEntryName name) ∧ tree.hasDirectory place.dropLast

instance : Decidable (tree.Admits place) := inferInstanceAs (Decidable (_ ∧ _))

/-- Every entry has a place that it can have, and the working directory is there. -/
def IsWellFormed (tree : FileTree) : Prop :=
  (∀ entry ∈ tree.nodes, tree.Admits entry.1) ∧ tree.hasDirectory tree.home

instance : Decidable tree.IsWellFormed := inferInstanceAs (Decidable (_ ∧ _))

theorem admits_nil : tree.Admits [] := ⟨by simp, by simp [hasDirectory]⟩

theorem IsWellFormed.admits (h : tree.IsWellFormed) (hn : tree.node? place = some node) : tree.Admits place := by
  by_cases hp : place = []
  · exact hp ▸ admits_nil
  · exact h.1 _ (mem_nodes_of_node? hp hn)

theorem IsWellFormed.admits_start (h : tree.IsWellFormed) (path : Path) : tree.Admits (tree.start path) := by
  rw [start]
  split_ifs
  · exact admits_nil
  · exact h.admits (of_decide_eq_true h.2)

theorem IsWellFormed.hasDirectory_of_prefix (h : tree.IsWellFormed) (hp : tree.hasDirectory place)
    (hs : other <+: place) : tree.hasDirectory other := by
  induction place using reverseRecOn with
  | nil => rwa [prefix_nil.mp hs]
  | append_singleton place name ih =>
    rcases prefix_concat_iff.mp hs with rfl | hs
    · exact hp
    · have ha := (h.admits (of_decide_eq_true hp)).2
      rw [dropLast_concat] at ha
      exact ih ha hs

/-! ## Steps -/

theorem follow_append (tree : FileTree) (place : Place) (pieces others : List String) :
    tree.follow place (pieces ++ others) = (tree.follow place pieces).bind (tree.follow · others) := by
  fun_induction follow tree place pieces <;> simp_all [follow]

theorem follow_mono (h : ∀ place, tree.hasDirectory place → next.hasDirectory place)
    (hf : tree.follow place pieces = some other) : next.follow place pieces = some other := by
  fun_induction follow tree place pieces <;> simp_all [follow]

/-- **Names lead to the place below**, through directories. -/
theorem follow_names (h : ∀ name ∈ names, IsEntryName name) :
    tree.follow base names = some place ↔ place = base ++ names ∧ (∀ name ∈ names, isLongName name = false) ∧
        ∀ init rest, names = init ++ rest → rest ≠ [] → tree.hasDirectory (base ++ init) := by
  induction names generalizing base with
  | nil =>
    simpa [follow] using eq_comm
  | cons name names ih =>
    obtain ⟨hn, hna⟩ := forall_mem_cons.mp h
    have hs : (∀ init rest, name :: names = init ++ rest → rest ≠ [] → tree.hasDirectory (base ++ init)) ↔
        tree.hasDirectory base ∧ ∀ init rest, names = init ++ rest → rest ≠ [] →
          tree.hasDirectory (base ++ [name] ++ init) := by
      constructor
      · intro ha
        refine ⟨by simpa using ha [] (name :: names) rfl (cons_ne_nil _ _), fun init rest he hr => ?_⟩
        simpa using ha (name :: init) rest (by rw [he, cons_append]) hr
      · rintro ⟨hb, ha⟩ init rest he hr
        cases init with
        | nil => simpa using hb
        | cons first init =>
          obtain ⟨rfl, hsa⟩ := cons.inj he
          simpa using ha init rest hsa hr
    rw [follow, hn.isIdle_eq, hs]
    by_cases hb : tree.hasDirectory base <;> by_cases hl : isLongName name <;>
      simp [hb, hl, hn.2.2.1, ih hna]

theorem IsWellFormed.admits_follow (h : tree.IsWellFormed)
    (hpi : ∀ piece ∈ pieces, '/' ∉ piece.toList) (hp : tree.Admits place)
    (hf : tree.follow place pieces = some other) : tree.Admits other := by
  fun_induction follow tree place pieces with
  | case1 place => exact Option.some.inj hf ▸ hp
  | case2 => cases hf
  | case3 place piece rest _ _ ih => exact ih (forall_mem_cons.mp hpi).2 hp hf
  | case4 place rest hd _ ih =>
    refine ih (forall_mem_cons.mp hpi).2 ⟨fun name hn => ?_, ?_⟩ hf
    · exact hp.1 name (dropLast_subset _ hn)
    · exact h.hasDirectory_of_prefix hp.2 (List.dropLast_prefix _)
  | case5 => cases hf
  | case6 place piece rest hd hi hu _ ih =>
    obtain ⟨hs, hr⟩ := forall_mem_cons.mp hpi
    refine ih hr ⟨forall_mem_append.mpr ⟨hp.1, ?_⟩, ?_⟩ hf
    · simp only [isIdle, Bool.or_eq_true, decide_eq_true_eq, not_or] at hi
      exact forall_mem_singleton.mpr ⟨hi.1, hi.2, hu, hs⟩
    · simpa using hd

/-! ## Paths below a directory -/

theorem locate?_eq_some : tree.locate? path = some place ↔
    path.text ≠ "" ∧ isUnusable path = false ∧ tree.follow (tree.start path) path.pieces = some place := by
  rw [locate?]
  split_ifs with hr
  · grind
  · simp only [Bool.or_eq_true, decide_eq_true_eq, not_or] at hr
    simp [hr]

theorem isDirectory_eq_true : tree.isDirectory path ↔
    ∃ place, tree.locate? path = some place ∧ tree.hasDirectory place := by
  simp [isDirectory, entry?, hasDirectory, bind_eq_some_iff]

theorem locate?_mono (hh : next.home = tree.home) (h : ∀ place, tree.hasDirectory place → next.hasDirectory place)
    (hp : tree.locate? path = some place) : next.locate? path = some place := by
  rw [locate?_eq_some] at hp ⊢
  rw [start, hh]
  exact ⟨hp.1, hp.2.1, follow_mono h hp.2.2⟩

theorem locate?_congr (hh : next.home = tree.home) (h : ∀ place, next.hasDirectory place = tree.hasDirectory place)
    (path : Path) : next.locate? path = tree.locate? path := by
  refine ext fun place => ⟨locate?_mono hh.symm fun place hp => ?_, locate?_mono hh fun place hp => ?_⟩
  · rwa [← h place]
  · rwa [h place]

theorem IsWellFormed.admits_locate? (h : tree.IsWellFormed) {path : Path} (hl : tree.locate? path = some place) :
    tree.Admits place :=
  h.admits_follow (fun _ => slash_notMem_of_mem_pieces) (h.admits_start path) (locate?_eq_some.mp hl).2.2

theorem isUnusable_of_append {text rest : String} (h : isUnusable ⟨text ++ rest⟩ = false) :
    isUnusable ⟨text⟩ = false := by
  have hs : ∀ cs ds : List Char, Text.byteSize cs ≤ Text.byteSize (cs ++ ds) := by
    intro cs ds
    induction cs with
    | nil => exact zero_le _
    | cons c cs ih => exact Nat.add_le_add_left ih _
  simp only [isUnusable, Bool.or_eq_false_iff, decide_eq_false_iff_not, not_lt, String.toList_append,
    contains_append] at h ⊢
  exact ⟨(hs _ _).trans h.1, h.2.1⟩

theorem locate?_join {dir : Path} (hd : dir.text ≠ "") (hne : names ≠ [])
    (hn : ∀ name ∈ names, IsEntryName name) : tree.locate? (dir.join (.ofPieces names)) = some place ↔
      ∃ base, tree.locate? dir = some base ∧ isUnusable (dir.join (.ofPieces names)) = false ∧
        tree.follow base names = some place := by
  have hi := isAbsolute_ofPieces hn
  have ht : (dir.join (.ofPieces names)).text ≠ "" := by
    rw [join_eq hd hi]
    simp [lead_ne hd]
  have hu : isUnusable (dir.join (.ofPieces names)) = false → isUnusable dir = false := by
    obtain ⟨rest, hl⟩ := dir.exists_lead_eq
    rw [join_eq hd hi, hl, String.append_assoc]
    exact isUnusable_of_append
  simp only [locate?_eq_some, start, isAbsolute_join hd hi, pieces_join_names hd hn hne, follow_append,
    bind_eq_some_iff]
  constructor
  · rintro ⟨-, hf, base, hb, hpl⟩
    refine ⟨base, ⟨hd, hu hf, ?_⟩, hf, hpl⟩
    rcases dir.pieces_eq_stem with hp | hp
    · rw [hp, hb]
    · have he := ((follow_names hn).mp hpl).2.2 [] names rfl hne
      rw [append_nil] at he
      simp [hp, follow_append, hb, follow, he, isIdle]
  · rintro ⟨base, ⟨-, -, hb⟩, hf, hpl⟩
    refine ⟨ht, hf, base, ?_, hpl⟩
    rcases dir.pieces_eq_stem with hp | hp
    · rw [← hp, hb]
    · rw [hp, follow_append, bind_eq_some_iff] at hb
      obtain ⟨found, hfo, hs⟩ := hb
      simp only [follow, isIdle] at hs
      split_ifs at hs <;> simp_all

/-! ## Changes -/

/-- Directories stay, and so do the files at places that are not `touched`. -/
structure Extends (touched : Place → Prop) (tree next : FileTree) : Prop where
  home : next.home = tree.home
  hasDirectory : ∀ place, tree.hasDirectory place → next.hasDirectory place
  contents? : ∀ place, ¬ touched place → next.contents? place = tree.contents? place
  isWellFormed : tree.IsWellFormed → next.IsWellFormed

/-- Some files are gone, and nothing else has changed. -/
structure Sheds (gone : Place → Prop) (tree next : FileTree) : Prop where
  home : next.home = tree.home
  hasDirectory : ∀ place, next.hasDirectory place = tree.hasDirectory place
  contents? : ∀ place, next.contents? place = tree.contents? place ∨ next.contents? place = none ∧ gone place
  isWellFormed : tree.IsWellFormed → next.IsWellFormed

section Changes

variable {last : FileTree} {touched more : Place → Prop}

theorem Extends.refl (touched : Place → Prop) (tree : FileTree) : Extends touched tree tree :=
  ⟨rfl, fun _ h => h, fun _ _ => rfl, fun h => h⟩

theorem Extends.trans (h : Extends touched tree next) (h' : Extends touched next last) : Extends touched tree last where
  home := h'.home.trans h.home
  hasDirectory place hplace := h'.hasDirectory place (h.hasDirectory place hplace)
  contents? place hplace := (h'.contents? place hplace).trans (h.contents? place hplace)
  isWellFormed hformed := h'.isWellFormed (h.isWellFormed hformed)

theorem Extends.mono (h : Extends touched tree next) (hm : ∀ place, touched place → more place) :
    Extends more tree next :=
  ⟨h.home, h.hasDirectory, fun place hp => h.contents? place fun ht => hp (hm place ht), h.isWellFormed⟩

variable {path : Path}

theorem Extends.locate? (h : Extends touched tree next) (hp : tree.locate? path = some place) :
    next.locate? path = some place :=
  locate?_mono h.home h.hasDirectory hp

theorem Sheds.refl (gone : Place → Prop) (tree : FileTree) : Sheds gone tree tree :=
  ⟨rfl, fun _ => rfl, fun _ => .inl rfl, fun h => h⟩

theorem Sheds.trans (h : Sheds touched tree next) (h' : Sheds touched next last) : Sheds touched tree last where
  home := h'.home.trans h.home
  hasDirectory place := (h'.hasDirectory place).trans (h.hasDirectory place)
  contents? place := by
    rcases h'.contents? place with hs | hg
    · rw [hs]
      exact h.contents? place
    · exact .inr hg
  isWellFormed hf := h'.isWellFormed (h.isWellFormed hf)

theorem Sheds.mono (h : Sheds touched tree next) (hm : ∀ place, touched place → more place) : Sheds more tree next :=
  ⟨h.home, h.hasDirectory, fun place => (h.contents? place).imp_right (And.imp_right (hm place)), h.isWellFormed⟩

theorem Sheds.locate? (h : Sheds touched tree next) (path : Path) : next.locate? path = tree.locate? path :=
  locate?_congr h.home h.hasDirectory path

theorem IsWellFormed.put (h : tree.IsWellFormed) {node : FileNode} (hp : tree.Admits place)
    (hd : ∀ other, tree.hasDirectory other → (tree.put place node).hasDirectory other) :
    (tree.put place node).IsWellFormed := by
  refine ⟨fun e he => ?_, hd _ h.2⟩
  have ha : tree.Admits e.1 := by
    rcases mem_append.mp he with he | he
    · exact h.1 e (mem_of_mem_filter he)
    · exact mem_singleton.mp he ▸ hp
  exact ⟨ha.1, hd _ ha.2⟩

theorem extends_put_directory (hr : tree.node? place = none) (hp : tree.IsWellFormed → tree.Admits place) :
    Extends (fun _ => False) tree (tree.put place .directory) := by
  have hn : place ≠ [] := by
    rintro rfl
    simp at hr
  have hs : (tree.put place .directory).node? place = some .directory := by
    rw [node?_put tree place _ hn, if_pos rfl]
  have hk : ∀ other, tree.hasDirectory other → (tree.put place .directory).hasDirectory other := by
    intro other ho
    by_cases he : other = place
    · simp [hasDirectory, he, hs]
    · rwa [hasDirectory, node?_put_of_ne he]
  refine ⟨rfl, hk, fun other _ => ?_, fun hf => hf.put (hp hf) hk⟩
  by_cases he : other = place
  · simp [contents?, he, hs, hr]
  · rw [contents?, contents?, node?_put_of_ne he]

theorem extends_makeDirectory (h : tree.makeDirectory path = .made next) : Extends (fun _ => False) tree next := by
  rw [makeDirectory] at h
  cases hf : tree.follow (tree.start path) (path.pieces.reverse.dropWhile (· = "")).reverse with
  | none =>
    simp only [hf] at h
    split_ifs at h
  | some place =>
    simp only [hf] at h
    split_ifs at h with hr hfr
    obtain rfl := MakeResult.made.inj h
    refine extends_put_directory (by simpa using hfr) fun ho => ?_
    refine ho.admits_follow (fun piece hp => ?_) (ho.admits_start path) hf
    have hm := (dropWhile_sublist _).subset (mem_reverse.mp hp)
    exact slash_notMem_of_mem_pieces (mem_reverse.mp hm)

/-- **Making directories** keeps all files. -/
theorem extends_createUpTo (steps : Nat) (tree : FileTree) (path : Path) :
    Extends (fun _ => False) tree (createUpTo steps tree path).1 := by
  fun_induction createUpTo steps tree path with
  | case1 | case2 => exact .refl _ _
  | case3 _ _ _ _ _ hm => exact extends_makeDirectory hm
  | case4 | case5 => exact .refl _ _
  | case6 _ _ _ _ _ _ _ _ _ hm hp ih =>
    rw [hp] at ih
    exact ih.trans (extends_makeDirectory hm)
  | case7 _ _ _ _ _ _ _ _ _ hp ih | case8 _ _ _ _ _ _ _ _ _ hp _ ih =>
    rw [hp] at ih
    exact ih

theorem extends_createDirectories (tree : FileTree) (path : Path) :
    Extends (fun _ => False) tree (tree.createDirectories path).1 :=
  extends_createUpTo _ tree path

/-- **Writing a file** changes this file only. -/
theorem write?_eq_some {contents : FileContents} (h : tree.write? path contents = some next) :
    ∃ place, tree.locate? path = some place ∧ next.contents? place = some contents ∧ Extends (· = place) tree next := by
  simp only [write?, bind_eq_bind, bind_eq_some_iff] at h
  obtain ⟨place, hl, h⟩ := h
  split_ifs at h with hd
  obtain rfl := some.inj h
  have hn : place ≠ [] := ne_nil_of_hasDirectory (by simpa using hd)
  have hk : ∀ other, tree.hasDirectory other → (tree.put place (.file contents)).hasDirectory other := by
    intro other ho
    have hne : other ≠ place := fun he => hd (he ▸ ho)
    rwa [hasDirectory, node?_put_of_ne hne]
  refine ⟨place, hl, ?_, rfl, hk, fun other ho => ?_, fun hf =>
    hf.put (hf.admits_locate? hl) hk⟩
  · rw [contents?_eq_some, node?_put tree place _ hn, if_pos rfl]
  · rw [contents?, contents?, node?_put_of_ne ho]

/-- **Removing a file** removes this file only. -/
theorem delete?_eq_some (h : tree.delete? path = some next) :
    ∃ place, tree.locate? path = some place ∧ next.contents? place = none ∧ Sheds (· = place) tree next := by
  simp only [delete?, bind_eq_bind, bind_eq_some_iff] at h
  obtain ⟨place, hl, contents, hc, h⟩ := h
  obtain rfl := some.inj h
  have hd := hasDirectory_of_contents? hc
  have hs : (tree.remove place).node? place = none := by
    rw [node?_remove tree place (ne_nil_of_hasDirectory hd), if_pos rfl]
  have hg : (tree.remove place).contents? place = none := by rw [contents?, hs]
  have hk : ∀ other, (tree.remove place).hasDirectory other = tree.hasDirectory other := by
    intro other
    by_cases he : other = place
    · rw [he, hd, hasDirectory, hs]
      rfl
    · rw [hasDirectory, hasDirectory, node?_remove_of_ne he]
  refine ⟨place, hl, hg, rfl, hk, fun other => ?_, fun hf => ⟨fun e hen => ?_, (hk _).trans hf.2⟩⟩
  · by_cases he : other = place
    · exact .inr ⟨he ▸ hg, he⟩
    · exact .inl (by rw [contents?, contents?, node?_remove_of_ne he])
  · obtain ⟨hn, ha⟩ := hf.1 e (mem_of_mem_filter hen)
    exact ⟨hn, (hk _).trans ha⟩

end Changes

/-! ## Files below a directory -/

variable {names : Place}

theorem mem_below (h : tree.contents? (base ++ names) = some contents) : names ∈ tree.below base := by
  have hn := ne_nil_of_hasDirectory (hasDirectory_of_contents? h)
  refine mem_filterMap.mpr ⟨_, mem_nodes_of_node? hn (contents?_eq_some.mp h), ?_⟩
  simp

theorem admits_of_mem_below (hf : tree.IsWellFormed) (h : names ∈ tree.below base) : tree.Admits (base ++ names) := by
  obtain ⟨⟨place, node⟩, he, hn⟩ := mem_filterMap.mp h
  cases node with
  | directory => cases hn
  | file contents =>
    have ha := hf.1 _ he
    simp only at hn
    split_ifs at hn with hs
    obtain ⟨rest, rfl⟩ := isPrefixOf_iff_prefix.mp hs
    rwa [← some.inj hn, drop_left]

end GraphClient.FileTree
