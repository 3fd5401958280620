import GraphClient.Proofs.Project.Output

/-!
# Regeneration

A client that is written over an earlier one replaces it and leaves all other files alone.
-/

namespace GraphClient

open List FileTree GraphClient.Path
open FileTree (Sheds)

variable {dir : Path} {files : List GeneratedFile} {tree next : FileTree}

/-! ## Paths of a client -/

theorem GeneratedFile.names_ne_nil (file : GeneratedFile) : file.names ≠ [] := pieces_ne_nil _

section Paths

variable {base place names : Place} {file : GeneratedFile} (hdir : dir.text ≠ "")

include hdir

theorem targetPath_eq (h : ∀ name ∈ file.names, IsEntryName name) :
    targetPath dir file = dir.join (.ofPieces file.names) :=
  foldl_join hdir file.names_ne_nil h

/-- **A path below a directory leads to a place below the place of the directory.** -/
theorem locate?_below (he : names ≠ []) (hn : ∀ name ∈ names, IsEntryName name)
    (h : tree.locate? (dir.join (.ofPieces names)) = some place) :
    ∃ base, tree.locate? dir = some base ∧ tree.hasDirectory base ∧ place = base ++ names := by
  obtain ⟨base, hb, -, hf⟩ := (locate?_join hdir he hn).mp h
  obtain ⟨hp, -, ha⟩ := (follow_names hn).mp hf
  exact ⟨base, hb, by simpa using ha [] names rfl he, hp⟩

theorem locate?_targetPath (h : ∀ name ∈ file.names, IsEntryName name)
    (hp : tree.locate? (targetPath dir file) = some place) :
    ∃ base, tree.locate? dir = some base ∧ tree.hasDirectory base ∧ place = base ++ file.names :=
  locate?_below hdir file.names_ne_nil h (targetPath_eq hdir h ▸ hp)

theorem read?_join_nil : tree.read? (dir.join (.ofPieces [])) = none := by
  have he : ofPieces [] = ⟨""⟩ := rfl
  have hp : (dir.join ⟨""⟩).pieces = dir.stem ++ [""] := pieces_join hdir rfl
  refine Option.eq_none_iff_forall_ne_some.mpr fun contents hr => ?_
  obtain ⟨place, hl, hc⟩ := Option.bind_eq_some_iff.mp hr
  have hf := (locate?_eq_some.mp hl).2.2
  rw [he, hp, follow_append, Option.bind_eq_some_iff] at hf
  obtain ⟨base, -, hb⟩ := hf
  -- An empty piece asks for a directory and stays there.
  have hdir := hasDirectory_of_contents? hc
  simp only [follow, isIdle] at hb
  split_ifs at hb <;> simp_all

/-- A file below a directory can be found by its path, if the path can be used. -/
theorem locate?_of_contents? (hf : tree.IsWellFormed) (he : names ≠ [])
    (hn : ∀ name ∈ names, IsEntryName name) (hb : tree.locate? dir = some base)
    {contents : FileContents} (hc : tree.contents? (base ++ names) = some contents)
    (hx : next.locate? (dir.join (.ofPieces names)) = some place) :
    tree.locate? (dir.join (.ofPieces names)) = some (base ++ names) := by
  obtain ⟨other, -, hu, ho⟩ := (locate?_join hdir he hn).mp hx
  refine (locate?_join hdir he hn).mpr ⟨base, hb, hu, ?_⟩
  refine (follow_names hn).mpr ⟨rfl, ((follow_names hn).mp ho).2.1, ?_⟩
  rintro init rest rfl hr
  have ha := (hf.admits (contents?_eq_some.mp hc)).2
  refine hf.hasDirectory_of_prefix ha ⟨rest.dropLast, ?_⟩
  rw [← append_assoc, dropLast_append_of_ne_nil hr]

theorem any_same_eq_true (hf : Writable files) (hne : names ≠ []) (hn : ∀ name ∈ names, IsEntryName name) :
    (files.map (targetPath dir)).any (dir.join (.ofPieces names)).same ↔ ∃ file ∈ files, file.names = names := by
  rw [any_map, any_eq_true]
  refine exists_congr fun file => and_congr_right fun hi => ?_
  have he := hf.isEntryName file hi
  rw [Function.comp_apply, targetPath_eq hdir he, same_join_iff hdir hn hne he file.names_ne_nil]
  exact eq_comm

end Paths

/-! ## Writing a client -/

/-- The walk through a directory gives exactly the files below it. -/
def Walks (directory : Path) : Prop := ∀ tree : FileTree,
  tree.run (FileSystem.walk directory fun _ => true) = (.ok (tree.filesBelow directory fun _ => true), tree)

variable {keep : List Path} {base : Place} {removed : List Path} {summary : WriteSummary}

theorem run_prune (hw : Walks dir) : tree.run (prune dir keep) = (.ok removed, next) ↔ if tree.isDirectory dir then
        ∃ stale, tree.run (pruneFiles keep ((tree.filesBelow dir fun _ => true).map fun names =>
          dir.join (.ofPieces names))) = (.ok stale, next) ∧ sortBy order stale = removed
      else removed = [] ∧ tree = next := by
  rw [prune, run_isDirectory_bind]
  split_ifs
  · simp only [run_bind, run_pure, hw tree]
    constructor
    · rintro ⟨found, mid, hf, stale, last, hs, rfl, rfl⟩
      obtain ⟨rfl, rfl⟩ := ok_eq_ok.mp hf
      exact ⟨stale, hs, rfl⟩
    · rintro ⟨stale, hs, rfl⟩
      exact ⟨_, tree, rfl, stale, next, hs, rfl, rfl⟩
  · exact run_pure.trans (and_congr_left' eq_comm)

theorem run_writeClient : tree.run (writeClient dir files) = (.ok summary, next) ↔
      ∃ removed mid outcome, tree.run (prune dir (files.map (targetPath dir))) = (.ok removed, mid) ∧
        mid.run (writeFiles dir files) = (.ok outcome, next) ∧ summary = ⟨outcome.1, outcome.2, removed⟩ := by
  simp only [writeClient, run_bind, run_pure]
  constructor
  · rintro ⟨removed, mid, hp, outcome, last, hw, rfl, rfl⟩
    exact ⟨removed, mid, outcome, hp, hw, rfl⟩
  · rintro ⟨removed, mid, outcome, hp, hw, rfl⟩
    exact ⟨removed, mid, hp, outcome, next, hw, rfl, rfl⟩

theorem exists_of_isStale (hdir : dir.text ≠ "") (hf : tree.IsWellFormed) {names : Place}
    (hb : tree.locate? dir = some base) (hn : names ∈ tree.below base)
    (h : isStale keep tree (dir.join (.ofPieces names))) : names ≠ [] ∧ (∀ name ∈ names, IsEntryName name) ∧
      tree.locate? (dir.join (.ofPieces names)) = some (base ++ names) ∧
        ∃ contents, tree.contents? (base ++ names) = some contents ∧ contents.isMarked := by
  obtain ⟨-, place, contents, hp, hc, hm⟩ := isStale_eq_true.mp h
  have hne : names ≠ [] := by
    rintro rfl
    simp [isStale, read?_join_nil hdir] at h
  have he : ∀ name ∈ names, IsEntryName name := fun name ha =>
    (admits_of_mem_below hf hn).1 name (mem_append_right _ ha)
  obtain ⟨other, ho, -, rfl⟩ := locate?_below hdir hne he hp
  obtain rfl := Option.some.inj (hb.symm.trans ho)
  exact ⟨hne, he, hp, contents, hc, hm⟩

/-- **Removing the files of an earlier client** removes marked files below the directory, and leaves none that is
not kept. -/
theorem sheds_of_run_prune (hdir : dir.text ≠ "") (hw : Walks dir)
    (hf : tree.IsWellFormed) (hb : tree.locate? dir = some base) (he : tree.isDirectory dir)
    (h : tree.run (prune dir keep) = (.ok removed, next)) :
    Sheds (fun place => base <+: place ∧ (tree.contents? place).any FileContents.isMarked) tree next ∧
      ∀ names ∈ tree.below base, isStale keep next (dir.join (.ofPieces names)) = false := by
  have hfo : (tree.filesBelow dir fun _ => true) = tree.below base := by
    simp [filesBelow, hb]
  rw [run_prune hw, if_pos he, hfo] at h
  obtain ⟨stale, ht, -⟩ := h
  obtain ⟨hs, hcl⟩ := run_pruneFiles ht
  refine ⟨hs.mono ?_, fun names hn => hcl _ (mem_map_of_mem hn)⟩
  rintro place ⟨path, ha, hp, ho⟩
  obtain ⟨names, hn, rfl⟩ := mem_map.mp ha
  obtain ⟨-, -, hl, contents, hc, hm⟩ := exists_of_isStale hdir hf hb hn ho
  obtain rfl := Option.some.inj (hl.symm.trans hp)
  exact ⟨prefix_append _ _, by rw [hc, Option.any_some, hm]⟩

/-- What is left after the files of a client are written below a directory at the place `base`. -/
structure Rewrites (directory : Path) (files : List GeneratedFile) (base : Place) (tree next : FileTree) : Prop where
  locate? : next.locate? directory = some base
  home : next.home = tree.home
  hasDirectory : ∀ place, tree.hasDirectory place → next.hasDirectory place
  isWellFormed : next.IsWellFormed
  isDirectory : next.isDirectory directory
  written : ∀ file ∈ files, next.locate? (targetPath directory file) = some (base ++ file.names) ∧
    next.contents? (base ++ file.names) = some (.text file.contents)
  /-- Other files are removed only if they lie below the directory and carry the mark. -/
  kept : ∀ place, (∀ file ∈ files, place ≠ base ++ file.names) → next.contents? place = tree.contents? place ∨
    next.contents? place = none ∧ base <+: place ∧ (tree.contents? place).any FileContents.isMarked
  /-- Nothing is left to be removed, if the directory was there before. -/
  clean : tree.isDirectory directory → ∀ names ∈ next.below base,
    isStale (files.map (targetPath directory)) next (directory.join (.ofPieces names)) = false

theorem pairwise_locate? (hdir : dir.text ≠ "") (hf : Writable files) :
    files.Pairwise fun file other => ∀ tree place, locate? tree (targetPath dir file) = some place →
        tree.locate? (targetPath dir other) ≠ some place := by
  refine (pairwise_map.mp hf.nodup).imp_of_mem fun {file other} hi ho ha tree place hp hs => ?_
  obtain ⟨base, hb, -, rfl⟩ := locate?_targetPath hdir (hf.isEntryName file hi) hp
  obtain ⟨base', hb', -, he⟩ := locate?_targetPath hdir (hf.isEntryName other ho) hs
  obtain rfl := Option.some.inj (hb.symm.trans hb')
  exact ha (congrArg text (pieces_injective (append_cancel_left he)))

theorem rewrites_of_run (hdir : dir.text ≠ "") (hw : Walks dir) (hfi : Writable files) (hfor : tree.IsWellFormed)
    (h : tree.run (writeClient dir files) = (.ok summary, next)) : ∃ base, Rewrites dir files base tree next := by
  obtain ⟨removed, mid, outcome, hpr, hwr, -⟩ := run_writeClient.mp h
  obtain ⟨he, hr⟩ := run_writeFiles (pairwise_locate? hdir hfi) hwr
  -- The place of the directory is found through one of the files.
  obtain ⟨first, hfir⟩ := exists_mem_of_ne_nil files hfi.ne_nil
  obtain ⟨place, hp, -⟩ := Option.bind_eq_some_iff.mp (hr first hfir)
  obtain ⟨base, hba, hex, -⟩ := locate?_targetPath hdir (hfi.isEntryName first hfir) hp
  have hbel : ∀ {file place}, file ∈ files → next.locate? (targetPath dir file) = some place →
      place = base ++ file.names := by
    intro file place hf hp
    obtain ⟨other, ho, -, heq⟩ := locate?_targetPath hdir (hfi.isEntryName file hf) hp
    rwa [Option.some.inj (hba.symm.trans ho)]
  have hpru : Sheds (fun place => base <+: place ∧ (tree.contents? place).any FileContents.isMarked) tree
      mid ∧ (tree.isDirectory dir → tree.locate? dir = some base ∧ ∀ names ∈ tree.below base,
        isStale (files.map (targetPath dir)) mid (dir.join (.ofPieces names)) = false) := by
    by_cases hb : tree.isDirectory dir
    · obtain ⟨found, hfo, -⟩ := isDirectory_eq_true.mp hb
      obtain ⟨hs, hcl⟩ := sheds_of_run_prune hdir hw hfor hfo hb hpr
      obtain rfl := Option.some.inj (hba.symm.trans (he.locate? ((hs.locate? dir).trans hfo)))
      exact ⟨hs, fun _ => ⟨hfo, hcl⟩⟩
    · rw [run_prune hw, if_neg hb] at hpr
      exact ⟨hpr.2 ▸ .refl _ _, fun h => absurd h hb⟩
  obtain ⟨hs, hcl⟩ := hpru
  have hsa : ∀ place, (∀ file ∈ files, place ≠ base ++ file.names) → next.contents? place = mid.contents? place :=
    fun place ho => he.contents? place fun ⟨file, hf, hl⟩ => ho file hf (hbel hf hl)
  refine ⟨base, hba, he.home.trans hs.home, fun place hp => ?_, he.isWellFormed (hs.isWellFormed hfor),
    isDirectory_eq_true.mpr ⟨base, hba, hex⟩, fun file hf => ?_, fun place ho => ?_,
    fun hb names hn => ?_⟩
  · exact he.hasDirectory place ((hs.hasDirectory place).trans hp)
  · obtain ⟨place, hp, hc⟩ := Option.bind_eq_some_iff.mp (hr file hf)
    obtain rfl := hbel hf hp
    exact ⟨hp, hc⟩
  · rw [hsa place ho]
    exact hs.contents? place
  · refine Bool.eq_false_iff.mpr fun hst => ?_
    obtain ⟨hfo, hcl⟩ := hcl hb
    obtain ⟨hne, hen, hl, contents, hc, hm⟩ :=
      exists_of_isStale hdir (he.isWellFormed (hs.isWellFormed hfor)) hba hn hst
    have hk := (isStale_eq_true.mp hst).1
    have hot : ∀ file ∈ files, base ++ names ≠ base ++ file.names := fun file hf heq => by
      have hsa := (any_same_eq_true hdir hfi hne hen).mpr
        ⟨file, hf, (append_cancel_left heq).symm⟩
      cases hk.symm.trans hsa
    -- The file was there before the others were written, and before stale files were removed.
    rw [hsa _ hot] at hc
    have ht : tree.contents? (base ++ names) = some contents := by
      rcases hs.contents? (base ++ names) with hsa | ⟨hg, -⟩
      · rw [← hsa, hc]
      · cases hg.symm.trans hc
    have hbe := locate?_of_contents? hdir hfor hne hen hfo ht hl
    have hmi : isStale (files.map (targetPath dir)) mid (dir.join (.ofPieces names)) :=
      isStale_eq_true.mpr ⟨hk, _, contents, (hs.locate? _).trans hbe, hc, hm⟩
    cases (hcl names (mem_below ht)).symm.trans hmi

theorem Rewrites.contents?_of_foreign {place : Place} (h : Rewrites dir files base tree next)
    {contents : FileContents} (hc : tree.contents? place = some contents) (hf : ¬ (base <+: place ∧ contents.isMarked))
    (ho : ∀ file ∈ files, place ≠ base ++ file.names) : next.contents? place = some contents := by
  rcases h.kept place ho with hs | ⟨-, hb, hm⟩
  · rw [hs, hc]
  · rw [hc, Option.any_some] at hm
    exact absurd ⟨hb, hm⟩ hf

theorem Rewrites.contents?_of_dropped (h : Rewrites dir files base tree next)
    (hdir : dir.text ≠ "") (hi : Writable files) (hb : tree.isDirectory dir)
    {file : GeneratedFile} (hn : ∀ name ∈ file.names, IsEntryName name)
    (hm : (FileContents.text file.contents).isMarked)
    (hlo : tree.locate? (targetPath dir file) = some (base ++ file.names))
    (hc : tree.contents? (base ++ file.names) = some (.text file.contents))
    (hp : file.path ∉ files.map GeneratedFile.path) : next.contents? (base ++ file.names) = none := by
  have hd : ∀ other ∈ files, other.names ≠ file.names := fun other ho hn =>
    hp (mem_map.mpr ⟨other, ho, congrArg text (pieces_injective hn)⟩)
  refine Option.eq_none_iff_forall_ne_some.mpr fun contents hl => ?_
  rcases h.kept _ fun other ho he => hd other ho (append_cancel_left he).symm with
    hs | ⟨hg, -⟩
  · obtain rfl := Option.some.inj (hl.symm.trans (hs.trans hc))
    have hk : (files.map (targetPath dir)).any (dir.join (.ofPieces file.names)).same = false :=
      Bool.eq_false_iff.mpr fun hke =>
        have ⟨other, ho, hs⟩ := (any_same_eq_true hdir hi file.names_ne_nil hn).mp hke
        hd other ho hs
    have hf := locate?_mono h.home h.hasDirectory hlo
    rw [targetPath_eq hdir hn] at hf
    have ht := isStale_eq_true.mpr ⟨hk, _, _, hf, hl, hm⟩
    cases (h.clean hb _ (mem_below hl)).symm.trans ht
  · cases hg.symm.trans hl

theorem Rewrites.again (h : Rewrites dir files base tree next) (hw : Walks dir) (hb : tree.isDirectory dir) :
    next.run (writeClient dir files) = (.ok ⟨[], files.length, []⟩, next) := by
  have hf : (next.filesBelow dir fun _ => true) = next.below base := by
    simp [filesBelow, h.locate?]
  have hr : ∀ file ∈ files, next.read? (targetPath dir file) = some (.text file.contents) := by
    intro file hi
    obtain ⟨hl, hc⟩ := h.written file hi
    rw [read?, hl, Option.bind_some, hc]
  refine run_writeClient.mpr ⟨[], next, ([], files.length), ?_, run_writeFiles_same hr, rfl⟩
  rw [run_prune hw, if_pos h.isDirectory, hf]
  exact ⟨[], run_pruneFiles_fresh (forall_mem_map.mpr (h.clean hb)), rfl⟩

/-! ## Two clients -/

/-- **Two clients written one after the other.** In the end the files of the second are there, those of the first
that are not among them are gone, and what lies elsewhere or does not carry the mark is as it was. To write the
second once more does nothing. -/
theorem regeneration_converges (tree tree₁ tree₂ : FileTree) (hformed : tree.IsWellFormed) (directory : Path)
    (hdirectory : directory.text ≠ "") (hwalks : Walks directory) (sources₁ sources₂ : List Source)
    (options₁ options₂ : Options) (language₁ language₂ : Language) (client₁ client₂ : GeneratedClient)
    (hgenerate₁ : generate (analyze sources₁) options₁ language₁ = .ok client₁)
    (hgenerate₂ : generate (analyze sources₂) options₂ language₂ = .ok client₂) (summary₁ summary₂ : WriteSummary)
    (hrun₁ : tree.run (writeClient directory client₁.files) = (.ok summary₁, tree₁))
    (hrun₂ : tree₁.run (writeClient directory client₂.files) = (.ok summary₂, tree₂)) :
    ∃ base, tree₂.locate? directory = some base ∧
      (∀ file ∈ client₂.files, tree₂.read? (targetPath directory file) = some (.text file.contents)) ∧
      (∀ file ∈ client₁.files, file.path ∉ client₂.files.map GeneratedFile.path →
        ∃ place, tree₂.locate? (targetPath directory file) = some place ∧ tree₂.contents? place = none) ∧
      (∀ place contents, tree.contents? place = some contents → ¬ (base <+: place ∧ contents.isMarked) →
        (∀ file ∈ client₁.files ++ client₂.files, tree₂.locate? (targetPath directory file) ≠ some place) →
        tree₂.contents? place = some contents) ∧
      tree₂.run (writeClient directory client₂.files) = (.ok ⟨[], client₂.files.length, []⟩, tree₂) := by
  have hfiles₁ := writable_of_generate hgenerate₁
  have hfiles₂ := writable_of_generate hgenerate₂
  obtain ⟨base, hfirst⟩ := rewrites_of_run hdirectory hwalks hfiles₁ hformed hrun₁
  obtain ⟨base', hsecond⟩ := rewrites_of_run hdirectory hwalks hfiles₂ hfirst.isWellFormed hrun₂
  have hbase := locate?_mono hsecond.home hsecond.hasDirectory hfirst.locate?
  obtain rfl := Option.some.inj (hbase.symm.trans hsecond.locate?)
  have hplaces : ∀ file ∈ client₁.files,
      tree₂.locate? (targetPath directory file) = some (base ++ file.names) := fun file hfile =>
    locate?_mono hsecond.home hsecond.hasDirectory (hfirst.written file hfile).1
  refine ⟨base, hsecond.locate?, fun file hfile => ?_, fun file hfile hpath => ⟨_, hplaces file hfile, ?_⟩,
    fun place contents hcontents hforeign hothers => ?_, hsecond.again hwalks hfirst.isDirectory⟩
  · rw [FileTree.read?, (hsecond.written file hfile).1, Option.bind_some, (hsecond.written file hfile).2]
  · obtain ⟨hlocate, hcontents⟩ := hfirst.written file hfile
    exact hsecond.contents?_of_dropped hdirectory hfiles₂ hfirst.isDirectory (hfiles₁.isEntryName file hfile)
      (hfiles₁.isMarked file hfile) hlocate hcontents hpath
  · have hothers₁ : ∀ file ∈ client₁.files, place ≠ base ++ file.names := fun file hfile heq =>
      hothers file (mem_append_left _ hfile) (heq ▸ hplaces file hfile)
    have hothers₂ : ∀ file ∈ client₂.files, place ≠ base ++ file.names := fun file hfile heq =>
      hothers file (mem_append_right _ hfile) (heq ▸ (hsecond.written file hfile).1)
    exact hsecond.contents?_of_foreign (hfirst.contents?_of_foreign hcontents hforeign hothers₁) hforeign hothers₂

/-- A directory with a file written by hand and a file of an earlier client, beside the working directory. -/
def shelf : FileTree where
  nodes := [(["work"], .directory), (["out"], .directory), (["out", "notes.txt"], .file (.text "mine")),
    (["out", "old.ts"], .file (.text ("// " ++ generatedMark)))]
  home := ["work"]

def shelfSources : List Source := Source.number [("shelf", "type Query\x7ba:Int\x7d")]

/-- A client is written into the directory, and written again; the path is an absolute one, or leads up. -/
theorem regeneration_converges_shelf : shelf.IsWellFormed ∧ ∀ directory ∈ [.mk "/out", ⟨"../out"⟩],
    Walks directory ∧ ∃ client summary summary' tree, generate (analyze shelfSources) {} .typeScript = .ok client ∧
      shelf.run (writeClient directory client.files) = (.ok summary, tree) ∧
      tree.run (writeClient directory client.files) = (.ok summary', tree) ∧
      (∀ file ∈ client.files, tree.read? (targetPath directory file) = some (.text file.contents)) ∧
      tree.contents? ["out", "notes.txt"] = some (.text "mine") := by
  have hformed : shelf.IsWellFormed := by decide +kernel
  have hchecked : ∀ directory ∈ [.mk "/out", ⟨"../out"⟩], directory.text ≠ "" ∧ directory.same ⟨"-"⟩ = false ∧
      shelf.isDirectory directory ∧ (match generate (analyze shelfSources) {} .typeScript with
        | .ok client =>
          match shelf.run (writeClient directory client.files) with
          | (.ok _, tree) => client.files.all fun file =>
            (tree.locate? (targetPath directory file)).any (· != ["out", "notes.txt"])
          | _ => false
        | _ => false) = true := by
    decide +kernel
  refine ⟨hformed, fun directory hmem => ?_⟩
  obtain ⟨hdirectory, hdash, hthere, hplaces⟩ := hchecked directory hmem
  have hwalks : Walks directory := fun tree => by
    rw [FileSystem.walk, hdash]
    rfl
  cases hgenerate : generate (analyze shelfSources) {} .typeScript with
  | error problem => simp [hgenerate] at hplaces
  | ok client =>
    rcases hrun : shelf.run (writeClient directory client.files) with ⟨error | summary, tree⟩
    · simp [hgenerate, hrun] at hplaces
    · simp only [hgenerate, hrun, all_eq_true] at hplaces
      obtain ⟨_, hrewrites⟩ := rewrites_of_run hdirectory hwalks (writable_of_generate hgenerate) hformed hrun
      have hagain := hrewrites.again hwalks hthere
      obtain ⟨base, -, hwritten, -, hkept, -⟩ := regeneration_converges shelf tree tree hformed directory
        hdirectory hwalks _ _ _ _ _ _ client client hgenerate hgenerate summary _ hrun hagain
      refine ⟨hwalks, client, summary, _, tree, rfl, hrun, hagain, hwritten, ?_⟩
      refine hkept _ _ (by decide +kernel) (fun h => absurd h.2 (by decide +kernel)) fun file hfile hsame => ?_
      obtain ⟨place, hplace, hother⟩ := (Option.any_eq_true ..).mp
        (hplaces file ((mem_append.mp hfile).elim id id))
      exact bne_iff_ne.mp hother (Option.some.inj (hplace.symm.trans hsame))

end GraphClient
