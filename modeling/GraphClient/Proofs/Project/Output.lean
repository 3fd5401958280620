import GraphClient.Proofs.Client.GeneratedFiles
import GraphClient.Proofs.Files.Tree

/-!
# Removing and writing files

* **`run_pruneFiles`**: removing files removes the stale ones.
* **`run_writeFiles`**: writing files changes these files only.
-/

namespace GraphClient

open List FileTree FileContents FileSystem Option

namespace FileTree

/-- The outcome of a program on a tree, and the tree that it leaves. -/
def run {α : Type} (tree : FileTree) (program : ExceptT ProjectError (StateM FileTree) α) :
    Except ProjectError α × FileTree :=
  StateT.run (ExceptT.run program) tree

section Run

variable {α β : Type} {tree last : FileTree} {b : Bool} {path : Path} {a a' : α}

theorem ok_eq_ok : ((.ok a, tree) : Except ProjectError α × FileTree) = (.ok a', last) ↔ a = a' ∧ tree = last := by
  simp

theorem run_pure : tree.run (pure a) = (.ok a', last) ↔ a = a' ∧ tree = last := ok_eq_ok

theorem run_throw {error : ProjectError} : tree.run (throw error) ≠ (.ok a, last) :=
  fun h => nomatch (Prod.mk.inj h).1

variable {program : ExceptT ProjectError (StateM FileTree) α}
  {rest : Option String → ExceptT ProjectError (StateM FileTree) β}

theorem run_bind_eq {rest : α → ExceptT ProjectError (StateM FileTree) β} :
    tree.run (program >>= rest) = match tree.run program with
      | (.ok a, next) => next.run (rest a)
      | (.error error, next) => (.error error, next) := by
  rw [run, ExceptT.run_bind, StateT.run_bind]
  rcases hf : tree.run program with ⟨error | a, next⟩
  all_goals
    rw [run] at hf
    rw [hf]
    rfl

theorem run_bind {rest : α → ExceptT ProjectError (StateM FileTree) β} {v : β} :
    tree.run (program >>= rest) = (.ok v, last) ↔
      ∃ a next, tree.run program = (.ok a, next) ∧ next.run (rest a) = (.ok v, last) := by
  rw [run_bind_eq]
  rcases tree.run program with ⟨error | a, next⟩ <;> simp

theorem run_isDirectory_bind {rest : Bool → ExceptT ProjectError (StateM FileTree) β} :
    tree.run (FileSystem.isDirectory path >>= rest) = tree.run (rest (tree.isDirectory path)) := by
  rfl

theorem run_readText_bind : tree.run (readText path >>= rest) = tree.run (rest ((tree.read? path).bind text?)) := by
  rfl

theorem run_firstLine_bind : tree.run (firstLine path >>= rest) =
      tree.run (rest ((tree.read? path).bind firstLine?)) := by
  rfl

theorem run_createDirectories : tree.run (FileSystem.createDirectories path) = (.ok b, last) ↔
    tree.createDirectories path = (last, b) := by
  have hr : tree.run (FileSystem.createDirectories path) =
      (.ok (tree.createDirectories path).2, (tree.createDirectories path).1) := rfl
  rw [hr]
  rcases tree.createDirectories path with ⟨next, done⟩
  simp [and_comm]

theorem run_change {next : FileTree → Option FileTree} : tree.run (ExceptT.lift (change next)) = (.ok b, last) ↔
      if b then next tree = some last else next tree = none ∧ tree = last := by
  have hr : tree.run (ExceptT.lift (change next)) = (.ok (next tree).isSome, (next tree).getD tree) := by
    cases hn : next tree <;> simp [run, change, hn, ExceptT.run, ExceptT.lift, ExceptT.mk, StateT.run,
      Functor.map, StateT.map, bind, pure]
  rw [hr]
  cases next tree <;> cases b <;> simp

theorem run_writeText {text : String} : tree.run (writeText path text) = (.ok b, last) ↔
    if b then tree.write? path (.text text) = some last
    else tree.write? path (.text text) = none ∧ tree = last :=
  run_change

theorem run_removeFile : tree.run (removeFile path) = (.ok b, last) ↔
    if b then tree.delete? path = some last else tree.delete? path = none ∧ tree = last :=
  run_change

end Run

end FileTree

open FileTree (Extends Sheds)

variable {dir : Path} {files : List GeneratedFile} {tree next : FileTree}

/-- Whether a file is to be removed: it carries the mark and is not kept. -/
def isStale (keep : List Path) (tree : FileTree) (path : Path) : Bool :=
  !keep.any path.same && (tree.read? path).any isMarked

section Prune

variable {keep paths removed : List Path} {path : Path}

theorem isStale_eq_true : isStale keep tree path ↔ keep.any path.same = false ∧
    ∃ place contents, tree.locate? path = some place ∧ tree.contents? place = some contents ∧ contents.isMarked := by
  simp only [isStale, Bool.and_eq_true, Bool.not_eq_true', Option.any_eq_true, read?, Option.bind_eq_some_iff]
  refine and_congr_right' ⟨?_, ?_⟩
  · rintro ⟨contents, ⟨place, hp, hc⟩, hm⟩
    exact ⟨place, contents, hp, hc, hm⟩
  · rintro ⟨place, contents, hp, hc, hm⟩
    exact ⟨contents, ⟨place, hp, hc⟩, hm⟩

theorem any_isGenerated : ((tree.read? path).bind firstLine?).any isGenerated = (tree.read? path).any isMarked := by
  cases tree.read? path <;> rfl

theorem isStale_of_sheds {gone : Place → Prop} (h : Sheds gone tree next) (hs : isStale keep next path) :
    isStale keep tree path := by
  obtain ⟨hk, place, contents, hp, hc, hm⟩ := isStale_eq_true.mp hs
  refine isStale_eq_true.mpr ⟨hk, place, contents, h.locate? path ▸ hp, ?_, hm⟩
  rcases h.contents? place with ha | ⟨hg, -⟩
  · rw [← ha, hc]
  · cases hg.symm.trans hc

theorem run_pruneFiles_cons : tree.run (pruneFiles keep (path :: paths)) = (.ok removed, next) ↔
    if isStale keep tree path then
      ∃ mid rest, tree.delete? path = some mid ∧ mid.run (pruneFiles keep paths) = (.ok rest, next) ∧
        removed = path :: rest
    else tree.run (pruneFiles keep paths) = (.ok removed, next) := by
  have hs : (keep.any path.same || !(tree.read? path).any isMarked) = !isStale keep tree path := by
    rw [isStale, Bool.not_and, Bool.not_not]
  rw [pruneFiles, run_firstLine_bind, any_isGenerated, hs]
  cases isStale keep tree path with
  | false => simp
  | true =>
    simp only [Bool.not_true, if_neg Bool.false_ne_true, run_bind, run_removeFile]
    constructor
    · rintro ⟨done, mid, hd, hr⟩
      cases done with
      | false => exact absurd hr run_throw
      | true =>
        obtain ⟨rest, last, hp, hl⟩ := run_bind.mp hr
        obtain ⟨rfl, rfl⟩ := run_pure.mp hl
        exact ⟨mid, rest, hd, hp, rfl⟩
    · rintro ⟨mid, rest, hd, hr, rfl⟩
      exact ⟨true, mid, hd, run_bind.mpr ⟨rest, next, hr, run_pure.mpr ⟨rfl, rfl⟩⟩⟩

theorem run_pruneFiles (h : tree.run (pruneFiles keep paths) = (.ok removed, next)) :
    Sheds (fun place => ∃ path ∈ paths, tree.locate? path = some place ∧ isStale keep tree path) tree next ∧
      ∀ path ∈ paths, isStale keep next path = false := by
  induction paths generalizing tree removed with
  | nil =>
    obtain ⟨-, rfl⟩ := run_pure.mp h
    exact ⟨.refl _ _, fun _ h => absurd h not_mem_nil⟩
  | cons path paths ih =>
    rw [run_pruneFiles_cons] at h
    split_ifs at h with ht
    · obtain ⟨mid, rest, hd, hr, -⟩ := h
      obtain ⟨place, hp, hg, hh⟩ := delete?_eq_some hd
      obtain ⟨hs, hc⟩ := ih hr
      refine ⟨(hh.mono ?_).trans (hs.mono ?_), forall_mem_cons.mpr ⟨?_, hc⟩⟩
      · rintro _ rfl
        exact ⟨path, mem_cons_self, hp, ht⟩
      · rintro other ⟨found, hf, ho, hm⟩
        exact ⟨found, mem_cons_of_mem _ hf, hh.locate? found ▸ ho, isStale_of_sheds hh hm⟩
      · refine Bool.eq_false_iff.mpr fun hl => ?_
        obtain ⟨-, found, contents, hf, hco, -⟩ := isStale_eq_true.mp (isStale_of_sheds hs hl)
        rw [hh.locate? path, hp] at hf
        cases hg.symm.trans (some.inj hf ▸ hco)
    · obtain ⟨hs, hc⟩ := ih h
      refine ⟨hs.mono ?_, forall_mem_cons.mpr ⟨?_, hc⟩⟩
      · rintro other ⟨found, hf, ho⟩
        exact ⟨found, mem_cons_of_mem _ hf, ho⟩
      · exact Bool.eq_false_iff.mpr fun hl => ht (isStale_of_sheds hs hl)

theorem run_pruneFiles_fresh (h : ∀ path ∈ paths, isStale keep tree path = false) :
    tree.run (pruneFiles keep paths) = (.ok [], tree) := by
  induction paths with
  | nil => exact run_pure.mpr ⟨rfl, rfl⟩
  | cons path paths ih =>
    obtain ⟨ha, hp⟩ := forall_mem_cons.mp h
    rw [run_pruneFiles_cons, ha]
    exact ih hp

end Prune

theorem run_writeFile {path : Path} {contents : String} (h : tree.run (writeFile path contents) = (.ok (), next)) :
    ∃ place, next.locate? path = some place ∧ next.contents? place = some (.text contents) ∧
      Extends (· = place) tree next := by
  have hd : ∀ {mid : FileTree}, mid.run (writeText path contents >>= fun done =>
      if done then pure () else throw (.inaccessible path)) = (.ok (), next) →
      mid.write? path (.text contents) = some next := by
    intro mid hm
    obtain ⟨done, last, hw, hl⟩ := run_bind.mp hm
    cases done with
    | false => exact absurd hl run_throw
    | true =>
      obtain ⟨-, rfl⟩ := run_pure.mp hl
      exact run_writeText.mp hw
  obtain ⟨mid, hm, hw⟩ : ∃ mid, Extends (fun _ => False) tree mid ∧
      mid.write? path (.text contents) = some next := by
    rw [writeFile] at h
    cases hp : path.parent with
    | none =>
      rw [hp] at h
      exact ⟨tree, .refl _ _, hd h⟩
    | some parent =>
      rw [hp] at h
      obtain ⟨ready, mid, hcr, hr⟩ := run_bind.mp h
      have hm := extends_createDirectories tree parent
      rw [run_createDirectories.mp hcr] at hm
      cases ready with
      | false => exact absurd hr run_throw
      | true => exact ⟨mid, hm, hd hr⟩
  obtain ⟨place, hpl, hc, he⟩ := write?_eq_some hw
  exact ⟨place, he.locate? hpl, hc, (hm.mono fun _ => False.elim).trans he⟩

variable {outcome : List Path × Nat}

/-- One file after another is written, unless it has its text already. -/
theorem run_writeFiles_cons {file : GeneratedFile} : tree.run (writeFiles dir (file :: files)) = (.ok outcome, next) ↔
      if tree.read? (targetPath dir file) = some (.text file.contents) then
        ∃ rest, tree.run (writeFiles dir files) = (.ok rest, next) ∧ outcome = (rest.1, rest.2 + 1)
      else ∃ mid rest, tree.run (writeFile (targetPath dir file) file.contents) = (.ok (), mid) ∧
        mid.run (writeFiles dir files) = (.ok rest, next) ∧ outcome = (targetPath dir file :: rest.1, rest.2) := by
  have hs : (tree.read? (targetPath dir file)).bind text? = some file.contents ↔
      tree.read? (targetPath dir file) = some (.text file.contents) := by
    rcases tree.read? (targetPath dir file) with - | ⟨text | bytes⟩ <;> simp [text?]
  rw [writeFiles, run_readText_bind]
  simp only [hs]
  split_ifs
  · simp only [run_bind, run_pure]
    constructor
    · rintro ⟨rest, mid, hr, rfl, rfl⟩
      exact ⟨rest, hr, rfl⟩
    · rintro ⟨rest, hr, rfl⟩
      exact ⟨rest, next, hr, rfl, rfl⟩
  · simp only [run_bind, run_pure]
    constructor
    · rintro ⟨⟨⟩, mid, hw, rest, last, hr, rfl, rfl⟩
      exact ⟨mid, rest, hw, hr, rfl⟩
    · rintro ⟨mid, rest, hw, hr, rfl⟩
      exact ⟨(), mid, hw, rest, next, hr, rfl, rfl⟩

/-- **Writing files changes these files only.** They have their text in the end, if no two have one place. -/
theorem run_writeFiles (ha : files.Pairwise fun file other => ∀ tree place,
      locate? tree (targetPath dir file) = some place → tree.locate? (targetPath dir other) ≠ some place)
    (h : tree.run (writeFiles dir files) = (.ok outcome, next)) :
    Extends (fun place => ∃ file ∈ files, next.locate? (targetPath dir file) = some place) tree next ∧
      ∀ file ∈ files, next.read? (targetPath dir file) = some (.text file.contents) := by
  induction files generalizing tree outcome with
  | nil =>
    obtain ⟨-, rfl⟩ := run_pure.mp h
    exact ⟨.refl _ _, fun _ h => absurd h not_mem_nil⟩
  | cons file files ih =>
    obtain ⟨hi, hf⟩ := pairwise_cons.mp ha
    rw [run_writeFiles_cons] at h
    obtain ⟨mid, rest, place, hp, hc, he, hr⟩ : ∃ mid rest place, mid.locate? (targetPath dir file) = some place ∧
          mid.contents? place = some (.text file.contents) ∧ Extends (· = place) tree mid ∧
            mid.run (writeFiles dir files) = (.ok rest, next) := by
      split_ifs at h with hs
      · obtain ⟨place, hp, hc⟩ := bind_eq_some_iff.mp hs
        obtain ⟨rest, hr, -⟩ := h
        exact ⟨tree, rest, place, hp, hc, .refl _ _, hr⟩
      · obtain ⟨mid, rest, hw, hr, -⟩ := h
        obtain ⟨place, hp, hc, he⟩ := run_writeFile hw
        exact ⟨mid, rest, place, hp, hc, he, hr⟩
    obtain ⟨hm, hre⟩ := ih hf hr
    have hl := hm.locate? hp
    refine ⟨(he.mono ?_).trans (hm.mono ?_), forall_mem_cons.mpr ⟨?_, hre⟩⟩
    · rintro _ rfl
      exact ⟨file, mem_cons_self, hl⟩
    · rintro other ⟨found, hfo, ho⟩
      exact ⟨found, mem_cons_of_mem _ hfo, ho⟩
    · have hk : next.contents? place = mid.contents? place :=
        hm.contents? place fun ⟨other, ho, hs⟩ => hi other ho next place hl hs
      rw [read?, hl, bind_some, hk, hc]

theorem run_writeFiles_same (h : ∀ file ∈ files, tree.read? (targetPath dir file) = some (.text file.contents)) :
    tree.run (writeFiles dir files) = (.ok ([], files.length), tree) := by
  induction files with
  | nil => exact run_pure.mpr ⟨rfl, rfl⟩
  | cons file files ih =>
    obtain ⟨hi, hf⟩ := forall_mem_cons.mp h
    rw [run_writeFiles_cons, if_pos hi]
    exact ⟨_, ih hf, rfl⟩

end GraphClient
