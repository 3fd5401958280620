import GraphClient.Files.Tree
import GraphClient.Project.Output
import GraphClient.Proofs.Client.Words
import GraphClient.Proofs.Client.PlannedFiles
import GraphClient.Proofs.Files.Path

/-!
# Generated files

Whatever the language, the files of a client can be told from other files, and each has a path of its own.

* **`writable_of_generate`**: the files of a generated client.
-/

namespace GraphClient

open List FileContents Layout
open Text (isWord isNamePart)

/-- Whether the first line of a file carries the mark. -/
def FileContents.isMarked (contents : FileContents) : Bool := contents.firstLine?.any isGenerated

/-- **Code that starts with a header is marked**, whatever follows. -/
theorem isMarked_render {ha text unit : String} {code : List Layout} (hh : isGenerated ha)
    (hn : '\n' ∉ ha.toList) (ht : (render unit (.line ha :: code)).toList <+: text.toList) :
    (FileContents.text text).isMarked := by
  have hne : ha ≠ "" := by
    rintro rfl
    exact absurd hh (by decide +kernel)
  have ho : rowText unit 0 ha = ha ++ "\n" := by
    simp [rowText, hne]
  obtain ⟨rest, hr⟩ := ht
  have hco : render unit (.line ha :: code) =
      ha ++ "\n" ++ renderRows unit (Ending.start.afterLine ha) (rowsOf 0 code) := by
    rw [← ho]
    rfl
  rw [hco, String.toList_append, String.toList_append, append_assoc, append_assoc] at hr
  have hf : text.toList.takeWhile (· != '\n') = ha.toList := by
    rw [← hr, takeWhile_append_of_pos]
    · simp
    · exact fun c hc => bne_iff_ne.mpr fun he : c = '\n' => hn (he ▸ hc)
  simp [isMarked, firstLine?, hf, hh]

theorem isGenerated_header : isGenerated TypeScript.header ∧ isGenerated Rust.header ∧ isGenerated Kotlin.header := by
  decide +kernel

theorem newline_notMem_header : '\n' ∉ TypeScript.header.toList ∧ '\n' ∉ Rust.header.toList ∧
    '\n' ∉ Kotlin.header.toList := by
  decide +kernel

theorem prefix_toList_append (text more : String) : text.toList <+: (text ++ more).toList := by
  rw [String.toList_append]
  exact prefix_append _ _

theorem TypeScript.isMarked_text (file : TypeScript.Module) : (text file.text).isMarked :=
  isMarked_render isGenerated_header.1 newline_notMem_header.1 (prefix_toList_append _ _)

theorem Rust.isMarked_text (file : Rust.Module) : (text file.text).isMarked :=
  isMarked_render isGenerated_header.2.1 newline_notMem_header.2.1 prefix_rfl

theorem Kotlin.isMarked_text (package : String) (file : Kotlin.Module) : (text (file.text package)).isMarked :=
  isMarked_render isGenerated_header.2.2 newline_notMem_header.2.2 (prefix_toList_append _ _)

section Target

variable (target : Target) (frags : NameMap BoundFragment) (decls : List Declaration)

/-- **The file of a declaration carries the mark**, as do the support file and the index. -/
theorem isMarked_file (file : PlannedFile) : (text (target.file frags file).contents).isMarked := by
  obtain ⟨lang, reg, options⟩ := target
  cases file with
  | type defn | operation defn root plans =>
    cases lang with
    | typeScript => exact TypeScript.isMarked_text _
    | rust => exact Rust.isMarked_text _
    | kotlin => exact Kotlin.isMarked_text _ _

theorem isMarked_shared : ∀ file ∈ [target.supportFile, target.indexFile decls], (text file.contents).isMarked := by
  obtain ⟨lang, reg, options⟩ := target
  rw [forall_mem_cons, forall_mem_singleton]
  cases lang with
  | typeScript =>
    constructor <;> exact isMarked_render isGenerated_header.1 newline_notMem_header.1 prefix_rfl
  | rust =>
    constructor <;> exact isMarked_render isGenerated_header.2.1 newline_notMem_header.2.1 prefix_rfl
  | kotlin => constructor <;> exact Kotlin.isMarked_text _ _

theorem Text.isWord_snakeCase {text : String} (h : isWord text) : isWord (snakeCase text) := by
  have ha : ∀ before {cs : List Char}, cs.all isNamePart → (snakeChars before cs).all isNamePart := by
    intro before cs hs
    induction cs generalizing before with
    | nil => rfl
    | cons c rest ih =>
      obtain ⟨hc, hr⟩ := Bool.and_eq_true_iff.mp hs
      have hu : isNamePart '_' := by decide
      rw [snakeChars]
      dsimp only
      split_ifs <;> simp only [all_cons, hu, isNamePart_toLower hc, hc, ih _ hr, Bool.and_self]
  rw [isWord, snakeCase, String.toList_ofList]
  exact ha none h

theorem isEntryName_append {word : String} (h : isWord word) {ext : String}
    (he : ext ∈ [".ts", ".rs", ".kt"]) : IsEntryName (word ++ ext) := by
  have hl : ∀ ext ∈ [".ts", ".rs", ".kt"], 3 ≤ ext.toList.length ∧ '/' ∉ ext.toList := by
    decide
  obtain ⟨hle, hsl⟩ := hl ext he
  have hs : ∀ text : String, text.toList.length < 3 → word ++ ext ≠ text := by
    rintro text ht rfl
    rw [String.toList_append, length_append] at ht
    omega
  refine ⟨hs "" (by decide), hs "." (by decide), hs ".." (by decide), ?_⟩
  rw [String.toList_append, mem_append, not_or]
  exact ⟨fun hm => absurd (all_eq_true.mp h _ hm) (by decide), hsl⟩

/-- **The path of the file of a declaration** goes through a folder to a name. -/
theorem exists_path_eq (decl : Declaration) (h : Text.isName decl.name) :
    ∃ folder name, IsEntryName folder ∧ IsEntryName name ∧ target.path decl = folder ++ "/" ++ name := by
  have hw := Text.isWord_of_isName h
  have ht : ∀ {word ext : String}, isWord word → ext ∈ [".ts", ".rs", ".kt"] →
      ∃ folder name, IsEntryName folder ∧ IsEntryName name ∧ "types/" ++ word ++ ext = folder ++ "/" ++ name :=
    fun hw he => ⟨"types", _, by decide, isEntryName_append hw he, by
      rw [← String.append_assoc, show "types" ++ "/" = "types/" by decide]⟩
  have ho : ∀ {word ext : String}, isWord word → ext ∈ [".ts", ".rs", ".kt"] →
      ∃ folder name, IsEntryName folder ∧ IsEntryName name ∧
        "operations/" ++ word ++ ext = folder ++ "/" ++ name :=
    fun hw he => ⟨"operations", _, by decide, isEntryName_append hw he, by
      rw [← String.append_assoc, show "operations" ++ "/" = "operations/" by decide]⟩
  obtain ⟨lang, reg, options⟩ := target
  cases decl with
  | type defn =>
    cases lang with
    | typeScript => exact ht hw (by decide)
    | rust => exact ht (Text.isWord_snakeCase hw) (by decide)
    | kotlin => exact ht hw (by decide)
  | operation defn =>
    cases lang with
    | typeScript => exact ho hw (by decide)
    | rust => exact ho (Text.isWord_snakeCase hw) (by decide)
    | kotlin => exact ho hw (by decide)

theorem path_file (file : PlannedFile) : (target.file frags file).path = target.path file.declaration := by
  cases file <;> rfl

theorem isEntryName_supportFile : IsEntryName target.supportFile.path ∧ IsEntryName (target.indexFile decls).path ∧
      ([target.supportFile, target.indexFile decls].map fun file => foldCase file.path).Nodup := by
  obtain ⟨lang, reg, options⟩ := target
  cases lang with
  | typeScript =>
    exact (by decide : IsEntryName "runtime.ts" ∧ IsEntryName "index.ts" ∧
      (["runtime.ts", "index.ts"].map foldCase).Nodup)
  | rust =>
    exact (by decide : IsEntryName "runtime.rs" ∧ IsEntryName "mod.rs" ∧ (["runtime.rs", "mod.rs"].map foldCase).Nodup)
  | kotlin =>
    exact (by decide : IsEntryName "GraphQLRuntime.kt" ∧ IsEntryName "GraphQLOperations.kt" ∧
      (["GraphQLRuntime.kt", "GraphQLOperations.kt"].map foldCase).Nodup)

end Target

theorem repeatedPath?_eq_none {paths : List String} : repeatedPath? paths = none ↔ (paths.map foldCase).Nodup := by
  rw [repeatedPath?, Option.map_eq_none_iff, find?_eq_none, ← markRepeats_unmarked]
  simp only [Bool.not_eq_true]

theorem toLower_eq_iff {c d : Char} (h : d.isAlpha = false) : c.toLower = d ↔ c = d := by
  cases hu : c.isUpper with
  | true =>
    have ha : c.isAlpha := by simp [Char.isAlpha, hu]
    have hl : c.toLower.isAlpha := by simpa using ha
    exact iff_of_false (fun he => by simp [he ▸ hl] at h) (fun he => by simp [he ▸ ha] at h)
  | false => rw [Char.toLower_eq_of_not_isUpper (by simp [hu])]

theorem isName_of_mem_declarations {srcs : List Source} (ho : (analyze srcs).isOk)
    {decl : Declaration} (h : decl ∈ (analyze srcs).declarations) : Text.isName decl.name := by
  rcases Analysis.mem_declarations.mp h with ⟨type, ht, rfl⟩ | ⟨op, hp, rfl⟩
  · exact isName_of_mem_userTypes ho ht
  · exact isName_of_mem_operations hp

/-- The names that lead from the directory of a client to one of its files. -/
def GeneratedFile.names (file : GeneratedFile) : Place := (Path.mk file.path).pieces

/-- Files with the mark, at paths of their own that go through names of entries. -/
structure Writable (files : List GeneratedFile) : Prop where
  ne_nil : files ≠ []
  isMarked : ∀ file ∈ files, (text file.contents).isMarked
  isEntryName : ∀ file ∈ files, ∀ name ∈ file.names, IsEntryName name
  nodup : (files.map GeneratedFile.path).Nodup

variable {srcs : List Source} {options : Options} {lang : Language} {client : GeneratedClient}

theorem paths_of_generate (h : generate (analyze srcs) options lang = .ok client) :
    client.files.map GeneratedFile.path =
      (analyze srcs).declarations.map (Target.path ⟨lang, (analyze srcs).registry, options⟩) ++
        [(Target.supportFile ⟨lang, (analyze srcs).registry, options⟩).path,
          (Target.indexFile ⟨lang, (analyze srcs).registry, options⟩ (analyze srcs).declarations).path] := by
  obtain ⟨-, taken, -, -, hf⟩ := generate_eq_ok h
  rw [hf, map_append, map_map, ← declaration_planFiles (analyze srcs).declarations taken, map_map,
    declaration_planFiles]
  exact congrArg (· ++ _) (map_congr_left fun file _ => path_file _ _ file)

theorem exists_folder_of_generate (h : generate (analyze srcs) options lang = .ok client) :
    ∀ path ∈ (analyze srcs).declarations.map (Target.path ⟨lang, (analyze srcs).registry, options⟩),
      ∃ folder name, IsEntryName folder ∧ IsEntryName name ∧ path = folder ++ "/" ++ name :=
  forall_mem_map.mpr fun decl hd =>
    exists_path_eq _ decl (isName_of_mem_declarations (generate_eq_ok h).1 hd)

/-- **No two files have the same path**, letter case apart. -/
theorem nodup_foldCase_of_generate (h : generate (analyze srcs) options lang = .ok client) :
    ((client.files.map GeneratedFile.path).map foldCase).Nodup := by
  have hs (path : String) : '/' ∈ (foldCase path).toList ↔ '/' ∈ path.toList := by
    simp [foldCase, toLower_eq_iff (d := '/') (by decide)]
  obtain ⟨hs₁, hs₂, hd⟩ := isEntryName_supportFile ⟨lang, (analyze srcs).registry, options⟩
    (analyze srcs).declarations
  rw [paths_of_generate h, map_append, nodup_append]
  obtain ⟨-, taken, -, hr, -⟩ := generate_eq_ok h
  refine ⟨repeatedPath?_eq_none.mp hr, hd, ?_⟩
  -- The paths of declarations have a slash, those of the other two have none.
  refine forall_mem_map.mpr fun path hp => forall_mem_map.mpr fun other ho he => ?_
  obtain ⟨folder, name, -, -, rfl⟩ := exists_folder_of_generate h path hp
  have hl : '/' ∉ other.toList := by
    rcases mem_pair.mp ho with rfl | rfl
    · exact hs₁.2.2.2
    · exact hs₂.2.2.2
  rw [← hs, ← he, hs] at hl
  simp [String.toList_append] at hl

theorem writable_of_generate (h : generate (analyze srcs) options lang = .ok client) : Writable client.files := by
  obtain ⟨-, taken, -, -, hf⟩ := generate_eq_ok h
  obtain ⟨hs, hi, -⟩ := isEntryName_supportFile ⟨lang, (analyze srcs).registry, options⟩
    (analyze srcs).declarations
  have ha : ∀ {name : String}, IsEntryName name → ∀ piece ∈ (Path.mk name).pieces, IsEntryName piece := by
    intro name hn
    rw [← Path.ofPieces_singleton, Path.pieces_ofPieces (cons_ne_nil _ _) (by simpa using hn.2.2.2)]
    simpa using hn
  refine ⟨by simp [hf], ?_, ?_, .of_map foldCase (nodup_foldCase_of_generate h)⟩
  · rw [hf]
    exact forall_mem_append.mpr ⟨forall_mem_map.mpr fun file _ => isMarked_file _ _ file, isMarked_shared _ _⟩
  · suffices hpi : ∀ path ∈ client.files.map GeneratedFile.path, ∀ piece ∈ (Path.mk path).pieces,
        IsEntryName piece from fun file hfi => hpi file.path (mem_map_of_mem hfi)
    rw [paths_of_generate h]
    refine forall_mem_append.mpr ⟨fun path hp => ?_, ?_⟩
    · obtain ⟨folder, name, ho, hn, rfl⟩ := exists_folder_of_generate h path hp
      rw [← Path.ofPieces_pair, Path.pieces_ofPieces (cons_ne_nil _ _) (by simpa using ⟨ho.2.2.2, hn.2.2.2⟩)]
      simpa using ⟨ho, hn⟩
    · simpa using ⟨ha hs, ha hi⟩

end GraphClient
