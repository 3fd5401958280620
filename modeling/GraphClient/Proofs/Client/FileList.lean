import GraphClient.Proofs.Client.Members

/-!
# The list of files

* **`files_complete`**: the files of a client.
* **`moduleTree_iff`**: when the modules of a Rust client fit its files.
-/

namespace GraphClient

open List Declaration
open Text (isWord isWord_of_isName snakeCase)

variable {declarations : List Declaration} {sources : List Source} {options : Options} {client : GeneratedClient}

/-! ## Order -/

instance : Std.TransCmp order :=
  inferInstanceAs (Std.TransCmp (compareLex (compareOn rank) (compareOn name)))

theorem Declaration.name_mem_names (decl : Declaration) : decl.name ∈ decl.names := by
  cases decl with
  | type defn =>
    rw [names]
    split <;> exact mem_cons_self
  | operation defn => exact mem_cons_self

variable {taken : TakenNames}

theorem nodup_names_of_reserved (h : reservedNames declarations = .ok taken) : (declarations.map name).Nodup := by
  obtain ⟨hn, hp⟩ := claims_reservedNames h
  refine pairwise_map.mpr ((nodup_flatMap.mp (hp.nodup_iff.mp hn).of_append_right).2.imp fun {a b} hd he => ?_)
  exact hd a.name_mem_names (he ▸ b.name_mem_names)

theorem pairwise_declarations {analysis : Analysis} (h : reservedNames analysis.declarations = .ok taken) :
    analysis.declarations.Pairwise fun a b => a.order b = .lt := by
  refine (pairwise_sortBy _).imp₂ (fun a b hg hn => ?_) (pairwise_map.mp (nodup_names_of_reserved h))
  cases ho : a.order b with
  | lt => rfl
  | eq => exact absurd (Std.LawfulEqOrd.eq_of_compare (Ordering.then_eq_eq.mp ho).2) hn
  | gt => exact absurd ho hg

/-- **The files of a client** are one for each type and operation, by kind and name, the support file and the index.
Their paths differ even if letter case is left aside. If the paths of two declarations do not, there is no client. -/
theorem files_complete (sources : List Source) (options : Options) (language : Language) :
    (∀ client, generate (analyze sources) options language = .ok client →
      (analyze sources).declarations.Perm ((analyze sources).registry.userTypes.map .type ++
        (analyze sources).operations.map .operation) ∧
      (analyze sources).declarations.Pairwise (fun a b => a.order b = .lt) ∧ client.files.map GeneratedFile.path =
        (analyze sources).declarations.map (Target.path ⟨language, (analyze sources).registry, options⟩) ++
          [(Target.supportFile ⟨language, (analyze sources).registry, options⟩).path,
            (Target.indexFile ⟨language, (analyze sources).registry, options⟩ (analyze sources).declarations).path] ∧
      (client.files.map fun file => foldCase file.path).Nodup) ∧
    (¬((analyze sources).declarations.map fun declaration =>
        foldCase (Target.path ⟨language, (analyze sources).registry, options⟩ declaration)).Nodup →
      ∃ error, generate (analyze sources) options language = .error error) := by
  refine ⟨fun client h => ?_, fun hn => ?_⟩
  · obtain ⟨-, taken, ht, -, -⟩ := generate_eq_ok h
    have hd := nodup_foldCase_of_generate h
    rw [map_map] at hd
    exact ⟨sortBy_perm _ _, pairwise_declarations ht, paths_of_generate h, hd⟩
  · cases h : generate (analyze sources) options language with
    | error error => exact ⟨error, rfl⟩
    | ok client =>
      obtain ⟨-, taken, -, hr, -⟩ := generate_eq_ok h
      have hd := repeatedPath?_eq_none.mp hr
      rw [map_map] at hd
      exact absurd hd hn

/-- Two operations, whose names differ by more than letter case or by that only. -/
def querySources (name other : String) : List Source := Source.number
  [("a", "type Query \x7b a: Int \x7d query " ++ name ++ "\x7ba\x7d query " ++ other ++ "\x7ba\x7d")]

theorem files_complete_queries : (∃ client, generate (analyze (querySources "One" "Two")) {} .kotlin = .ok client ∧
      (client.files.map fun file => foldCase file.path).Nodup) ∧
    ∃ error, generate (analyze (querySources "One" "ONE")) {} .kotlin = .error error := by
  have hg : (generate (analyze (querySources "One" "Two")) {} .kotlin).isOk := by decide +kernel
  refine ⟨?_, (files_complete (querySources "One" "ONE") {} .kotlin).2 (by decide +kernel)⟩
  obtain ⟨client, h⟩ := exists_client hg
  exact ⟨client, h, ((files_complete (querySources "One" "Two") {} .kotlin).1 client h).2.2.2⟩

/-! ## Modules -/

namespace Rust

/-- A name without the mark of a raw identifier. -/
def plainName (name : String) : String := String.ofList (unraw name.toList)

theorem unraw_eq_self {cs : List Char} (h : cs.all Text.isNamePart) : unraw cs = cs := by
  rw [unraw]
  rintro rest rfl
  simp [show Text.isNamePart '#' = false by decide] at h

variable {word : String}

/-- **What stays of the mark of an identifier**: words of paths keep theirs. -/
theorem plainName_identifier (h : isWord word) :
    plainName (identifier word) = if word ∈ pathWords then word ++ "_" else word := by
  have hp : ∀ word ∈ pathWords, plainName (word ++ "_") = word ++ "_" := by decide
  have hu : unraw word.toList = word.toList := unraw_eq_self h
  simp only [identifier, contains_eq_mem, decide_eq_true_eq]
  split_ifs with hw hk
  · exact hp word hw
  · rw [plainName, String.toList_append]
    exact (congrArg String.ofList hu).trans String.ofList_toList
  · rw [plainName, hu, String.ofList_toList]

theorem plainName_notMem_pathWords (h : isWord word) : plainName (identifier word) ∉ pathWords := by
  have hp : ∀ word ∈ pathWords, word ++ "_" ∉ pathWords := by decide
  rw [plainName_identifier h]
  split_ifs with hw
  · exact hp word hw
  · exact hw

/-- The folders of types and operations, each with the names in it. -/
def entries (types operations : List String) : List (String × String) :=
  types.map ("types", ·) ++ operations.map ("operations", ·)

/-- The path of the file that a module of a folder is in. -/
def modulePath (folder module : String) : String := folder ++ "/" ++ plainName module ++ ".rs"

/-- **Modules and files that belong together.** The modules of a folder differ, each has its file, and each file
in a folder is that of just one module. -/
structure ModuleTree (modules : List (String × String)) (paths : List String) : Prop where
  nodup : modules.Nodup
  exists_file : ∀ entry ∈ modules, modulePath entry.1 entry.2 ∈ paths
  existsUnique_module : ∀ path ∈ paths, '/' ∈ path.toList →
    ∃! entry, entry ∈ modules ∧ modulePath entry.1 entry.2 = path

variable {types operations : List String} {paths : List String}

theorem folder_of_mem_entries {e : String × String} (h : e ∈ entries types operations) :
    e.1 = "types" ∨ e.1 = "operations" := by
  rcases mem_append.mp h with h | h
  all_goals
    obtain ⟨name, -, rfl⟩ := mem_map.mp h
    simp

theorem path_injective {folder folder' word' : String} (hf : folder = "types" ∨ folder = "operations")
    (hf' : folder' = "types" ∨ folder' = "operations")
    (h : folder ++ "/" ++ word ++ ".rs" = folder' ++ "/" ++ word' ++ ".rs") : word = word' := by
  have hh := congrArg (fun text => text.toList.head?) h
  rcases hf with rfl | rfl <;> rcases hf' with rfl | rfl <;> simp at h hh
  · exact h
  · exact h

variable (hw : ∀ entry ∈ entries types operations, isWord entry.2) (hn : paths.Nodup)
  (hp : ((entries types operations).map fun entry => entry.1 ++ "/" ++ snakeCase entry.2 ++ ".rs").Perm
    (paths.filter fun path => path.toList.contains '/'))

include hw hn hp

theorem moduleTree_entries_iff :
    ModuleTree ((entries types operations).map fun entry => (entry.1, moduleName entry.2)) paths ↔
      ∀ entry ∈ entries types operations, snakeCase entry.2 ∉ pathWords := by
  have hm {path : String} : path ∈ paths ∧ '/' ∈ path.toList ↔
      ∃ entry ∈ entries types operations, entry.1 ++ "/" ++ snakeCase entry.2 ++ ".rs" = path := by
    rw [← mem_map, hp.mem_iff, mem_filter, contains_eq_mem, decide_eq_true_eq]
  constructor
  · intro h entry he hs
    obtain ⟨ha, hl⟩ := hm.mpr ⟨entry, he, rfl⟩
    obtain ⟨module, ⟨hmo, hmp⟩, -⟩ := h.existsUnique_module _ ha hl
    obtain ⟨other, ho, rfl⟩ := mem_map.mp hmo
    have hsame := path_injective (folder_of_mem_entries ho) (folder_of_mem_entries he) hmp
    exact plainName_notMem_pathWords (Text.isWord_snakeCase (hw other ho)) (hsame ▸ hs)
  · intro h
    have ha : ((entries types operations).map fun entry => (entry.1, moduleName entry.2)).map
        (fun entry => modulePath entry.1 entry.2) =
        (entries types operations).map fun entry => entry.1 ++ "/" ++ snakeCase entry.2 ++ ".rs" := by
      rw [map_map]
      refine map_congr_left fun entry he => ?_
      change modulePath entry.1 (identifier (snakeCase entry.2)) = _
      rw [modulePath, plainName_identifier (Text.isWord_snakeCase (hw entry he)), if_neg (h entry he)]
    have hd := hp.nodup_iff.mpr (hn.filter _)
    rw [← ha] at hd hp
    refine ⟨.of_map _ hd, fun entry he => ?_, fun path hpa hl => ?_⟩
    · exact (mem_filter.mp (hp.mem_iff.mp (mem_map_of_mem he))).1
    · obtain ⟨entry, he, rfl⟩ := mem_map.mp (hp.mem_iff.mpr (mem_filter.mpr ⟨hpa, by simpa using hl⟩))
      exact ⟨entry, ⟨he, rfl⟩, fun other ho => inj_on_of_nodup_map hd ho.1 he ho.2⟩

end Rust

/-! ## The index -/

namespace Declaration

def typeName? : Declaration → Option String
  | .type definition => some definition.name
  | .operation _ => none

def operationName? : Declaration → Option String
  | .type _ => none
  | .operation definition => some definition.name

end Declaration

open Declaration (typeName? operationName?)

variable {analysis : Analysis}

theorem typeNames_perm : (analysis.declarations.filterMap typeName?).Perm
    (analysis.registry.userTypes.map TypeDefinition.name) := by
  refine ((sortBy_perm _ _).filterMap _).trans (.of_eq ?_)
  rw [filterMap_append, filterMap_map, filterMap_map]
  simp [Function.comp_def, typeName?]

theorem operationNames_perm : (analysis.declarations.filterMap operationName?).Perm
    (analysis.operations.map BoundOperation.name) := by
  refine ((sortBy_perm _ _).filterMap _).trans (.of_eq ?_)
  rw [filterMap_append, filterMap_map, filterMap_map]
  simp [Function.comp_def, operationName?]

theorem paths_entries_perm {target : Target} (h : target.language = .rust) :
    ((Rust.entries (analysis.declarations.filterMap typeName?) (analysis.declarations.filterMap operationName?)).map
      fun e => e.1 ++ "/" ++ snakeCase e.2 ++ ".rs").Perm (analysis.declarations.map target.path) := by
  obtain ⟨lang, reg, options⟩ := target
  cases h
  refine (((typeNames_perm.map _).append (operationNames_perm.map _)).map _).trans
    (.trans (.of_eq ?_) ((sortBy_perm _ _).map _).symm)
  simp only [map_append, map_map]
  rfl

namespace Rust

/-- A type and an operation that are keywords in words. -/
def keywordSources : List Source := Source.number
  [("a", "type Query { a: Type } type Type { b: Int } query Match { a { b } }")]

/-- A type that is a word of paths. -/
def selfSources : List Source := Source.number [("a", "type Query { a: Self } type Self { b: Int }")]

end Rust

end GraphClient
