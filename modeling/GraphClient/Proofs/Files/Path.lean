import GraphClient.Files.Path
import GraphClient.Proofs.Spelling.Blocks

/-!
# Paths below a directory

A path below a directory goes through the directory first, and then through the names of entries.

* **`Path.pieces_join`**: the pieces of a path below a directory.
* **`Path.same_join_iff`**: paths below a directory are the same just if their names are.
-/

namespace GraphClient

open List

def IsEntryName (name : String) : Prop := name ≠ "" ∧ name ≠ "." ∧ name ≠ ".." ∧ '/' ∉ name.toList

instance : DecidablePred IsEntryName := fun _ => inferInstanceAs (Decidable (_ ∧ _))

variable {name : String}

theorem IsEntryName.isIdle_eq (h : IsEntryName name) : Path.isIdle name = false := by
  simp [Path.isIdle, h.1, h.2.1]

theorem IsEntryName.ofPiece?_eq (h : IsEntryName name) : Component.ofPiece? name = some (.name name) := by
  rw [Component.ofPiece?]
  · exact h.1
  · exact h.2.1
  · exact h.2.2.1

namespace Path

variable (path : Path)

theorem pieces_eq : path.pieces = (path.text.toList.splitOn '/').map String.ofList := by
  rw [pieces, Text.splitOn_eq]

theorem pieces_ne_nil : path.pieces ≠ [] := by
  rw [pieces_eq, Ne, map_eq_nil_iff]
  exact splitOn_ne_nil _ _

theorem slash_notMem_of_mem_pieces {path : Path} {piece : String} (h : piece ∈ path.pieces) : '/' ∉ piece.toList := by
  obtain ⟨cs, hc, rfl⟩ := mem_map.mp h
  rw [String.toList_ofList]
  exact fun hm => (Text.mem_of_mem_splitOn hc hm).2 rfl

/-- **A path is its pieces.** -/
theorem ofPieces_pieces : ofPieces path.pieces = path := by
  have ht : (ofPieces path.pieces).text.toList = path.text.toList := by
    rw [ofPieces, String.toList_intercalate, pieces_eq, map_map]
    simp only [Function.comp_def, String.toList_ofList, map_id']
    exact intercalate_splitOn '/'
  exact congrArg Path.mk (String.toList_inj.mp ht)

theorem pieces_ofPieces {names : List String} (hne : names ≠ []) (h : ∀ name ∈ names, '/' ∉ name.toList) :
    (ofPieces names).pieces = names := by
  have hs : List.splitOn '/' (['/'].intercalate (names.map String.toList)) = names.map String.toList :=
    splitOn_intercalate '/' (by simpa using h) (by simpa using hne)
  have ht : (ofPieces names).text.toList = ['/'].intercalate (names.map String.toList) := String.toList_intercalate
  rw [pieces_eq, ht, hs]
  simp

theorem pieces_injective {path other : Path} (h : path.pieces = other.pieces) : path = other := by
  rw [← ofPieces_pieces path, h, ofPieces_pieces]

theorem ofPieces_cons (name other : String) (names : List String) :
    ofPieces (name :: other :: names) = ⟨name ++ "/" ++ (ofPieces (other :: names)).text⟩ :=
  congrArg Path.mk String.intercalate_cons_cons

theorem ofPieces_singleton (name : String) : ofPieces [name] = ⟨name⟩ := congrArg Path.mk String.intercalate_singleton

theorem ofPieces_pair (name other : String) : ofPieces [name, other] = ⟨name ++ "/" ++ other⟩ := by
  rw [ofPieces_cons, ofPieces_singleton]

theorem isAbsolute_append (h : name ≠ "") (text : String) : isAbsolute ⟨name ++ text⟩ = isAbsolute ⟨name⟩ := by
  have hne : name.toList ≠ [] := by simpa using h
  rw [isAbsolute, isAbsolute, String.toList_append, head?_append_of_ne_nil _ hne]

theorem isAbsolute_name (h : IsEntryName name) : isAbsolute ⟨name⟩ = false := by
  rw [isAbsolute, decide_eq_false_iff_not]
  exact fun hh => h.2.2.2 (mem_of_mem_head? hh)

theorem isAbsolute_ofPieces {names : List String} (h : ∀ name ∈ names, IsEntryName name) :
    (ofPieces names).isAbsolute = false := by
  match names, h with
  | [], _ => rfl
  | [name], h => exact isAbsolute_name (h name mem_cons_self)
  | name :: other :: names, h =>
    have hn := h name mem_cons_self
    rw [ofPieces_cons, String.append_assoc, isAbsolute_append hn.1, isAbsolute_name hn]

/-- The pieces of a directory, but for an empty one behind a last slash. -/
def stem (path : Path) : List String := if path.endsInSlash then path.pieces.dropLast else path.pieces

variable {dir inner : Path} {names others : List String}

theorem pieces_of_slash {front rest : List Char} {path : Path} (h : path.text.toList = front ++ '/' :: rest) :
    path.pieces = pieces ⟨String.ofList front⟩ ++ pieces ⟨String.ofList rest⟩ := by
  rw [pieces_eq, pieces_eq, pieces_eq, h, splitOn_append_cons_self, map_append, String.toList_ofList,
    String.toList_ofList]

theorem stem_of_slash {front : List Char} (h : dir.text.toList = front ++ ['/']) :
    dir.stem = pieces ⟨String.ofList front⟩ := by
  have he : dir.endsInSlash := by simp [endsInSlash, h]
  have hl : pieces ⟨String.ofList []⟩ = [""] := rfl
  rw [stem, if_pos he, pieces_of_slash h, hl, dropLast_concat]

theorem stem_ne_nil : dir.stem ≠ [] := by
  by_cases he : dir.endsInSlash
  · obtain ⟨front, hf⟩ := getLast?_eq_some_iff.mp (of_decide_eq_true he)
    rw [stem_of_slash hf]
    exact pieces_ne_nil _
  · rw [stem, if_neg he]
    exact pieces_ne_nil _

theorem pieces_eq_stem : path.pieces = path.stem ∨ path.pieces = path.stem ++ [""] := by
  by_cases he : path.endsInSlash
  · obtain ⟨front, hf⟩ := getLast?_eq_some_iff.mp (of_decide_eq_true he)
    rw [stem_of_slash hf, pieces_of_slash hf]
    exact .inr rfl
  · rw [stem, if_neg he]
    exact .inl rfl

/-- The text of a directory in front of its entries. -/
def lead (path : Path) : String := if path.endsInSlash then path.text else path.text ++ "/"

theorem exists_lead_eq (dir : Path) : ∃ rest, dir.lead = dir.text ++ rest := by
  rw [lead]
  split_ifs
  · exact ⟨"", String.append_empty.symm⟩
  · exact ⟨"/", rfl⟩

theorem endsInSlash_append (h : IsEntryName name) (text : String) : endsInSlash ⟨text ++ name⟩ = false := by
  have hne : name.toList ≠ [] := by simpa using h.1
  rw [endsInSlash, decide_eq_false_iff_not, String.toList_append, getLast?_append_of_ne_nil _ hne]
  exact fun hl => h.2.2.2 (mem_of_getLast? hl)

variable (hdir : dir.text ≠ "")

include hdir

theorem join_eq (hi : inner.isAbsolute = false) : dir.join inner = ⟨dir.lead ++ inner.text⟩ := by
  rw [join, if_neg (by simp [hi, hdir]), lead]
  split_ifs <;> rfl

theorem lead_ne : dir.lead ≠ "" := by
  rw [lead]
  split_ifs <;> simp [hdir]

theorem isAbsolute_lead : isAbsolute ⟨dir.lead⟩ = dir.isAbsolute := by
  rw [lead]
  split_ifs
  · rfl
  · exact isAbsolute_append hdir _

theorem pieces_join (hi : inner.isAbsolute = false) : (dir.join inner).pieces = dir.stem ++ inner.pieces := by
  rw [join_eq hdir hi, lead]
  split_ifs with he
  · obtain ⟨front, hf⟩ := getLast?_eq_some_iff.mp (of_decide_eq_true he)
    have ht : (dir.text ++ inner.text).toList = front ++ '/' :: inner.text.toList := by
      rw [String.toList_append, hf, append_assoc]
      rfl
    rw [pieces_of_slash ht, stem_of_slash hf, String.ofList_toList]
  · have ht : (dir.text ++ "/" ++ inner.text).toList = dir.text.toList ++ '/' :: inner.text.toList := by
      rw [String.toList_append, String.toList_append, append_assoc]
      rfl
    rw [pieces_of_slash ht, stem, if_neg he, String.ofList_toList, String.ofList_toList]

theorem join_name_join (h : IsEntryName name) (hi : inner.isAbsolute = false) :
    (dir.join ⟨name⟩).join inner = dir.join ⟨name ++ "/" ++ inner.text⟩ := by
  have ha : isAbsolute ⟨name ++ "/" ++ inner.text⟩ = false := by
    rw [String.append_assoc, isAbsolute_append h.1, isAbsolute_name h]
  have hl : lead ⟨dir.lead ++ name⟩ = dir.lead ++ name ++ "/" := by
    rw [lead, if_neg (by simp [endsInSlash_append h])]
  have hj : dir.lead ++ name ≠ "" := by simp [h.1]
  rw [join_eq hdir (isAbsolute_name h), join_eq hj hi, join_eq hdir ha, hl,
    String.append_assoc, String.append_assoc, String.append_assoc]

theorem foldl_join (hne : names ≠ []) (h : ∀ name ∈ names, IsEntryName name) :
    names.foldl (fun path name => path.join ⟨name⟩) dir = dir.join (ofPieces names) := by
  induction names generalizing dir with
  | nil => exact absurd rfl hne
  | cons name names ih =>
    obtain ⟨hn, hnames⟩ := forall_mem_cons.mp h
    cases names with
    | nil => rfl
    | cons other names =>
      have hj : (dir.join ⟨name⟩).text ≠ "" := by
        rw [join_eq hdir (isAbsolute_name hn)]
        simp [hn.1]
      rw [foldl_cons, ih hj (cons_ne_nil _ _) hnames, join_name_join hdir hn
        (isAbsolute_ofPieces hnames), ofPieces_cons]

theorem isAbsolute_join (hi : inner.isAbsolute = false) : (dir.join inner).isAbsolute = dir.isAbsolute := by
  rw [join_eq hdir hi, isAbsolute_append (lead_ne hdir), isAbsolute_lead hdir]

variable (hnames : ∀ name ∈ names, IsEntryName name) (hne : names ≠ [])

include hnames hne

theorem pieces_join_names : (dir.join (ofPieces names)).pieces = dir.stem ++ names := by
  rw [pieces_join hdir (isAbsolute_ofPieces hnames), pieces_ofPieces hne fun name hn =>
    (hnames name hn).2.2.2]

theorem components_join : (dir.join (ofPieces names)).components = (if dir.isAbsolute then [.root]
        else if dir.stem.head? = some "." then [.here] else []) ++
      dir.stem.filterMap Component.ofPiece? ++ names.map .name := by
  have hl : names.filterMap Component.ofPiece? = names.map .name := by
    rw [← filterMap_eq_map]
    exact filterMap_congr fun name hn => (hnames name hn).ofPiece?_eq
  rw [components, isAbsolute_join hdir (isAbsolute_ofPieces hnames), pieces_join_names hdir hnames hne,
    head?_append_of_ne_nil _ stem_ne_nil, filterMap_append, hl, append_assoc]

theorem same_join_iff (ho : ∀ name ∈ others, IsEntryName name) (hn' : others ≠ []) :
    (dir.join (ofPieces names)).same (dir.join (ofPieces others)) ↔ names = others := by
  rw [same, components_join hdir hnames hne, components_join hdir ho hn', decide_eq_true_iff, append_cancel_left_eq]
  exact (map_injective_iff.mpr fun a b h => Component.name.inj h).eq_iff

end Path

end GraphClient
