import Mathlib.Data.String.Basic
import Mathlib.Data.List.Perm.Subperm
import GraphClient.Document.OfSyntax
import GraphClient.NameTable
import GraphClient.Proofs.Syntax.Clean

/-!
# Numbers that stand for names

A name table numbers names in the order of their first calls. Later calls add names and renumber none, so a number
can be kept in a tree and looked up when all texts are read.
-/

namespace GraphClient

namespace NameTable

open List Nat

variable {table : NameTable} {name : String} {before calls after : List String}

/-- **One call**, behind the calls that the table comes from. -/
theorem intern_of_names (h : table.names = before.eraseDups) (name : String) :
    (table.intern name).1 = number ((before ++ [name]).eraseDups.idxOf name) ∧
      (table.intern name).2.names = (before ++ [name]).eraseDups := by
  have he : (before ++ [name]).eraseDups = table.names ++ if name ∈ table.names then [] else [name] := by
    rw [eraseDups_append, ← h]
    by_cases hn : name ∈ before <;> simp [h, removeAll, hn, eraseDups_cons]
  rw [he, intern]
  by_cases hn : name ∈ table.names
  · obtain ⟨index, hi⟩ := Option.isSome_iff_exists.mp (isSome_idxOf?.mpr hn)
    simp [hi, hn, idxOf_eq_getD_idxOf?]
  · simp [idxOf?_eq_none_iff.mpr hn, hn, idxOf_append]

theorem idxOf_eraseDups_append (h : name ∈ calls) (after : List String) :
    (calls ++ after).eraseDups.idxOf name = calls.eraseDups.idxOf name := by
  rw [eraseDups_append, idxOf_append_of_mem (mem_eraseDups.mpr h)]

/-- **A run of calls.** The table holds the names in the order of their first calls, and each call returns the
number of its name. -/
theorem internAll_of_names (h : table.names = before.eraseDups) (calls : List String) :
    (table.internAll calls).1 = calls.map (fun name => number ((before ++ calls).eraseDups.idxOf name)) ∧
      (table.internAll calls).2.names = (before ++ calls).eraseDups := by
  induction calls generalizing table before with
  | nil => exact ⟨rfl, by rw [append_nil]; exact h⟩
  | cons name rest ih =>
    obtain ⟨hf, hn⟩ := intern_of_names h name
    obtain ⟨hr, hl⟩ := ih hn
    rw [append_assoc, singleton_append] at hr hl
    refine ⟨?_, hl⟩
    have hi : (before ++ name :: rest).eraseDups.idxOf name = (before ++ [name]).eraseDups.idxOf name := by
      rw [append_cons, idxOf_eraseDups_append (by simp)]
    rw [internAll, map_cons, hi, ← hf, ← hr]

/-- **A number stands for its name** as long as there are fewer than `2 ^ 32` names. -/
theorem get_number (h : table.names = calls.eraseDups) (hc : calls.length < 2 ^ 32) (hn : name ∈ calls) :
    number (calls.eraseDups.idxOf name) = calls.eraseDups.idxOf name ∧
      table.get (number (calls.eraseDups.idxOf name)) = name := by
  have hm : name ∈ calls.eraseDups := mem_eraseDups.mpr hn
  have hl : calls.eraseDups.length ≤ calls.length :=
    (subperm_of_subset (nodup_eraseDups calls) fun _ => mem_eraseDups.mp).length_le
  have hi : number (calls.eraseDups.idxOf name) = calls.eraseDups.idxOf name :=
    mod_eq_of_lt (lt_trans (idxOf_lt_length_iff.mpr hm) (lt_of_le_of_lt hl hc))
  rw [hi, get, h, getD_eq_getElem?_getD, getElem?_idxOf hm]
  exact ⟨rfl, rfl⟩

/-- What is got for the number of a call behind more calls. -/
def resolved (before : List String) (name : String) (after : List String) : String :=
  let call := (empty.internAll before).2.intern name
  (call.2.internAll after).2.get call.1

theorem resolved_eq (h : (before ++ name :: after).length < 2 ^ 32) : resolved before name after = name := by
  have he : empty.names = ([] : List String).eraseDups := rfl
  obtain ⟨hn, ht⟩ := intern_of_names (internAll_of_names he before).2 name
  have ha := (internAll_of_names ht after).2
  rw [nil_append, append_assoc, singleton_append] at ha
  rw [resolved, hn, nil_append, ← idxOf_eraseDups_append (by simp) after, append_assoc, singleton_append]
  exact (get_number ha h (by simp)).2

end NameTable

/-- The part of a text at a span. -/
def Text.part (text : String) (span : Span) : String := String.Pos.Raw.extract text ⟨span.start⟩ ⟨span.stop⟩

/-- A tree with other names. -/
def Syntax.Placement.renamed (text : Name → String) : Placement :=
  { here with text, clean := True }

theorem Text.part_token {text : String} {t : Token} (h : t ∈ tokenize text) : Text.part text t.span = t.text := by
  obtain ⟨front, rest, ht, hs, -⟩ := (tiles_tokenize text).placed h
  have he := String.extract_of_valid front t.text.toList rest
  rw [← ht, List.nil_append, String.ofList_toList, String.ofList_toList] at he
  rw [part, hs, byteSize_append, byteSize_eq, byteSize_eq, String.utf8ByteSize_ofList, String.utf8ByteSize_ofList]
  exact he

open Syntax Placed in
/-- **The names of a text that is read without a report stand at their spans.** -/
theorem Syntax.parse_renamed {src : Nat} {text : String} (h : (parse src text).2 = []) {name : Name → String}
    (hn : ∀ n, name n = Text.part text n.span) : place (.renamed name) (parse src text).1 = (parse src text).1 := by
  have hb : name ⟨"", ⟨0, 0⟩⟩ = "" := by rw [hn]; rfl
  have hf : Fits (.renamed name) (tokenize text) := by
    exact ⟨tokenize_ordered text, tokenize_ends text, tokenize_ordered text, fun _ => start_le_stop,
      fun t ht _ => (hn _).trans (Text.part_token ht), fun span hs => hs trivial ▸ hb⟩
  have ht : place (.renamed name) (tokenize text) = tokenize text := List.map_id _
  have hr := readTokens_place src hf fun _ => h
  rw [ht] at hr
  exact (congrArg Prod.fst hr).symm

/-- **Numbers stand for names.** In a run of fewer than `2 ^ 32` calls the numbers follow the order of the first calls
of the names, two calls return the same number exactly for the same name, and the number of a call stands for its
name behind all later calls. So the names of a text that is read without a report can be kept as numbers. -/
theorem numbers_stand_for_names : (∀ calls : List String, calls.length < 2 ^ 32 →
      (NameTable.empty.internAll calls).1 = calls.map (calls.eraseDups.idxOf ·) ∧
        ∀ a ∈ calls.zip (NameTable.empty.internAll calls).1, ∀ b ∈ calls.zip (NameTable.empty.internAll calls).1,
          a.2 = b.2 ↔ a.1 = b.1) ∧
      (∀ before name after, (before ++ name :: after).length < 2 ^ 32 → NameTable.resolved before name after = name) ∧
      ∀ source, (Document.read source).2 = [] → ∀ before after : Syntax.Name → List String,
        (∀ name, (before name).length + (after name).length + 1 < 2 ^ 32) →
        let tree := (Syntax.parse source.id source.text).1
        let kept := Syntax.Placed.place (.renamed fun name => NameTable.resolved (before name)
          (Text.part source.text name.span) (after name)) tree
        kept = tree ∧ .ofSyntax source.id kept = (Document.read source).1 := by
  refine ⟨fun calls hc => ?_, fun _ _ _ => NameTable.resolved_eq, fun source hs before after hl => ?_⟩
  · have he : NameTable.empty.names = ([] : List String).eraseDups := rfl
    obtain ⟨hm, hn⟩ := NameTable.internAll_of_names he calls
    have hi : (NameTable.empty.internAll calls).1 = calls.map (calls.eraseDups.idxOf ·) :=
      hm.trans (List.map_congr_left fun name h => (NameTable.get_number hn hc h).1)
    refine ⟨hi, ?_⟩
    rw [hi, List.zip_eq_zipWith, List.zipWith_map_right, List.zipWith_self]
    simp only [List.forall_mem_map]
    exact fun _ ha _ _ => List.idxOf_inj (List.mem_eraseDups.mpr ha)
  · intro tree kept
    have hk : kept = tree := by
      refine Syntax.parse_renamed hs fun name => NameTable.resolved_eq ?_
      have := hl name
      simp only [List.length_append, List.length_cons]
      omega
    exact ⟨hk, congrArg (Document.ofSyntax source.id) hk⟩

theorem numbers_stand_for_names_query : (NameTable.empty.internAll ["a", "b", "a"]).1 = [0, 1, 0] ∧
    NameTable.resolved ["b"] "a" ["b", "c"] = "a" ∧ (Document.read ⟨0, "", "{a}"⟩).2 = [] ∧
    let tree := (Syntax.parse 0 "{a}").1
    let kept := Syntax.Placed.place (.renamed fun name => NameTable.resolved [] (Text.part "{a}" name.span) ["b"]) tree
    kept = tree ∧ .ofSyntax 0 kept = (Document.read ⟨0, "", "{a}"⟩).1 := by
  obtain ⟨hc, hr, hs⟩ := numbers_stand_for_names
  have hd : (Document.read ⟨0, "", "{a}"⟩).2 = [] := by decide +kernel
  exact ⟨(hc _ (by decide)).1, hr _ _ _ (by decide), hd, hs _ hd (fun _ => []) (fun _ => ["b"]) fun _ => by decide⟩

end GraphClient
