import GraphClient.Proofs.Operation.Elaboration
import GraphClient.Proofs.Operation.Variables
import GraphClient.Proofs.Spelling.Selections

/-!
# Fragments in use

The names that binding notes on spreads are those of the fragments that the spreads lead to.

* **`Scope.Complete.mem_spreads`**: these are the fragments that the set leads to.
-/

namespace GraphClient

open List Selection

variable {sels : List Selection}

theorem Reached.trans {decls : NameMap FragmentDefinition} {between frag : FragmentDefinition}
    (h : Reached decls sels between) (h' : Reached decls between.selections frag) : Reached decls sels frag := by
  induction h with
  | here hs hf => exact .through hs hf h'
  | through hs hf _ ih => exact .through hs hf (ih h')

namespace Scope

variable {scope : Scope} {parent : String}

def noted (scope : Scope) (spread : Spread) : List String :=
  spread.name :: ((scope.bound.find? spread.name).map BoundFragment.spreads).getD []

@[simp] theorem spreads_directiveNotes (place : DirectiveLocation) (uses : List DirectiveUse) :
    (scope.directiveNotes place uses).spreads = [] := rfl

@[simp] theorem spreads_fieldNotes (he : FieldHead) (f : FieldDefinition) :
    (scope.fieldNotes parent he f).spreads = [] := by
  rw [fieldNotes, Notes.spreads_append, Notes.spreads_ofFindings, append_nil, deprecationNotes]
  split <;> rfl

/-- What is noted on spreads without errors. -/
structure NotesSpreads (scope : Scope) (spreads : List Spread) (notes : Notes) : Prop where
  declared : ∀ spread ∈ spreads, scope.declared.contains spread.name
  noted : notes.spreads = spreads.flatMap scope.noted

variable {notes : Notes}

theorem NotesSpreads.nil (h : notes.spreads = []) : scope.NotesSpreads [] notes :=
  ⟨fun _ hs => absurd hs not_mem_nil, h⟩

theorem NotesSpreads.append {first second : List Spread} {more : Notes}
    (h : scope.NotesSpreads first notes) (h' : scope.NotesSpreads second more) :
    scope.NotesSpreads (first ++ second) (notes ++ more) where
  declared := forall_mem_append.mpr ⟨h.declared, h'.declared⟩
  noted := by rw [Notes.spreads_append, h.noted, h'.noted, flatMap_append]

theorem Binds.notesSpreads {sel : Selection} {res : Option BoundSelection}
    (h : scope.Binds parent sel res notes) (hc : notes.diagnostics.hasErrors = false)
    (hi : ∀ target, scope.Clean target sel.children → scope.NotesSpreads
      (spreadsIn sel.children) (scope.bindSet target sel.children).2) : scope.NotesSpreads sel.spreads notes := by
  cases h with
  | typename => exact .nil rfl
  | leaf => exact .nil (by simp)
  | composite =>
    rw [Notes.clean_append] at hc
    exact (NotesSpreads.nil (by simp)).append (hi _ hc.2)
  | spread hd hb | unbound hd hb =>
    exact ⟨forall_mem_singleton.mpr hd, by simp [spreads, noted, hb]⟩
  | «inline» =>
    rw [Notes.clean_append] at hc
    exact (NotesSpreads.nil rfl).append (hi _ hc.2)

theorem notesSpreads_set (h : scope.Clean parent sels) :
    scope.NotesSpreads (spreadsIn sels) (scope.bindSet parent sels).2 :=
  Clean.induct (P := fun _ sel _ notes => scope.NotesSpreads sel.spreads notes)
    (fun _ => .nil rfl) (fun h h' => h.append h') Binds.notesSpreads h

namespace Complete

variable (h : scope.Complete)

include h

variable {name : String}

theorem mem_noted (hc : scope.Clean parent sels)
    (ho : ∀ spread ∈ spreadsIn sels, ∀ frag, scope.declared.find? spread.name = some frag →
      (name ∈ (scope.fragmentResult frag).spreads ↔
        ∃ last, Reached scope.declared frag.selections last ∧ last.name = name)) :
    name ∈ (scope.bindSet parent sels).2.spreads ↔ ∃ last, Reached scope.declared sels last ∧ last.name = name := by
  have he := notesSpreads_set hc
  rw [he.noted, mem_flatMap]
  constructor
  · rintro ⟨spread, hs, hn⟩
    obtain ⟨frag, hf⟩ := Option.isSome_iff_exists.mp (he.declared spread hs)
    rw [noted, h.bound, hf, mem_cons] at hn
    rcases hn with rfl | hn
    · exact ⟨frag, .here hs hf, h.named _ _ hf⟩
    · obtain ⟨last, hr, hl⟩ := (ho spread hs frag hf).mp hn
      exact ⟨last, .through hs hf hr, hl⟩
  · rintro ⟨last, hr, rfl⟩
    cases hr with
    | @here _ spread _ hs hf =>
      exact ⟨spread, hs, mem_cons.mpr (.inl (h.named _ _ hf))⟩
    | @through _ spread between _ hs hf hr =>
      refine ⟨spread, hs, mem_cons.mpr (.inr ?_)⟩
      rw [h.bound, hf]
      exact (ho spread hs between hf).mpr ⟨last, hr, rfl⟩

theorem mem_spreads_fragment {key : String} {frag : FragmentDefinition}
    (hf : scope.declared.find? key = some frag) : name ∈ (scope.fragmentResult frag).spreads ↔
      ∃ last, Reached scope.declared frag.selections last ∧ last.name = name := by
  refine h.induct (P := fun found => name ∈ (scope.fragmentResult found).spreads ↔
    ∃ last, Reached scope.declared found.selections last ∧ last.name = name)
    (fun other frag ho ih => ?_) hf
  rw [← h.mem_noted (h.clean_fragment ho) ih]
  simp [fragmentResult, fragmentNotes]

theorem mem_spreads (hc : scope.Clean parent sels) : name ∈ (scope.bindSet parent sels).2.spreads ↔
      ∃ last, Reached scope.declared sels last ∧ last.name = name :=
  h.mem_noted hc fun _ _ _ hf => h.mem_spreads_fragment hf

end Complete

end Scope

end GraphClient
