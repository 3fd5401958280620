import Mathlib.Data.List.Pairwise
import GraphClient.Proofs.Syntax.Clean

/-!
# Where definitions and variables start

The definitions of a text and the variables that they declare start one behind the other. This holds of every
text, since a round of a loop takes a token, whatever it reports.

* **`parse_places`**: the definitions of a text and their variables start at different offsets.
-/

namespace GraphClient.Syntax

open List Syntax.Parser Nat

-- a parser's instance is as deep as its chain of binds
set_option synthInstance.maxSize 1000

/-! ## Offsets in order -/

/-- Offsets in increasing order, from `low` on and below `high`. -/
structure Spaced (low high : Nat) (starts : List Nat) : Prop where
  ordered : starts.Pairwise (· < ·)
  low_le : ∀ start ∈ starts, low ≤ start
  lt_high : ∀ start ∈ starts, start < high

namespace Spaced

variable {low middle high start : Nat} {starts more : List Nat}

theorem nil : Spaced low high [] := ⟨.nil, by simp, by simp⟩

theorem mono {low' hi' : Nat} (h : Spaced low high starts) (hl : low' ≤ low) (hh : high ≤ hi') :
    Spaced low' hi' starts :=
  ⟨h.ordered, fun start hs => le_trans hl (h.low_le start hs),
    fun start hs => lt_of_lt_of_le (h.lt_high start hs) hh⟩

theorem append (h : Spaced low middle starts) (h' : Spaced middle high more)
    (hl : low ≤ middle) (hh : middle ≤ high) : Spaced low high (starts ++ more) where
  ordered := pairwise_append.mpr ⟨h.ordered, h'.ordered, fun a ha b hb =>
    lt_of_lt_of_le (h.lt_high a ha) (h'.low_le b hb)⟩
  low_le := fun start hs => (mem_append.mp hs).elim (h.low_le start) fun hs =>
    le_trans hl (h'.low_le start hs)
  lt_high := fun start hs => (mem_append.mp hs).elim
    (fun hs => lt_of_lt_of_le (h.lt_high start hs) hh) (h'.lt_high start)

theorem single (hl : low ≤ start) (hh : start < high) : Spaced low high [start] :=
  ⟨pairwise_singleton _ _, forall_mem_singleton.mpr hl, forall_mem_singleton.mpr hh⟩

end Spaced

/-- **What the rounds of a loop read stands in order** if it does so in each round, which ends behind its first
token and behind its body. -/
theorem spaced_repeatUntil {α : Type} (stop : TokenKind) (body : Parser α) [hb : Built body] (starts : α → List Nat)
    (h : ∀ cur : Cursor, cur.Wf → ∀ high, cur.start < high → (body cur).cursor.start ≤ high →
      Spaced cur.start high (starts (body cur).value)) {cur : Cursor} (hw : cur.Wf) :
    Spaced cur.start (repeatUntil stop body cur).cursor.start ((repeatUntil stop body cur).value.flatMap starts) := by
  rw [repeatUntil, loop]
  generalize cur.ahead.length = rounds
  induction rounds generalizing cur with
  | zero => exact .nil
  | succ rounds ih =>
    rw [loopWithin, loopOf, bind_run rfl]
    split_ifs with hg
    · have hr : Built (round body) := inferInstance
      have hu : Built (bumpIfStuck cur.start) := inferInstance
      have hl : ∀ goes, Built (loopWithin goes (round body) rounds) := fun _ => inferInstance
      have hw' := (hr.forward hw).1
      have ht := hw.start_lt (Takes.round stop body cur hw hg)
      exact (h cur hw _ ht (hu.forward (hb.forward hw).1).2).append (ih hw') (le_of_lt ht)
        ((hl _).forward hw').2
    · exact .nil

/-! ## Taking tokens -/

namespace Parser.Takes

variable {here : TokenKind → Prop}

theorem selectionSet : Takes (· = .mark .leftBrace) selectionSet := by
  intro cur hf hh
  have hw : Takes (· = .mark .leftBrace) (selectionSetWithin (cur.ahead.length + 1)) := by
    exact .second fun _ => .first (.expect (by decide))
  exact hw cur hf hh

def StartsOperation (kind : TokenKind) : Prop :=
  kind = .keyword .query ∨ kind = .keyword .mutation ∨ kind = .keyword .subscription ∨ kind = .mark .leftBrace

theorem operation : Takes StartsOperation .operation := by
  intro cur hw hh
  have hwor : ∀ kind, kind = .keyword .query ∨ kind = .keyword .mutation ∨ kind = .keyword .subscription →
      Takes (· = kind) .operationKind? := by
    intro kind hk cur hw hh
    have hr : (Parser.operationKind? cur).cursor = (Parser.advance cur).cursor := by
      rw [Parser.operationKind?, Parser.bind_run rfl, hh]
      rcases hk with rfl | rfl | rfl <;> rfl
    have hm : Takes (· = kind) .advance := by
      refine .advance fun he => ?_
      rcases hk with rfl | rfl | rfl <;> cases he
    rw [hr]
    exact hm cur hw hh
  have hwo : StartsOperation cur.current.kind ↔
      (cur.current.kind = .keyword .query ∨ cur.current.kind = .keyword .mutation ∨
        cur.current.kind = .keyword .subscription) ∨ cur.current.kind = .mark .leftBrace := by
    simp only [StartsOperation, or_assoc]
  have hm : Takes (· = cur.current.kind) .operation := by
    refine @second _ _ _ _ _ inferInstance (fun start => ?_) fun start =>
      .bind (.bind inferInstance fun found => ?_) inferInstance
    · rcases hwo.mp hh with hk | hk
      · refine @first _ _ _ _ _ (@first _ _ _ _ _ (hwor _ hk) inferInstance fun found => ?_)
          (.bind inferInstance fun found => ?_) inferInstance
        all_goals split <;> infer_instance
      · rw [hk]
        refine @second _ _ _ _ _ (.bind inferInstance fun found => ?_)
          (fun _ => .second fun _ => .second fun _ => .first selectionSet) inferInstance
        split <;> infer_instance
    · split <;> infer_instance
  exact hm cur hw rfl

theorem fragment (h : ¬here .eof) : Takes here fragment := by
  exact .second fun _ => .first (.advance h)

theorem extension {desc : Option Description} (h : ¬here .eof) : Takes here (extension? desc) := by
  cases desc <;> exact .second fun _ => .first (.advance h)

end Parser.Takes

/-! ## Definitions -/

def variableStarts (parameters : List VariableDefinition) : List Nat :=
  parameters.map fun parameter => parameter.span.start

def Definition.start : Definition → Nat
  | .schema definition => definition.span.start
  | .schemaExtension definition => definition.span.start
  | .type definition => definition.span.start
  | .typeExtension definition => definition.span.start
  | .directive definition => definition.span.start
  | .operation definition => definition.span.start
  | .fragment definition => definition.span.start

def Definition.variableStarts : Definition → List Nat
  | .operation definition => Syntax.variableStarts definition.parameters
  | _ => []

/-- **Where a definition and its variables start.** -/
def Definition.places (definition : Definition) : List Nat := definition.start :: definition.variableStarts

section Runs

variable {desc : Option Description} {start : Nat} {cur : Cursor}

theorem spaced_variableDefinitions (hw : cur.Wf) : Spaced (cur.start + 1) (variableDefinitions cur).cursor.start
      (variableStarts (variableDefinitions cur).value) := by
  have hl : ∀ next : Cursor, next.Wf → Spaced next.start
      (repeatUntil (.mark .rightParen) variableDefinition next).cursor.start
      (variableStarts (repeatUntil (.mark .rightParen) variableDefinition next).value) := by
    intro next hn
    rw [variableStarts, map_eq_flatMap]
    exact spaced_repeatUntil _ _ _ (fun cur _ _ hh _ => .single (le_refl cur.start) hh) hn
  rw [variableDefinitions, bind_eq, eat_run]
  by_cases hk : cur.current.kind = .mark .leftParen
  · rw [if_pos hk]
    have ht := hw.start_lt (Cursor.advance_suffix hw (hw.ahead_ne_nil (by simp [hk])))
    have hw' := Cursor.advance_wf hw
    have hb : Built (repeatUntil (.mark .rightParen) variableDefinition) := inferInstance
    have he : Built (expect (.mark .rightParen)) := inferInstance
    exact (hl _ hw').mono ht (he.forward (hb.forward hw').1).2
  · rw [if_neg hk]
    exact .nil

/-- An operation starts at its first token, in front of its variables. -/
theorem built_operationHead : Built (do match ← operationKind? with
    | none => return (.query, none)
    | some kind => return (kind, ← operationName?)) :=
  .bind inferInstance fun found => by split <;> infer_instance

theorem spaced_operation (hw : cursor.Wf) (hk : Takes.StartsOperation cursor.current.kind) :
    Spaced cursor.start (operation cursor).cursor.start
      ((operation cursor).value.span.start :: variableStarts (operation cursor).value.parameters) := by
  have hv : Built variableDefinitions := inferInstance
  have hr : Built (directives false >>= fun _ => selectionSet) := inferInstance
  obtain ⟨hw', hl⟩ := built_operationHead.forward hw
  have he := (hr.forward (hv.forward hw').1).2
  have hm := hw.start_lt (Takes.operation cursor hw hk)
  exact (Spaced.single (le_refl _) (lt_succ_self _)).append
    ((spaced_variableDefinitions hw').mono (succ_le_succ hl) he) (le_succ _) hm

theorem start_typeDefinition {type : TypeDefinition}
    (h : (typeDefinition? desc start cur).value = some type) : type.span.start = start := by
  rw [typeDefinition?, bind_run rfl] at h
  cases hk : typeKeyword? cur.current.kind with
  | none =>
    rw [hk] at h
    cases h
  | some keyword =>
    rw [hk] at h
    obtain rfl := Option.some.inj h
    rfl

theorem start_schemaDefinition {extension : Bool} :
    (schemaDefinition desc start extension cursor).value.span.start = start := by
  cases extension <;>
    cases hb : (directives true (advance cursor).cursor).cursor.current.kind ==
      .mark .leftBrace <;>
    simp only [schemaDefinition, bind, atKind, hb] <;> rfl

theorem places_extension {defn : Definition}
    (h : (extension? desc cur).value = some defn) : defn.places = [cur.start] := by
  have he : ∀ next : Cursor, ((do
      if ← atKind (.keyword .schema) then
        return some (Definition.schemaExtension (← schemaDefinition none cur.start true))
      else
        return (← typeDefinition? none cur.start).map Definition.typeExtension) next).value =
      some defn → defn.places = [cur.start] := by
    intro next hn
    rw [bind_run rfl] at hn
    split_ifs at hn
    · obtain rfl := Option.some.inj hn
      exact congrArg (· :: _) start_schemaDefinition
    · obtain ⟨type, ht, rfl⟩ := Option.map_eq_some_iff.mp hn
      exact congrArg (· :: _) (start_typeDefinition ht)
  cases desc <;> exact he _ h

theorem start_fragment : (fragment cur).value.span.start = cur.start := by
  cases ho : (advance cur).cursor.current.kind == .keyword .on <;>
    simp only [fragment, bind, atKind, position, ho] <;> rfl

theorem startOf_description : (startOf (description? cur).value (description? cur).cursor).value = cur.start := by
  rw [description?, bind_run rfl]
  cases cur.current.kind <;> rfl

theorem Parser.bind_kind {α β : Type} {p : Parser α} {f : α → TokenKind → Parser β} {P : β → Cursor → Prop}
    (h : ∀ a next, (p cur).value = a → (p cur).cursor = next →
      P (f a next.current.kind next).value (f a next.current.kind next).cursor) :
    P ((p >>= fun a => kind >>= f a) cur).value ((p >>= fun a => kind >>= f a) cur).cursor :=
  h _ _ rfl rfl

/-- **A definition starts at its first token**, or at a later one if it takes that one too. -/
theorem places_definition (hw : cur.Wf) : ∀ defn ∈ (definition? cur).value, defn.places = [cur.start] ∨
      Spaced cur.start (definition? cur).cursor.start defn.places := by
  have hu : Built description? := inferInstance
  obtain ⟨hw', hl⟩ := hu.forward hw
  unfold definition?
  refine bind_kind (P := fun (value : Option Definition) last => ∀ defn ∈ value, defn.places = [cur.start] ∨
    Spaced cur.start last.start defn.places) fun desc next hd hn => ?_
  have hs : (startOf desc next).value = cur.start := hd ▸ hn ▸ startOf_description
  rw [hn] at hw' hl
  have hr : (rejectDescription desc next).cursor = next := by
    cases desc <;> rfl
  -- what stands behind a description that is reported starts there and takes a token
  have hb : ∀ {tail : Parser (Option Definition)}, Takes (· = next.current.kind) tail →
      (∀ defn ∈ (tail next).value, defn.places = [next.start]) →
      ∀ defn ∈ (tail next).value, defn.places = [cur.start] ∨
        Spaced cur.start (tail next).cursor.start defn.places := by
    intro tail hm hp defn h
    rw [hp defn h]
    exact .inr (.single hl (hw'.start_lt (hm next hw' rfl)))
  have ho : Takes.StartsOperation next.current.kind →
      let outcome := (rejectDescription desc >>= fun _ => operation >>= fun op =>
        pure (some (.operation op)) : Parser (Option Definition)) next
      ∀ defn ∈ outcome.value, defn.places = [cur.start] ∨
        Spaced cur.start outcome.cursor.start defn.places := by
    rintro hk outcome _ ⟨⟩
    have hsp := (spaced_operation hw' hk).mono hl (le_refl _)
    rw [← hr] at hsp
    exact .inr hsp
  generalize next.current.kind = kind at hb ho ⊢
  split
  · exact hb (.extension (by decide)) fun _ h => places_extension h
  · rintro _ ⟨⟩
    exact .inl (congrArg (· :: _) (start_schemaDefinition.trans hs))
  · rintro _ ⟨⟩
    exact .inl (congrArg (· :: _) hs)
  · refine hb (.second fun _ => .first (.fragment (by decide))) ?_
    rintro _ ⟨⟩
    exact congrArg (· :: _) (start_fragment.trans (congrArg Cursor.start hr))
  · exact ho (.inl rfl)
  · exact ho (.inr (.inl rfl))
  · exact ho (.inr (.inr (.inl rfl)))
  · exact ho (.inr (.inr (.inr rfl)))
  · split_ifs
    · intro defn h
      obtain ⟨type, ht, rfl⟩ := Option.map_eq_some_iff.mp h
      exact .inl (congrArg (· :: _) ((start_typeDefinition ht).trans hs))
    · rintro _ ⟨⟩

end Runs

theorem parse_places (src : Nat) (text : String) :
    ((parse src text).1.definitions.flatMap Definition.places).Pairwise (· < ·) := by
  have hr : ∀ cur : Cursor, cur.Wf → ∀ high, cur.start < high →
      (definitionOrRecover cur).cursor.start ≤ high → Spaced cur.start high
        ((definitionOrRecover cur).value.toList.flatMap Definition.places) := by
    intro cur hw high ht hh
    have hp := places_definition hw
    rw [definitionOrRecover, bind_eq] at hh ⊢
    cases hv : (definition? cur).value with
    | none => exact .nil
    | some defn =>
      rw [hv] at hh
      change Spaced cur.start high ([defn].flatMap Definition.places)
      rw [flatMap_singleton]
      rcases hp defn hv with he | hs
      · rw [he]
        exact .single (le_refl _) ht
      · exact hs.mono (le_refl _) hh
  have hl := spaced_repeatUntil .eof definitionOrRecover (·.toList.flatMap Definition.places) hr
    (ofTokens_wf src text)
  rw [← flatMap_assoc] at hl
  change (List.flatMap Definition.places (List.filterMap id _)).Pairwise _
  rw [filterMap_eq_flatMap_toList]
  exact hl.ordered

theorem eq_of_mem_places {src : Nat} {text : String} {defn other : Definition}
    (h : defn ∈ (parse src text).1.definitions) (h' : other ∈ (parse src text).1.definitions)
    {start : Nat} (hs : start ∈ defn.places) (hs' : start ∈ other.places) : defn = other := by
  have hd := (nodup_flatMap.mp ((parse_places src text).imp ne_of_lt)).2
  have : Std.Symm (Function.onFun List.Disjoint Definition.places) := ⟨fun _ _ h _ ha hb => h hb ha⟩
  by_contra hn
  exact hd.forall h h' hn hs hs'

end GraphClient.Syntax
