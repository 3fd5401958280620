import GraphClient.Proofs.Relocate
import GraphClient.Proofs.Syntax.Built

/-!
# Parsers at other places

Where the tokens of a text stand shows in the spans of a tree and of the reports, and nowhere else.

* **`Follows`**: parsers that do at other places what they do here. Every parser is an instance.
-/

namespace GraphClient.Syntax

open List Cursor Syntax.Parser Syntax.Selection

/-! ## Trees -/

/-- **Other offsets and spans**, and another text for every name. -/
structure Placement where
  offset : Nat → Nat
  span : Span → Span
  text : Name → String
  /-- Whether only runs without reports count. -/
  clean : Prop
  start : ∀ s, (span s).start = offset s.start
  reach : ∀ a b, span ⟨a, max b a⟩ = ⟨offset a, max (offset b) (offset a)⟩
  whole : ∀ a s, a ≤ s.start → s.start ≤ s.stop → span ⟨a, s.stop⟩ = ⟨offset a, (span s).stop⟩
  zero : offset 0 = 0

theorem Placement.empty (m : Placement) : m.span ⟨0, 0⟩ = ⟨0, 0⟩ := by simpa [m.zero] using m.reach 0 0

class Placed (α : Type) where
  place : Placement → α → α

open Placed (place)

section Trees

variable (m : Placement) {α β : Type}

instance : Placed Nat := ⟨Placement.offset⟩

instance : Placed Span := ⟨Placement.span⟩

instance : Placed Name := ⟨fun m n => ⟨m.text n, place m n.span⟩⟩

instance : Placed Token := ⟨fun m t => { t with span := place m t.span }⟩

instance : Placed Description := ⟨fun m d => { d with span := place m d.span }⟩

instance : Placed Bool := ⟨fun _ b => b⟩

instance : Placed Unit := ⟨fun _ b => b⟩

instance : Placed String := ⟨fun _ b => b⟩

instance : Placed TokenKind := ⟨fun _ b => b⟩

instance : Placed OperationKind := ⟨fun _ b => b⟩

instance : Placed DirectiveLocation := ⟨fun _ b => b⟩

instance [Placed α] : Placed (List α) := ⟨fun m => List.map (place m)⟩

instance [Placed α] : Placed (Option α) where
  place m
    | some a => some (place m a)
    | none => none

instance [Placed α] [Placed β] : Placed (α × β) := ⟨fun m e => (place m e.1, place m e.2)⟩

mutual

@[reducible] def Value.placed : Value → Value
  | .variable name => .variable (place m name)
  | .enum name => .enum (place m name)
  | .int value span => .int value (place m span)
  | .float value span => .float value (place m span)
  | .string value span => .string value (place m span)
  | .boolean value span => .boolean value (place m span)
  | .null span => .null (place m span)
  | .list items span => .list (placedItems items) (place m span)
  | .object fields span => .object (placedFields fields) (place m span)

@[reducible] def Value.placedItems : List Value → List Value
  | [] => []
  | item :: items => .placed item :: placedItems items

@[reducible] def Value.placedFields : List (Name × Value) → List (Name × Value)
  | [] => []
  | (name, value) :: fields => (place m name, .placed value) :: placedFields fields

end

instance : Placed Value := ⟨.placed⟩

theorem Value.placedItems_eq (items : List Value) : placedItems m items = place m items := by
  induction items with
  | nil => rfl
  | cons _ _ ih => exact congrArg (_ :: ·) ih

theorem Value.placedFields_eq (fields : List (Name × Value)) : placedFields m fields = place m fields := by
  induction fields with
  | nil => rfl
  | cons _ _ ih => exact congrArg (_ :: ·) ih

@[reducible] def TypeExpr.placed : TypeExpr → TypeExpr
  | .named name => .named (place m name)
  | .list inner span => .list (.placed inner) (place m span)
  | .nonNull inner span => .nonNull (.placed inner) (place m span)

instance : Placed TypeExpr := ⟨.placed⟩

instance : Placed Argument := ⟨fun m a => ⟨place m a.name, place m a.value, place m a.span⟩⟩

instance : Placed Directive := ⟨fun m d => ⟨place m d.name, place m d.arguments, place m d.span⟩⟩

instance : Placed InputValueDefinition := ⟨fun m i => ⟨place m i.description, place m i.name, place m i.type,
  place m i.defaultValue, place m i.directives, place m i.span⟩⟩

instance : Placed FieldDefinition := ⟨fun m f => ⟨place m f.description, place m f.name, place m f.arguments,
  place m f.type, place m f.directives, place m f.span⟩⟩

instance : Placed EnumValueDefinition := ⟨fun m v =>
  ⟨place m v.description, place m v.name, place m v.directives, place m v.span⟩⟩

instance : Placed TypeBody where
  place m
    | .scalar => .scalar
    | .object impls fields => .object (place m impls) (place m fields)
    | .interface impls fields => .interface (place m impls) (place m fields)
    | .union members => .union (place m members)
    | .enum vals => .enum (place m vals)
    | .input fields => .input (place m fields)

instance : Placed TypeDefinition := ⟨fun m t =>
  ⟨place m t.description, place m t.name, place m t.directives, place m t.body, place m t.span⟩⟩

instance : Placed RootDefinition := ⟨fun m r => ⟨r.operation, place m r.type, place m r.span⟩⟩

instance : Placed SchemaDefinition := ⟨fun m s =>
  ⟨place m s.description, place m s.directives, place m s.roots, place m s.span⟩⟩

instance : Placed DirectiveDefinition := ⟨fun m d => ⟨place m d.description, place m d.name, place m d.arguments,
  d.repeatable, place m d.locations, place m d.span⟩⟩

instance : Placed FieldHead := ⟨fun m h =>
  ⟨place m h.label, place m h.name, place m h.arguments, place m h.directives, place m h.span⟩⟩

mutual

@[reducible] def Selection.placed : Selection → Selection
  | .field head braces selections => .field (place m head) (place m braces) (placedAll selections)
  | .spread name directives span => .spread (place m name) (place m directives) (place m span)
  | .inline condition directives braces selections span => .inline (place m condition) (place m directives)
      (place m braces) (placedAll selections) (place m span)

@[reducible] def Selection.placedAll : List Selection → List Selection
  | [] => []
  | selection :: rest => .placed selection :: placedAll rest

end

instance : Placed Selection := ⟨placed⟩

theorem Selection.placedAll_eq (sels : List Selection) : placedAll m sels = place m sels := by
  induction sels with
  | nil => rfl
  | cons _ _ ih => exact congrArg (_ :: ·) ih

instance : Placed SelectionSet := ⟨fun m s => ⟨place m s.selections, place m s.span⟩⟩

instance : Placed VariableDefinition := ⟨fun m v =>
  ⟨place m v.name, place m v.type, place m v.defaultValue, place m v.directives, place m v.span⟩⟩

instance : Placed OperationDefinition := ⟨fun m o => ⟨o.operation, place m o.name, place m o.parameters,
  place m o.directives, place m o.body, place m o.span⟩⟩

instance : Placed FragmentDefinition := ⟨fun m f =>
  ⟨place m f.name, place m f.condition, place m f.directives, place m f.body, place m f.span⟩⟩

instance : Placed Definition where
  place m
    | .schema defn => .schema (place m defn)
    | .schemaExtension defn => .schemaExtension (place m defn)
    | .type defn => .type (place m defn)
    | .typeExtension defn => .typeExtension (place m defn)
    | .directive defn => .directive (place m defn)
    | .operation defn => .operation (place m defn)
    | .fragment defn => .fragment (place m defn)

instance : Placed Document := ⟨fun m d => ⟨place m d.definitions, place m d.span⟩⟩

instance : Placed Cursor := ⟨fun m c => ⟨c.source, place m c.current, place m c.ahead⟩⟩

instance : Placed Diagnostic := ⟨fun m d => d.relocate fun l => ⟨l.source, place m l.span⟩⟩

instance [Placed α] : Placed (Outcome α) := ⟨fun m o => ⟨place m o.value, place m o.cursor, place m o.diagnostics⟩⟩

end Trees

/-! ## Parsers -/

variable {m : Placement} {α β : Type} {cur : Cursor}

variable (m) in
/-- Tokens that stay in order up to the end of the text, with names that are kept. -/
structure Fits (tokens : List Token) : Prop where
  ordered : tokens.Pairwise fun a b => a.span.start < b.span.start
  ends : ∃ last, tokens.getLast? = some last ∧ last.kind = .eof
  starts : tokens.Pairwise fun a b => m.offset a.span.start < m.offset b.span.start
  spans : ∀ token ∈ tokens, token.span.start ≤ token.span.stop
  names : ∀ token ∈ tokens, token.kind.isName → m.text ⟨token.text, token.span⟩ = token.text
  blank : ∀ span, (m.clean → span = ⟨0, 0⟩) → m.text ⟨"", span⟩ = ""

namespace Fits

theorem wf (h : Fits m cur.tokens) : cur.Wf := ⟨h.ordered, h.ends⟩

theorem suffix {ts : List Token} (h : Fits m ts) (hs : cur.tokens <:+ ts) : Fits m cur.tokens := by
  refine ⟨h.ordered.sublist hs.sublist, ?_, h.starts.sublist hs.sublist, fun t ht => h.spans t (hs.subset ht),
    fun t ht => h.names t (hs.subset ht), h.blank⟩
  obtain ⟨last, hl, hk⟩ := h.ends
  obtain ⟨front, rfl⟩ := hs
  exact ⟨last, (getLast?_append_cons _ _ _).symm.trans hl, hk⟩

theorem after {p : Parser α} [h : Built p] (hc : Fits m cur.tokens) : Fits m (p cur).cursor.tokens :=
  hc.suffix (h.suffix hc.wf)

end Fits

variable [Placed α] [Placed β]

variable (m) in
def FollowsAt (cursor : Cursor) (p p' : Parser α) : Prop :=
  (m.clean → (p cursor).diagnostics = []) → p' (place m cursor) = place m (p cursor)

variable (m) in
/-- **A parser does at other places what another one does here.** -/
class Follows (p p' : Parser α) : Prop where
  built : Built p
  run : ∀ cursor : Cursor, Fits m cursor.tokens → FollowsAt m cursor p p'

variable {p p' q q' : Parser α} {f f' : α → Parser β}

theorem FollowsAt.bind (hp : FollowsAt m cur p p')
    (hf : FollowsAt m (p cur).cursor (f (p cur).value) (f' (place m (p cur).value))) :
    FollowsAt m cur (p >>= f) (p' >>= f') := by
  intro hd
  have hv := hp fun h => (append_eq_nil_iff.mp (hd h)).1
  have hr := hf fun h => (append_eq_nil_iff.mp (hd h)).2
  change Outcome.mk _ _ _ = Outcome.mk _ _ _
  rw [hv, show (place m (p cur)).value = place m (p cur).value from rfl,
    show (place m (p cur)).cursor = place m (p cur).cursor from rfl, hr]
  exact congrArg (Outcome.mk _ _) (map_append ..).symm

namespace Follows

set_option synthInstance.maxSize 1000

-- What is placed is told from the value and not searched for, so it is no index of the instances.
instance pure (a : α) : Follows m (pure a) (pure (no_index (place m a))) := ⟨.pure a, fun _ _ _ => rfl⟩

instance : Follows m (Pure.pure ([] : List α)) (Pure.pure []) := .pure []

instance (a : α) (rest : List α) : Follows m (Pure.pure (a :: rest)) (Pure.pure (place m a :: place m rest)) :=
  .pure (a :: rest)

theorem leaf {a b : α} (h : b = place m a) : Follows m (Pure.pure a) (Pure.pure b) := h ▸ .pure a

instance bind [hp : Follows m p p'] [hf : ∀ a, Follows m (f a) (f' (place m a))] :
    Follows m (p >>= f) (p' >>= f') := by
  have hb := hp.built
  exact ⟨.bind hb fun a => (hf a).built, fun c hc => (hp.run c hc).bind ((hf _).run _ hc.after)⟩

theorem next [Follows m p p'] (hf : ∀ a, Follows m (f a) (f' (place m a))) : Follows m (p >>= f) (p' >>= f') := bind

instance ite {c : Prop} [Decidable c] [hp : Follows m p p'] [hq : Follows m q q'] :
    Follows m (if c then p else q) (if c then p' else q') := by
  split_ifs
  · exact hp
  · exact hq

instance : Follows m current current := ⟨inferInstance, fun _ _ _ => rfl⟩

instance : Follows m kind kind := ⟨inferInstance, fun _ _ _ => rfl⟩

instance : Follows m position position := ⟨inferInstance, fun _ _ _ => congrArg (Outcome.mk · _ _) (m.start _)⟩

instance (kind : TokenKind) : Follows m (atKind kind) (atKind kind) := ⟨inferInstance, fun _ _ _ => rfl⟩

instance : Follows m atName atName := ⟨inferInstance, fun _ _ _ => rfl⟩

instance (start : Nat) : Follows m (spanFrom start) (spanFrom (no_index (place m start))) := by
  refine ⟨inferInstance, fun c _ _ => congrArg (Outcome.mk · _ _) ?_⟩
  change .mk (m.offset start) (max (m.span c.current.span).start (m.offset start)) = m.span ⟨_, max _ start⟩
  rw [m.start, m.reach]

instance (span : Span) (title msg : String) :
    Follows m (errorAt span title msg) (errorAt (no_index (place m span)) title msg) :=
  ⟨inferInstance, fun _ _ _ => rfl⟩

instance (msg : String) : Follows m (errorHere msg) (errorHere msg) := ⟨inferInstance, fun _ _ _ => rfl⟩

instance (kind : TokenKind) : Follows m (errorExpected kind) (errorExpected kind) :=
  ⟨inferInstance, fun _ _ _ => rfl⟩

theorem skip_place (source : Nat) (last : Token) (ts : List Token) :
    skip source (place m last) (place m ts) = place m (skip source last ts) := by
  induction ts with
  | nil => rfl
  | cons t rest ih =>
    change skip source (place m last) (place m t :: place m rest) = _
    rw [skip, skip, ih, apply_ite (place m)]
    rfl

instance : Follows m advance advance :=
  ⟨inferInstance, fun _ _ _ => congrArg (fun r : Cursor × Diagnostics => Outcome.mk () r.1 r.2) (skip_place _ _ _)⟩

instance (kind : TokenKind) : Follows m (eat kind) (eat kind) := by unfold eat; infer_instance

instance (kind : TokenKind) : Follows m (expect kind) (expect kind) := by unfold expect; infer_instance

/-! ## Repetition -/

/-- Whether a token stands where the cursor does shows at both places. -/
theorem start_beq (hc : Fits m cur.tokens) {t : Token} (ht : t ∈ cur.tokens) :
    ((m.span t.span).start == m.offset cur.start) = (t.span.start == cur.start) := by
  rw [m.start]
  rcases mem_cons.mp ht with rfl | ha
  · simp [start]
  · have h := (pairwise_cons.mp hc.wf.ordered).1 t ha
    have h' := (pairwise_cons.mp hc.starts).1 t ha
    exact (beq_false_of_ne (ne_of_gt h')).trans (beq_false_of_ne (ne_of_gt h)).symm

instance [hp : Follows m p p'] : Follows m (.round p) (.round p') := by
  have hb := hp.built
  have hk : Follows m position position := inferInstance
  refine ⟨inferInstance, fun c hc => ?_⟩
  refine .bind (hk.run c hc) (.bind (hp.run c hc) (.bind (.bind (fun _ => rfl) ?_) fun _ => rfl))
  have hi (b : Bool) : Follows m (if b then advance else Pure.pure ()) (if b then advance else Pure.pure ()) :=
    inferInstance
  change FollowsAt m (p c).cursor _
    (if ((m.span (p c).cursor.current.span).start == m.offset c.start && _) then _ else _)
  rw [start_beq hc ((hb.suffix hc.wf).subset mem_cons_self)]
  exact (hi _).run _ hc.after

variable {goes : TokenKind → Bool}

instance [Follows m p p'] {r r' : Parser (List α)} [Follows m r r'] :
    Follows m (loopOf goes p r) (loopOf goes p' r') := by unfold loopOf; infer_instance

instance [Follows m p p'] (rounds : Nat) : Follows m (loopWithin goes p rounds) (loopWithin goes p' rounds) := by
  induction rounds with
  | zero | succ rounds ih => unfold loopWithin; infer_instance

theorem counted {p p' : Nat → Parser α} (h : ∀ n, Follows m (p n) (p' n)) :
    Follows m (fun c => p c.ahead.length c) fun c => p' c.ahead.length c := by
  refine ⟨.counted fun n => (h n).built, fun c hc hd => ?_⟩
  change p' (c.ahead.map _).length _ = _
  rw [length_map]
  exact (h c.ahead.length).run c hc hd

instance [Follows m p p'] : Follows m (loop goes p) (loop goes p') := .counted fun _ => inferInstance

instance [Follows m p p'] (stop : TokenKind) : Follows m (repeatUntil stop p) (repeatUntil stop p') := by
  unfold repeatUntil; infer_instance

instance [Follows m p p'] (start : TokenKind) : Follows m (whileAt start p) (whileAt start p') := by
  unfold whileAt; infer_instance

instance [Follows m p p'] (sep : TokenKind) : Follows m (separatedBy sep p) (separatedBy sep p') := by
  unfold separatedBy; infer_instance

instance (stop : TokenKind → Bool) : Follows m (skipTo stop) (skipTo stop) := by unfold skipTo; infer_instance

/-! ## Literals -/

@[simp] theorem place_kind (t : Token) : (place m t).kind = t.kind := rfl

@[simp] theorem place_text (t : Token) : (place m t).text = t.text := rfl

@[simp] theorem place_span (t : Token) : (place m t).span = place m t.span := rfl

@[simp] theorem place_start (span : Span) : (place m span).start = place m span.start := m.start span

@[simp] theorem place_tokenKind (kind : TokenKind) : place m kind = kind := rfl

@[simp] theorem place_none : place m (none : Option α) = none := rfl

@[simp] theorem place_some (a : α) : place m (some a) = some (place m a) := rfl

instance : Follows m name name := by
  refine ⟨.bind inferInstance fun _ => inferInstance, fun c hc => .bind (fun _ => rfl) ?_⟩
  change FollowsAt m c (if c.current.kind.isName then _ else _) (if c.current.kind.isName then _ else _)
  split_ifs with hk
  · have ht := hc.names c.current mem_cons_self hk
    have ha : Follows m advance advance := inferInstance
    exact .bind (ha.run c hc) fun _ => congrArg (fun text => Outcome.mk (Name.mk text _) _ _) ht.symm
  · intro hd
    have hb := hc.blank c.current.span fun hm => absurd (hd hm) (cons_ne_nil _ _)
    exact congrArg (fun text => Outcome.mk (Name.mk text _) _ _) hb.symm

instance : Follows m stringText stringText := by
  refine .next fun t => ?_
  simp only [place_text]
  cases Text.stringValue t.text <;> infer_instance

instance : Follows m description? description? := by
  refine .next fun t => ?_
  simp only [place_kind]
  cases t.kind <;> (dsimp only; infer_instance)

instance (d : Option Description) : Follows m (startOf d) (startOf (no_index (place m d))) := by
  cases d with
  | none => exact inferInstanceAs (Follows m position position)
  | some d => exact leaf (m.start d.span)

instance : Follows m int int := by
  refine .next fun t => ?_
  simp only [place_text, place_span]
  cases intValue? t.text <;> (dsimp only; infer_instance)

instance (const : Bool) : Follows m (variableUse const) (variableUse const) := by unfold variableUse; infer_instance

section Value

instance (items : List Value) (span : Span) :
    Follows m (Pure.pure (Value.list items span)) (Pure.pure (.list (place m items) (place m span))) :=
  leaf (congrArg (Value.list · _) (Value.placedItems_eq m items).symm)

instance (fields : List (Name × Value)) (span : Span) :
    Follows m (Pure.pure (Value.object fields span)) (Pure.pure (.object (place m fields) (place m span))) :=
  leaf (congrArg (Value.object · _) (Value.placedFields_eq m fields).symm)

variable {v v' : Parser Value} [Follows m v v']

instance : Follows m (objectField v) (objectField v') := by unfold objectField; infer_instance

instance (const : Bool) : Follows m (valueOf const v) (valueOf const v') := by
  refine .next fun t => ?_
  simp only [place_kind, place_text, place_span, place_start]
  cases t.kind with
  | mark sign => cases sign <;> (dsimp only; infer_instance)
  | keyword word => cases word <;> (dsimp only; infer_instance)
  | _ => dsimp only; infer_instance

end Value

instance (const : Bool) (levels : Nat) : Follows m (valueWithin const levels) (valueWithin const levels) := by
  induction levels with
  | zero => exact leaf (congrArg Value.null m.empty.symm)
  | succ levels ih => unfold valueWithin; infer_instance

instance (const : Bool) : Follows m (value const) (value const) := by
  have h (n : Nat) : Follows m (valueWithin const (n + 1)) (valueWithin const (n + 1)) := inferInstance
  exact counted h

instance : Follows m defaultValue? defaultValue? := by unfold defaultValue?; infer_instance

instance {t t' : Parser TypeExpr} [Follows m t t'] : Follows m (typeOf t) (typeOf t') := by
  unfold typeOf; dsimp only; infer_instance

instance (levels : Nat) : Follows m (typeWithin levels) (typeWithin levels) := by
  induction levels with
  | zero =>
    refine ⟨.pure _, fun _ hc _ => ?_⟩
    have hn : Name.mk "" ⟨0, 0⟩ = place m (Name.mk "" ⟨0, 0⟩) := by simp [place, m.empty, hc.blank]
    exact congrArg (fun name => Outcome.mk (TypeExpr.named name) _ _) hn
  | succ levels ih => unfold typeWithin; infer_instance

instance : Follows m typeExpr typeExpr := by
  have h (n : Nat) : Follows m (typeWithin (n + 1)) (typeWithin (n + 1)) := inferInstance
  exact counted h

instance (const : Bool) : Follows m (argument const) (argument const) := by unfold argument; infer_instance

instance (const : Bool) : Follows m (arguments const) (arguments const) := by unfold arguments; infer_instance

instance (const : Bool) : Follows m (directive const) (directive const) := by unfold directive; infer_instance

instance (const : Bool) : Follows m (directives const) (directives const) := by unfold directives; infer_instance

/-! ## Definitions -/

instance : Follows m inputValueDefinition inputValueDefinition := by unfold inputValueDefinition; infer_instance

instance : Follows m argumentDefinitions argumentDefinitions := by unfold argumentDefinitions; infer_instance

instance : Follows m fieldDefinition fieldDefinition := by unfold fieldDefinition; infer_instance

instance : Follows m enumValueDefinition enumValueDefinition := by
  unfold enumValueDefinition; dsimp only; infer_instance

instance [Follows m p p'] : Follows m (bodyOf p) (bodyOf p') := by unfold bodyOf; infer_instance

instance : Follows m implements implements := by unfold implements; infer_instance

instance : Follows m unionMembers unionMembers := by unfold unionMembers; infer_instance

instance (keyword : Keyword) : Follows m (typeBody keyword) (typeBody keyword) := by
  unfold typeBody
  split <;> infer_instance

instance (d : Option Description) (start : Nat) :
    Follows m (typeDefinition? d start) (typeDefinition? (no_index (place m d)) (no_index (place m start))) := by
  refine .next fun kind => ?_
  rw [place_tokenKind]
  cases typeKeyword? kind <;> (dsimp only; infer_instance)

instance : Follows m operationKind? operationKind? := by
  refine .next fun kind => ?_
  cases kind with
  | keyword word => cases word <;> (dsimp only [place_tokenKind]; infer_instance)
  | _ => dsimp only [place_tokenKind]; infer_instance

instance : Follows m rootDefinition? rootDefinition? := by
  refine .next fun _ => .next fun op => ?_
  cases op <;> (simp only [place_none, place_some]; infer_instance)

theorem place_filterMap (items : List (Option α)) : (place m items).filterMap id = place m (items.filterMap id) := by
  induction items with
  | nil => rfl
  | cons a _ ih => cases a <;> simp_all [place]

instance (items : List (Option α)) :
    Follows m (Pure.pure (items.filterMap id)) (Pure.pure ((no_index (place m items)).filterMap id)) :=
  leaf (place_filterMap items)

instance (d : Option Description) (start : Nat) (ext : Bool) : Follows m (schemaDefinition d start ext)
    (schemaDefinition (no_index (place m d)) (no_index (place m start)) ext) := by
  unfold schemaDefinition; dsimp only; infer_instance

instance : Follows m directiveLocation? directiveLocation? := by
  refine .next fun t => ?_
  simp only [place_kind, place_text, place_span]
  cases if t.kind.isName then DirectiveLocation.ofText? t.text else none <;> (dsimp only; infer_instance)

instance (d : Option Description) : Follows m (directiveDefinition d) (directiveDefinition (no_index (place m d))) := by
  refine .next fun _ => .next fun _ => .next fun _ => .next fun _ => .next fun _ => .next fun _ => .next fun _ =>
    .next fun _ => .next fun _ => leaf ?_
  rw [place_filterMap]
  rfl

/-! ## Selections -/

instance (he : FieldHead) (braces : Option Span) (sels : List Selection) :
    Follows m (Pure.pure (Selection.field he braces sels))
      (Pure.pure (.field (no_index (place m he)) (no_index (place m braces)) (no_index (place m sels)))) :=
  leaf (congrArg (Selection.field _ _) (placedAll_eq m sels).symm)

instance (cond : Option Name) (ds : List Directive) (braces : Span) (sels : List Selection) (span : Span) :
    Follows m (Pure.pure (Selection.inline cond ds braces sels span)) (Pure.pure (.inline (no_index (place m cond))
      (no_index (place m ds)) (no_index (place m braces)) (no_index (place m sels)) (no_index (place m span)))) :=
  leaf (congrArg (Selection.inline _ _ _ · _) (placedAll_eq m sels).symm)

section Selections

variable {s s' : Parser SelectionSet} [Follows m s s']

instance : Follows m (fieldSelection s) (fieldSelection s') := by
  have hn : Follows m (Pure.pure ((none, []) : Option Span × List Selection)) (Pure.pure (none, [])) := .pure (none, [])
  unfold fieldSelection
  dsimp only
  infer_instance

instance (start : Nat) (cond : Option Name) : Follows m (inlineFragment s start cond)
    (inlineFragment s' (no_index (place m start)) (no_index (place m cond))) := by
  unfold inlineFragment; infer_instance

instance : Follows m (selection s) (selection s') := by unfold selection; infer_instance

instance : Follows m (selectionSetOf s) (selectionSetOf s') := by
  refine .next fun _ => .next fun _ => .next fun items => ?_
  simp only [show (place m items).isEmpty = items.isEmpty by simp [place]]
  infer_instance

end Selections

instance (levels : Nat) : Follows m (selectionSetWithin levels) (selectionSetWithin levels) := by
  induction levels with
  | zero => exact leaf (congrArg (SelectionSet.mk []) m.empty.symm)
  | succ levels ih => unfold selectionSetWithin; infer_instance

instance : Follows m selectionSet selectionSet := by
  have h (n : Nat) : Follows m (selectionSetWithin (n + 1)) (selectionSetWithin (n + 1)) := inferInstance
  exact counted h

/-! ## Documents -/

instance : Follows m variableDefinition variableDefinition := by unfold variableDefinition; infer_instance

instance : Follows m variableDefinitions variableDefinitions := by unfold variableDefinitions; infer_instance

instance : Follows m operationName? operationName? := by unfold operationName?; infer_instance

instance : Follows m operation operation := by
  refine .next fun _ => @bind _ _ _ _ _ _ _ _ _ (.next fun kind => ?_) fun _ => ?_
  · cases kind <;> (simp only [place_none, place_some]; infer_instance)
  · infer_instance

instance : Follows m fragment fragment := by unfold fragment; dsimp only; infer_instance

instance : Follows m recover recover := by unfold recover; infer_instance

instance (d : Option Description) : Follows m (rejectDescription d) (rejectDescription (no_index (place m d))) := by
  cases d <;> (unfold rejectDescription; simp only [place_none, place_some]; infer_instance)

instance (t : Option TypeDefinition) :
    Follows m (Pure.pure (t.map Definition.type)) (Pure.pure ((place m t).map .type)) := leaf (by cases t <;> rfl)

instance (t : Option TypeDefinition) :
    Follows m (Pure.pure (t.map Definition.typeExtension)) (Pure.pure ((place m t).map .typeExtension)) :=
  leaf (by cases t <;> rfl)

instance (d : Option Description) : Follows m (extension? d) (extension? (no_index (place m d))) := by
  refine .next fun start => .next fun _ => ?_
  cases d <;> (simp only [place_none, place_some]; infer_instance)

instance : Follows m definition? definition? := by
  refine .next fun d => .next fun kind => ?_
  rw [place_tokenKind]
  cases kind with
  | keyword word => cases word <;> (dsimp only; infer_instance)
  | mark sign => cases sign <;> (dsimp only; infer_instance)
  | _ => dsimp only; infer_instance

instance : Follows m definitionOrRecover definitionOrRecover := by
  refine .next fun d => ?_
  rw [show (place m d).isNone = d.isNone by cases d <;> rfl]
  infer_instance

instance : Follows m document document := by
  have hr : Follows m (repeatUntil .eof definitionOrRecover) (repeatUntil .eof definitionOrRecover) := inferInstance
  have hk : Follows m position position := inferInstance
  have hb := hr.built
  refine ⟨.bind inferInstance fun _ => inferInstance, fun c hc => ?_⟩
  refine .bind (hk.run c hc) (.bind (hr.run c hc) (.bind (fun _ => rfl) fun _ => ?_))
  have hs := m.whole _ _ (hb.forward hc.wf).2 (hc.after.spans _ mem_cons_self)
  exact congrArg₂ (fun defns span => Outcome.mk (Document.mk defns span) _ _) (place_filterMap _) hs.symm

end Follows

/-! ## Every parser -/

/-- Nothing moves. -/
def Placement.here : Placement :=
  ⟨id, id, Name.text, False, fun _ => rfl, fun _ _ => rfl, fun _ _ _ _ => rfl, rfl⟩

namespace Built

set_option synthInstance.maxSize 1000

theorem follows (p' : Parser α) [h : Follows .here p p'] : Built p := h.built

/-- **Every parser is put together from steps.** -/
instance [Follows .here p p] : Built p := follows p

section Described

variable (d : Option Description) (start : Nat)

instance : Built (startOf d) := follows (startOf (place .here d))

instance : Built (typeDefinition? d start) := follows (typeDefinition? (place .here d) (place .here start))

instance (ext : Bool) : Built (schemaDefinition d start ext) :=
  follows (schemaDefinition (place .here d) (place .here start) ext)

instance : Built (directiveDefinition d) := follows (directiveDefinition (place .here d))

instance : Built (rejectDescription d) := follows (rejectDescription (place .here d))

instance : Built (extension? d) := follows (extension? (place .here d))

end Described

instance (v : Parser Value) [Built v] : Built (objectField v) := by unfold objectField; infer_instance

instance (item : Parser α) [Built item] : Built (bodyOf item) := by unfold bodyOf; infer_instance

variable (inner : Parser SelectionSet) [Built inner]

instance : Built (fieldSelection inner) := by unfold fieldSelection; dsimp only; infer_instance

instance (start : Nat) (cond : Option Name) : Built (inlineFragment inner start cond) := by
  unfold inlineFragment; infer_instance

instance : Built (selection inner) := by unfold selection; infer_instance

instance : Built (selectionSetOf inner) := by unfold selectionSetOf; dsimp only; infer_instance

end Built

/-! ## Texts -/

variable (source : Nat)

theorem parse_fatal (text : String) : (parse source text).2.Fatal :=
  (skip_fatal _ _ _).append (Built.fatal inferInstance _)

theorem parse_inSource (other : Nat) (text : String) :
    parse other text = ((parse source text).1, (parse source text).2.inSource other) := by
  have ho : Built document := inferInstance
  have hc : ofTokens other (tokenize text) = _ := skip_inSource source other _ _
  simp only [parse, hc, ho.inSource]
  exact congrArg (Prod.mk _) (map_append ..).symm

def readTokens (tokens : List Token) : Document × Diagnostics :=
  let (cursor, skipped) := ofTokens source tokens
  let outcome := document cursor
  (outcome.value, skipped ++ outcome.diagnostics)

/-- **What is read from tokens at other places.** -/
theorem readTokens_place {ts : List Token} (h : Fits m ts) (hd : m.clean → (readTokens source ts).2 = []) :
    readTokens source (place m ts) = place m (readTokens source ts) := by
  have hl : place m (Token.mk .eof (.empty 0) "") = ⟨.eof, .empty 0, ""⟩ := congrArg (Token.mk _ · _) m.empty
  have hs : ofTokens source (place m ts) = place m (ofTokens source ts) := by
    rw [Cursor.ofTokens, ← hl, Follows.skip_place]
    rfl
  obtain ⟨last, ha, hk⟩ := h.ends
  obtain ⟨front, hf, -⟩ := skip_eq source ⟨.eof, .empty 0, ""⟩ ⟨last, mem_of_getLast? ha, by simp [hk]⟩
  have ho : Follows m document document := inferInstance
  have hr := ho.run (ofTokens source ts).1 (h.suffix ⟨front, hf.symm⟩) fun hm =>
    (append_eq_nil_iff.mp (hd hm)).2
  simp only [readTokens, hs]
  change ((document (place m _)).value, place m _ ++ (document (place m _)).diagnostics) = _
  rw [hr]
  exact congrArg (Prod.mk _) (map_append ..).symm

end GraphClient.Syntax
