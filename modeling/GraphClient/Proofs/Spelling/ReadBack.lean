import GraphClient.Proofs.Spelling.Directives

/-!
# Values and types are read back

The printed text of a value or of a type is read as what it was printed for, and what is read of a type is printed
as its tokens.
-/

namespace GraphClient

open List TypeRef String Nat

namespace Syntax

variable {α : Type} {cur last : Cursor} {node : TypeExpr}

/-- A parser at the front of a text. -/
def Parser.onText (p : Parser α) (source : Nat) (text : String) : Outcome α :=
  let (cursor, skipped) := Cursor.ofTokens source (tokenize text)
  let outcome := p cursor
  { outcome with diagnostics := skipped ++ outcome.diagnostics }

/-- The cursor behind a text. -/
def Cursor.atEnd (source : Nat) (text : String) : Cursor := ⟨source, ⟨.eof, .empty text.utf8ByteSize, ""⟩, []⟩

theorem Rule.Reads.onText {p : Parser α} {r : Rule α} {words : List Word} {P : α → Prop} {text : String}
    (hrea : r.Reads words P) (hl : Lexes Closed text words)
    (hp : ∀ n, Recognizes n AnyToken p r fun t => t.kind = .eof) (src : Nat) : (∀ t ∈ tokenize text, t.kind ≠ .error) ∧
      ∃ a, p.onText src text = ⟨a, .atEnd src text, []⟩ ∧ P a := by
  obtain ⟨front, he, -⟩ := (tiles_tokenize text).ends
  rw [nil_append, Text.byteSize_eq, ofList_toList] at he
  obtain ⟨ts, eof, ht, hw, heo⟩ := hl.tokenize
  obtain ⟨rfl, hla⟩ := append_inj' (ht.symm.trans he) rfl
  obtain rfl := singleton_inj.mp hla
  obtain ⟨a, hr, hP, hre⟩ := hrea ts _ hw
  have ha : ∀ t ∈ tokenize text, t.kind ≠ .error := by
    rw [he, forall_mem_append, forall_mem_singleton]
    exact ⟨hre, nofun⟩
  refine ⟨ha, a, ?_, hP⟩
  obtain ⟨first, rest, hc⟩ : ∃ first rest, tokenize text = first :: rest :=
    exists_cons_of_ne_nil (by rw [he]; exact append_ne_nil_of_right_ne_nil _ (cons_ne_nil _ _))
  have hu : Cursor.ofTokens src (tokenize text) = (⟨src, first, rest⟩, []) := by
    rw [Cursor.ofTokens, hc, Cursor.skip, if_neg (ha first (hc ▸ mem_cons_self))]
  have hru : p ⟨src, first, rest⟩ = ⟨a, .atEnd src text, []⟩ :=
    (hp (rest.length + 1)).complete (.of_tokenize hc.symm ha) (lt_succ_self _) trivial
      ⟨rfl, hc.symm.trans he⟩ hr rfl
  rw [Parser.onText, hu]
  dsimp only
  rw [hru]
  rfl

end Syntax

/-- **The printed text of a value without floats is read as the value**, and every string literal as its text. -/
theorem value_readsBack (source : Nat) (value : Value) (h : value.isWellFormed false)
    (hfloat : value.hasFloat = false) :
    (∀ token ∈ tokenize value.text, token.kind ≠ .error) ∧
      (∃ node, (Syntax.Parser.value false).onText source value.text = ⟨node, .atEnd source value.text, []⟩ ∧
        Value.ofSyntax node = value) ∧ ∀ text, Text.stringValue (Text.quote text) = .ok text := by
  have hnone : value.floats = [] := Value.floats_eq_nil_iff.mpr hfloat
  have hreads := Syntax.Grammar.reads_value value h (hnone ▸ not_mem_nil)
  obtain ⟨hreadable, node, hrun, hnode⟩ := hreads.onText (value.spells_text h).lexes
    (fun _ => Syntax.Parser.recognizes_value false) source
  exact ⟨hreadable, ⟨node, hrun, hnode.trans (value.reread_eq_self hnone)⟩, Text.stringValue_quote⟩

def nestedValue : Value :=
  .object [("filter", .list [.variable "x", .string "a\"\\\n\x07", .int (-9223372036854775808), .null]),
    ("on", .enum "type")]

/-- Names that are keywords, escapes and the least integer are read back. -/
theorem value_readsBack_nested : (nestedValue.isWellFormed false ∧ nestedValue.hasFloat = false) ∧
    ∃ node, (Syntax.Parser.value false).onText 0 nestedValue.text = ⟨node, .atEnd 0 nestedValue.text, []⟩ ∧
      .ofSyntax node = nestedValue := by
  have hvalue : nestedValue.isWellFormed false ∧ nestedValue.hasFloat = false := by decide +kernel
  exact ⟨hvalue, (value_readsBack 0 nestedValue hvalue.1 hvalue.2).2.1⟩

example : nestedValue.text =
    "\x7bfilter: [$x, \"a\\\"\\\\\\n\\u0007\", -9223372036854775808, null], on: type\x7d" := by decide +kernel

namespace TypeRef

@[simp] theorem text_list (type : TypeRef) : type.list.text = "[" ++ type.text ++ "]" := by
  simp [text, list, wrapped, mark, String.append_assoc]

theorem text_nonNull {type : TypeRef} (h : type.isNonNull = false) : type.nonNull.text = type.text ++ "!" := by
  simp [text, nonNull, mark, h]

/-- The brackets are opened at once and closed from the inside out. -/
theorem text_eq (type : TypeRef) : type.text = join (replicate type.depth "[") ++ type.name ++
      join (type.elements.reverse.map fun isNonNull => mark isNonNull ++ "]") ++ mark type.isNonNull := by
  obtain ⟨name, isNonNull, elems⟩ := type
  have hw : ∀ elems : List Bool, wrapped name elems = join (replicate elems.length "[") ++ name ++
        join (elems.reverse.map fun isNonNull => mark isNonNull ++ "]") := by
    intro elems
    induction elems with
    | nil => simp [wrapped]
    | cons first rest ih => simp [wrapped, ih, replicate_succ, String.append_assoc]
  rw [text, hw]
  rfl

end TypeRef

namespace Syntax

/-- **The tokens between two cursors have the given text**, one behind the other. -/
def Cursor.Writes (cursor last : Cursor) (text : String) : Prop :=
  ∃ tokens, cursor.Passes tokens last ∧ String.join (tokens.map Token.text) = text

section Writing

variable {cur middle last : Cursor} {text written more : String}

theorem Cursor.Writes.trans (h : cur.Writes middle written) (h' : middle.Writes last more) :
    cur.Writes last (written ++ more) := by
  obtain ⟨front, hf, rfl⟩ := h
  obtain ⟨back, hb, rfl⟩ := h'
  exact ⟨front ++ back, hf.trans hb, by rw [map_append, join_append]⟩

theorem Cursor.Writes.suffix (h : cur.Writes last written) : last.tokens <:+ cur.tokens := by
  obtain ⟨toks, hp, -⟩ := h
  exact ⟨toks, hp.tokens.symm⟩

theorem Cursor.Writes.length_lt (h : cur.Writes last written) (hn : written ≠ "") :
    last.ahead.length < cur.ahead.length := by
  obtain ⟨ts, hp, rfl⟩ := h
  have hpo : 0 < ts.length := length_pos_iff.mpr (by rintro rfl; exact hn rfl)
  have hl := hp.length
  omega

theorem Cursor.Writes.refl (cur : Cursor) : cur.Writes cur "" := ⟨[], .refl _, rfl⟩

namespace Parser

theorem advance_writes (hc : cur.tokens <:+ tokenize text) (hk : cur.current.kind ≠ .eof)
    (h : advance cur = ⟨(), last, []⟩) : cur.Writes last cur.current.text := by
  obtain ⟨src, current, ahead⟩ := cur
  cases ahead with
  | nil => exact absurd ((wf_of_suffix hc).kind_of_end rfl) hk
  | cons t ahead =>
    simp only [advance, Cursor.skip] at h
    split_ifs at h with he
    · cases congrArg Outcome.diagnostics h
    · obtain ⟨-, rfl, -⟩ := Outcome.mk.inj h
      exact ⟨[current], ⟨rfl, rfl⟩, by simp⟩

variable {sign : Mark} {node : TypeExpr}

theorem expect_writes (hc : cur.tokens <:+ tokenize text)
    (h : expect (.mark sign) cur = ⟨(), last, []⟩) : cur.Writes last sign.text := by
  rw [expect_run] at h
  split_ifs at h with hk
  · rw [← text_of_mark (hc.subset mem_cons_self) hk]
    exact advance_writes hc (by rw [hk]; nofun) h
  · cases congrArg Outcome.diagnostics h

theorem eat_writes {taken : Bool} (hc : cur.tokens <:+ tokenize text)
    (h : eat (.mark sign) cur = ⟨taken, last, []⟩) : cur.Writes last (if taken then sign.text else "") := by
  rw [eat_run] at h
  split_ifs at h with hk
  · obtain ⟨rfl, rfl, hd⟩ := Outcome.mk.inj h
    rw [if_pos rfl, ← text_of_mark (hc.subset mem_cons_self) hk]
    exact advance_writes hc (by rw [hk]; nofun) (by rw [← hd])
  · obtain ⟨rfl, rfl, -⟩ := Outcome.mk.inj h
    exact .refl _

theorem name_writes {node : Name} (hc : cur.tokens <:+ tokenize text) (h : name cur = ⟨node, last, []⟩) :
    cur.Writes last node.text := by
  rw [name, bind_run rfl] at h
  split_ifs at h with hn
  · obtain ⟨_, middle, ha, hp⟩ := bind_clean h
    obtain ⟨rfl, rfl, -⟩ := Outcome.mk.inj hp
    exact advance_writes hc (Grammar.ne_of_isName rfl hn) ha
  · cases congrArg Outcome.diagnostics h

theorem bang_writes {start : Nat} (type : TypeExpr) (hw : cur.Writes middle (ofSyntax type).text)
    (hc : cur.tokens <:+ tokenize text) (ht : (ofSyntax type).isNonNull = false)
    (h : (eat (.mark .bang) >>= fun taken => if taken then spanFrom start >>= fun span => pure (.nonNull type span)
      else pure type) middle = ⟨node, last, []⟩) : cur.Writes last (ofSyntax node).text := by
  obtain ⟨taken, behind, he, hr⟩ := bind_clean h
  have hm := hw.trans (eat_writes (hw.suffix.trans hc) he)
  cases taken with
  | true =>
    obtain ⟨rfl, rfl, -⟩ := Outcome.mk.inj hr
    change cur.Writes behind (ofSyntax type).nonNull.text
    rw [text_nonNull ht]
    exact hm
  | false =>
    obtain ⟨rfl, rfl, -⟩ := Outcome.mk.inj hr
    simpa using hm

theorem typeWithin_writes (levels : Nat) (hc : cur.tokens <:+ tokenize text)
    (hl : cur.ahead.length < levels) (h : typeWithin levels cur = ⟨node, last, []⟩) :
    cur.Writes last (ofSyntax node).text := by
  induction levels generalizing cur last node with
  | zero => exact absurd hl (not_lt_zero _)
  | succ levels ih =>
    rw [typeWithin, typeOf, bind_run rfl] at h
    obtain ⟨opens, behind, hea, hr⟩ := bind_clean h
    have ho := eat_writes hc hea
    have hb := ho.suffix.trans hc
    cases opens with
    | true =>
      obtain ⟨inner, close, hi, hcl⟩ := bind_clean hr
      obtain ⟨_, middle, he, ha⟩ := bind_clean hcl
      have hle := ho.length_lt (by decide)
      have hw := ih hb (lt_of_lt_of_le hle (le_of_lt_succ hl)) hi
      have hbr := expect_writes (hw.suffix.trans hb) he
      refine bang_writes (.list inner _) ?_ hc rfl ha
      rw [ofSyntax, text_list]
      exact (ho.trans hw).trans hbr
    | false =>
      obtain ⟨name, middle, hna, ha⟩ := bind_clean hr
      have hn : cur.Writes middle (ofSyntax (.named name)).text := by
        simpa [ofSyntax, TypeRef.text, named, wrapped, mark] using
          ho.trans (name_writes hb hna)
      exact bang_writes (.named name) hn hc rfl ha

end Parser

end Writing

namespace TypeExpr

/-- The lists of a type, one inside the other. -/
def listDepth : TypeExpr → Nat
  | .named _ => 0
  | .list inner _ => inner.listDepth + 1
  | .nonNull inner _ => inner.listDepth

def isNonNull : TypeExpr → Bool
  | .nonNull .. => true
  | _ => false

theorem depth_ofSyntax (node : TypeExpr) : (ofSyntax node).depth = node.listDepth ∧
    (ofSyntax node).isNonNull = node.isNonNull := by
  induction node with
  | named => exact ⟨rfl, rfl⟩
  | list inner _ ih => exact ⟨congrArg (· + 1) ih.1, rfl⟩
  | nonNull inner _ ih => exact ⟨ih.1, rfl⟩

end TypeExpr

end Syntax

/-- **References to types are read back.** A printed reference is read to its end and as the same reference, and a
type that is read without a report, anywhere in a text, is printed as its tokens. A list has what it is a list of as
its element, and depth and nullability are those of the written type. -/
theorem type_readsBack (source : Nat) : (∀ type : TypeRef, Text.isName type.name →
      ∃ node, Syntax.Parser.typeExpr.onText source type.text = ⟨node, .atEnd source type.text, []⟩ ∧
        ofSyntax node = type) ∧
    (∀ (text : String) (cursor last : Syntax.Cursor) (node : Syntax.TypeExpr), cursor.tokens <:+ tokenize text →
      Syntax.Parser.typeExpr cursor = ⟨node, last, []⟩ →
      ∃ tokens, cursor.Passes tokens last ∧ (TypeRef.ofSyntax node).text = String.join (tokens.map Token.text)) ∧
    (∀ type : TypeRef, type.list.element = some type ∧ type.text =
      join (replicate type.depth "[") ++ type.name ++
        join (type.elements.reverse.map fun isNonNull => mark isNonNull ++ "]") ++
        mark type.isNonNull) ∧
    ∀ node, (ofSyntax node).depth = node.listDepth ∧ (ofSyntax node).isNonNull = node.isNonNull := by
  refine ⟨fun type hname => ?_, fun text cursor last node hc h => ?_, fun type => ⟨rfl, type.text_eq⟩,
    Syntax.TypeExpr.depth_ofSyntax⟩
  · exact ((Syntax.Grammar.reads_typeExpr type).onText (TypeRef.spells_text hname).lexes
      (fun _ => Syntax.Parser.recognizes_typeExpr fun _ h => by rw [h]; nofun) source).2
  · obtain ⟨tokens, hpasses, htokens⟩ := Syntax.Parser.typeWithin_writes _ hc (lt_succ_self _) h
    exact ⟨tokens, hpasses, htokens.symm⟩

theorem type_readsBack_nested : Text.isName "Int" ∧
    ∃ node, Syntax.Parser.typeExpr.onText 0 "[[[Int!]]!]" = ⟨node, .atEnd 0 "[[[Int!]]!]", []⟩ ∧
      TypeRef.ofSyntax node = ⟨"Int", false, [true, false, true]⟩ :=
  ⟨by decide, (type_readsBack 0).1 ⟨"Int", false, [true, false, true]⟩ (by decide)⟩

end GraphClient
