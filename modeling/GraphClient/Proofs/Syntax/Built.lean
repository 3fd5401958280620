import Mathlib.Data.List.Basic
import GraphClient.Proofs.Diagnostic
import GraphClient.Proofs.Relocate
import GraphClient.Syntax.Document

/-!
# Parsers as sequences of steps

Every parser looks at the current token, moves on or reports, and does nothing else. What holds of these
steps holds of all parsers.
-/

namespace GraphClient.Syntax

open List Cursor Syntax.Parser

/-- Parsers that are put together from steps. -/
class inductive Built : {α : Type} → Parser α → Prop
  | pure {α : Type} (a : α) : Built (pure a : Parser α)
  | bind {α β : Type} {p : Parser α} {f : α → Parser β} (hp : Built p) (hf : ∀ a, Built (f a)) :
    Built (p >>= f)
  | look {α : Type} (f : Token → α) : Built (fun cursor => ⟨f cursor.current, cursor, []⟩ : Parser α)
  | advance : Built advance
  | report (code : Token → Code) (title : String) (span : Token → Span) (message : Token → String) :
    Built (fun cursor => ⟨(), cursor, [.error (code cursor.current) title
      ⟨cursor.source, span cursor.current⟩ (message cursor.current)]⟩ : Parser Unit)
  /-- The number of tokens ahead bounds the rounds of a loop. -/
  | counted {α : Type} {p : Nat → Parser α} (hp : ∀ n, Built (p n)) :
    Built (fun cursor => p cursor.ahead.length cursor : Parser α)

namespace Built

set_option synthInstance.maxSize 1000

attribute [instance] Built.pure Built.advance

variable {α β : Type}

instance instBind {p : Parser α} {f : α → Parser β} [hp : Built p] [hf : ∀ a, Built (f a)] :
    Built (p >>= f) := .bind hp hf

instance instIte {c : Prop} [Decidable c] {p q : Parser α} [hp : Built p] [hq : Built q] :
    Built (if c then p else q) := by
  split_ifs
  · exact hp
  · exact hq

instance : Built current := .look id

instance : Built kind := .look Token.kind

instance : Built position := .look fun t => t.span.start

instance (kind : TokenKind) : Built (atKind kind) := .look fun t => t.kind == kind

instance : Built atName := .look fun t => t.kind.isName

instance (start : Nat) : Built (spanFrom start) := .look fun t => Span.mk start (max t.span.start start)

instance (span : Span) (title msg : String) : Built (errorAt span title msg) :=
  .report (fun _ => .invalidSyntax) title (fun _ => span) fun _ => msg

instance (msg : String) : Built (errorHere msg) :=
  .report (fun t => if t.kind = .eof then .unexpectedEnd else .invalidSyntax) msg
    Token.span fun t => msg ++ ", found " ++ t.kind.text

instance (kind : TokenKind) : Built (errorExpected kind) :=
  .report (fun t => if t.kind = .eof then .unexpectedEnd else .unexpectedToken)
    "unexpected token" Token.span fun t => "expected " ++ kind.text ++ ", found " ++ t.kind.text

instance (kind : TokenKind) : Built (eat kind) := by unfold eat; infer_instance

instance (kind : TokenKind) : Built (expect kind) := by unfold expect; infer_instance

instance (before : Nat) : Built (bumpIfStuck before) := by
  unfold bumpIfStuck; infer_instance

instance (goes : TokenKind → Bool) (body : Parser α) [Built body] (again : Parser (List α)) [Built again] :
    Built (loopOf goes body again) := by unfold loopOf; infer_instance

instance (goes : TokenKind → Bool) (body : Parser α) [Built body] (rounds : Nat) :
    Built (loopWithin goes body rounds) := by
  induction rounds with
  | zero | succ rounds ih => unfold loopWithin; infer_instance

instance (goes : TokenKind → Bool) (body : Parser α) [Built body] : Built (loop goes body) :=
  .counted fun _ => inferInstance

instance (body : Parser α) [Built body] : Built (Parser.round body) := by unfold Parser.round; infer_instance

instance (stop : TokenKind) (body : Parser α) [Built body] : Built (repeatUntil stop body) := by
  unfold repeatUntil; infer_instance

instance (start : TokenKind) (item : Parser α) [Built item] : Built (whileAt start item) := by
  unfold whileAt; infer_instance

instance (sep : TokenKind) (item : Parser α) [Built item] :
    Built (separatedBy sep item) := by unfold separatedBy; infer_instance

instance (stop : TokenKind → Bool) : Built (skipTo stop) := by unfold skipTo; infer_instance

end Built

variable {cursor : Cursor} (source : Nat)

theorem Cursor.skip_fatal (last : Token) (ts : List Token) : (skip source last ts).2.Fatal := by
  induction ts with
  | nil => exact .nil
  | cons t rest ih =>
    rw [skip]
    split_ifs
    · exact .append .error ih
    · exact .nil

theorem Built.fatal {α : Type} {p : Parser α} (h : Built p) (cursor : Cursor) : (p cursor).diagnostics.Fatal := by
  induction h generalizing cursor with
  | pure | look => exact .nil
  | bind _ _ ihp ihf => exact (ihp cursor).append (ihf _ _)
  | advance => exact skip_fatal _ _ _
  | report => exact .error
  | counted _ ih => exact ih _ cursor

/-- The same place in the tokens of another source. -/
def Cursor.inSource (cursor : Cursor) (source : Nat) : Cursor := { cursor with source }

theorem Cursor.skip_inSource (other : Nat) (last : Token) (ts : List Token) : skip other last ts =
    ((skip source last ts).1.inSource other, (skip source last ts).2.inSource other) := by
  induction ts with
  | nil => rfl
  | cons t rest ih =>
    rw [skip, skip, ih]
    split_ifs <;> rfl

theorem Built.inSource {α : Type} {p : Parser α} (h : Built p) (cursor : Cursor) (source : Nat) :
    p (cursor.inSource source) =
      ⟨(p cursor).value, (p cursor).cursor.inSource source, (p cursor).diagnostics.inSource source⟩ := by
  induction h generalizing cursor with
  | pure | look | report => rfl
  | @bind _ _ p f _ _ ihp ihf =>
    change Outcome.mk (f _ _).value (f _ _).cursor (_ ++ (f _ _).diagnostics) = _
    rw [ihp, ihf]
    exact congrArg (Outcome.mk _ _) (map_append ..).symm
  | advance => exact congrArg (fun r : Cursor × Diagnostics => Outcome.mk () r.1 r.2) (skip_inSource _ _ _ _)
  | counted _ ih => exact ih _ cursor

/-- The reports for the unreadable ones among tokens. -/
def unreadables (tokens : List Token) : Diagnostics :=
  (tokens.filter fun token => token.kind == .error).map (unreadable source)

namespace Cursor

def tokens (cursor : Cursor) : List Token := cursor.current :: cursor.ahead

def start (cursor : Cursor) : Nat := cursor.current.span.start

/-- The tokens stand one behind the other, and the end of the text is the last. -/
structure Wf (cursor : Cursor) : Prop where
  ordered : cursor.tokens.Pairwise fun a b => a.span.start < b.span.start
  ends : ∃ last, cursor.tokens.getLast? = some last ∧ last.kind = .eof

theorem Wf.kind_of_end (h : cursor.Wf) (ha : cursor.ahead = []) : cursor.current.kind = .eof := by
  obtain ⟨last, hl, he⟩ := h.ends
  rw [tokens, ha] at hl
  obtain rfl := Option.some.inj hl
  exact he

theorem Wf.ahead_ne_nil (h : cursor.Wf) (hk : cursor.current.kind ≠ .eof) : cursor.ahead ≠ [] :=
  fun ha => hk (h.kind_of_end ha)

/-- What is skipped is unreadable, and each token of it is reported. -/
theorem skip_eq (last : Token) {ts : List Token} (h : ∃ t ∈ ts, t.kind ≠ .error) :
    ∃ front, ts = front ++ (skip source last ts).1.tokens ∧
      (skip source last ts).2 = unreadables source front ∧
      (skip source last ts).1.current.kind ≠ .error ∧ (skip source last ts).1.source = source := by
  induction ts with
  | nil => simp at h
  | cons t rest ih =>
    rw [skip]
    split_ifs with hk
    · have he : ∃ t ∈ rest, t.kind ≠ .error := by
        obtain ⟨other, ho, hn⟩ := h
        rcases mem_cons.mp ho with rfl | ho
        · exact absurd hk hn
        · exact ⟨other, ho, hn⟩
      obtain ⟨front, hf, hre, hr⟩ := ih he
      refine ⟨t :: front, congrArg (t :: ·) hf, ?_, hr⟩
      rw [unreadables, filter_cons_of_pos (by simp [hk])]
      exact congrArg (unreadable source t :: ·) hre
    · exact ⟨[], rfl, rfl, hk, rfl⟩

theorem advance_eq (h : cursor.Wf) (ha : cursor.ahead ≠ []) :
    ∃ front, cursor.ahead = front ++ (advance cursor).cursor.tokens ∧
      (advance cursor).diagnostics = unreadables cursor.source front ∧
      (advance cursor).cursor.current.kind ≠ .error ∧ (advance cursor).cursor.source = cursor.source := by
  obtain ⟨last, hl, hk⟩ := h.ends
  rw [tokens, getLast?_cons_of_ne_nil ha] at hl
  refine skip_eq _ _ ⟨last, mem_of_getLast? hl, ?_⟩
  rw [hk]
  exact fun h => by cases h

theorem advance_suffix (h : cursor.Wf) (ha : cursor.ahead ≠ []) : (advance cursor).cursor.tokens <:+ cursor.ahead := by
  obtain ⟨front, hf, -⟩ := advance_eq h ha
  exact ⟨front, hf.symm⟩

theorem advance_of_end (h : cursor.ahead = []) : (advance cursor).cursor = cursor := by
  obtain ⟨source, cur, ahead⟩ := cursor
  obtain rfl : ahead = [] := h
  rfl

theorem advance_wf (h : cursor.Wf) : (advance cursor).cursor.Wf := by
  by_cases ha : cursor.ahead = []
  · rwa [advance_of_end ha]
  · have hs := advance_suffix h ha
    obtain ⟨last, hl, hk⟩ := h.ends
    rw [tokens, getLast?_cons_of_ne_nil ha] at hl
    refine ⟨(pairwise_cons.mp h.ordered).2.sublist hs.sublist, last, ?_, hk⟩
    obtain ⟨front, hf⟩ := hs
    rw [← hl, ← hf, tokens, getLast?_append_cons]

theorem Wf.start_lt {other : Cursor} (h : cursor.Wf) (ha : other.tokens <:+ cursor.ahead) :
    cursor.start < other.start :=
  (pairwise_cons.mp h.ordered).1 _ (ha.subset mem_cons_self)

end Cursor

theorem Built.forward {α : Type} {p : Parser α} (h : Built p) (hc : cursor.Wf) :
    (p cursor).cursor.Wf ∧ cursor.start ≤ (p cursor).cursor.start := by
  induction h generalizing cursor with
  | pure | look | report => exact ⟨hc, le_refl _⟩
  | bind _ _ ihp ihf =>
    obtain ⟨hw, hl⟩ := ihp hc
    obtain ⟨hw', hl'⟩ := ihf _ hw
    exact ⟨hw', le_trans hl hl'⟩
  | advance =>
    refine ⟨advance_wf hc, ?_⟩
    by_cases ha : cursor.ahead = []
    · exact le_of_eq (by rw [advance_of_end ha])
    · exact le_of_lt (hc.start_lt (advance_suffix hc ha))
  | counted _ ih => exact ih _ hc

theorem Built.suffix {α : Type} {p : Parser α} (h : Built p) (hc : cursor.Wf) :
    (p cursor).cursor.tokens <:+ cursor.tokens := by
  induction h generalizing cursor with
  | pure | look | report => exact suffix_refl _
  | bind hp _ ihp ihf => exact (ihf _ (hp.forward hc).1).trans (ihp hc)
  | advance =>
    by_cases ha : cursor.ahead = []
    · simp [advance_of_end ha]
    · exact (advance_suffix hc ha).trans (suffix_cons _ _)
  | counted _ ih => exact ih _ hc

end GraphClient.Syntax
