import Mathlib.Data.Finset.Lattice.Fold
import Mathlib.Data.List.Pairwise
import Mathlib.Order.MinMax
import GraphClient.Proofs.Syntax.Clean
import GraphClient.Proofs.Token.Words

/-!
# Gaps between tokens

What stands between the tokens of a text shows in places only.
-/

namespace GraphClient

open List Nat

/-- **Texts in a row**, with gaps around and between them. -/
inductive Gapped : List String → String → Prop
  | gap {gap : String} : Trivia false gap.toList → gap ≠ "" → Gapped [] gap
  | text {gap text rest : String} {texts : List String} : Trivia false gap.toList → gap ≠ "" → Gapped texts rest →
    Gapped (text :: texts) (gap ++ text ++ rest)

theorem Trivia.shut {gap : String} (h : Trivia false gap.toList) (hn : gap ≠ "") : Shut gap := by
  intro rest
  generalize hg : gap.toList = cs at h
  cases h with
  | nil => exact absurd (String.toList_eq_nil_iff.mp hg) hn
  | ignored hc =>
    simp only [isIgnored, Bool.or_eq_true, beq_iff_eq] at hc
    rcases hc with ((((rfl | rfl) | rfl) | rfl) | rfl) | rfl <;> rfl
  | comment => rfl
  | lastComment _ he => cases he

theorem Gapped.shut {texts : List String} {text : String} (h : Gapped texts text) : Shut text := by
  cases h with
  | gap hg hn => exact hg.shut hn
  | text hg hn => exact ((hg.shut hn).append _).append _

/-- **The words of a text with other gaps.** -/
theorem Gapped.worded {words : List Word} (hw : ∀ word ∈ words, Lexical word.kind word.text.toList ∧
      (word.kind.isName → word.kind = Word.nameKind word.text)) {text : String}
    (h : Gapped (words.map Word.text) text) : Lexes Closed text words := by
  induction words generalizing text with
  | nil =>
    cases h with
    | gap hg => exact (.gap hg nofun : Lexes Any _ []).closed
  | cons word words ih =>
    rw [forall_mem_cons] at hw
    cases h with
    | text hg hn hr =>
      have ho : Lexes Closed word.text [word] := .word word hw.1.1 nofun fun rest hc => hc.bounded fun hk => by
        rw [String.ofList_toList]
        exact hw.1.2 hk
      exact ((.gap hg nofun : Lexes Any _ []).before ho).append (ih hw.2 hr) fun rest _ => hr.shut rest

theorem tokenize_gapped {text other : String} (hr : ∀ t ∈ tokenize text, t.kind ≠ .error)
    (h : Gapped ((tokenize text).map Token.text).dropLast other) :
    (tokenize other).map Token.word = (tokenize text).map Token.word := by
  obtain ⟨front, hf, hk⟩ := (tiles_tokenize text).ends
  have hm : ((tokenize text).map Token.text).dropLast = (front.map Token.word).map Word.text := by
    rw [hf, map_append, map_singleton, dropLast_concat, map_map]
    rfl
  rw [hm] at h
  have hw := h.worded <| by
    intro word hw
    obtain ⟨t, ht, rfl⟩ := mem_map.mp hw
    have hmt : t ∈ tokenize text := hf ▸ mem_append_left _ ht
    obtain ⟨_, _, -, -, hl⟩ := (tiles_tokenize text).placed hmt
    exact ⟨(hl (hk t ht).1 (hr t hmt)).lexical, fun hn => (tokenize_named text t hmt hn).2⟩
  obtain ⟨ts, ht, hs⟩ := hw.tokens 0 [] trivial
  rw [append_nil] at ht
  rw [tokenize, ht, hf, tokenizeFrom_end rfl, map_append, map_append, hs]
  rfl

namespace Syntax

open Placed (place)

/-- Other offsets in the same order. -/
def Placement.moved (f : Nat → Nat) (h : Monotone f) (hz : f 0 = 0) : Placement :=
  ⟨f, fun span => ⟨f span.start, f span.stop⟩, Name.text, False, fun _ => rfl,
    fun a _ => congrArg (Span.mk (f a)) h.map_max, fun _ _ _ _ => rfl, hz⟩

/-- **Trees or reports that differ in places only.** -/
def Alike {α : Type} [Placed α] (a b : α) : Prop :=
  ∃ (c : α) (m m' : Placement), m.text = Name.text ∧ m'.text = Name.text ∧ a = place m c ∧ b = place m' c

/-- Offsets in the same order are found from their sums. -/
theorem exists_moved {ps : List (Nat × Nat)} (h : ps.Pairwise (· ≤ ·)) {part : Nat × Nat → Nat} (hp : Monotone part) :
    ∃ f, Monotone f ∧ ∀ x ∈ ps, f (x.1 + x.2) = part x := by
  have hc : ∀ x ∈ ps, ∀ y ∈ ps, x ≤ y ∨ y ≤ x := fun x hx y hy => Pairwise.forall_of_forall_of_flip
    (fun _ _ => .inl le_rfl) (h.imp Or.inl) (h.imp Or.inr) hx hy
  refine ⟨fun n => (ps.toFinset.filter fun x => x.1 + x.2 ≤ n).sup part, fun a b ha => ?_, fun x hx => ?_⟩
  · refine Finset.sup_mono fun y hy => ?_
    rw [Finset.mem_filter] at hy ⊢
    exact ⟨hy.1, le_trans hy.2 ha⟩
  · refine le_antisymm (Finset.sup_le fun y hy => ?_) (Finset.le_sup (by simp [hx]))
    rw [Finset.mem_filter, mem_toFinset] at hy
    refine hp ((hc y hy.1 x hx).elim id fun hl => ?_)
    have hl := Prod.le_def.mp hl
    exact Prod.le_def.mpr (by omega)

/-- **Pairs of tokens in the same order.** -/
structure Parallel (pairs : List (Token × Token)) : Prop where
  ordered : pairs.Pairwise fun x y => (x.1.span.start < y.1.span.start ∧ x.1.span.stop ≤ y.1.span.start) ∧
    x.2.span.start < y.2.span.start ∧ x.2.span.stop ≤ y.2.span.start
  spans : ∀ e ∈ pairs, e.1.span.start ≤ e.1.span.stop ∧ e.2.span.start ≤ e.2.span.stop
  ends : ∃ last, pairs.getLast? = some last ∧ last.1.kind = .eof

def bounds (e : Token × Token) : List (Nat × Nat) :=
  [(e.1.span.start, e.2.span.start), (e.1.span.stop, e.2.span.stop)]

/-- The tokens of pairs, each at the sums of its offsets. -/
def between (e : Token × Token) : Token :=
  ⟨e.1.kind, ⟨e.1.span.start + e.2.span.start, e.1.span.stop + e.2.span.stop⟩, e.1.text⟩

namespace Parallel

variable {pairs : List (Token × Token)} (h : Parallel pairs)

include h

theorem bounds_sorted : ((0, 0) :: pairs.flatMap bounds).Pairwise (· ≤ ·) := by
  refine pairwise_cons.mpr ⟨fun e _ => ⟨zero_le _, zero_le _⟩, pairwise_flatMap.mpr ⟨fun e he => ?_, ?_⟩⟩
  · simpa [bounds] using h.spans e he
  · refine h.ordered.imp_of_mem fun {x y} hx hy hxy => ?_
    have := h.spans x hx
    have := h.spans y hy
    simp only [bounds, mem_cons, not_mem_nil, or_false, forall_eq_or_imp, forall_eq, Prod.mk_le_mk]
    omega

/-- One of the two tokens of each pair, found from the tokens between. -/
theorem exists_placement (src : Nat) {part : Nat × Nat → Nat} (hp : Monotone part) (hz : part (0, 0) = 0)
    {tok : Token × Token → Token} (ht : ∀ e ∈ pairs, tok e = ⟨e.1.kind,
      ⟨part (e.1.span.start, e.2.span.start), part (e.1.span.stop, e.2.span.stop)⟩, e.1.text⟩)
    (ho : pairs.Pairwise fun x y => (tok x).span.start < (tok y).span.start) : ∃ m : Placement,
      m.text = Name.text ∧ readTokens src (pairs.map tok) = place m (readTokens src (pairs.map between)) := by
  obtain ⟨f, hf, hfe⟩ := exists_moved h.bounds_sorted hp
  have hm : ∀ e ∈ pairs, place (.moved f hf ((hfe _ mem_cons_self).trans hz)) (between e) = tok e := by
    intro e he
    have hb : ∀ x ∈ bounds e, f (x.1 + x.2) = part x := fun x hx =>
      hfe x (mem_cons_of_mem _ (mem_flatMap.mpr ⟨e, he, hx⟩))
    rw [ht e he, ← hb _ mem_cons_self, ← hb _ (mem_cons_of_mem _ mem_cons_self)]
    rfl
  have hc : place (.moved f hf ((hfe _ mem_cons_self).trans hz)) (pairs.map between) = pairs.map tok :=
    (map_map ..).trans (map_congr_left hm)
  refine ⟨_, rfl, hc ▸ readTokens_place src ⟨?_, ?_, ?_, ?_, fun _ _ _ => rfl, fun _ _ => rfl⟩ False.elim⟩
  · exact pairwise_map.mpr (h.ordered.imp fun hxy => Nat.add_lt_add hxy.1.1 hxy.2.1)
  · obtain ⟨last, hl, hk⟩ := h.ends
    exact ⟨between last, by rw [getLast?_map, hl]; rfl, hk⟩
  · refine pairwise_map.mpr (ho.imp_of_mem fun hx hy hxy => ?_)
    rwa [← hm _ hx, ← hm _ hy] at hxy
  · exact forall_mem_map.mpr fun e he => Nat.add_le_add (h.spans e he).1 (h.spans e he).2

end Parallel

theorem parse_alike (src : Nat) {a b : String} (h : (tokenize a).map Token.word = (tokenize b).map Token.word) :
    Alike (parse src a) (parse src b) := by
  have hl : (tokenize a).length = (tokenize b).length := by simpa using congrArg length h
  generalize hz : (tokenize a).zip (tokenize b) = pairs
  have ha : pairs.map Prod.fst = tokenize a := hz ▸ map_fst_zip (le_of_eq hl)
  have hb : pairs.map Prod.snd = tokenize b := hz ▸ map_snd_zip (le_of_eq hl.symm)
  have hw : ∀ e ∈ pairs, e.1.word = e.2.word := by
    rw [← ha, ← hb, map_map, map_map] at h
    exact map_inj_left.mp h
  have hp : Parallel pairs := by
    refine ⟨?_, fun e he => ⟨?_, ?_⟩, ?_⟩
    · exact (pairwise_map.mp (ha ▸ (tiles_tokenize a).ordered.2)).and
        (pairwise_map.mp (hb ▸ (tiles_tokenize b).ordered.2))
    · exact start_le_stop (ha ▸ mem_map_of_mem he)
    · exact start_le_stop (hb ▸ mem_map_of_mem he)
    · obtain ⟨last, hla, hk⟩ := tokenize_ends a
      rw [← ha, getLast?_map, Option.map_eq_some_iff] at hla
      obtain ⟨e, he, rfl⟩ := hla
      exact ⟨e, he, hk⟩
  obtain ⟨m, hm, hr⟩ := hp.exists_placement src monotone_fst rfl (fun _ _ => rfl) (hp.ordered.imp fun h => h.1.1)
  obtain ⟨m', hm', hr'⟩ := hp.exists_placement src monotone_snd rfl (fun e he => by
    obtain ⟨hk, ht⟩ := Word.mk.inj (hw e he)
    rw [hk, ht]) (hp.ordered.imp fun h => h.2.1)
  rw [ha] at hr
  rw [hb] at hr'
  exact ⟨_, m, m', hm, hm', hr, hr'⟩

end Syntax

/-- **Gaps mean nothing.** A text with the tokens of another one and other gaps has the same words and is read alike,
whatever is reported. -/
theorem gapped_alike (source : Nat) {text other : String} (hr : ∀ t ∈ tokenize text, t.kind ≠ .error)
    (h : Gapped ((tokenize text).map Token.text).dropLast other) :
    (tokenize other).map Token.word = (tokenize text).map Token.word ∧
      Syntax.Alike (Syntax.parse source text) (Syntax.parse source other) :=
  ⟨tokenize_gapped hr h, Syntax.parse_alike source (tokenize_gapped hr h).symm⟩

theorem gapped_alike_comment : (∀ t ∈ tokenize "{a}", t.kind ≠ .error) ∧
    Gapped ((tokenize "{a}").map Token.text).dropLast (" " ++ "\x7b" ++ ("#\x7d\n" ++ "a" ++ ("," ++ "\x7d" ++ "\n"))) ∧
    (tokenize " \x7b#\x7d\na,\x7d\n").map Token.word = (tokenize "{a}").map Token.word ∧
    Syntax.Alike (Syntax.parse 0 "{a}") (Syntax.parse 0 " \x7b#\x7d\na,\x7d\n") := by
  have hr : ∀ t ∈ tokenize "{a}", t.kind ≠ .error := by decide +kernel
  have ht : ((tokenize "{a}").map Token.text).dropLast = ["\x7b", "a", "\x7d"] := by decide +kernel
  have hi : ∀ c, isIgnored c → Trivia false [c] := fun _ h => .ignored h .nil
  have hc : Trivia false ('#' :: (['}'] ++ '\n' :: [])) := .comment (by simp [endsComment]) rfl .nil
  have hg : Gapped ["\x7b", "a", "\x7d"] (" " ++ "\x7b" ++ ("#\x7d\n" ++ "a" ++ ("," ++ "\x7d" ++ "\n"))) :=
    .text (hi ' ' rfl) nofun (.text hc nofun (.text (hi ',' rfl) nofun (.gap (hi '\n' rfl) nofun)))
  rw [← ht] at hg
  exact ⟨hr, hg, gapped_alike 0 hr hg⟩

end GraphClient
