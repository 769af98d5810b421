import TestSelection.Proofs.Expr.Conjunction
import TestSelection.Proofs.Expr.Spelling
import TestSelection.Proofs.Lists
import TestSelection.Tag.Description

/-!
Requirements that have to hold together. Each is put in parentheses and the texts are joined by
ampersands; the joined text stands for the conjunction of what the texts stand for, whatever stands
in them, and holds as they do one after the other. The parentheses count: the joined text nests one
deeper than its parts.
-/

namespace TestSelection

namespace Declaration

open TestSelection.Expr TestSelection.Token

variable {depth deeper : Nat} {first : String} {texts : List String} {e : Expr} {es : List Expr}

theorem lexes_parens {ts : List Token} (h : Lexes first.toList ts) :
    Lexes ("(" ++ first ++ ")").toList (.openParen :: ts ++ [.closeParen]) := by
  rw [String.toList_append, String.toList_append]
  exact h.parens

/-- The parts in parentheses, with ampersands between them, keep their tokens. -/
theorem lexes_intercalate {ts : List Token} (h : Lexes first.toList ts)
    {parts : List (List LocatedToken)}
    (hparts : List.Forall₂ (fun text tokens => Lexes (String.toList text)
      (tokens.map LocatedToken.token)) texts parts) :
    Lexes (" & ".intercalate (first :: texts.map fun text => "(" ++ text ++ ")")).toList
      (ts ++ (ampersands parts).map LocatedToken.token) := by
  induction hparts generalizing first ts with
  | nil =>
      rw [List.map_nil, String.intercalate_singleton, ampersands, List.flatMap_nil, List.map_nil,
        List.append_nil]
      exact h
  | @cons text tokens texts parts hpart _ ih =>
      have hboth := h.ampersand (ih (lexes_parens hpart))
      rw [List.map_cons, String.intercalate_cons_cons, String.append_assoc, String.toList_append,
        String.toList_append, ampersands, List.flatMap_cons]
      simpa [parenthesized, ampersands] using hboth

theorem forall_spells_iff {parts : List (List LocatedToken)}
    (h : List.Forall₂ (fun text tokens => Lexes (String.toList text)
      (tokens.map LocatedToken.token)) texts parts) :
    List.Forall₂ (Spells depth) texts es ↔
      List.Forall₂ (Phrase depth (.level .disjunction)) parts es := by
  induction h generalizing es with
  | nil => rw [List.forall₂_nil_left_iff, List.forall₂_nil_left_iff]
  | cons hfirst _ ih =>
      simp only [List.forall₂_cons_left_iff, spells_iff_phrase hfirst, ih]

/-- Two texts or more are joined to one that spells their conjunction exactly if each of them spells
its part, nesting less deep. -/
theorem spells_conjoin_iff {second : String} (h : Spells deeper first e)
    (hrest : List.Forall₂ (Spells deeper) (second :: texts) es) :
    ∃ text, conjoin (first :: second :: texts) = some text ∧
      ∀ depth, Spells (depth + 1) text (conjunction e es) ↔
        Spells depth first e ∧ List.Forall₂ (Spells depth) (second :: texts) es := by
  refine ⟨_, rfl, fun depth => ?_⟩
  obtain ⟨tokens, hlexes, hphrase⟩ := h
  obtain ⟨parts, hparts⟩ := forall_exists_iff_forall₂.mp fun text htext => by
    obtain ⟨_, ⟨tokens, hlexes, -⟩⟩ := forall_exists_iff_forall₂.mpr ⟨_, hrest⟩ text htext
    exact ⟨tokens, hlexes⟩
  have hjoined := lexes_intercalate (lexes_parens hlexes) hparts
  have htokens : (parenthesized tokens ++ ampersands parts).map LocatedToken.token
      = .openParen :: tokens.map LocatedToken.token ++ [.closeParen]
        ++ (ampersands parts).map LocatedToken.token := by
    simp [parenthesized]
  rw [← htokens] at hjoined
  exact (spells_iff_phrase hjoined).trans <|
    (phrase_conjunction_iff hphrase ((forall_spells_iff hparts).mp hrest)).trans
      (and_congr (spells_iff_phrase hlexes).symm (forall_spells_iff hparts).symm)

/-- Texts that are requirements are joined to a text that, if it is one, stands for their
conjunction, and so holds as they do one after the other. -/
theorem parse_conjoin (h : Expr.parse first = .ok e)
    (hrest : List.Forall₂ (fun text e => Expr.parse text = .ok e) texts es) :
    ∃ text, conjoin (first :: texts) = some text ∧ ∀ joined, Expr.parse text = .ok joined →
      joined = conjunction e es ∧ ∀ c, joined.holds c = allHold c (e :: es) := by
  suffices hjoined : ∃ text, conjoin (first :: texts) = some text ∧
      Spells (maxExprNesting + 1) text (conjunction e es) by
    obtain ⟨text, htext, hspells⟩ := hjoined
    refine ⟨text, htext, fun joined hparse => ?_⟩
    obtain rfl := (parse_eq_ok_iff_spells.mp hparse).2.unique hspells
    exact ⟨rfl, fun c => holds_conjunction c e es⟩
  have hfirst := (parse_eq_ok_iff_spells.mp h).2
  have hothers := hrest.imp fun _ _ hparse => (parse_eq_ok_iff_spells.mp hparse).2
  cases hothers with
  | nil => exact ⟨first, rfl, hfirst.mono (Nat.le_succ _)⟩
  | cons hsecond hothers =>
      obtain ⟨text, htext, hiff⟩ := spells_conjoin_iff hfirst (.cons hsecond hothers)
      exact ⟨text, htext, (hiff _).mpr ⟨hfirst, .cons hsecond hothers⟩⟩

/-- What looks like the end of the first text is quoted there, and the disjunction of the second
text is kept together. -/
theorem parse_conjoin_quoted :
    let first : Expr := .binary .eq (.name "a") (.text ")&(")
    let second : Expr := .binary .or (.name "b") (.name "c")
    ∃ text, conjoin ["a == \")&(\"", "b | c"] = some text ∧
      Expr.parse text = .ok (.binary .and first second) ∧
      ∀ c, (binary .and first second).holds c = allHold c [first, second] := by
  intro first second
  have hfirst : Expr.parse "a == \")&(\"" = .ok first := by decide +kernel
  have hsecond : Expr.parse "b | c" = .ok second := by decide +kernel
  obtain ⟨text, htext, hjoined⟩ := parse_conjoin hfirst (.cons hsecond .nil)
  obtain rfl := Option.some.inj htext
  have hparse : Expr.parse "(a == \")&(\") & (b | c)" = .ok (.binary .and first second) := by
    decide +kernel
  exact ⟨_, rfl, hparse, (hjoined _ hparse).2⟩

end Declaration

end TestSelection
