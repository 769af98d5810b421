import TestSelection.Proofs.Expr.Lexing
import TestSelection.Proofs.Expr.Parsing

/-!
Texts as phrases of the grammar. What a text spells is settled by its tokens alone, and a text is
read as an expression exactly if it is short enough and spells the expression within the bound on
nesting.
-/

namespace TestSelection

namespace Expr

/-- The tokens of a text are an expression, where at most `depth` parentheses and unary operators
are open around each of them. -/
def Spells (depth : Nat) (text : String) (e : Expr) : Prop :=
  ∃ tokens : List LocatedToken, Token.Lexes text.toList (tokens.map LocatedToken.token) ∧
    Phrase depth (.level .disjunction) tokens e

variable {depth deeper : Nat} {text : String} {e e' : Expr}

theorem Phrase.congr {s : Symbol} {tokens others : List LocatedToken}
    (h : Phrase depth s tokens e)
    (heq : tokens.map LocatedToken.token = others.map LocatedToken.token) :
    Phrase depth s others e := by
  rwa [Phrase, ← heq]

theorem spells_iff_phrase {tokens : List LocatedToken}
    (h : Token.Lexes text.toList (tokens.map LocatedToken.token)) :
    Spells depth text e ↔ Phrase depth (.level .disjunction) tokens e := by
  constructor
  · rintro ⟨others, hothers, hphrase⟩
    exact hphrase.congr (hothers.unique h)
  · exact fun hphrase => ⟨tokens, h, hphrase⟩

theorem Spells.mono (h : Spells depth text e) (hdepth : depth ≤ deeper) : Spells deeper text e := by
  obtain ⟨tokens, hlexes, hphrase⟩ := h
  exact ⟨tokens, hlexes, hphrase.mono hdepth⟩

theorem Spells.unique (h : Spells depth text e) (h' : Spells deeper text e') : e = e' := by
  obtain ⟨tokens, hlexes, hphrase⟩ := h
  exact Phrase.unique hphrase ((spells_iff_phrase hlexes).mp h')

/-- A text is read as an expression if it is short enough and spells the expression within the bound
on nesting. -/
theorem parse_eq_ok_iff_spells :
    parse text = .ok e ↔ text.utf8ByteSize ≤ maxExprBytes ∧ Spells maxExprNesting text e := by
  rw [parse_eq_ok]
  refine and_congr_right fun _ => ?_
  constructor
  · rintro ⟨tokens, htokens, -, hread⟩
    exact ⟨tokens, Token.lexes_of_readAll htokens, ofTokens_eq_ok.mp hread⟩
  · rintro ⟨tokens, hlexes, hphrase⟩
    obtain ⟨located, hread, heq⟩ := hlexes 0
    have hlocated := hphrase.congr heq.symm
    exact ⟨located, hread, hlocated.ne_nil, ofTokens_eq_ok.mpr hlocated⟩

end Expr

end TestSelection
