import Mathlib.Data.List.Forall2
import TestSelection.Proofs.Expr.Logic
import TestSelection.Proofs.Expr.Parsing

/-!
Conjunctions of expressions. One that is grouped to the left holds as its parts do one after the
other. Written with each part in parentheses it is a phrase exactly if the parts are, one
parenthesis less deep: from the front the parser takes each part as a whole, since its parentheses
close where it ends.
-/

namespace TestSelection

namespace Expr

/-- The conjunction of expressions, grouped to the left. -/
def conjunction (first : Expr) (rest : List Expr) : Expr := rest.foldl (.binary .and) first

/-- Whether expressions hold, asked in order up to the first that does not hold or faults. -/
def allHold (c : Context) : List Expr → Except Fault Bool
  | [] => .ok true
  | e :: rest => do
    if ← e.holds c then allHold c rest else return false

theorem allHold_and (c : Context) (l r : Expr) (rest : List Expr) :
    allHold c (binary .and l r :: rest) = allHold c (l :: r :: rest) := by
  simp only [allHold, holds_and, Sequential.both, bind, Except.bind, pure, Except.pure]
  cases l.holds c with
  | error fault => rfl
  | ok left => cases left <;> rfl

/-- A conjunction holds as its parts do one after the other. -/
theorem holds_conjunction (c : Context) (first : Expr) (rest : List Expr) :
    (conjunction first rest).holds c = allHold c (first :: rest) := by
  induction rest generalizing first with
  | nil =>
      change first.holds c = do if ← first.holds c then .ok true else return false
      cases first.holds c with
      | error fault => rfl
      | ok holds => cases holds <;> rfl
  | cons e rest ih => exact (ih (.binary .and first e)).trans (allHold_and c first e rest)

/-! ### Parts in parentheses -/

/-- Tokens in parentheses. -/
def parenthesized (tokens : List LocatedToken) : List LocatedToken :=
  ⟨.openParen, 0⟩ :: tokens ++ [⟨.closeParen, 0⟩]

def ampersands (parts : List (List LocatedToken)) : List LocatedToken :=
  parts.flatMap fun tokens => ⟨.operator .and, 0⟩ :: parenthesized tokens

variable {depth deeper : Nat} {tokens rest : List LocatedToken}
  {parts : List (List LocatedToken)} {e : Expr} {es : List Expr}

theorem stops_ampersands (parts : List (List LocatedToken)) :
    Stops BinaryOp.Level.comparison.rank (ampersands parts) := by
  cases parts with
  | nil => exact stops_nil _
  | cons tokens parts => exact stops_operator (by decide) 0 _

/-- In parentheses a phrase may stand where an operand of any operator may. -/
theorem phrase_parenthesized (h : Phrase depth (.level .disjunction) tokens e) :
    Phrase (depth + 1) (.level .comparison) (parenthesized tokens) e := by
  have hproduct : Phrase (depth + 1) (.level .product) (parenthesized tokens) e :=
    (h.paren 0 0).primary.operand
  have hsum : Phrase (depth + 1) (.level .sum) (parenthesized tokens) e := hproduct.operand
  exact hsum.operand

/-- What has been read so far grows by an ampersand and a part at each turn. -/
theorem phrase_ampersands {front : List LocatedToken}
    (hfront : Phrase (depth + 1) (.level .conjunction) front e)
    (h : List.Forall₂ (Phrase depth (.level .disjunction)) parts es) :
    Phrase (depth + 1) (.level .conjunction) (front ++ ampersands parts) (conjunction e es) := by
  induction h generalizing front e with
  | nil => rwa [ampersands, List.flatMap_nil, List.append_nil]
  | @cons tokens e' parts es hpart _ ih =>
      have hboth := @Phrase.binary _ .and _ _ _ _ 0 hfront (phrase_parenthesized hpart)
      have hall := ih hboth
      rw [List.append_assoc] at hall
      exact hall

theorem phrase_of_parenthesized (h : Phrase (depth + 1) .unary (parenthesized tokens) e) :
    Phrase depth (.level .disjunction) tokens e := by
  rcases h.unary_cases with
    h | ⟨d, p, inner, a, hd, htokens, -, -⟩ | ⟨d, p, inner, a, hd, htokens, -, -⟩
  · rcases h.primary_cases with ⟨t, p, htokens, -⟩ | ⟨d, p, inner, q, hd, htokens, hinner⟩
    · exact absurd (congrArg List.length htokens) (by simp [parenthesized])
    · obtain rfl := Nat.succ.inj hd
      rw [parenthesized] at htokens
      obtain ⟨-, hrest⟩ := List.cons.inj htokens
      obtain ⟨rfl, -⟩ := List.append_inj' hrest rfl
      exact hinner
  · exact nomatch htokens
  · exact nomatch htokens

theorem stops_unary (tokens : List LocatedToken) : Stops unaryRank tokens :=
  fun op _ _ _ => rank_lt_unaryRank op.level

/-- No operand is the beginning of another one. -/
theorem Phrase.prefix_unique {front front' rest' : List LocatedToken} {e' : Expr}
    (h : Phrase depth .unary front e) (h' : Phrase deeper .unary front' e')
    (heq : front ++ rest = front' ++ rest') : e = e' ∧ front = front' ∧ rest = rest' := by
  have hread : ∀ front rest e, Phrase (max depth deeper) .unary front e →
      Expr.operand 0 (max depth deeper) (front ++ rest) = .ok (e, rest) :=
    fun front rest e h => complete_operand 0 _ front rest e h (stops_unary rest)
  have hfront := hread front rest e (h.mono (le_max_left depth deeper))
  rw [heq, hread front' rest' e' (h'.mono (le_max_right depth deeper))] at hfront
  obtain ⟨rfl, rfl⟩ := Prod.mk.inj (Except.ok.inj hfront)
  exact ⟨rfl, List.append_cancel_right heq, rfl⟩

section

variable {size : Nat} {e' : Expr} {rest' : List LocatedToken}

/-- An operand in parentheses ends with them, and what is in them nests less deep. -/
theorem operand_parenthesized (hphrase : Phrase deeper (.level .disjunction) tokens e)
    (h : operand size (depth + 1) (parenthesized tokens ++ rest) = .ok (e', rest')) :
    e' = e ∧ rest' = rest ∧ Phrase depth (.level .disjunction) tokens e := by
  obtain ⟨front, hfront, hread⟩ := sound_operand size _ _ _ _ h
  obtain ⟨rfl, rfl, rfl⟩ := hread.prefix_unique (hphrase.paren 0 0).primary hfront.symm
  exact ⟨rfl, rfl, phrase_of_parenthesized hread⟩

theorem chain_of_stops {next : Parser} {l : BinaryOp.Level} (h : next tokens = .ok (e, rest))
    (hrest : Stops l.rank rest) : chain l next tokens = .ok (e, rest) := by
  rw [chain, h]
  exact chainFrom_of_stops hrest rest e

/-- The parser for the operands of a conjunction. -/
def conjunct (operand : Parser) : Parser := comparison (chain .sum (chain .product operand))

theorem conjunct_of_stops {p : Parser} (h : p tokens = .ok (e, rest))
    (hrest : Stops BinaryOp.Level.comparison.rank rest) :
    conjunct p tokens = .ok (e, rest) := by
  have hproduct : chain .product p tokens = .ok (e, rest) :=
    chain_of_stops h (hrest.mono (by decide))
  exact comparison_of_stops (chain_of_stops hproduct (hrest.mono (by decide))) hrest

theorem exists_of_conjunct {p : Parser} {x : Expr × List LocatedToken}
    (h : conjunct p tokens = .ok x) : ∃ y, p tokens = .ok y := by
  obtain ⟨_, hsum, -⟩ := bind_eq_ok.mp h
  obtain ⟨_, hproduct, -⟩ := bind_eq_ok.mp hsum
  obtain ⟨y, hy, -⟩ := bind_eq_ok.mp hproduct
  exact ⟨y, hy⟩

theorem conjunct_parenthesized (hphrase : Phrase deeper (.level .disjunction) tokens e)
    (hrest : Stops BinaryOp.Level.comparison.rank rest)
    (h : conjunct (operand size (depth + 1)) (parenthesized tokens ++ rest) = .ok (e', rest')) :
    e' = e ∧ rest' = rest ∧ Phrase depth (.level .disjunction) tokens e := by
  obtain ⟨⟨first, after⟩, hfirst⟩ := exists_of_conjunct h
  obtain ⟨rfl, rfl, hinner⟩ := operand_parenthesized hphrase hfirst
  rw [conjunct_of_stops hfirst hrest] at h
  obtain ⟨rfl, rfl⟩ := Prod.mk.inj (Except.ok.inj h)
  exact ⟨rfl, rfl, hinner⟩

/-- If the parser takes all parts behind a left operand, each part nests less deep. -/
theorem forall_phrase_of_chainFrom (h : List.Forall₂ (Phrase deeper (.level .disjunction)) parts es)
    {turns : List LocatedToken} {left : Expr} {x : Expr × List LocatedToken}
    (hturns : (ampersands parts).length ≤ turns.length)
    (hread : chainFrom .conjunction (conjunct (operand size (depth + 1))) turns left
      (ampersands parts) = .ok x) :
    List.Forall₂ (Phrase depth (.level .disjunction)) parts es := by
  induction h generalizing turns left with
  | nil => exact .nil
  | @cons tokens e parts es hpart _ ih =>
      rw [ampersands, List.flatMap_cons, ← ampersands, List.cons_append] at hturns hread
      obtain ⟨turn, turns, rfl⟩ := List.exists_cons_of_length_pos
        ((Nat.succ_pos _).trans_le hturns)
      have hlevel : BinaryOp.and.level = .conjunction := rfl
      rw [chainFrom, if_pos hlevel] at hread
      obtain ⟨⟨right, after⟩, hright, hread⟩ := bind_eq_ok.mp hread
      obtain ⟨rfl, rfl, hinner⟩ := conjunct_parenthesized hpart (stops_ampersands parts) hright
      refine .cons hinner (ih ?_ hread)
      simp only [List.length_cons, List.length_append] at hturns
      omega

end

/-- Parts in parentheses that are joined by ampersands are a phrase if and only if each part is one,
nesting less deep. -/
theorem phrase_conjunction_iff (h : Phrase deeper (.level .disjunction) tokens e)
    (hparts : List.Forall₂ (Phrase deeper (.level .disjunction)) parts es) :
    Phrase (depth + 1) (.level .disjunction) (parenthesized tokens ++ ampersands parts)
        (conjunction e es) ↔
      Phrase depth (.level .disjunction) tokens e ∧
        List.Forall₂ (Phrase depth (.level .disjunction)) parts es := by
  constructor
  · intro hphrase
    have hread := complete_levels (complete_operand 0 _) _ [] _ hphrase (stops_nil _)
    rw [List.append_nil] at hread
    obtain ⟨_, hconjunction, -⟩ := bind_eq_ok.mp hread
    obtain ⟨⟨first, after⟩, hfirst, hrest⟩ := bind_eq_ok.mp hconjunction
    obtain ⟨rfl, rfl, hinner⟩ := conjunct_parenthesized h (stops_ampersands parts) hfirst
    exact ⟨hinner, forall_phrase_of_chainFrom hparts le_rfl hrest⟩
  · rintro ⟨hfirst, hrest⟩
    exact (phrase_ampersands (phrase_parenthesized hfirst).operand hrest).operand

end Expr

end TestSelection
