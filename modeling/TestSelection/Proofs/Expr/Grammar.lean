import Mathlib.Data.List.Infix
import TestSelection.Decimal.Notation
import TestSelection.Expr.Printer

/-!
The grammar of requirement expressions, said without a parser. Chains of operators grow at their
left end, and a comparison has an operand of the next tighter level on either side, so that no
comparison is an operand of another one without parentheses. A derivation keeps with each token the
number of parentheses and unary operators that are open around it.
-/

namespace TestSelection

namespace Expr

/-- What a run of tokens can be read as. -/
inductive Symbol
  /-- Operands with operators of one level between them. -/
  | level (l : BinaryOp.Level)
  | unary
  /-- A name, a literal or an expression in parentheses. -/
  | primary
deriving DecidableEq

/-- The operands of a level. -/
def operandOf : BinaryOp.Level → Symbol
  | .disjunction => .level .conjunction
  | .conjunction => .level .comparison
  | .comparison => .level .sum
  | .sum => .level .product
  | .product => .unary

/-- What stands to the left of an operator: a chain may go on there, a comparison may not. -/
def leftOf (l : BinaryOp.Level) : Symbol :=
  if l = .comparison then operandOf l else .level l

/-- The tokens that are expressions by themselves. -/
inductive Leaf : Token → Expr → Prop
  | name {raw : String} (hend : ¬ ['.'] <:+ raw.toList) (hpair : ¬ ['.', '.'] <:+: raw.toList)
      (htrue : raw ≠ "true") (hfalse : raw ≠ "false") : Leaf (.name raw) (.name raw)
  | bool (b : Bool) : Leaf (.name (if b then "true" else "false")) (.bool b)
  | number {raw : String} {value : Decimal} (h : Decimal.ofText? raw = some value) :
      Leaf (.number raw) (.number value)
  | text (t : String) : Leaf (.text t) (.text t)

/-- A token with the number of parentheses and unary operators that are open around it. -/
abbrev EnclosedToken := Token × Nat

/-- The tokens with one more parenthesis or unary operator around them. -/
def enclose (ts : List EnclosedToken) : List EnclosedToken := ts.map fun t => (t.1, t.2 + 1)

/-- `Derives s ts e`: the symbol derives the tokens, and their tree is the expression. -/
inductive Derives : Symbol → List EnclosedToken → Expr → Prop
  | leaf {t : Token} {e : Expr} (h : Leaf t e) : Derives .primary [(t, 0)] e
  | paren {ts : List EnclosedToken} {e : Expr} (h : Derives (.level .disjunction) ts e) :
      Derives .primary ((.openParen, 0) :: enclose ts ++ [(.closeParen, 0)]) e
  | primary {ts : List EnclosedToken} {e : Expr} (h : Derives .primary ts e) : Derives .unary ts e
  | not {ts : List EnclosedToken} {e : Expr} (h : Derives .unary ts e) :
      Derives .unary ((.bang, 0) :: enclose ts) (.not e)
  | neg {ts : List EnclosedToken} {e : Expr} (h : Derives .unary ts e) :
      Derives .unary ((.operator .sub, 0) :: enclose ts) (.neg e)
  | operand {l : BinaryOp.Level} {ts : List EnclosedToken} {e : Expr}
      (h : Derives (operandOf l) ts e) : Derives (.level l) ts e
  | binary {op : BinaryOp} {ls rs : List EnclosedToken} {l r : Expr}
      (hl : Derives (leftOf op.level) ls l) (hr : Derives (operandOf op.level) rs r) :
      Derives (.level op.level) (ls ++ (.operator op, 0) :: rs) (.binary op l r)

theorem Derives.ne_nil {s : Symbol} {ts : List EnclosedToken} {e : Expr} (h : Derives s ts e) :
    ts ≠ [] := by
  induction h with
  | primary _ ih | operand _ ih => exact ih
  | binary _ _ _ _ => exact List.append_ne_nil_of_right_ne_nil _ (List.cons_ne_nil _ _)
  | leaf | paren | not | neg => exact List.cons_ne_nil _ _

/-- Located tokens that a symbol derives, where at most `depth` parentheses and unary operators are
open around each of them. -/
def Phrase (depth : Nat) (s : Symbol) (tokens : List LocatedToken) (e : Expr) : Prop :=
  ∃ ts, ts.map Prod.fst = tokens.map LocatedToken.token ∧ Derives s ts e ∧ ∀ t ∈ ts, t.2 ≤ depth

namespace Phrase

variable {depth : Nat} {s : Symbol} {tokens : List LocatedToken} {e : Expr}

theorem mono {deeper : Nat} (h : Phrase depth s tokens e) (hdepth : depth ≤ deeper) :
    Phrase deeper s tokens e := by
  obtain ⟨ts, htokens, hderives, hbound⟩ := h
  exact ⟨ts, htokens, hderives, fun t ht => (hbound t ht).trans hdepth⟩

theorem ne_nil (h : Phrase depth s tokens e) : tokens ≠ [] := by
  obtain ⟨ts, htokens, hderives, -⟩ := h
  rintro rfl
  exact hderives.ne_nil (List.map_eq_nil_iff.mp htokens)

theorem leaf {t : Token} (position : Nat) (h : Leaf t e) :
    Phrase depth .primary [⟨t, position⟩] e :=
  ⟨[(t, 0)], rfl, .leaf h, by simp⟩

theorem primary (h : Phrase depth .primary tokens e) : Phrase depth .unary tokens e := by
  obtain ⟨ts, htokens, hderives, hbound⟩ := h
  exact ⟨ts, htokens, .primary hderives, hbound⟩

theorem operand {l : BinaryOp.Level} (h : Phrase depth (operandOf l) tokens e) :
    Phrase depth (.level l) tokens e := by
  obtain ⟨ts, htokens, hderives, hbound⟩ := h
  exact ⟨ts, htokens, .operand hderives, hbound⟩

theorem map_fst_enclose (ts : List EnclosedToken) :
    (enclose ts).map Prod.fst = ts.map Prod.fst := by
  simp [enclose]

theorem enclose_le {ts : List EnclosedToken} (h : ∀ t ∈ ts, t.2 ≤ depth) :
    ∀ t ∈ enclose ts, t.2 ≤ depth + 1 := by
  intro t ht
  obtain ⟨t', ht', rfl⟩ := List.mem_map.mp ht
  exact Nat.succ_le_succ (h t' ht')

/-- What is enclosed is not empty, so a bound on it is a successor. -/
theorem exists_of_enclose_le {ts : List EnclosedToken} (hts : ts ≠ [])
    (h : ∀ t ∈ enclose ts, t.2 ≤ depth) : ∃ d, depth = d + 1 ∧ ∀ t ∈ ts, t.2 ≤ d := by
  have hmem : ∀ t ∈ ts, t.2 + 1 ≤ depth := fun t ht => h _ (List.mem_map_of_mem ht)
  obtain ⟨t, ht⟩ := List.exists_mem_of_ne_nil ts hts
  have hpos := hmem t ht
  obtain ⟨d, rfl⟩ : ∃ d, depth = d + 1 := ⟨depth - 1, by omega⟩
  exact ⟨d, rfl, fun t' ht' => Nat.le_of_succ_le_succ (hmem t' ht')⟩

theorem paren (p q : Nat) (h : Phrase depth (.level .disjunction) tokens e) :
    Phrase (depth + 1) .primary (⟨.openParen, p⟩ :: tokens ++ [⟨.closeParen, q⟩]) e := by
  obtain ⟨ts, htokens, hderives, hbound⟩ := h
  refine ⟨_, ?_, .paren hderives, ?_⟩
  · simp [map_fst_enclose, htokens]
  · intro t ht
    simp only [List.cons_append, List.mem_cons, List.mem_append, List.not_mem_nil, or_false] at ht
    rcases ht with rfl | ht | rfl
    · exact Nat.zero_le _
    · exact enclose_le hbound t ht
    · exact Nat.zero_le _

/-- A token that opens something around a phrase. -/
theorem enclosed {s' : Symbol} {e' : Expr} {t : Token} (p : Nat) (h : Phrase depth s tokens e)
    (hopen : ∀ ts, Derives s ts e → Derives s' ((t, 0) :: enclose ts) e') :
    Phrase (depth + 1) s' (⟨t, p⟩ :: tokens) e' := by
  obtain ⟨ts, htokens, hderives, hbound⟩ := h
  refine ⟨_, ?_, hopen ts hderives, ?_⟩
  · simp [map_fst_enclose, htokens]
  · intro t ht
    rcases List.mem_cons.mp ht with rfl | ht
    · exact Nat.zero_le _
    · exact enclose_le hbound t ht

theorem not (p : Nat) (h : Phrase depth .unary tokens e) :
    Phrase (depth + 1) .unary (⟨.bang, p⟩ :: tokens) (.not e) :=
  h.enclosed p fun _ => .not

theorem neg (p : Nat) (h : Phrase depth .unary tokens e) :
    Phrase (depth + 1) .unary (⟨.operator .sub, p⟩ :: tokens) (.neg e) :=
  h.enclosed p fun _ => .neg

theorem binary {op : BinaryOp} {left right : List LocatedToken} {l r : Expr} (p : Nat)
    (hl : Phrase depth (leftOf op.level) left l) (hr : Phrase depth (operandOf op.level) right r) :
    Phrase depth (.level op.level) (left ++ ⟨.operator op, p⟩ :: right) (.binary op l r) := by
  obtain ⟨ls, hleft, hls, hlbound⟩ := hl
  obtain ⟨rs, hright, hrs, hrbound⟩ := hr
  refine ⟨_, ?_, .binary hls hrs, ?_⟩
  · simp [hleft, hright]
  · intro t ht
    rcases List.mem_append.mp ht with ht | ht
    · exact hlbound t ht
    · rcases List.mem_cons.mp ht with rfl | ht
      · exact Nat.zero_le _
      · exact hrbound t ht

/-- The last step of a derivation of a level. -/
theorem level_cases {l : BinaryOp.Level} (h : Phrase depth (.level l) tokens e) :
    Phrase depth (operandOf l) tokens e ∨
    ∃ op left p right a b, op.level = l ∧ tokens = left ++ ⟨.operator op, p⟩ :: right ∧
      e = .binary op a b ∧ Phrase depth (leftOf l) left a ∧ Phrase depth (operandOf l) right b := by
  obtain ⟨ts, htokens, hderives, hbound⟩ := h
  cases hderives with
  | operand h => exact Or.inl ⟨ts, htokens, h, hbound⟩
  | @binary op ls rs a b hl hr =>
      rw [List.map_append, List.map_cons] at htokens
      obtain ⟨left, rest, rfl, hleft, hrest⟩ := List.map_eq_append_iff.mp htokens.symm
      obtain ⟨⟨t, p⟩, right, rfl, ht, hright⟩ := List.map_eq_cons_iff.mp hrest
      obtain rfl : t = .operator op := ht
      refine Or.inr ⟨op, left, p, right, a, b, rfl, rfl, rfl, ⟨ls, hleft.symm, hl, ?_⟩,
        ⟨rs, hright.symm, hr, ?_⟩⟩
      · exact fun t ht => hbound t (List.mem_append_left _ ht)
      · exact fun t ht => hbound t (List.mem_append_right _ (List.mem_cons_of_mem _ ht))

/-- The last step of a derivation of a primary. -/
theorem primary_cases (h : Phrase depth .primary tokens e) :
    (∃ t p, tokens = [⟨t, p⟩] ∧ Leaf t e) ∨
    ∃ d p inner q, depth = d + 1 ∧ tokens = ⟨.openParen, p⟩ :: inner ++ [⟨.closeParen, q⟩] ∧
      Phrase d (.level .disjunction) inner e := by
  obtain ⟨ts, htokens, hderives, hbound⟩ := h
  cases hderives with
  | @leaf t _ h =>
      obtain ⟨⟨t', p⟩, rest, rfl, ht, hrest⟩ := List.map_eq_cons_iff.mp htokens.symm
      obtain rfl : t' = t := ht
      obtain rfl := List.map_eq_nil_iff.mp hrest
      exact Or.inl ⟨t', p, rfl, h⟩
  | @paren ts _ h =>
      rw [List.cons_append, List.map_cons, List.map_append, map_fst_enclose] at htokens
      obtain ⟨⟨t, p⟩, rest, rfl, ht, hrest⟩ := List.map_eq_cons_iff.mp htokens.symm
      obtain ⟨inner, last, rfl, hinner, hlast⟩ := List.map_eq_append_iff.mp hrest
      obtain ⟨⟨t', q⟩, nothing, rfl, ht', hnothing⟩ := List.map_eq_cons_iff.mp hlast
      obtain rfl : t = .openParen := ht
      obtain rfl : t' = .closeParen := ht'
      obtain rfl := List.map_eq_nil_iff.mp hnothing
      obtain ⟨d, rfl, hd⟩ := exists_of_enclose_le h.ne_nil fun t ht =>
        hbound t (List.mem_append_left _ (List.mem_cons_of_mem _ ht))
      exact Or.inr ⟨d, p, inner, q, rfl, rfl, ts, hinner.symm, h, hd⟩

/-- The phrase behind a token that encloses all of it. -/
theorem of_enclosed {ts : List EnclosedToken} {t : Token} (hderives : Derives s ts e)
    (htokens : ((t, 0) :: enclose ts).map Prod.fst = tokens.map LocatedToken.token)
    (hbound : ∀ u ∈ (t, 0) :: enclose ts, u.2 ≤ depth) :
    ∃ d p inner, depth = d + 1 ∧ tokens = ⟨t, p⟩ :: inner ∧ Phrase d s inner e := by
  rw [List.map_cons, map_fst_enclose] at htokens
  obtain ⟨⟨t', p⟩, inner, rfl, ht, hinner⟩ := List.map_eq_cons_iff.mp htokens.symm
  obtain rfl : t' = t := ht
  obtain ⟨d, rfl, hd⟩ := exists_of_enclose_le hderives.ne_nil fun u hu =>
    hbound u (List.mem_cons_of_mem _ hu)
  exact ⟨d, p, inner, rfl, rfl, ts, hinner.symm, hderives, hd⟩

/-- The last step of a derivation of a unary. -/
theorem unary_cases (h : Phrase depth .unary tokens e) :
    Phrase depth .primary tokens e ∨
    (∃ d p inner a, depth = d + 1 ∧ tokens = ⟨.bang, p⟩ :: inner ∧ e = .not a ∧
      Phrase d .unary inner a) ∨
    ∃ d p inner a, depth = d + 1 ∧ tokens = ⟨.operator .sub, p⟩ :: inner ∧ e = .neg a ∧
      Phrase d .unary inner a := by
  obtain ⟨ts, htokens, hderives, hbound⟩ := h
  cases hderives with
  | primary h => exact Or.inl ⟨ts, htokens, h, hbound⟩
  | @not ts a h =>
      obtain ⟨d, p, inner, hdepth, hinner, hphrase⟩ := of_enclosed h htokens hbound
      exact Or.inr (Or.inl ⟨d, p, inner, a, hdepth, hinner, rfl, hphrase⟩)
  | @neg ts a h =>
      obtain ⟨d, p, inner, hdepth, hinner, hphrase⟩ := of_enclosed h htokens hbound
      exact Or.inr (Or.inr ⟨d, p, inner, a, hdepth, hinner, rfl, hphrase⟩)

end Phrase

end Expr

end TestSelection
