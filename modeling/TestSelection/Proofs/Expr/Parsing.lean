import TestSelection.Expr.Parser
import TestSelection.Proofs.Except
import TestSelection.Proofs.Expr.Grammar

/-!
The parser reads exactly the phrases of the grammar. Soundness: what a parser takes from the front
of the tokens is a phrase of its symbol. Completeness: it takes a phrase as a whole, if what
follows is no operator that could go on with it. Both are shown for one level over any parser of
the next tighter level, and for the operands by induction on how many parentheses and unary
operators may still be opened. From both together the grammar is unambiguous.
-/

namespace TestSelection

namespace Expr

/-! ### Leaves -/

theorem isPropertyName_iff (s : List Char) :
    isPropertyName s = true ↔ ¬ ['.'] <:+ s ∧ ¬ ['.', '.'] <:+: s := by
  fun_induction isPropertyName s with
  | case1 => simp
  | case2 => simp
  | case3 rest =>
      have hpair : ['.', '.'] <:+: '.' :: '.' :: rest := ⟨[], rest, rfl⟩
      simp [hpair]
  | case4 c s hend hpair ih =>
      have hs : ['.'] <:+ c :: s ↔ ['.'] <:+ s := by
        rw [List.suffix_cons_iff, or_iff_right]
        rintro heq
        obtain ⟨rfl, rfl⟩ := List.cons_eq_cons.mp heq
        exact hend rfl rfl
      have hi : ['.', '.'] <:+: c :: s ↔ ['.', '.'] <:+: s := by
        rw [List.infix_cons_iff, or_iff_right]
        intro hfront
        obtain ⟨rfl, rest, rfl⟩ := List.cons_prefix_cons.mp hfront
        exact hpair rest rfl rfl
      rw [ih, hs, hi]

/-- A leaf is one token; no other token is read where a leaf is expected. -/
theorem leaf_eq_ok {size : Nat} {tokens rest : List LocatedToken} {e : Expr} :
    leaf size tokens = .ok (e, rest) ↔ ∃ t p, tokens = ⟨t, p⟩ :: rest ∧ Leaf t e := by
  constructor
  · fun_cases leaf size tokens with
    | case1 p rest' =>
        rintro ⟨⟩
        exact ⟨_, p, rfl, .bool true⟩
    | case2 p rest' =>
        rintro ⟨⟩
        exact ⟨_, p, rfl, .bool false⟩
    | case3 raw p rest' htrue hfalse hname =>
        rintro ⟨⟩
        obtain ⟨hend, hpair⟩ := (isPropertyName_iff raw.toList).mp hname
        exact ⟨_, p, rfl, .name hend hpair htrue hfalse⟩
    | case5 raw p rest' value hvalue =>
        rintro ⟨⟩
        exact ⟨_, p, rfl, .number hvalue⟩
    | case7 t p rest' =>
        rintro ⟨⟩
        exact ⟨_, p, rfl, .text t⟩
    | case4 | case6 | case8 => exact fun h => nomatch h
  · rintro ⟨t, p, rfl, h⟩
    cases h with
    | @name raw hend hpair htrue hfalse =>
        have hname := (isPropertyName_iff raw.toList).mpr ⟨hend, hpair⟩
        rw [leaf, if_neg htrue, if_neg hfalse, if_pos hname]
    | bool b => cases b <;> rfl
    | number h => rw [leaf, h]
    | text t => rfl

/-! ### Soundness -/

/-- What a parser takes is a phrase. -/
def Sound (p : Parser) (depth : Nat) (s : Symbol) : Prop :=
  ∀ tokens rest e, p tokens = .ok (e, rest) →
    ∃ front, tokens = front ++ rest ∧ Phrase depth s front e

/-- What has been read so far grows by an operator and an operand at each turn. -/
theorem sound_chainFrom {next : Parser} {depth : Nat} {l : BinaryOp.Level}
    (hl : l ≠ .comparison) (hnext : Sound next depth (operandOf l))
    {turns front tokens rest : List LocatedToken} {left e : Expr}
    (hfront : Phrase depth (.level l) front left)
    (h : chainFrom l next turns left tokens = .ok (e, rest)) :
    ∃ taken, tokens = taken ++ rest ∧ Phrase depth (.level l) (front ++ taken) e := by
  fun_induction chainFrom l next turns left tokens generalizing front with
  | case2 turn turns left op p after hop ih =>
      obtain ⟨⟨right, after'⟩, hright, hrest⟩ := bind_eq_ok.mp h
      obtain ⟨operand, rfl, hoperand⟩ := hnext _ _ _ hright
      subst hop
      have hleft : Phrase depth (leftOf op.level) front left := by rwa [leftOf, if_neg hl]
      obtain ⟨taken, rfl, hphrase⟩ := ih right after' (hleft.binary p hoperand) hrest
      exact ⟨⟨.operator op, p⟩ :: operand ++ taken, by simp, by simpa using hphrase⟩
  | case1 | case3 | case4 =>
      obtain ⟨rfl, rfl⟩ := Prod.mk.inj (Except.ok.inj h)
      exact ⟨[], rfl, by rwa [List.append_nil]⟩

theorem sound_chain {next : Parser} {depth : Nat} {l : BinaryOp.Level}
    (hl : l ≠ .comparison) (hnext : Sound next depth (operandOf l)) :
    Sound (chain l next) depth (.level l) := by
  intro tokens rest e h
  obtain ⟨⟨first, after⟩, hfirst, hrest⟩ := bind_eq_ok.mp h
  obtain ⟨front, rfl, hfront⟩ := hnext _ _ _ hfirst
  obtain ⟨taken, rfl, hphrase⟩ := sound_chainFrom hl hnext hfront.operand hrest
  exact ⟨front ++ taken, (List.append_assoc ..).symm, hphrase⟩

theorem sound_comparison {next : Parser} {depth : Nat} (hnext : Sound next depth (.level .sum)) :
    Sound (comparison next) depth (.level .comparison) := by
  intro tokens rest e h
  obtain ⟨⟨left, after⟩, hleft, hrest⟩ := bind_eq_ok.mp h
  obtain ⟨front, rfl, hfront⟩ := hnext _ _ _ hleft
  have halone : Phrase depth (.level .comparison) front left :=
    Phrase.operand (l := .comparison) hfront
  dsimp only at hrest
  split at hrest
  · rename_i op p after'
    split at hrest
    · rename_i hop
      obtain ⟨⟨right, rest'⟩, hright, hpair⟩ := bind_eq_ok.mp hrest
      obtain ⟨rfl, rfl⟩ := Prod.mk.inj (Except.ok.inj hpair)
      obtain ⟨operand, rfl, hoperand⟩ := hnext _ _ _ hright
      have hphrase : Phrase depth (.level op.level) (front ++ ⟨.operator op, p⟩ :: operand)
          (.binary op left right) := by
        apply Phrase.binary <;> rw [hop]
        · exact hfront
        · exact hoperand
      exact ⟨front ++ ⟨.operator op, p⟩ :: operand, by simp, hop ▸ hphrase⟩
    · obtain ⟨rfl, rfl⟩ := Prod.mk.inj (Except.ok.inj hrest)
      exact ⟨front, rfl, halone⟩
  · obtain ⟨rfl, rfl⟩ := Prod.mk.inj (Except.ok.inj hrest)
    exact ⟨front, rfl, halone⟩

theorem sound_levels {operand : Parser} {depth : Nat} (h : Sound operand depth .unary) :
    Sound (levels operand) depth (.level .disjunction) :=
  sound_chain (by decide) (sound_chain (by decide) (sound_comparison
    (sound_chain (by decide) (sound_chain (by decide) h))))

theorem sound_leaf (size depth : Nat) : Sound (leaf size) depth .unary := by
  intro tokens rest e h
  obtain ⟨t, p, rfl, hleaf⟩ := leaf_eq_ok.mp h
  exact ⟨[⟨t, p⟩], rfl, (Phrase.leaf p hleaf).primary⟩

theorem closed_eq_ok {size : Nat} {x : Expr × List LocatedToken} {rest : List LocatedToken}
    {e : Expr} : closed size x = .ok (e, rest) ↔ ∃ p, x = (e, ⟨.closeParen, p⟩ :: rest) := by
  fun_cases closed size x with
  | case1 e' p rest' => simp
  | case2 e' tokens hnone =>
      constructor
      · exact fun h => nomatch h
      · rintro ⟨p, hx⟩
        exact absurd (Prod.mk.inj hx).2 (hnone p rest)

theorem sound_operand (size : Nat) : ∀ depth, Sound (operand size depth) depth .unary := by
  intro depth
  induction depth with
  | zero =>
      intro tokens rest e h
      simp only [operand] at h
      split at h
      · exact nomatch h
      · exact nomatch h
      · exact nomatch h
      · exact sound_leaf size 0 _ _ _ h
  | succ depth ih =>
      intro tokens rest e h
      simp only [operand] at h
      split at h
      · obtain ⟨⟨inner, rest'⟩, hinner, hpair⟩ := bind_eq_ok.mp h
        obtain ⟨rfl, rfl⟩ := Prod.mk.inj (Except.ok.inj hpair)
        obtain ⟨front, rfl, hfront⟩ := ih _ _ _ hinner
        exact ⟨_, rfl, hfront.not _⟩
      · obtain ⟨⟨inner, rest'⟩, hinner, hpair⟩ := bind_eq_ok.mp h
        obtain ⟨rfl, rfl⟩ := Prod.mk.inj (Except.ok.inj hpair)
        obtain ⟨front, rfl, hfront⟩ := ih _ _ _ hinner
        exact ⟨_, rfl, hfront.neg _⟩
      · rename_i p after
        obtain ⟨inner, hinner, hclosed⟩ := bind_eq_ok.mp h
        obtain ⟨q, rfl⟩ := closed_eq_ok.mp hclosed
        obtain ⟨front, rfl, hfront⟩ := sound_levels ih _ _ _ hinner
        exact ⟨⟨.openParen, p⟩ :: front ++ [⟨.closeParen, q⟩], by simp, (hfront.paren p q).primary⟩
      · exact sound_leaf size _ _ _ _ h

/-! ### Completeness -/

/-- The place of a symbol in the order of binding. -/
def Symbol.rank : Symbol → Nat
  | .level l => l.rank
  | .unary | .primary => unaryRank

theorem rank_operandOf (l : BinaryOp.Level) : (operandOf l).rank = l.rank + 1 := by
  cases l <;> rfl

theorem rank_lt_unaryRank (l : BinaryOp.Level) : l.rank < unaryRank := by
  cases l <;> decide

/-- An operator that comes next binds looser than the rank. -/
def Stops (rank : Nat) (tokens : List LocatedToken) : Prop :=
  ∀ op p rest, tokens = ⟨.operator op, p⟩ :: rest → op.level.rank < rank

theorem Stops.mono {rank tighter : Nat} {tokens : List LocatedToken} (h : Stops rank tokens)
    (hrank : rank ≤ tighter) : Stops tighter tokens :=
  fun op p rest heq => (h op p rest heq).trans_le hrank

theorem stops_nil (rank : Nat) : Stops rank [] :=
  fun _ _ _ h => nomatch h

theorem stops_operator {op : BinaryOp} {rank : Nat} (h : op.level.rank < rank) (p : Nat)
    (rest : List LocatedToken) : Stops rank (⟨.operator op, p⟩ :: rest) := by
  rintro op' p' rest' ⟨⟩
  exact h

theorem stops_closeParen (rank p : Nat) (rest : List LocatedToken) :
    Stops rank (⟨.closeParen, p⟩ :: rest) :=
  fun _ _ _ h => nomatch h

theorem Stops.level_ne {l : BinaryOp.Level} {op : BinaryOp} {p : Nat} {rest : List LocatedToken}
    (h : Stops l.rank (⟨.operator op, p⟩ :: rest)) : op.level ≠ l := by
  rintro rfl
  exact lt_irrefl _ (h op p rest rfl)

/-- A parser takes a phrase as a whole. -/
def Complete (p : Parser) (depth : Nat) (s : Symbol) : Prop :=
  ∀ front rest e, Phrase depth s front e → Stops s.rank rest → p (front ++ rest) = .ok (e, rest)

theorem chainFrom_of_stops {next : Parser} {l : BinaryOp.Level} {rest : List LocatedToken}
    (h : Stops l.rank rest) (turns : List LocatedToken) (e : Expr) :
    chainFrom l next turns e rest = .ok (e, rest) := by
  fun_cases chainFrom l next turns e rest with
  | case2 => exact absurd ‹_› h.level_ne
  | case1 | case3 | case4 => rfl

/-- A chain is read up to its end with its tree as the left operand of what may follow. -/
theorem chain_append {next : Parser} {depth : Nat} {l : BinaryOp.Level} (hl : l ≠ .comparison)
    (hnext : Complete next depth (operandOf l)) {front rest : List LocatedToken} {e : Expr}
    (h : Phrase depth (.level l) front e) (hrest : Stops (l.rank + 1) rest) :
    ∃ turns, rest.length ≤ turns.length ∧
      chain l next (front ++ rest) = chainFrom l next turns e rest := by
  have hrank := rank_operandOf l
  induction hn : front.length using Nat.strong_induction_on generalizing front rest e with
  | _ n ih =>
      rcases h.level_cases with h | ⟨op, left, p, right, a, b, rfl, rfl, rfl, hleft, hright⟩
      · refine ⟨rest, le_rfl, ?_⟩
        rw [chain, hnext front rest e h (hrank ▸ hrest)]
        rfl
      · rw [leftOf, if_neg hl] at hleft
        have hlt : left.length < n := by
          rw [← hn, List.length_append, List.length_cons]
          omega
        have hop : Stops (op.level.rank + 1) (⟨.operator op, p⟩ :: right ++ rest) :=
          stops_operator (Nat.lt_succ_self _) p _
        obtain ⟨turns, hturns, hchain⟩ := ih left.length hlt hleft hop rfl
        obtain ⟨turn, turns, rfl⟩ : ∃ t ts, turns = t :: ts :=
          List.exists_cons_of_length_pos (lt_of_lt_of_le (Nat.succ_pos _) hturns)
        refine ⟨turns, ?_, ?_⟩
        · simp only [List.cons_append, List.length_cons, List.length_append] at hturns
          omega
        · rw [List.append_assoc, hchain, List.cons_append, chainFrom, if_pos rfl,
            hnext right rest b hright (hrank ▸ hrest)]
          rfl

theorem complete_chain {next : Parser} {depth : Nat} {l : BinaryOp.Level} (hl : l ≠ .comparison)
    (hnext : Complete next depth (operandOf l)) : Complete (chain l next) depth (.level l) := by
  intro front rest e h hrest
  obtain ⟨turns, -, hchain⟩ := chain_append hl hnext h (hrest.mono (Nat.le_succ _))
  rw [hchain, chainFrom_of_stops hrest]

theorem comparison_of_stops {next : Parser} {tokens rest : List LocatedToken} {e : Expr}
    (h : next tokens = .ok (e, rest)) (hrest : Stops BinaryOp.Level.comparison.rank rest) :
    comparison next tokens = .ok (e, rest) := by
  simp only [comparison, h, bind, Except.bind]
  split
  · rw [if_neg hrest.level_ne]
    rfl
  · rfl

theorem complete_comparison {next : Parser} {depth : Nat}
    (hnext : Complete next depth (.level .sum)) :
    Complete (comparison next) depth (.level .comparison) := by
  intro front rest e h hrest
  rcases h.level_cases with h | ⟨op, left, p, right, a, b, hop, rfl, rfl, hleft, hright⟩
  · exact comparison_of_stops (hnext front rest e h (hrest.mono (by decide))) hrest
  · have hstops : Stops BinaryOp.Level.sum.rank (⟨.operator op, p⟩ :: right ++ rest) :=
      stops_operator (by rw [hop]; decide) p _
    rw [comparison, List.append_assoc, hnext left _ a hleft hstops]
    change (if op.level = .comparison then next (right ++ rest) >>= _ else _) = _
    rw [if_pos hop, hnext right rest b hright (hrest.mono (by decide))]
    rfl

theorem complete_levels {operand : Parser} {depth : Nat} (h : Complete operand depth .unary) :
    Complete (levels operand) depth (.level .disjunction) :=
  complete_chain (by decide) (complete_chain (by decide) (complete_comparison
    (complete_chain (by decide) (complete_chain (by decide) h))))

/-- Where a leaf comes next, an operand is that leaf, however much may still be opened. -/
theorem operand_leaf (size depth : Nat) {t : Token} {e : Expr} (h : Leaf t e) (p : Nat)
    (rest : List LocatedToken) : operand size depth (⟨t, p⟩ :: rest) = .ok (e, rest) := by
  have hleaf : leaf size (⟨t, p⟩ :: rest) = .ok (e, rest) := leaf_eq_ok.mpr ⟨t, p, rfl, h⟩
  cases depth <;> cases h <;> exact hleaf

theorem complete_operand (size : Nat) : ∀ depth, Complete (operand size depth) depth .unary := by
  intro depth
  induction depth with
  | zero =>
      intro front rest e h _
      rcases h.unary_cases with h | ⟨d, _, _, _, hd, _⟩ | ⟨d, _, _, _, hd, _⟩
      · rcases h.primary_cases with ⟨t, p, rfl, hleaf⟩ | ⟨d, _, _, _, hd, _⟩
        · exact operand_leaf size 0 hleaf p rest
        · exact absurd hd (Nat.succ_ne_zero d).symm
      · exact absurd hd (Nat.succ_ne_zero d).symm
      · exact absurd hd (Nat.succ_ne_zero d).symm
  | succ depth ih =>
      intro front rest e h hrest
      rcases h.unary_cases with
        h | ⟨d, p, inner, a, hd, rfl, rfl, ha⟩ | ⟨d, p, inner, a, hd, rfl, rfl, ha⟩
      · rcases h.primary_cases with ⟨t, p, rfl, hleaf⟩ | ⟨d, p, inner, q, hd, rfl, he⟩
        · exact operand_leaf size _ hleaf p rest
        · obtain rfl := Nat.succ.inj hd
          have hinner := complete_levels ih inner (⟨.closeParen, q⟩ :: rest) e he
            (stops_closeParen _ q rest)
          rw [List.cons_append, List.cons_append, List.append_assoc]
          change levels (operand size depth) (inner ++ ⟨.closeParen, q⟩ :: rest) >>= closed size = _
          rw [hinner]
          rfl
      · obtain rfl := Nat.succ.inj hd
        change operand size depth (inner ++ rest) >>= _ = _
        rw [ih inner rest a ha hrest]
        rfl
      · obtain rfl := Nat.succ.inj hd
        change operand size depth (inner ++ rest) >>= _ = _
        rw [ih inner rest a ha hrest]
        rfl

/-! ### Texts -/

theorem ofTokens_eq_ok {size : Nat} {tokens : List LocatedToken} {e : Expr} :
    ofTokens size tokens = .ok e ↔ Phrase maxExprNesting (.level .disjunction) tokens e := by
  constructor
  · intro h
    obtain ⟨⟨e', rest⟩, hlevels, hend⟩ := bind_eq_ok.mp h
    obtain ⟨front, rfl, hfront⟩ := sound_levels (sound_operand size _) _ _ _ hlevels
    cases rest with
    | nil =>
        obtain rfl := Except.ok.inj hend
        rwa [List.append_nil]
    | cons => exact nomatch hend
  · intro h
    have hlevels := complete_levels (complete_operand size _) tokens [] e h (stops_nil _)
    rw [List.append_nil] at hlevels
    rw [ofTokens, hlevels]
    rfl

/-- Each run of tokens has at most one tree, however deep it nests. -/
theorem Phrase.unique {d d' : Nat} {tokens : List LocatedToken} {e e' : Expr}
    (h : Phrase d (.level .disjunction) tokens e) (h' : Phrase d' (.level .disjunction) tokens e') :
    e = e' := by
  have hparse : ∀ {e}, Phrase (max d d') (.level .disjunction) tokens e →
      levels (Expr.operand 0 (max d d')) (tokens ++ []) = .ok (e, []) :=
    fun h => complete_levels (complete_operand 0 _) tokens [] _ h (stops_nil _)
  have he := hparse (h.mono (le_max_left d d'))
  rw [hparse (h'.mono (le_max_right d d'))] at he
  exact (Prod.mk.inj (Except.ok.inj he)).1.symm

theorem parse_eq_ok {text : String} {e : Expr} :
    parse text = .ok e ↔ text.utf8ByteSize ≤ maxExprBytes ∧
      ∃ tokens, LocatedToken.ofText text = .ok tokens ∧ tokens ≠ [] ∧
        ofTokens text.utf8ByteSize tokens = .ok e := by
  by_cases hsize : maxExprBytes < text.utf8ByteSize
  · have hparse : parse text = .error (.tooLarge text.utf8ByteSize) := by
      simp only [parse, if_pos hsize]
      rfl
    rw [hparse]
    exact ⟨(nomatch ·), fun h => absurd hsize (not_lt.mpr h.1)⟩
  · simp only [parse, if_neg hsize, bind_eq_ok, not_lt.mp hsize, true_and]
    refine exists_congr fun tokens => and_congr_right fun _ => ?_
    cases tokens with
    | nil => simp [throw, throwThe, MonadExceptOf.throw]
    | cons => simp

/-- What the grammar and its limits ask of a text that stands for an expression. -/
structure Grammatical (text : String) (e : Expr) : Prop where
  size : text.utf8ByteSize ≤ 65536
  derives : ∃ tokens, LocatedToken.ofText text = .ok tokens ∧ tokens ≠ [] ∧
    ∃ ts : List EnclosedToken, ts.map Prod.fst = tokens.map LocatedToken.token ∧
      Derives (.level .disjunction) ts e ∧ ∀ t ∈ ts, t.2 ≤ 32

/-- A text is read as an expression exactly if the grammar gives it that expression, and it gives
no text two of them. -/
theorem parse_eq_ok_iff_grammatical :
    (∀ text e, parse text = .ok e ↔ Grammatical text e) ∧
    ∀ text e e', Grammatical text e → Grammatical text e' → e = e' := by
  constructor
  · intro text e
    rw [parse_eq_ok]
    constructor
    · rintro ⟨hsize, tokens, htokens, hne, hread⟩
      exact ⟨hsize, tokens, htokens, hne, ofTokens_eq_ok.mp hread⟩
    · rintro ⟨hsize, tokens, htokens, hne, hphrase⟩
      exact ⟨hsize, tokens, htokens, hne, ofTokens_eq_ok.mpr hphrase⟩
  · rintro text e e' ⟨-, tokens, htokens, -, hphrase⟩ ⟨-, tokens', htokens', -, hphrase'⟩
    obtain rfl := Except.ok.inj (htokens.symm.trans htokens')
    exact Phrase.unique hphrase hphrase'

/-- Differences are grouped to the left, and not to the right. -/
theorem grammatical_difference :
    Grammatical "a-b-c" (.binary .sub (.binary .sub (.name "a") (.name "b")) (.name "c")) ∧
    parse "a-b-c" = .ok (.binary .sub (.binary .sub (.name "a") (.name "b")) (.name "c")) ∧
    ¬ Grammatical "a-b-c"
      (.binary .sub (.name "a") (.binary .sub (.name "b") (.name "c"))) := by
  have hname : ∀ n ∈ ["a", "b", "c"], Leaf (.name n) (.name n) := by
    intro n hn
    simp only [List.mem_cons, List.not_mem_nil, or_false] at hn
    rcases hn with rfl | rfl | rfl <;> exact .name (by decide) (by decide) (by decide) (by decide)
  have hproduct : ∀ n ∈ ["a", "b", "c"], Derives (.level .product) [(.name n, 0)] (.name n) :=
    fun n hn => .operand (.primary (.leaf (hname n hn)))
  have hleft : Grammatical "a-b-c"
      (.binary .sub (.binary .sub (.name "a") (.name "b")) (.name "c")) := by
    refine ⟨by decide, [⟨.name "a", 0⟩, ⟨.operator .sub, 1⟩, ⟨.name "b", 2⟩,
      ⟨.operator .sub, 3⟩, ⟨.name "c", 4⟩], by decide +kernel, by decide,
      [(.name "a", 0), (.operator .sub, 0), (.name "b", 0), (.operator .sub, 0), (.name "c", 0)],
      rfl, ?_, by decide⟩
    have hfirst : Derives (.level .sum) [(.name "a", 0), (.operator .sub, 0), (.name "b", 0)]
        (.binary .sub (.name "a") (.name "b")) :=
      @Derives.binary .sub _ _ _ _ (.operand (hproduct "a" (by decide)))
        (hproduct "b" (by decide))
    have hboth : Derives (.level .sum) _ _ :=
      @Derives.binary .sub _ _ _ _ hfirst (hproduct "c" (by decide))
    exact .operand (.operand (.operand hboth))
  refine ⟨hleft, (parse_eq_ok_iff_grammatical.1 _ _).mpr hleft, fun hright => ?_⟩
  exact absurd (parse_eq_ok_iff_grammatical.2 _ _ _ hleft hright) (by decide)

end Expr

end TestSelection
