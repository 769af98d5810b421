import TestSelection.Proofs.Decimal.Notation
import TestSelection.Proofs.Expr.Spelling
import TestSelection.Proofs.Expr.Writing

/-!
Written expressions are read back. An operand that binds as tightly as its place asks for is a
phrase there as it is, any other is one between parentheses; so the tokens of an expression are a
phrase with its tree. Conversely no phrase with that tree nests less, so the limit on nesting is met
exactly if the nesting of the written text meets it.
-/

namespace TestSelection

namespace Expr

/-- The names that can be written: letters, digits, underscores and points, where the first is a
letter or an underscore and each point has something else behind it. -/
structure DottedName (n : String) : Prop where
  first : ∃ c ∈ n.toList.head?, Token.startsName c = true
  rest : ∀ c ∈ n.toList.tail, Token.continuesName c = true
  hend : ¬ ['.'] <:+ n.toList
  hpair : ¬ ['.', '.'] <:+: n.toList
  htrue : n ≠ "true"
  hfalse : n ≠ "false"

/-- Expressions of dotted names, any texts and numbers that are not negative. -/
def Writable : Expr → Prop
  | name n => DottedName n
  | number d => 0 ≤ d.unscaled
  | text _ | bool _ => True
  | not e | neg e => e.Writable
  | binary _ l r => l.Writable ∧ r.Writable

/-- The same tree, with numbers of the same values. -/
inductive SameTree : Expr → Expr → Prop
  | name (n : String) : SameTree (.name n) (.name n)
  | text (t : String) : SameTree (.text t) (.text t)
  | number {d d' : Decimal} (h : d.toRat = d'.toRat) : SameTree (.number d) (.number d')
  | bool (b : Bool) : SameTree (.bool b) (.bool b)
  | not {e e' : Expr} (h : SameTree e e') : SameTree (.not e) (.not e')
  | neg {e e' : Expr} (h : SameTree e e') : SameTree (.neg e) (.neg e')
  | binary {l l' r r' : Expr} (op : BinaryOp) (hl : SameTree l l') (hr : SameTree r r') :
      SameTree (.binary op l r) (.binary op l' r')

/-- How many parentheses and unary operators are open at once in the tokens at a place. -/
def nestingAt (place : Nat) : Expr → Nat
  | name _ | text _ | number _ | bool _ => 0
  | not e | neg e => e.nestingAt unaryRank + 1
  | binary op l r =>
    max (l.nestingAt op.leftRank) (r.nestingAt op.rightRank) +
      if op.level.rank < place then 1 else 0

def nesting (e : Expr) : Nat := e.nestingAt 0

/-! ### Tokens -/

variable {place tighter depth : Nat} {s s' : Symbol} {e e' : Expr}

theorem mem_fence {rank : Nat} {ts : List Token} {t : Token} (h : t ∈ fence place rank ts) :
    t = .openParen ∨ t ∈ ts ∨ t = .closeParen := by
  rw [fence] at h
  split at h
  · simpa using h
  · exact Or.inr (Or.inl h)

theorem spellable_of_mem_fence {rank : Nat} {ts : List Token} (h : ∀ t ∈ ts, t.Spellable) :
    ∀ t ∈ fence place rank ts, t.Spellable := by
  intro t ht
  rcases mem_fence ht with rfl | ht | rfl
  · trivial
  · exact h t ht
  · trivial

theorem spellable_plain {d : Decimal} (h : 0 ≤ d.unscaled) : (Token.number d.plain).Spellable := by
  obtain ⟨d', hd', -⟩ := Decimal.exists_denotes_plain h
  obtain ⟨hne, hfirst, -⟩ := hd'.ends
  obtain ⟨c, rest, hplain⟩ := List.exists_cons_of_ne_nil hne
  refine ⟨c, rest, hplain, hfirst c (by rw [hplain]; rfl), fun d hd => ?_⟩
  rcases hd'.isDigit_or_eq d (by rw [hplain]; exact List.mem_cons_of_mem c hd) with hdigit | rfl
  · simp [Token.continuesNumber, Char.isAlphanum, hdigit]
  · rfl

theorem DottedName.spellable {n : String} (h : DottedName n) : (Token.name n).Spellable := by
  obtain ⟨c, hc, hstart⟩ := h.first
  obtain ⟨rest, hn⟩ := List.head?_eq_some_iff.mp hc
  exact ⟨c, rest, hn, hstart, fun d hd => h.rest d (by rw [hn]; exact hd)⟩

theorem spellable_bool (b : Bool) : (Token.name (if b then "true" else "false")).Spellable := by
  cases b with
  | true => exact ⟨'t', ['r', 'u', 'e'], rfl, by decide, List.all_eq_true.mp rfl⟩
  | false => exact ⟨'f', ['a', 'l', 's', 'e'], rfl, by decide, List.all_eq_true.mp rfl⟩

theorem spellable_of_mem_tokensAt (h : e.Writable) : ∀ t ∈ e.tokensAt place, t.Spellable := by
  induction e generalizing place with
  | name n => exact List.forall_mem_singleton.mpr (DottedName.spellable h)
  | text t => exact List.forall_mem_singleton.mpr trivial
  | number d => exact List.forall_mem_singleton.mpr (spellable_plain h)
  | bool b => exact List.forall_mem_singleton.mpr (spellable_bool b)
  | not e ih | neg e ih =>
      exact spellable_of_mem_fence (List.forall_mem_cons.mpr ⟨trivial, ih h⟩)
  | binary op l r ihl ihr =>
      refine spellable_of_mem_fence (List.forall_mem_append.mpr ⟨ihl h.1, ?_⟩)
      exact List.forall_mem_cons.mpr ⟨trivial, ihr h.2⟩

theorem lexes_written (h : e.Writable) : Token.Lexes e.written.toList e.tokens := by
  rw [written, String.toList_ofList]
  exact Token.lexes_spellings e.tokens (spellable_of_mem_tokensAt h)

/-! ### Reading back -/

theorem rank_leftOf (op : BinaryOp) : (leftOf op.level).rank = op.leftRank := by
  rw [leftOf, BinaryOp.leftRank]
  split
  · exact rank_operandOf op.level
  · rfl

theorem rank_pos (s : Symbol) : 0 < s.rank := by
  cases s with
  | level l => cases l <;> decide
  | unary | primary => decide

theorem rank_le_unaryRank (s : Symbol) : s.rank ≤ unaryRank := by
  cases s with
  | level l => exact (rank_lt_unaryRank l).le
  | unary | primary => exact le_rfl

theorem rank_le_operandOf (l : BinaryOp.Level) : l.rank ≤ (operandOf l).rank := by
  rw [rank_operandOf]
  exact Nat.le_succ _

theorem operandOf_ne_primary (l : BinaryOp.Level) : operandOf l ≠ .primary := by
  cases l <;> decide

theorem leftOf_ne_primary (l : BinaryOp.Level) : leftOf l ≠ .primary := by
  cases l <;> decide

theorem eq_of_rank_eq (hs : s ≠ .primary) (hs' : s' ≠ .primary) (h : s.rank = s'.rank) :
    s = s' := by
  cases s with
  | level l =>
      cases s' with
      | level l' => cases l <;> cases l' <;> first | rfl | exact absurd h (by decide)
      | unary => exact absurd h (rank_lt_unaryRank l).ne
      | primary => exact absurd rfl hs'
  | unary =>
      cases s' with
      | level l => exact absurd h (rank_lt_unaryRank l).ne'
      | unary => rfl
      | primary => exact absurd rfl hs'
  | primary => exact absurd rfl hs

/-- What a symbol derives is derived by every symbol that binds looser. -/
theorem Phrase.loosen {tokens : List LocatedToken} (h : Phrase depth s tokens e)
    (hs : s ≠ .primary) (hs' : s' ≠ .primary) (hrank : s'.rank ≤ s.rank) :
    Phrase depth s' tokens e := by
  -- The induction is on how much looser the other symbol binds.
  induction hn : s.rank - s'.rank generalizing s' with
  | zero =>
      have heq : s.rank = s'.rank := by omega
      rwa [← eq_of_rank_eq hs hs' heq]
  | succ n ih =>
      cases s' with
      | level l =>
          have hoperand : (operandOf l).rank = (Symbol.level l).rank + 1 := rank_operandOf l
          exact (ih (operandOf_ne_primary l) (by omega) (by omega)).operand
      | unary =>
          have hle : s.rank ≤ Symbol.unary.rank := rank_le_unaryRank s
          omega
      | primary => exact absurd rfl hs'

/-- Tokens that stand anywhere. -/
def unplaced (ts : List Token) : List LocatedToken := ts.map fun t => ⟨t, 0⟩

theorem map_token_unplaced (ts : List Token) :
    (unplaced ts).map LocatedToken.token = ts := by
  rw [unplaced, List.map_map]
  exact List.map_id' ts

/-- Parentheses where a place asks for them make a phrase of what stands there. -/
theorem Phrase.fence {ts : List Token} (h : Phrase depth s (unplaced ts) e) (hs : s ≠ .primary)
    (hs' : s' ≠ .primary) :
    Phrase (depth + if s.rank < s'.rank then 1 else 0) s'
      (unplaced (Expr.fence s'.rank s.rank ts)) e := by
  rw [Expr.fence]
  split
  · have hinner : Phrase depth (.level .disjunction) (unplaced ts) e :=
      h.loosen hs (by decide) (rank_pos s)
    have hparen := (hinner.paren 0 0).primary.loosen (by decide) hs' (rank_le_unaryRank s')
    simpa [unplaced] using hparen
  · rename_i hrank
    exact h.loosen hs hs' (not_lt.mp hrank)

theorem Phrase.fence_unary {ts : List Token} (h : Phrase depth .unary (unplaced ts) e)
    (hs : s ≠ .primary) : Phrase depth s (unplaced (Expr.fence s.rank unaryRank ts)) e := by
  have hrank : ¬ Symbol.unary.rank < s.rank := not_lt.mpr (rank_le_unaryRank s)
  have hfence := h.fence (by decide) hs
  rwa [if_neg hrank] at hfence

theorem Leaf.phrase {t : Token} (h : Leaf t e) (hs : s ≠ .primary) :
    Phrase 0 s (unplaced [t]) e :=
  (Phrase.leaf 0 h).primary.loosen (by decide) hs (rank_le_unaryRank s)

theorem exists_leaf_number {d : Decimal} (h : 0 ≤ d.unscaled) :
    ∃ d' : Decimal, d.toRat = d'.toRat ∧ Leaf (.number d.plain) (.number d') := by
  obtain ⟨d', hd', hvalue⟩ := Decimal.exists_denotes_plain h
  refine ⟨d'.times 1, ?_, .number hd'.readChars?⟩
  rw [Decimal.toRat_times, Nat.cast_one, mul_one, hvalue]

/-- The tokens at a place are a phrase there. -/
theorem exists_phrase (h : e.Writable) :
    ∃ e', SameTree e e' ∧ ∀ s, s ≠ .primary →
      Phrase (e.nestingAt s.rank) s (unplaced (e.tokensAt s.rank)) e' := by
  induction e with
  | name n =>
      exact ⟨_, .name n, fun s => (Leaf.name h.hend h.hpair h.htrue h.hfalse).phrase⟩
  | text t => exact ⟨_, .text t, fun s => (Leaf.text t).phrase⟩
  | number d =>
      obtain ⟨d', hvalue, hleaf⟩ := exists_leaf_number h
      exact ⟨_, .number hvalue, fun s => hleaf.phrase⟩
  | bool b => exact ⟨_, .bool b, fun s => (Leaf.bool b).phrase⟩
  | not e ih =>
      obtain ⟨e', hsame, hphrase⟩ := ih h
      exact ⟨_, .not hsame, fun s => ((hphrase .unary (by decide)).not 0).fence_unary⟩
  | neg e ih =>
      obtain ⟨e', hsame, hphrase⟩ := ih h
      exact ⟨_, .neg hsame, fun s => ((hphrase .unary (by decide)).neg 0).fence_unary⟩
  | binary op l r ihl ihr =>
      obtain ⟨l', hl, hleft⟩ := ihl h.1
      obtain ⟨r', hr, hright⟩ := ihr h.2
      refine ⟨_, .binary op hl hr, fun s hs => ?_⟩
      have hleft := hleft (leftOf op.level) (leftOf_ne_primary op.level)
      have hright := hright (operandOf op.level) (operandOf_ne_primary op.level)
      rw [rank_leftOf] at hleft
      rw [rank_operandOf] at hright
      have hboth := (hleft.mono (le_max_left _ _)).binary 0 (hright.mono (le_max_right _ _))
      have hwhole : unplaced (l.tokensAt op.leftRank) ++
          ⟨.operator op, 0⟩ :: unplaced (r.tokensAt (op.level.rank + 1)) =
          unplaced (l.tokensAt op.leftRank ++ .operator op :: r.tokensAt op.rightRank) := by
        rw [unplaced, unplaced, unplaced, List.map_append, List.map_cons]
        rfl
      rw [hwhole] at hboth
      exact hboth.fence (nomatch ·) hs

/-! ### Nothing is written in vain -/

theorem nestingAt_mono (h : place ≤ tighter) : e.nestingAt place ≤ e.nestingAt tighter := by
  cases e with
  | binary op l r =>
      simp only [nestingAt]
      split_ifs <;> omega
  | _ => exact le_rfl

theorem nestingAt_le_succ : e.nestingAt tighter ≤ e.nestingAt place + 1 := by
  cases e with
  | binary op l r =>
      simp only [nestingAt]
      split_ifs <;> omega
  | _ => exact Nat.le_succ _

/-- No phrase with the tree of an expression nests less than its tokens. -/
theorem Derives.nestingAt_le {ts : List EnclosedToken} (h : Derives s ts e)
    (hbound : ∀ t ∈ ts, t.2 ≤ depth) : e.nestingAt s.rank ≤ depth := by
  induction h generalizing depth with
  | leaf h => cases h <;> exact Nat.zero_le _
  | paren h ih =>
      obtain ⟨d, rfl, hd⟩ := Phrase.exists_of_enclose_le h.ne_nil fun t ht =>
        hbound t (List.mem_append_left _ (List.mem_cons_of_mem _ ht))
      exact nestingAt_le_succ.trans (Nat.succ_le_succ (ih hd))
  | primary h ih => exact ih hbound
  | not h ih | neg h ih =>
      obtain ⟨d, rfl, hd⟩ := Phrase.exists_of_enclose_le h.ne_nil fun t ht =>
        hbound t (List.mem_cons_of_mem _ ht)
      exact Nat.succ_le_succ (ih hd)
  | @operand l _ _ h ih => exact (nestingAt_mono (rank_le_operandOf l)).trans (ih hbound)
  | @binary op _ _ l r hl hr ihl ihr =>
      have hleft := ihl fun t ht => hbound t (List.mem_append_left _ ht)
      have hright := ihr fun t ht =>
        hbound t (List.mem_append_right _ (List.mem_cons_of_mem _ ht))
      rw [rank_leftOf] at hleft
      rw [rank_operandOf] at hright
      change max _ _ + (if op.level.rank < op.level.rank then 1 else 0) ≤ depth
      rw [if_neg (lt_irrefl _)]
      exact max_le hleft hright

theorem SameTree.nestingAt_eq (h : SameTree e e') (place : Nat) :
    e'.nestingAt place = e.nestingAt place := by
  induction h generalizing place with
  | name | text | number | bool => rfl
  | not h ih | neg h ih => simp only [nestingAt, ih]
  | binary op hl hr ihl ihr => simp only [nestingAt, ihl, ihr]

/-! ### What is read can be written -/

theorem Leaf.writable {t : Token} (h : Leaf t e) (ht : t.Spellable) : e.Writable := by
  cases h with
  | name hend hpair htrue hfalse =>
      obtain ⟨c, rest, hraw, hstart, hrest⟩ := ht
      refine ⟨⟨c, by rw [hraw]; rfl, hstart⟩, ?_, hend, hpair, htrue, hfalse⟩
      rw [hraw]
      exact hrest
  | bool | text => trivial
  | number h =>
      obtain ⟨c, rest, hraw, hdigit, hrest⟩ := ht
      refine Decimal.readChars?_nonneg (fun hminus => ?_) h
      rw [hraw] at hminus
      rcases List.mem_cons.mp hminus with rfl | hminus
      · exact absurd hdigit (by decide)
      · exact absurd (hrest '-' hminus) (by decide)

theorem Derives.writable {ts : List EnclosedToken} (h : Derives s ts e)
    (hts : ∀ t ∈ ts.map Prod.fst, t.Spellable) : e.Writable := by
  induction h with
  | leaf h => exact h.writable (hts _ List.mem_cons_self)
  | paren h ih =>
      rw [List.cons_append, List.map_cons, List.map_append, Phrase.map_fst_enclose] at hts
      exact ih fun t ht => hts t (List.mem_cons_of_mem _ (List.mem_append_left _ ht))
  | primary h ih | operand h ih => exact ih hts
  | not h ih | neg h ih =>
      rw [List.map_cons, Phrase.map_fst_enclose] at hts
      exact ih fun t ht => hts t (List.mem_cons_of_mem _ ht)
  | binary hl hr ihl ihr =>
      rw [List.map_append, List.map_cons] at hts
      exact ⟨ihl fun t ht => hts t (List.mem_append_left _ ht),
        ihr fun t ht => hts t (List.mem_append_right _ (List.mem_cons_of_mem _ ht))⟩

/-- Every expression that is read can be written. -/
theorem writable_of_parse {text : String} (h : parse text = .ok e) : e.Writable := by
  obtain ⟨-, tokens, htokens, -, hread⟩ := parse_eq_ok.mp h
  obtain ⟨ts, hts, hderives, -⟩ := ofTokens_eq_ok.mp hread
  refine hderives.writable fun t ht => ?_
  obtain ⟨located, hlocated, rfl⟩ := List.mem_map.mp (hts ▸ ht)
  exact Token.spellable_of_readAll htokens located hlocated

/-! ### Texts -/

/-- At the outermost place there is nothing that binds too loosely. -/
theorem nestingAt_one (e : Expr) : e.nestingAt 1 = e.nesting := by
  cases e with
  | binary op l r =>
      have hrank : ¬ op.level.rank < 1 := not_lt.mpr (rank_pos (.level op.level))
      simp only [nesting, nestingAt, if_neg hrank, if_neg (Nat.not_lt_zero _)]
  | _ => rfl

theorem tokensAt_one (e : Expr) : e.tokensAt 1 = e.tokens := by
  cases e with
  | binary op l r =>
      have hrank : ¬ op.level.rank < 1 := not_lt.mpr (rank_pos (.level op.level))
      simp only [tokens, tokensAt, fence, if_neg hrank, if_neg (Nat.not_lt_zero _)]
  | _ => rfl

/-- A written expression is read as the same tree, if its text is neither too long nor too deep. -/
theorem parse_written (h : e.Writable) :
    ∃ e', SameTree e e' ∧ ∀ t, parse e.written = .ok t ↔
      t = e' ∧ e.written.utf8ByteSize ≤ 65536 ∧ e.nesting ≤ 32 := by
  obtain ⟨e', hsame, hphrase⟩ := exists_phrase h
  refine ⟨e', hsame, fun t => ?_⟩
  have hlexes : Token.Lexes e.written.toList ((unplaced e.tokens).map LocatedToken.token) := by
    rw [map_token_unplaced]
    exact lexes_written h
  have hspells : Spells e.nesting e.written e' := by
    have houter := hphrase (.level .disjunction) (by decide)
    change Phrase (e.nestingAt 1) _ (unplaced (e.tokensAt 1)) e' at houter
    rw [nestingAt_one, tokensAt_one] at houter
    exact (spells_iff_phrase hlexes).mpr houter
  rw [parse_eq_ok_iff_spells]
  constructor
  · rintro ⟨hsize, hread⟩
    obtain rfl := hread.unique hspells
    obtain ⟨ts, -, hderives, hbound⟩ := (spells_iff_phrase hlexes).mp hread
    have hnesting : t.nestingAt 1 ≤ 32 := hderives.nestingAt_le hbound
    rw [hsame.nestingAt_eq, nestingAt_one] at hnesting
    exact ⟨rfl, hsize, hnesting⟩
  · rintro ⟨rfl, hsize, hnesting⟩
    exact ⟨hsize, hspells.mono hnesting⟩

/-- A comparison as an operand of another one and a difference to the right of a minus. -/
theorem parse_written_nested :
    ∃ e', SameTree
      (.binary .eq (.binary .lt (.name "os.a") (.number ⟨150, 2⟩))
        (.not (.binary .sub (.text "\"\\") (.binary .sub (.neg (.name "b")) (.bool true))))) e' ∧
      parse "( os.a < 1.5 ) == ! ( \"\\\"\\\\\" - ( - b - true ) )" = .ok e' := by
  have hos : DottedName "os.a" :=
    ⟨⟨'o', rfl, by decide⟩, List.all_eq_true.mp rfl, by decide, by decide, by decide, by decide⟩
  have hb : DottedName "b" :=
    ⟨⟨'b', rfl, by decide⟩, List.all_eq_true.mp rfl, by decide, by decide, by decide, by decide⟩
  have hnumber : (0 : Int) ≤ 150 := by decide
  obtain ⟨e', hsame, hparse⟩ := parse_written (e :=
      .binary .eq (.binary .lt (.name "os.a") (.number ⟨150, 2⟩))
        (.not (.binary .sub (.text "\"\\") (.binary .sub (.neg (.name "b")) (.bool true)))))
    ⟨⟨hos, hnumber⟩, trivial, hb, trivial⟩
  have hread := (hparse e').mpr ⟨rfl, by decide +kernel, by decide⟩
  exact ⟨e', hsame, (congrArg parse (by decide +kernel)).trans hread⟩

end Expr

end TestSelection
