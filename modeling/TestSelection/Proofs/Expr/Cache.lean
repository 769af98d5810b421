import TestSelection.Expr.Cache

/-!
The cache of expressions answers as the parser does: whatever has been read through it before, a
text gets the expression that it stands for, or the error that it has.
-/

namespace TestSelection

namespace ExprCache

/-- What is kept for a text is the expression that the text stands for. -/
def Faithful (c : ExprCache) : Prop :=
  ∀ text entry, c.kept.get? text = some entry → Expr.parse text = .ok entry.expr

theorem faithful_empty : empty.Faithful :=
  fun _ _ h => nomatch h

theorem Faithful.keep {c : ExprCache} (h : c.Faithful) {text : String} {e : Expr}
    (he : Expr.parse text = .ok e) :
    (c.keep text e).1.expr = e ∧ (c.keep text e).2.Faithful := by
  rw [ExprCache.keep]
  cases hkept : c.kept.get? text with
  | some entry =>
      have hentry := h text entry hkept
      exact ⟨Except.ok.inj (hentry.symm.trans he), h⟩
  | none =>
      refine ⟨rfl, fun other entry hother => ?_⟩
      rw [Table.get?_insert] at hother
      split at hother
      · rename_i heq
        obtain rfl := Option.some.inj hother
        exact heq ▸ he
      · exact h other entry hother

theorem Faithful.getOrParse {c : ExprCache} (h : c.Faithful) (text : String) :
    (c.getOrParse text).1.map CachedExpr.expr = Expr.parse text ∧
      (c.getOrParse text).2.Faithful := by
  rw [ExprCache.getOrParse]
  cases hkept : c.kept.get? text with
  | some entry => exact ⟨(h text entry hkept).symm, h⟩
  | none =>
      dsimp only
      cases hparse : Expr.parse text with
      | error error => exact ⟨rfl, h⟩
      | ok e =>
          obtain ⟨he, hfaithful⟩ := h.keep hparse
          exact ⟨congrArg Except.ok he, hfaithful⟩

/-- The cache after texts have been read through it. -/
def afterReading (c : ExprCache) (texts : List String) : ExprCache :=
  texts.foldl (fun c text => (c.getOrParse text).2) c

theorem Faithful.afterReading {c : ExprCache} (h : c.Faithful) (texts : List String) :
    (c.afterReading texts).Faithful :=
  List.foldlRecOn texts _ h fun _ hc text _ => (hc.getOrParse text).2

end ExprCache

end TestSelection
