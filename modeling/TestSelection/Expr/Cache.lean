import TestSelection.Expr.Parser

/-!
A cache of expressions by their texts. Each text that parses is read once and kept at a slot of its
own; later requests for the text get the same slot. A text that does not parse leaves no trace.
-/

namespace TestSelection

/-- An expression and the slot at which it is kept. -/
structure CachedExpr where
  slot : Nat
  expr : Expr
deriving DecidableEq

/-- The expressions read so far, by their texts. -/
structure ExprCache where
  kept : Table CachedExpr
deriving DecidableEq

namespace ExprCache

def empty : ExprCache := ⟨Table.empty⟩

instance : Inhabited ExprCache := ⟨empty⟩

def size (c : ExprCache) : Nat := c.kept.size

/-- Keeps an expression at a new slot, unless its text has a slot already; answers with what is kept
for the text. -/
def keep (c : ExprCache) (text : String) (e : Expr) : CachedExpr × ExprCache :=
  match c.kept.get? text with
  | some entry => (entry, c)
  | none => (⟨c.size, e⟩, ⟨c.kept.insert text ⟨c.size, e⟩⟩)

/-- The expression kept for a text, which is read now if it was not before. -/
def getOrParse (c : ExprCache) (text : String) : Except SyntaxError CachedExpr × ExprCache :=
  match c.kept.get? text with
  | some entry => (.ok entry, c)
  | none =>
    match Expr.parse text with
    | .error error => (.error error, c)
    | .ok e =>
      let (entry, c) := c.keep text e
      (.ok entry, c)

end ExprCache

end TestSelection
