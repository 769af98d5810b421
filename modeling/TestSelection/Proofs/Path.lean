import Mathlib.Data.List.DropRight
import Mathlib.Data.List.Lex
import Mathlib.Data.Prod.Lex
import Mathlib.Data.String.Basic
import TestSelection.Path
import TestSelection.Proofs.Cuts

/-!
Laws of paths. A path is what its parts are: equality, order and being within another path are
those of lists of parts, a path goes on by one part when a name is joined to it, and its parent is
without the last part. Paths neither of which is within the other one have nothing below them in
common.
-/

namespace TestSelection

/-! ### The order of parts -/

namespace PathPart

/-- Kind and text of a part, in the order of parts. -/
def key (a : PathPart) : Nat ×ₗ String := toLex (a.rank, a.text)

theorem key_injective : Function.Injective key := by
  intro a b h
  obtain ⟨hrank, htext⟩ := Prod.mk.inj (toLex.injective h)
  cases a <;> cases b <;> simp_all [rank, text]

theorem lt_iff_key_lt {a b : PathPart} : a < b ↔ a.key < b.key := by
  rw [key, key, Prod.Lex.toLex_lt_toLex]
  rfl

instance : LinearOrder PathPart where
  le a b := a.key ≤ b.key
  le_refl a := le_refl a.key
  le_trans _ _ _ := le_trans
  le_antisymm _ _ h h' := key_injective (le_antisymm h h')
  le_total a b := le_total a.key b.key
  lt_iff_le_not_ge _ _ := lt_iff_key_lt.trans lt_iff_le_not_ge
  toDecidableLE a b := inferInstanceAs (Decidable (a.key ≤ b.key))

theorem toList_text_of_ofPiece? {piece : List Char} {a : PathPart} (h : ofPiece? piece = some a) :
    a.text.toList = piece := by
  rw [ofPiece?] at h
  split_ifs at h with _ hup
  · obtain rfl := Option.some.inj h
    exact hup.symm
  · obtain rfl := Option.some.inj h
    exact String.toList_ofList

theorem ofPiece?_eq_none_iff {piece : List Char} :
    ofPiece? piece = none ↔ piece = [] ∨ piece = ['.'] := by
  rw [ofPiece?]
  split_ifs with hidle hup
  · exact iff_of_true rfl hidle
  · simpa using hidle
  · simpa using hidle

theorem ofPiece?_eq_up_iff {piece : List Char} : ofPiece? piece = some .up ↔ piece = ['.', '.'] := by
  constructor
  · intro h
    exact (toList_text_of_ofPiece? h).symm
  · rintro rfl
    rfl

end PathPart

namespace Path

variable {p q r : Path}

theorem same_iff : p.same q = true ↔ p.parts = q.parts := beq_iff_eq

theorem less_iff : p.less q = true ↔ p.parts < q.parts := decide_eq_true_iff

theorem isWithin_iff : p.isWithin q = true ↔ q.parts <+: p.parts := List.isPrefixOf_iff_prefix

theorem isBelow_iff : p.isBelow q = true ↔ p.isWithin q = true ∧ p.parts ≠ q.parts := by
  rw [isBelow, Bool.and_eq_true, Bool.not_eq_true', ← Bool.not_eq_true, same_iff]

@[simp] theorem isWithin_refl (p : Path) : p.isWithin p = true :=
  isWithin_iff.mpr (List.prefix_refl _)

theorem isWithin_of_parts_eq (h : p.parts = q.parts) : p.isWithin q = true :=
  isWithin_iff.mpr (h ▸ List.prefix_refl _)

theorem isWithin_trans (h : p.isWithin q = true) (h' : q.isWithin r = true) :
    p.isWithin r = true :=
  isWithin_iff.mpr ((isWithin_iff.mp h').trans (isWithin_iff.mp h))

theorem parts_eq_of_isWithin (h : p.isWithin q = true) (h' : q.isWithin p = true) :
    p.parts = q.parts :=
  (isWithin_iff.mp h').eq_of_length_le (isWithin_iff.mp h).length_le

/-- What a path is within lies on one line. -/
theorem isWithin_or_isWithin (h : r.isWithin p = true) (h' : r.isWithin q = true) :
    q.isWithin p = true ∨ p.isWithin q = true := by
  simp only [isWithin_iff] at *
  exact List.prefix_or_prefix_of_prefix h h'

theorem isWithin_congr (h : p.parts = q.parts) : p.isWithin r = q.isWithin r := by
  rw [isWithin, isWithin, h]

theorem isBelow_of_isWithin (h : p.isWithin q = true) (h' : ¬ q.isWithin p = true) :
    p.isBelow q = true :=
  isBelow_iff.mpr ⟨h, fun heq => h' (isWithin_of_parts_eq heq.symm)⟩

theorem isWithin_of_isBelow (h : p.isBelow q = true) : p.isWithin q = true := (isBelow_iff.mp h).1

theorem not_isBelow_self (p : Path) : ¬ p.isBelow p = true := fun h => (isBelow_iff.mp h).2 rfl

theorem isBelow_trans_isWithin (h : p.isBelow q = true) (h' : q.isWithin r = true) :
    p.isBelow r = true := by
  obtain ⟨hwithin, hne⟩ := isBelow_iff.mp h
  refine isBelow_of_isWithin (isWithin_trans hwithin h') fun hrp => hne ?_
  exact parts_eq_of_isWithin hwithin (isWithin_trans h' hrp)

theorem parts_eq_of_not_isBelow (h : p.isWithin q = true) (h' : ¬ p.isBelow q = true) :
    p.parts = q.parts :=
  of_not_not fun hne => h' (isBelow_iff.mpr ⟨h, hne⟩)

/-- Neither path is within the other one. -/
def Apart (p q : Path) : Prop := ¬ p.isWithin q = true ∧ ¬ q.isWithin p = true

instance (p q : Path) : Decidable (Apart p q) := inferInstanceAs (Decidable (_ ∧ _))

theorem Apart.symm (h : p.Apart q) : q.Apart p := ⟨h.2, h.1⟩

instance : Std.Symm Apart := ⟨fun _ _ h => h.symm⟩

theorem Apart.parts_ne (h : p.Apart q) : p.parts ≠ q.parts :=
  fun heq => h.1 (isWithin_of_parts_eq heq)

theorem Apart.of_isWithin {p' q' : Path} (h : p.Apart q) (hp : p'.isWithin p = true)
    (hq : q'.isWithin q = true) : p'.Apart q' := by
  refine ⟨fun hwithin => ?_, fun hwithin => ?_⟩
  · rcases isWithin_or_isWithin hp (isWithin_trans hwithin hq) with hqp | hpq
    · exact h.2 hqp
    · exact h.1 hpq
  · rcases isWithin_or_isWithin (isWithin_trans hwithin hp) hq with hqp | hpq
    · exact h.2 hqp
    · exact h.1 hpq

theorem lt_of_prefix {s t s' t' : List PathPart} (hlt : s < t) (hst : ¬ s <+: t) (hs : s <+: s')
    (ht : t <+: t') : s' < t' := by
  induction s generalizing t s' t' with
  | nil => exact absurd List.nil_prefix hst
  | cons a s ih =>
      cases t with
      | nil => exact absurd hlt (List.not_lt_nil _)
      | cons b t =>
          obtain ⟨s', rfl⟩ := hs
          obtain ⟨t', rfl⟩ := ht
          rw [List.cons_append, List.cons_append, List.cons_lt_cons_iff]
          rcases List.cons_lt_cons_iff.mp hlt with hab | ⟨rfl, hrest⟩
          · exact Or.inl hab
          · have hst' : ¬ s <+: t := fun h => hst (List.cons_prefix_cons.mpr ⟨rfl, h⟩)
            exact Or.inr ⟨rfl, ih hrest hst' (List.prefix_append s s') (List.prefix_append t t')⟩

/-- What is within paths that lie apart stands in their order. -/
theorem Apart.parts_lt {p' q' : Path} (h : p.Apart q) (hlt : p.parts < q.parts)
    (hp : p'.isWithin p = true) (hq : q'.isWithin q = true) : p'.parts < q'.parts :=
  lt_of_prefix hlt (isWithin_iff.not.mp h.2) (isWithin_iff.mp hp) (isWithin_iff.mp hq)

theorem not_isWithin_of_last_ne {base : List PathPart} {a b : PathPart}
    (hp : p.parts = base ++ [a]) (hq : q.parts = base ++ [b]) (h : a ≠ b) :
    ¬ p.isWithin q = true := by
  intro hwithin
  have hfront := isWithin_iff.mp hwithin
  rw [hp, hq, List.prefix_append_right_inj, List.prefix_cons_iff] at hfront
  simp_all

/-- Different entries of a folder lie apart. -/
theorem apart_of_last_ne {base : List PathPart} {a b : PathPart} (hp : p.parts = base ++ [a])
    (hq : q.parts = base ++ [b]) (h : a ≠ b) : p.Apart q :=
  ⟨not_isWithin_of_last_ne hp hq h, not_isWithin_of_last_ne hq hp h.symm⟩

/-! ### Going on -/

theorem splitAt_append {s t : List Char} (ht : '/' ∉ t) :
    Chars.splitAt '/' (s ++ '/' :: t) = Chars.splitAt '/' s ++ [t] := by
  rw [Chars.splitAt_append, Chars.splitAt_of_notMem ht]

/-- The parts of a relative path by its pieces, of which the first one counts as a point too. -/
def relativeParts : List (List Char) → List PathPart
  | ['.'] :: pieces => .here :: pieces.filterMap PathPart.ofPiece?
  | pieces => pieces.filterMap PathPart.ofPiece?

theorem partsOf_of_ne_slash {c : Char} (hc : c ≠ '/') (s : List Char) :
    partsOf (c :: s) = relativeParts (Chars.splitAt '/' (c :: s)) := by
  rw [partsOf]
  · rfl
  · exact fun rest h => hc (List.cons.inj h).1

theorem relativeParts_append {pieces : List (List Char)} (h : pieces ≠ [])
    (more : List (List Char)) :
    relativeParts (pieces ++ more) = relativeParts pieces ++ more.filterMap PathPart.ofPiece? := by
  fun_cases relativeParts pieces with
  | case1 pieces => rw [List.cons_append, relativeParts, List.filterMap_append, List.cons_append]
  | case2 _ hpoint =>
      obtain ⟨first, pieces, rfl⟩ := List.exists_cons_of_ne_nil h
      rw [← List.filterMap_append, List.cons_append, relativeParts]
      intro rest heq
      exact hpoint pieces (congrArg (· :: pieces) (List.cons.inj heq).1)

theorem relativeParts_of_head? {pieces : List (List Char)} (h : pieces.head? ≠ some ['.']) :
    relativeParts pieces = pieces.filterMap PathPart.ofPiece? := by
  rw [relativeParts]
  exact fun rest heq => h (heq ▸ rfl)

theorem relativeParts_concat {front : List (List Char)} {last : List Char} {part : PathPart}
    (h : PathPart.ofPiece? last = some part) :
    relativeParts (front ++ [last]) = relativeParts front ++ [part] := by
  by_cases hfront : front = []
  · subst hfront
    have hpoint : ([last] : List (List Char)).head? ≠ some ['.'] := by
      rintro ⟨⟩
      exact Option.some_ne_none _ h.symm
    rw [List.nil_append, relativeParts_of_head? hpoint, List.filterMap_cons, h]
    rfl
  · rw [relativeParts_append hfront, List.filterMap_cons, h]
    rfl

/-- Behind a slash that is not the first sign, a path goes on by its pieces. -/
theorem partsOf_append {s : List Char} (hs : s ≠ []) (t : List Char) :
    partsOf (s ++ '/' :: t)
      = partsOf s ++ (Chars.splitAt '/' t).filterMap PathPart.ofPiece? := by
  obtain ⟨c, s, rfl⟩ := List.exists_cons_of_ne_nil hs
  by_cases hc : c = '/'
  · subst hc
    simp only [partsOf, List.cons_append, Chars.splitAt_append, List.filterMap_append]
  · rw [List.cons_append, partsOf_of_ne_slash hc, partsOf_of_ne_slash hc, ← List.cons_append,
      Chars.splitAt_append]
    exact relativeParts_append (Chars.splitBy_ne_nil _) _

theorem slash_notMem_of_mem_filterMap {pieces : List (List Char)} {s : List Char} {a : PathPart}
    (hpieces : pieces ⊆ Chars.splitAt '/' s) (h : a ∈ pieces.filterMap PathPart.ofPiece?) :
    '/' ∉ a.text.toList := by
  obtain ⟨piece, hpiece, ha⟩ := List.mem_filterMap.mp h
  rw [PathPart.toList_text_of_ofPiece? ha]
  exact fun hslash => absurd (Chars.of_mem_splitBy (hpieces hpiece) hslash).1 (by decide)

/-- No part has a slash but the one at the front. -/
theorem slash_notMem_text {a : PathPart} (h : a ∈ p.parts) (ha : a ≠ .root) :
    '/' ∉ a.text.toList := by
  obtain ⟨s, hs⟩ : ∃ s, partsOf s = p.parts := ⟨_, rfl⟩
  rw [← hs] at h
  revert h
  fun_cases partsOf s with
  | case1 rest =>
      intro h
      exact slash_notMem_of_mem_filterMap (List.Subset.refl _) ((List.mem_cons.mp h).resolve_left ha)
  | case2 _ _ pieces hsplit =>
      intro h
      rcases List.mem_cons.mp h with rfl | h
      · decide
      · exact slash_notMem_of_mem_filterMap (hsplit ▸ List.subset_cons_self _ _) h
  | case3 =>
      exact slash_notMem_of_mem_filterMap (List.Subset.refl _)

/-- A path goes to a parent where two points stand between its slashes. -/
theorem up_mem_parts_iff : .up ∈ p.parts ↔ ['.', '.'] ∈ Chars.splitAt '/' p.text.toList := by
  obtain ⟨s, hs⟩ : ∃ s, s = p.text.toList := ⟨_, rfl⟩
  rw [parts, ← hs]
  fun_cases partsOf s with
  | case1 rest => simp [Chars.splitAt_cons_self, PathPart.ofPiece?_eq_up_iff]
  | case2 _ _ pieces hsplit => simp [hsplit, PathPart.ofPiece?_eq_up_iff]
  | case3 => simp [PathPart.ofPiece?_eq_up_iff]

/-- A slash at the end does not count, except at the very front. -/
theorem partsOf_append_slash (s t : List Char) :
    partsOf (s ++ '/' :: t)
      = partsOf (s ++ ['/']) ++ (Chars.splitAt '/' t).filterMap PathPart.ofPiece? := by
  by_cases hs : s = []
  · subst hs
    rfl
  · rw [partsOf_append hs, partsOf_append hs]
    exact congrArg (· ++ _) (List.append_nil _).symm

/-- A path goes on by the pieces of what is joined to it, whether or not it ends with a slash. -/
theorem parts_join_of_relative {rest : String} (hp : p.text ≠ "")
    (hrest : rest.toList.head? ≠ some '/') :
    (p.join rest).parts
      = p.parts ++ (Chars.splitAt '/' rest.toList).filterMap PathPart.ofPiece? := by
  have htext : p.text.toList ≠ [] := fun h => hp (String.toList_injective h)
  rw [join, if_neg hrest]
  split
  · rename_i hlast
    exact absurd (List.getLast?_eq_none_iff.mp hlast) htext
  · rename_i hlast
    obtain ⟨front, hfront⟩ := List.getLast?_eq_some_iff.mp hlast
    simp only [parts, String.toList_append]
    rw [hfront, List.append_assoc, List.singleton_append, partsOf_append_slash]
  · simp only [parts, String.toList_append]
    rw [List.append_assoc]
    exact partsOf_append htext _

/-- Joining a name adds a part. -/
theorem parts_join {name : String} (hp : p.text ≠ "") (hslash : '/' ∉ name.toList)
    (hname : PathPart.ofPiece? name.toList = some (.name name)) :
    (p.join name).parts = p.parts ++ [.name name] := by
  rw [parts_join_of_relative hp fun h => hslash (List.mem_of_head? h),
    Chars.splitAt_of_notMem hslash, List.filterMap_cons, hname, List.filterMap_nil]

/-- What is joined to a path is within it, unless it starts at the top. -/
theorem isWithin_join {rest : String} (hrest : rest.toList.head? ≠ some '/') :
    (p.join rest).isWithin p = true := by
  rw [isWithin_iff]
  by_cases hp : p.text = ""
  · have hparts : p.parts = [] := by
      rw [parts, hp]
      rfl
    rw [hparts]
    exact List.nil_prefix
  · rw [parts_join_of_relative hp hrest]
    exact List.prefix_append _ _

theorem size_lt_join {name : String} (hslash : '/' ∉ name.toList) (hname : name ≠ "") :
    p.text.utf8ByteSize < (p.join name).text.utf8ByteSize := by
  have hpos : 0 < name.utf8ByteSize :=
    Nat.pos_of_ne_zero fun h => hname (String.utf8ByteSize_eq_zero_iff.mp h)
  rw [join, if_neg fun h => hslash (List.mem_of_head? h)]
  split
  · rename_i hlast
    have hempty : p.text = "" := String.toList_injective (List.getLast?_eq_none_iff.mp hlast)
    simpa [hempty] using hpos
  · simpa using hpos
  · simp only [String.utf8ByteSize_append]
    omega

/-! ### The parent -/

section

variable {isAbsolute : Bool} {pieces front : List (List Char)} {last s : List Char} {n : String}

def isIdle (piece : List Char) : Bool := piece == [] || piece == ['.']

theorem isIdle_iff {piece : List Char} : isIdle piece = true ↔ PathPart.ofPiece? piece = none := by
  simp [isIdle, PathPart.ofPiece?_eq_none_iff]

theorem trimPieces_cons (isAbsolute : Bool) (first : List Char) (rest : List (List Char)) :
    trimPieces isAbsolute (first :: rest) =
      if rest.rdropWhile isIdle = [] ∧ (first = [] ∨ isAbsolute = true ∧ first = ['.']) then []
      else first :: rest.rdropWhile isIdle := by
  simp only [trimPieces, Bool.and_eq_true, Bool.or_eq_true, decide_eq_true_eq]
  rfl

theorem filterMap_rdropWhile_isIdle (pieces : List (List Char)) :
    (pieces.rdropWhile isIdle).filterMap PathPart.ofPiece?
      = pieces.filterMap PathPart.ofPiece? := by
  induction pieces using List.reverseRecOn with
  | nil => rfl
  | append_singleton pieces piece ih =>
      rw [List.rdropWhile_concat, List.filterMap_append]
      split
      · rename_i hidle
        rw [ih, List.filterMap_cons_none (isIdle_iff.mp hidle), List.filterMap_nil,
          List.append_nil]
      · rw [List.filterMap_append]

theorem filterMap_trimPieces (isAbsolute : Bool) (pieces : List (List Char)) :
    (trimPieces isAbsolute pieces).filterMap PathPart.ofPiece?
      = pieces.filterMap PathPart.ofPiece? := by
  cases pieces with
  | nil => rfl
  | cons first rest =>
      rw [trimPieces_cons, List.filterMap_cons, ← filterMap_rdropWhile_isIdle rest]
      split
      · rename_i hnone
        rw [hnone.1, PathPart.ofPiece?_eq_none_iff.mpr (hnone.2.imp_right And.right)]
      · rw [List.filterMap_cons]

/-- The point at the front of a relative path is kept. -/
theorem relativeParts_trimPieces (pieces : List (List Char)) :
    relativeParts (trimPieces false pieces) = relativeParts pieces := by
  cases pieces with
  | nil => rfl
  | cons first rest =>
      by_cases hpoint : first = ['.']
      · subst hpoint
        rw [trimPieces_cons, if_neg (by simp), relativeParts, relativeParts,
          filterMap_rdropWhile_isIdle]
      · have hhead : (first :: rest).head? ≠ some ['.'] := fun h => hpoint (Option.some.inj h)
        have hkept : (trimPieces false (first :: rest)).head? ≠ some ['.'] := by
          rw [trimPieces_cons]
          split
          · exact (Option.some_ne_none _).symm
          · exact hhead
        rw [relativeParts_of_head? hhead, relativeParts_of_head? hkept, filterMap_trimPieces]

theorem head?_trimPieces (h : trimPieces isAbsolute pieces ≠ []) :
    (trimPieces isAbsolute pieces).head? = pieces.head? := by
  cases pieces with
  | nil => rfl
  | cons first rest =>
      rw [trimPieces_cons] at h ⊢
      split
      · rename_i hnone
        exact absurd (if_pos hnone) h
      · rfl

theorem head?_ne_of_trimPieces (h : trimPieces isAbsolute pieces = front ++ [last])
    (hpieces : pieces.head? ≠ some []) : (trimPieces isAbsolute front).head? ≠ some [] := by
  intro hhead
  have hkept : trimPieces isAbsolute front ≠ [] := fun hnil => by simp [hnil] at hhead
  rw [head?_trimPieces hkept] at hhead
  have hne : trimPieces isAbsolute pieces ≠ [] := by simp [h]
  refine hpieces ?_
  rw [← head?_trimPieces hne, h, List.head?_append, hhead]
  rfl

theorem trimPieces_subset (isAbsolute : Bool) (pieces : List (List Char)) :
    trimPieces isAbsolute pieces ⊆ pieces := by
  cases pieces with
  | nil => exact List.Subset.refl _
  | cons first rest =>
      rw [trimPieces_cons]
      split
      · exact List.nil_subset _
      · exact List.cons_subset_cons _ (List.rdropWhile_prefix isIdle rest).subset

/-- When the idle pieces at the end are gone, only the first one of all can be idle. -/
theorem eq_nil_of_trimPieces (h : trimPieces isAbsolute pieces = front ++ [last])
    (hlast : PathPart.ofPiece? last = none) : front = [] := by
  by_contra hfront
  obtain ⟨first, front, rfl⟩ := List.exists_cons_of_ne_nil hfront
  cases pieces with
  | nil => exact absurd h (List.cons_ne_nil _ _).symm
  | cons first' rest =>
      rw [trimPieces_cons] at h
      split at h
      · exact absurd h (List.cons_ne_nil _ _).symm
      · have hkept : rest.rdropWhile isIdle = front ++ [last] := (List.cons.inj h).2
        have hne : rest.rdropWhile isIdle ≠ [] := by simp [hkept]
        have hidle := List.rdropWhile_last_not isIdle rest hne
        simp only [hkept, List.getLast_append_singleton] at hidle
        exact hidle (isIdle_iff.mpr hlast)

theorem partsOf_joinPieces (hslash : ∀ piece ∈ pieces, '/' ∉ piece)
    (hhead : pieces.head? ≠ some []) : partsOf (joinPieces pieces) = relativeParts pieces := by
  cases pieces with
  | nil => rfl
  | cons first rest =>
      have hfirst : first ≠ [] := fun h => hhead (congrArg some h)
      have hsplit := Chars.splitAt_intercalate (List.cons_ne_nil first rest) hslash
      obtain ⟨c, first, rfl⟩ := List.exists_cons_of_ne_nil hfirst
      have hc : c ≠ '/' := fun h => hslash _ List.mem_cons_self (h ▸ List.mem_cons_self)
      obtain ⟨s, hs⟩ : ∃ s, joinPieces ((c :: first) :: rest) = c :: s := by
        cases rest <;> exact ⟨_, rfl⟩
      rw [hs, partsOf_of_ne_slash hc, ← hs, joinPieces, hsplit]

theorem partsOf_slash_joinPieces (hslash : ∀ piece ∈ pieces, '/' ∉ piece) :
    partsOf ('/' :: joinPieces pieces) = .root :: pieces.filterMap PathPart.ofPiece? := by
  cases pieces with
  | nil => rfl
  | cons first rest =>
      rw [partsOf, joinPieces, Chars.splitAt_intercalate (List.cons_ne_nil first rest) hslash]

theorem slash_notMem_of_trimPieces
    (h : trimPieces isAbsolute (Chars.splitAt '/' s) = front ++ [last]) :
    ∀ piece ∈ trimPieces isAbsolute front, '/' ∉ piece := by
  intro piece hpiece hslash
  have hfront : piece ∈ front ++ [last] :=
    List.mem_append_left _ (trimPieces_subset isAbsolute front hpiece)
  have hmem := trimPieces_subset isAbsolute (Chars.splitAt '/' s) (h ▸ hfront)
  exact absurd (Chars.of_mem_splitBy hmem hslash).1 (by decide)

theorem parent?_of_slash (hp : p.text.toList = '/' :: s)
    (h : trimPieces true (Chars.splitAt '/' s) = front ++ [last]) :
    p.parent? = some ⟨String.ofList ('/' :: joinPieces (trimPieces true front))⟩ := by
  simp [parent?, hp, h]

theorem parent?_of_relative (hp : p.text.toList.head? ≠ some '/')
    (h : trimPieces false (Chars.splitAt '/' p.text.toList) = front ++ [last]) :
    p.parent? = some ⟨String.ofList (joinPieces (trimPieces false front))⟩ := by
  rw [parent?]
  split
  rename_i isAbsolute body heq
  split at heq
  · rename_i htext
    exact absurd (htext ▸ rfl) hp
  · obtain ⟨rfl, rfl⟩ := Prod.mk.inj heq
    simp [h]

def partsOfPieces (isAbsolute : Bool) (pieces : List (List Char)) : List PathPart :=
  if isAbsolute then .root :: pieces.filterMap PathPart.ofPiece? else relativeParts pieces

theorem partsOfPieces_trimPieces (isAbsolute : Bool) (pieces : List (List Char)) :
    partsOfPieces isAbsolute (trimPieces isAbsolute pieces) = partsOfPieces isAbsolute pieces := by
  cases isAbsolute with
  | true => exact congrArg (.root :: ·) (filterMap_trimPieces true pieces)
  | false => exact relativeParts_trimPieces pieces

theorem partsOfPieces_concat {part : PathPart} (hlast : PathPart.ofPiece? last = some part) :
    partsOfPieces isAbsolute (front ++ [last]) = partsOfPieces isAbsolute front ++ [part] := by
  cases isAbsolute with
  | true => simp [partsOfPieces, List.filterMap_append, hlast]
  | false => exact relativeParts_concat hlast

/-- A name at the end is the last piece that is left. -/
theorem exists_concat_of_getLast? (h : (partsOfPieces isAbsolute pieces).getLast? = some (.name n)) :
    ∃ front last, trimPieces isAbsolute pieces = front ++ [last] ∧
      partsOfPieces isAbsolute pieces = partsOfPieces isAbsolute front ++ [.name n] := by
  rw [← partsOfPieces_trimPieces] at h ⊢
  rcases (trimPieces isAbsolute pieces).eq_nil_or_concat' with hnil | ⟨front, last, hconcat⟩
  · cases isAbsolute <;> simp [hnil, partsOfPieces, relativeParts] at h
  · refine ⟨front, last, hconcat, ?_⟩
    rw [hconcat] at h ⊢
    cases hlast : PathPart.ofPiece? last with
    | none =>
        obtain rfl := eq_nil_of_trimPieces hconcat hlast
        rcases PathPart.ofPiece?_eq_none_iff.mp hlast with rfl | rfl <;>
          cases isAbsolute <;> simp [partsOfPieces, relativeParts, PathPart.ofPiece?] at h
    | some part =>
        rw [partsOfPieces_concat hlast] at h ⊢
        rw [List.getLast?_concat] at h
        rw [Option.some.inj h]

theorem exists_parent?_of_slash (hp : p.text.toList = '/' :: s)
    (h : p.parts.getLast? = some (.name n)) :
    ∃ parent, p.parent? = some parent ∧ p.parts = parent.parts ++ [.name n] := by
  have hparts : p.parts = partsOfPieces true (Chars.splitAt '/' s) := by
    rw [parts, hp]
    rfl
  rw [hparts] at h ⊢
  obtain ⟨front, last, hconcat, hfront⟩ := exists_concat_of_getLast? h
  refine ⟨_, parent?_of_slash hp hconcat, ?_⟩
  rw [hfront, ← partsOfPieces_trimPieces true front, parts, String.toList_ofList,
    partsOf_slash_joinPieces (slash_notMem_of_trimPieces hconcat)]
  rfl

theorem exists_parent?_of_relative (hp : p.text.toList.head? ≠ some '/')
    (h : p.parts.getLast? = some (.name n)) :
    ∃ parent, p.parent? = some parent ∧ p.parts = parent.parts ++ [.name n] := by
  have hempty : p.text.toList ≠ [] := by
    intro hnil
    rw [parts, hnil] at h
    exact Option.some_ne_none _ h.symm
  obtain ⟨c, s, hs⟩ := List.exists_cons_of_ne_nil hempty
  have hc : c ≠ '/' := fun heq => hp (by rw [hs, heq]; rfl)
  have hparts : p.parts = partsOfPieces false (Chars.splitAt '/' p.text.toList) := by
    rw [parts, hs, partsOf_of_ne_slash hc]
    rfl
  rw [hparts] at h ⊢
  obtain ⟨front, last, hconcat, hfront⟩ := exists_concat_of_getLast? h
  have hfirst : (Chars.splitAt '/' p.text.toList).head? ≠ some [] := by
    obtain ⟨part, parts, -, hsplit⟩ := Chars.exists_splitAt_cons hc s
    simp [hs, hsplit]
  refine ⟨_, parent?_of_relative hp hconcat, ?_⟩
  rw [hfront, ← partsOfPieces_trimPieces false front, parts, String.toList_ofList,
    partsOf_joinPieces (slash_notMem_of_trimPieces hconcat) (head?_ne_of_trimPieces hconcat hfirst)]
  rfl

/-- A path that ends with a name goes on from its parent by that name. -/
theorem exists_parent? (h : p.parts.getLast? = some (.name n)) :
    ∃ parent, p.parent? = some parent ∧ p.parts = parent.parts ++ [.name n] := by
  by_cases hp : p.text.toList.head? = some '/'
  · obtain ⟨s, hs⟩ := List.head?_eq_some_iff.mp hp
    exact exists_parent?_of_slash hs h
  · exact exists_parent?_of_relative hp h

end

end Path

end TestSelection
