import Mathlib.Data.List.Forall2
import Mathlib.Data.List.TakeWhile

/-!
Lists whose items correspond one to one, items that are written and read again, and lists that are
cut where a property of items ends or where a pattern occurs for the first time.
-/

namespace TestSelection

theorem forall_exists_iff_forall₂ {α β : Type} {R : α → β → Prop} {as : List α} :
    (∀ a ∈ as, ∃ b, R a b) ↔ ∃ bs, List.Forall₂ R as bs := by
  induction as with
  | nil => exact ⟨fun _ => ⟨[], .nil⟩, fun _ a ha => nomatch ha⟩
  | cons a as ih =>
      rw [List.forall_mem_cons, ih]
      constructor
      · rintro ⟨⟨b, hb⟩, bs, hbs⟩
        exact ⟨b :: bs, .cons hb hbs⟩
      · rintro ⟨_, h⟩
        cases h with
        | cons hb hbs => exact ⟨⟨_, hb⟩, _, hbs⟩

theorem exists_mem_of_forall₂ {α β : Type} {R : α → β → Prop} {as : List α} {bs : List β}
    (h : List.Forall₂ R as bs) {a : α} (ha : a ∈ as) : ∃ b ∈ bs, R a b := by
  induction h with
  | nil => exact nomatch ha
  | @cons head b as bs hb _ ih =>
      rcases List.mem_cons.mp ha with rfl | ha
      · exact ⟨b, List.mem_cons_self, hb⟩
      · obtain ⟨b', hb', hR⟩ := ih ha
        exact ⟨b', List.mem_cons_of_mem b hb', hR⟩

theorem forall₂_of_mapM_eq_some {α β : Type} {f : α → Option β} {as : List α} {bs : List β}
    (h : as.mapM f = some bs) : List.Forall₂ (fun a b => f a = some b) as bs := by
  induction as generalizing bs with
  | nil =>
      obtain rfl := Option.some.inj h
      exact .nil
  | cons a as ih =>
      rw [List.mapM_cons] at h
      obtain ⟨b, hb, h⟩ := Option.bind_eq_some_iff.mp h
      obtain ⟨rest, hrest, h⟩ := Option.bind_eq_some_iff.mp h
      obtain rfl := Option.some.inj h
      exact .cons hb (ih hrest)

/-- Items that are read from what they are written as. -/
theorem mapM_map_of_forall {α β : Type} {m : Type → Type} [Monad m] [LawfulMonad m] {f : β → m α}
    {g : α → β} {as : List α} (h : ∀ a ∈ as, f (g a) = pure a) : (as.map g).mapM f = pure as := by
  induction as with
  | nil => rfl
  | cons a as ih =>
      obtain ⟨ha, has⟩ := List.forall_mem_cons.mp h
      rw [List.map_cons, List.mapM_cons, ha, ih has, pure_bind, pure_bind]

variable {α : Type} {p : α → Bool} {s t s' t' : List α}

theorem takeWhile_append_of_head? (hs : ∀ a ∈ s, p a = true) (ht : ∀ a ∈ t.head?, p a = false) :
    (s ++ t).takeWhile p = s := by
  rw [List.takeWhile_append_of_pos hs]
  cases t with
  | nil => rw [List.takeWhile_nil, List.append_nil]
  | cons a t => rw [List.takeWhile_cons_of_neg (by simp [ht a rfl]), List.append_nil]

theorem dropWhile_of_head? (h : ∀ a ∈ s.head?, p a = false) : s.dropWhile p = s := by
  cases s with
  | nil => rfl
  | cons a s => rw [List.dropWhile_cons_of_neg (by simp [h a rfl])]

theorem dropWhile_append_of_head? (hs : ∀ a ∈ s, p a = true) (ht : ∀ a ∈ t.head?, p a = false) :
    (s ++ t).dropWhile p = t := by
  rw [List.dropWhile_append_of_pos hs, dropWhile_of_head? ht]

theorem head?_dropWhile (s : List α) : ∀ a ∈ (s.dropWhile p).head?, p a = false := by
  intro a ha
  have hhead := List.head?_dropWhile_not p s
  rwa [Option.mem_def.mp ha] at hhead

/-- There is one way only to cut where a property ends. -/
theorem append_inj_of_head? (hs : ∀ a ∈ s, p a = true) (ht : ∀ a ∈ t.head?, p a = false)
    (hs' : ∀ a ∈ s', p a = true) (ht' : ∀ a ∈ t'.head?, p a = false) (h : s ++ t = s' ++ t') :
    s = s' ∧ t = t' := by
  have htake := takeWhile_append_of_head? hs ht
  have hdrop := dropWhile_append_of_head? hs ht
  rw [h, takeWhile_append_of_head? hs' ht'] at htake
  rw [h, dropWhile_append_of_head? hs' ht'] at hdrop
  exact ⟨htake.symm, hdrop.symm⟩

/-- A pattern does not occur in a list, or it occurs for a first time. -/
theorem exists_first_infix {pattern : List α} (hne : pattern ≠ []) (s : List α) :
    ¬ pattern <:+: s ∨ ∃ before after, s = before ++ (pattern ++ after) ∧ ¬ pattern <:+: before := by
  induction s with
  | nil => exact Or.inl fun h => hne (List.infix_nil.mp h)
  | cons a s ih =>
      by_cases hfront : pattern <+: a :: s
      · obtain ⟨after, hafter⟩ := hfront
        exact Or.inr ⟨[], after, hafter.symm, fun h => hne (List.infix_nil.mp h)⟩
      · rcases ih with hnone | ⟨before, after, rfl, hbefore⟩
        · refine Or.inl fun h => ?_
          rcases List.infix_cons_iff.mp h with h | h
          · exact hfront h
          · exact hnone h
        · refine Or.inr ⟨a :: before, after, rfl, fun h => ?_⟩
          rcases List.infix_cons_iff.mp h with h | h
          · exact hfront (h.trans (List.prefix_append (a :: before) (pattern ++ after)))
          · exact hbefore h

end TestSelection
