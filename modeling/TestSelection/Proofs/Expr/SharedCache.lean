import TestSelection.Proofs.Expr.Cache
import TestSelection.Proofs.Table

/-!
A cache of expressions that many requests use at once. A request first looks its text up, and if the
text is not kept but parses, it keeps the expression later, as a step of its own. In between others
may look up the same text, parse it too, and keep it before. What carries over from step to step is
that an entry is never replaced, so that whatever a request was answered with is still what is kept
for its text.
-/

namespace TestSelection

namespace ExprCache

variable {c : ExprCache} {text other : String} {e : Expr} {entry : CachedExpr}

/-! ### Requests -/

/-- How far a request has come. -/
inductive Progress
  | waiting
  /-- The text was not kept, and it parses. -/
  | parsed (e : Expr)
  | answered (answer : Except SyntaxError CachedExpr)
deriving DecidableEq

structure Request where
  text : String
  progress : Progress
deriving DecidableEq

/-- What a request finds out by its look-up. -/
def lookUp (c : ExprCache) (text : String) : Progress :=
  match c.kept.get? text with
  | some entry => .answered (.ok entry)
  | none =>
    match Expr.parse text with
    | .ok e => .parsed e
    | .error error => .answered (.error error)

/-- The next step of a request, and the cache after it. -/
def advance (c : ExprCache) (r : Request) : Request × ExprCache :=
  match r.progress with
  | .waiting => (⟨r.text, c.lookUp r.text⟩, c)
  | .parsed e => (⟨r.text, .answered (.ok (c.keep r.text e).1)⟩, (c.keep r.text e).2)
  | .answered _ => (r, c)

/-- A request that is not interrupted is one that is made alone. -/
theorem advance_advance (c : ExprCache) (text : String) :
    (c.advance ⟨text, .waiting⟩).2.advance (c.advance ⟨text, .waiting⟩).1
      = (⟨text, .answered (c.getOrParse text).1⟩, (c.getOrParse text).2) := by
  unfold getOrParse
  simp only [advance, lookUp]
  cases c.kept.get? text with
  | some entry => rfl
  | none => cases Expr.parse text <;> rfl

/-- A cache and the requests that have been made of it. -/
structure Sharing where
  cache : ExprCache
  requests : List Request
deriving DecidableEq

/-- What can happen next. -/
inductive Move
  | ask (text : String)
  /-- A request, given by its place, takes its next step. -/
  | step (place : Nat)

namespace Sharing

def start : Sharing := ⟨empty, []⟩

def act (s : Sharing) : Move → Sharing
  | .ask text => ⟨s.cache, s.requests ++ [⟨text, .waiting⟩]⟩
  | .step place =>
    match s.requests[place]? with
    | some r => ⟨(s.cache.advance r).2, s.requests.set place (s.cache.advance r).1⟩
    | none => s

/-- What becomes of a cache and its requests when these moves happen one after another. -/
def run (moves : List Move) : Sharing := moves.foldl act start

end Sharing

/-! ### What a step leaves as it is -/

theorem get?_keep (c : ExprCache) (text other : String) (e : Expr) :
    (c.keep text e).2.kept.get? other
      = if text = other then some (c.keep text e).1 else c.kept.get? other := by
  rw [keep]
  cases hkept : c.kept.get? text with
  | some entry =>
      by_cases h : text = other
      · rw [if_pos h, ← h, hkept]
      · rw [if_neg h]
  | none => exact c.kept.get?_insert text other _

/-- What is kept once is never replaced. -/
theorem get?_keep_of_get? (h : c.kept.get? other = some entry) (text : String) (e : Expr) :
    (c.keep text e).2.kept.get? other = some entry := by
  rw [get?_keep]
  split_ifs with heq
  · subst heq
    rw [keep, h]
  · exact h

theorem get?_advance_of_get? (h : c.kept.get? other = some entry) (r : Request) :
    (c.advance r).2.kept.get? other = some entry := by
  unfold advance
  cases r.progress with
  | waiting => exact h
  | parsed e => exact get?_keep_of_get? h r.text e
  | answered answer => exact h

theorem text_advance (c : ExprCache) (r : Request) : (c.advance r).1.text = r.text := by
  unfold advance
  cases r.progress <;> rfl

/-! ### Slots -/

/-- Each text that is kept has a slot of its own, and the slots are numbered from zero. -/
structure Slotted (c : ExprCache) : Prop where
  lt_size : ∀ text entry, c.kept.get? text = some entry → entry.slot < c.size
  injective : ∀ text other entry entry', c.kept.get? text = some entry →
    c.kept.get? other = some entry' → entry.slot = entry'.slot → text = other

theorem slotted_empty : empty.Slotted :=
  ⟨fun _ _ h => (nomatch h), fun _ _ _ _ h => nomatch h⟩

theorem Slotted.keep (h : c.Slotted) (text : String) (e : Expr) : (c.keep text e).2.Slotted := by
  rw [ExprCache.keep]
  cases hkept : c.kept.get? text with
  | some entry => exact h
  | none =>
      have hsize : (⟨c.kept.insert text ⟨c.size, e⟩⟩ : ExprCache).size = c.size + 1 :=
        Table.size_insert hkept
      have hcases (other : String) (entry : CachedExpr)
          (hother : (c.kept.insert text ⟨c.size, e⟩).get? other = some entry) :
          text = other ∧ entry.slot = c.size ∨
            c.kept.get? other = some entry ∧ entry.slot < c.size := by
        rw [Table.get?_insert] at hother
        split_ifs at hother with heq
        · obtain rfl := Option.some.inj hother
          exact Or.inl ⟨heq, rfl⟩
        · exact Or.inr ⟨hother, h.lt_size other entry hother⟩
      constructor
      · intro other entry hother
        rw [hsize]
        rcases hcases other entry hother with ⟨-, hslot⟩ | ⟨-, hslot⟩ <;> omega
      · intro first second entry entry' hfirst hsecond hslot
        rcases hcases first entry hfirst with ⟨rfl, hnew⟩ | ⟨hold, hlt⟩ <;>
          rcases hcases second entry' hsecond with ⟨rfl, hnew'⟩ | ⟨hold', hlt'⟩
        · rfl
        · omega
        · omega
        · exact h.injective first second entry entry' hold hold' hslot

/-! ### All requests -/

/-- The progress of a request agrees with the parser and with what is kept. -/
def Agrees (c : ExprCache) (r : Request) : Prop :=
  match r.progress with
  | .waiting => True
  | .parsed e => Expr.parse r.text = .ok e
  | .answered (.ok entry) => c.kept.get? r.text = some entry
  | .answered (.error error) => Expr.parse r.text = .error error

theorem Agrees.mono {c' : ExprCache} {r : Request} (h : c.Agrees r)
    (hkeeps : ∀ text entry, c.kept.get? text = some entry → c'.kept.get? text = some entry) :
    c'.Agrees r := by
  obtain ⟨text, progress⟩ := r
  cases progress with
  | waiting => trivial
  | parsed e => exact h
  | answered answer =>
      cases answer with
      | ok entry => exact hkeeps text entry h
      | error error => exact h

theorem agrees_lookUp (c : ExprCache) (text : String) : c.Agrees ⟨text, c.lookUp text⟩ := by
  unfold lookUp
  cases hkept : c.kept.get? text with
  | some entry => exact hkept
  | none =>
      cases hparse : Expr.parse text with
      | ok e => exact hparse
      | error error => exact hparse

theorem Agrees.advance {r : Request} (h : c.Agrees r) : (c.advance r).2.Agrees (c.advance r).1 := by
  obtain ⟨text, progress⟩ := r
  cases progress with
  | waiting => exact agrees_lookUp c text
  | parsed e =>
      show (c.keep text e).2.kept.get? text = some (c.keep text e).1
      rw [get?_keep, if_pos rfl]
  | answered answer => exact h

/-- What holds of a cache and its requests at all times. -/
structure Sound (s : Sharing) : Prop where
  faithful : s.cache.Faithful
  slotted : s.cache.Slotted
  agrees : ∀ r ∈ s.requests, s.cache.Agrees r
  asked : ∀ text entry, s.cache.kept.get? text = some entry → text ∈ s.requests.map Request.text

theorem sound_start : Sound .start :=
  ⟨faithful_empty, slotted_empty, fun _ h => (nomatch h), fun _ _ h => nomatch h⟩

theorem Sound.ask {s : Sharing} (h : Sound s) (text : String) : Sound (s.act (.ask text)) := by
  refine ⟨h.faithful, h.slotted, fun r hr => ?_, fun other entry hother => ?_⟩
  · rcases List.mem_append.mp hr with hr | hr
    · exact h.agrees r hr
    · obtain rfl := List.mem_singleton.mp hr
      trivial
  · have hasked := h.asked other entry hother
    show other ∈ (s.requests ++ [_]).map Request.text
    rw [List.map_append]
    exact List.mem_append_left _ hasked

theorem faithful_advance {r : Request} (hc : c.Faithful) (hr : c.Agrees r) :
    (c.advance r).2.Faithful := by
  obtain ⟨text, progress⟩ := r
  cases progress with
  | waiting => exact hc
  | parsed e => exact (hc.keep hr).2
  | answered answer => exact hc

theorem slotted_advance (hc : c.Slotted) (r : Request) : (c.advance r).2.Slotted := by
  obtain ⟨text, progress⟩ := r
  cases progress with
  | waiting => exact hc
  | parsed e => exact hc.keep text e
  | answered answer => exact hc

/-- A step keeps nothing but the text of its request. -/
theorem get?_of_advance {r : Request} (h : (c.advance r).2.kept.get? other = some entry) :
    other = r.text ∨ c.kept.get? other = some entry := by
  obtain ⟨text, progress⟩ := r
  cases progress with
  | waiting => exact Or.inr h
  | parsed e =>
      have hkeep : (c.keep text e).2.kept.get? other = some entry := h
      rw [get?_keep] at hkeep
      split_ifs at hkeep with heq
      · exact Or.inl heq.symm
      · exact Or.inr hkeep
  | answered answer => exact Or.inr h

theorem Sound.step {s : Sharing} (h : Sound s) (place : Nat) : Sound (s.act (.step place)) := by
  unfold Sharing.act
  dsimp only
  cases hplace : s.requests[place]? with
  | none => exact h
  | some r =>
      have hr : r ∈ s.requests := List.mem_of_getElem? hplace
      have htexts : (s.requests.set place (s.cache.advance r).1).map Request.text
          = s.requests.map Request.text := by
        obtain ⟨hlt, rfl⟩ := List.getElem?_eq_some_iff.mp hplace
        rw [List.map_set, text_advance, ← List.getElem_map Request.text, List.set_getElem_self]
        rwa [List.length_map]
      refine ⟨faithful_advance h.faithful (h.agrees r hr), slotted_advance h.slotted r,
        fun other hother => ?_, fun text entry hkept => ?_⟩
      · rcases List.mem_or_eq_of_mem_set hother with hother | rfl
        · exact (h.agrees other hother).mono fun text entry hkept => get?_advance_of_get? hkept r
        · exact (h.agrees r hr).advance
      · dsimp only
        rw [htexts]
        rcases get?_of_advance hkept with rfl | hkept
        · exact List.mem_map_of_mem hr
        · exact h.asked text entry hkept

theorem sound_run (moves : List Move) : Sound (.run moves) := by
  refine List.foldlRecOn moves _ sound_start fun s hs move _ => ?_
  cases move with
  | ask text => exact hs.ask text
  | step place => exact hs.step place

/-! ### Answers -/

theorem Agrees.map_expr {r : Request} (hc : c.Faithful) (h : c.Agrees r)
    {answer : Except SyntaxError CachedExpr} (hanswer : r.progress = .answered answer) :
    answer.map CachedExpr.expr = Expr.parse r.text := by
  rw [Agrees, hanswer] at h
  cases answer with
  | ok entry => exact (hc r.text entry h).symm
  | error error => exact h.symm

theorem Agrees.get? {r : Request} (h : c.Agrees r) (hanswer : r.progress = .answered (.ok entry)) :
    c.kept.get? r.text = some entry := by
  rwa [Agrees, hanswer] at h

theorem Sound.mem_names_iff {s : Sharing} (h : Sound s)
    (hall : ∀ r ∈ s.requests, ∃ answer, r.progress = .answered answer) {text : String} :
    text ∈ s.cache.kept.names ↔
      text ∈ s.requests.map Request.text ∧ (Expr.parse text).isOk = true := by
  rw [Table.mem_names_iff, Table.contains_iff]
  constructor
  · rintro ⟨entry, hkept⟩
    rw [h.faithful text entry hkept]
    exact ⟨h.asked text entry hkept, rfl⟩
  · rintro ⟨htext, hok⟩
    obtain ⟨r, hr, rfl⟩ := List.mem_map.mp htext
    obtain ⟨answer, hanswer⟩ := hall r hr
    have hexpr := (h.agrees r hr).map_expr h.faithful hanswer
    cases answer with
    | ok entry => exact ⟨entry, (h.agrees r hr).get? hanswer⟩
    | error error =>
        rw [← hexpr] at hok
        exact nomatch hok

/-- Whatever texts are asked for, and however the steps of the requests follow on one another, each
request is answered as the parser answers, those for one text with the same entry and those for
other texts with others; and when all have been answered, one entry is kept for each text that was
asked for and parses. -/
theorem run_answers (moves : List Move) :
    let s := Sharing.run moves
    (∀ text, (s.cache.advance ⟨text, .waiting⟩).2.advance (s.cache.advance ⟨text, .waiting⟩).1
      = (⟨text, .answered (s.cache.getOrParse text).1⟩, (s.cache.getOrParse text).2)) ∧
    (∀ r ∈ s.requests, ∀ answer, r.progress = .answered answer →
      answer.map CachedExpr.expr = Expr.parse r.text) ∧
    (∀ r ∈ s.requests, ∀ other ∈ s.requests, ∀ entry entry',
      r.progress = .answered (.ok entry) → other.progress = .answered (.ok entry') →
        (r.text = other.text → entry = entry') ∧ (entry.slot = entry'.slot → r.text = other.text)) ∧
    (∀ text error, Expr.parse text = .error error → s.cache.kept.contains text = false) ∧
    ((∀ r ∈ s.requests, ∃ answer, r.progress = .answered answer) →
      s.cache.size = ((s.requests.map Request.text).dedup.filter
        fun text => (Expr.parse text).isOk).length) := by
  intro s
  have h : Sound s := sound_run moves
  refine ⟨advance_advance s.cache, fun r hr answer => (h.agrees r hr).map_expr h.faithful,
    fun r hr other hother entry entry' hentry hentry' => ?_, fun text error hparse => ?_,
    fun hall => ?_⟩
  · have hkept := (h.agrees r hr).get? hentry
    have hkept' := (h.agrees other hother).get? hentry'
    refine ⟨fun htext => ?_, h.slotted.injective r.text other.text entry entry' hkept hkept'⟩
    rw [htext, hkept'] at hkept
    exact (Option.some.inj hkept).symm
  · rw [Bool.eq_false_iff, Ne, Table.contains_iff]
    rintro ⟨entry, hkept⟩
    exact nomatch (h.faithful text entry hkept).symm.trans hparse
  · have hperm : s.cache.kept.names.Perm ((s.requests.map Request.text).dedup.filter
        fun text => (Expr.parse text).isOk) := by
      refine (List.perm_ext_iff_of_nodup s.cache.kept.nodup_names
        ((List.nodup_dedup _).filter _)).mpr fun text => ?_
      rw [h.mem_names_iff hall, List.mem_filter, List.mem_dedup]
    rw [← hperm.length_eq, Table.length_names]
    rfl

/-- Two requests look a text up before either of them keeps it, one more comes when it is kept, and
another text does not parse. -/
theorem run_answers_race :
    let moves : List Move := [.ask "a", .ask "a", .ask "a &", .step 0, .step 1, .step 1, .step 2,
      .step 0, .ask "a", .step 3]
    let s := Sharing.run moves
    let entry : CachedExpr := ⟨0, .name "a"⟩
    let error : SyntaxError := .unexpected .operand "end of input" 3
    s.requests = [⟨"a", .answered (.ok entry)⟩, ⟨"a", .answered (.ok entry)⟩,
        ⟨"a &", .answered (.error error)⟩, ⟨"a", .answered (.ok entry)⟩] ∧
      (∀ r ∈ s.requests, ∃ answer, r.progress = .answered answer) ∧
      Expr.parse "a" = .ok (.name "a") ∧ Expr.parse "a &" = .error error ∧
      s.cache.kept.contains "a &" = false ∧ s.cache.size = 1 := by
  intro moves s entry error
  obtain ⟨-, hparse, -, hfailing, hsize⟩ := run_answers moves
  have hrequests : s.requests = [⟨"a", .answered (.ok entry)⟩, ⟨"a", .answered (.ok entry)⟩,
      ⟨"a &", .answered (.error error)⟩, ⟨"a", .answered (.ok entry)⟩] := by
    decide +kernel
  have hall : ∀ r ∈ s.requests, ∃ answer, r.progress = .answered answer := by
    rw [hrequests]
    simp
  have hfirst : (⟨"a", .answered (.ok entry)⟩ : Request) ∈ s.requests := by simp [hrequests]
  have hwrong : (⟨"a &", .answered (.error error)⟩ : Request) ∈ s.requests := by simp [hrequests]
  have herror : Expr.parse "a &" = .error error := (hparse _ hwrong _ rfl).symm
  refine ⟨hrequests, hall, (hparse _ hfirst _ rfl).symm, herror, hfailing _ _ herror, ?_⟩
  rw [hsize hall]
  decide +kernel

end ExprCache

end TestSelection
