import TestSelection.Proofs.Following
import TestSelection.Proofs.Group.Definition

/-!
The paths of tokens. A token without a slash at its front stands for a path within the directory of
its file, and one with a single slash there for a path within the suite root. Of two slashes only
one is taken off, and what starts with a slash is a path of its own: such a token leads out of the
suite, unless the path that it goes on with lies in it.
-/

namespace TestSelection

namespace Chars

variable {c : Char} {s : List Char}

theorem dropBack_cons (h : ∃ d ∈ s, d ≠ c) (a : Char) :
    dropBack c (a :: s) = a :: dropBack c s := by
  have hne : (s.reverse.dropWhile (· == c)).isEmpty = false := by
    simpa using h
  rw [dropBack, List.reverse_cons, List.dropWhile_append, hne]
  simp [dropBack]

theorem head?_dropBack (h : ∃ d ∈ s, d ≠ c) : (dropBack c s).head? = s.head? := by
  obtain ⟨d, hmem, hd⟩ := h
  obtain ⟨a, s, rfl⟩ := List.exists_cons_of_ne_nil (List.ne_nil_of_mem hmem)
  by_cases hs : ∃ d ∈ s, d ≠ c
  · rw [dropBack_cons hs, List.head?_cons, List.head?_cons]
  · have ha : a ≠ c := by
      rcases List.mem_cons.mp hmem with rfl | hmem
      · exact hd
      · exact absurd ⟨d, hmem, hd⟩ hs
    have hs : ∀ d ∈ s, d = c := by simpa using hs
    have hlast : s.reverse.dropWhile (· == c) = [] :=
      List.dropWhile_eq_nil_iff.mpr fun d hd => by simp [hs d (List.mem_reverse.mp hd)]
    rw [dropBack, List.reverse_cons, List.dropWhile_append, hlast]
    simp [ha]

end Chars

namespace Group

variable {tree : FileTree} {root base p : Path} {token body rest : List Char} {exclude : Bool}

theorem pathOfToken_of_head?_ne (hbody : ∃ c ∈ body, c ≠ '/') (hslash : body.head? ≠ some '/') :
    pathOfToken root base body = base.join (String.ofList (Chars.dropBack '/' body)) := by
  rw [pathOfToken]
  split
  · rename_i rest heq
    rw [← Chars.head?_dropBack hbody, heq] at hslash
    exact absurd rfl hslash
  · rfl

theorem pathOfToken_slash (hrest : ∃ c ∈ rest, c ≠ '/') :
    pathOfToken root base ('/' :: rest) = root.join (String.ofList (Chars.dropBack '/' rest)) := by
  rw [pathOfToken, Chars.dropBack_cons hrest]
  rfl

/-- A token that is accepted as a path has a sign that is no slash, and stands for the path of its
body. -/
theorem eq_pathOfToken (h : entryOfToken tree root base token = .ok ⟨exclude, .path p⟩) :
    p = pathOfToken root base (bodyOfToken token) ∧ ∃ c ∈ bodyOfToken token, c ≠ '/' := by
  revert h
  fun_cases entryOfToken tree root base token with
  | case4 sign body hreference hgroup hslashes p' hthere hsign =>
      intro h
      obtain ⟨rfl, rfl⟩ : sign = exclude ∧ p' = p := by simpa using h
      obtain rfl := bodyOfToken_eq hsign
      exact ⟨rfl, by simpa using hslashes⟩
  | _ => simp

/-- Whatever slashes and points a token has, its path goes on from the directory of its file or, if
it starts with a slash, from the suite root; but two slashes at its front lead to where its path
does without the first one. -/
theorem isWithin_of_entryOfToken
    (h : entryOfToken tree root base token = .ok ⟨exclude, .path p⟩) :
    ((bodyOfToken token).head? ≠ some '/' → p.isWithin base = true) ∧
      ∀ rest, bodyOfToken token = '/' :: rest →
        (p.isWithin root = true ↔ rest.head? ≠ some '/' ∨
          (⟨String.ofList (Chars.dropBack '/' rest)⟩ : Path).isWithin root = true) := by
  obtain ⟨rfl, hbody⟩ := eq_pathOfToken h
  refine ⟨fun hslash => ?_, fun rest hrest => ?_⟩
  · rw [pathOfToken_of_head?_ne hbody hslash]
    refine Path.isWithin_join ?_
    rwa [String.toList_ofList, Chars.head?_dropBack hbody]
  · rw [hrest] at hbody ⊢
    have hbelow : ∃ c ∈ rest, c ≠ '/' := by simpa using hbody
    have hhead : (String.ofList (Chars.dropBack '/' rest)).toList.head? = rest.head? := by
      rw [String.toList_ofList, Chars.head?_dropBack hbelow]
    rw [pathOfToken_slash hbelow]
    by_cases hslash : rest.head? = some '/'
    · rw [Path.join, if_pos (hhead.trans hslash)]
      simp [hslash]
    · exact iff_of_true (Path.isWithin_join (hhead ▸ hslash)) (.inl hslash)

/-- A suite with a file beside its groups. -/
def besideGroups : FileTree :=
  .folder [("suite", .folder [("lib", .folder [("x", .file (.text ""))]),
    ("qqx.java", .file (.text ""))])]

/-- Points and repeated slashes behind the first sign do not lead out of the suite. -/
theorem isWithin_of_entryOfToken_points :
    entryOfToken besideGroups ⟨"/suite"⟩ ⟨"/suite/sub"⟩ "-/.//lib/../lib//".toList
        = .ok ⟨true, .path ⟨"/suite/.//lib/../lib"⟩⟩ ∧
      (⟨"/suite/.//lib/../lib"⟩ : Path).isWithin ⟨"/suite"⟩ = true := by
  have h : entryOfToken besideGroups ⟨"/suite"⟩ ⟨"/suite/sub"⟩ "-/.//lib/../lib//".toList
      = .ok ⟨true, .path ⟨"/suite/.//lib/../lib"⟩⟩ := by decide +kernel
  exact ⟨h, ((isWithin_of_entryOfToken h).2 ".//lib/../lib//".toList rfl).mpr
    (.inl (by decide))⟩

/-- A token with two slashes at its front is accepted, but stands for files at the top. -/
theorem not_isWithin_twoSlashes :
    ∃ p, entryOfToken besideGroups ⟨"/suite"⟩ ⟨"/suite"⟩ "//qq*".toList = .ok ⟨false, .path p⟩ ∧
      (bodyOfToken "//qq*".toList).head? = some '/' ∧ ¬ p.isWithin ⟨"/suite"⟩ = true :=
  ⟨⟨"/qq*"⟩, by decide +kernel, by decide +kernel, by decide +kernel⟩

end Group

end TestSelection
