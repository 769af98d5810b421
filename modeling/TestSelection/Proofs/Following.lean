import TestSelection.Proofs.Bytes
import TestSelection.Proofs.FileTree

/-!
Following paths. Where a path leads is what its parts name: each piece of its text adds a name, goes
back to the parent or stays. So two spellings of a path lead to the same place, if both can be
followed, and the only thing that can part them is their length.
-/

namespace TestSelection

def Path.IsStart (start : List PathPart) : Prop := ∀ part ∈ start, part = .root ∨ part = .here

namespace FileTree

variable {tree : FileTree} {p q : Path}

/-! ### Places -/

theorem at?_append (tree : FileTree) (place rest : List String) :
    tree.at? (place ++ rest) = (tree.at? place).bind (·.at? rest) := by
  induction place generalizing tree with
  | nil => rfl
  | cons name place ih =>
      rw [List.cons_append, at?, at?]
      cases Table.find? name tree.entries with
      | none => rfl
      | some sub => exact ih sub

theorem at?_dropLast {place : List String} (h : tree.at? place ≠ none) :
    tree.at? place.dropLast ≠ none := by
  rcases List.eq_nil_or_concat place with rfl | ⟨front, last, rfl⟩
  · exact h
  · rw [List.concat_eq_append, at?_append] at h
    rw [List.concat_eq_append, List.dropLast_concat]
    intro hnone
    rw [hnone] at h
    exact h rfl

/-- Nothing is below a file. -/
theorem at?_file (content : FileContent) {place : List String} (h : place ≠ []) :
    (file content).at? place = none := by
  obtain ⟨name, rest, rfl⟩ := List.exists_cons_of_ne_nil h
  rfl

/-! ### Steps -/

/-- What a part does to a place. -/
def stepTo (place : List String) : PathPart → List String
  | .name n => place ++ [n]
  | .up => place.dropLast
  | .root | .here => place

theorem placeOf_eq (p : Path) : placeOf p = p.parts.foldl stepTo [] := rfl

theorem foldl_stepTo_start {start : List PathPart} (h : Path.IsStart start) :
    start.foldl stepTo [] = [] := by
  refine List.foldlRecOn (motive := (· = [])) start stepTo rfl fun place hplace part hpart => ?_
  rcases h part hpart with rfl | rfl <;> exact hplace

theorem follow_eq_ok {place next : List String} {piece : List Char}
    (h : tree.follow place piece = .ok next) :
    next = (PathPart.ofPiece? piece).toList.foldl stepTo place ∧ tree.at? next ≠ none := by
  rw [follow] at h
  split at h
  · cases h
  · cases h
  · rename_i entries hat
    rw [PathPart.ofPiece?]
    split at h
    · rename_i hidle
      obtain rfl := Except.ok.inj h
      rw [if_pos hidle, hat]
      exact ⟨rfl, Option.some_ne_none _⟩
    · rename_i hidle
      rw [if_neg hidle]
      split at h
      · rename_i hup
        obtain rfl := Except.ok.inj h
        rw [if_pos hup]
        exact ⟨rfl, at?_dropLast (hat ▸ Option.some_ne_none _)⟩
      · rename_i hup
        rw [if_neg hup]
        split at h
        · cases h
        dsimp only at h
        split at h
        · rename_i hlong hfound
          obtain rfl := Except.ok.inj h
          obtain ⟨sub, hsub⟩ := Option.isSome_iff_exists.mp hfound
          refine ⟨rfl, ?_⟩
          rw [at?_append, hat, Option.bind_some, at?, FileTree.entries, hsub]
          exact Option.some_ne_none _
        · cases h

theorem foldlM_follow_eq_ok {pieces : List (List Char)} {start last : List String}
    (hstart : tree.at? start ≠ none) (h : pieces.foldlM tree.follow start = .ok last) :
    last = (pieces.filterMap PathPart.ofPiece?).foldl stepTo start ∧ tree.at? last ≠ none := by
  induction pieces generalizing start with
  | nil =>
      obtain rfl := Except.ok.inj h
      exact ⟨rfl, hstart⟩
  | cons piece rest ih =>
      rw [List.foldlM_cons] at h
      obtain ⟨next, hnext, hrest⟩ := bind_eq_ok.mp h
      obtain ⟨rfl, hat⟩ := follow_eq_ok hnext
      obtain ⟨rfl, hlast⟩ := ih hat hrest
      refine ⟨?_, hlast⟩
      rw [List.filterMap_cons]
      cases PathPart.ofPiece? piece <;> rfl

/-- The parts are what the pieces stand for, perhaps after a slash or a point at the front. -/
theorem exists_parts_eq (p : Path) :
    ∃ front, Path.IsStart front ∧
      p.parts = front ++ (Chars.splitAt '/' p.text.toList).filterMap PathPart.ofPiece? := by
  rw [Path.parts]
  cases p.text.toList with
  | nil => exact ⟨[], List.forall_mem_nil _, rfl⟩
  | cons c s =>
      by_cases hc : c = '/'
      · subst hc
        exact ⟨[.root], List.forall_mem_singleton.mpr (.inl rfl), rfl⟩
      · rw [Path.partsOf_of_ne_slash hc]
        generalize Chars.splitAt '/' (c :: s) = pieces
        fun_cases Path.relativeParts pieces with
        | case1 => exact ⟨[.here], List.forall_mem_singleton.mpr (.inr rfl), rfl⟩
        | case2 => exact ⟨[], List.forall_mem_nil _, rfl⟩

/-- The pieces of a text do what its parts do. -/
theorem foldl_stepTo_pieces (p : Path) :
    ((Chars.splitAt '/' p.text.toList).filterMap PathPart.ofPiece?).foldl stepTo []
      = placeOf p := by
  obtain ⟨front, hfront, hparts⟩ := exists_parts_eq p
  rw [placeOf_eq, hparts, List.foldl_append, foldl_stepTo_start hfront]

theorem piecesOf_eq_ok_iff {pieces : List (List Char)} :
    piecesOf p = .ok pieces ↔ '\x00' ∉ p.text.toList ∧ p.text ≠ "" ∧
      p.text.utf8ByteSize ≤ maxFollowedBytes ∧ Chars.splitAt '/' p.text.toList = pieces := by
  rw [piecesOf]
  split_ifs with hnull hempty hsize
  · simp [Text.has] at hnull
    simp [hnull]
  · simp [String.isEmpty_iff.mp hempty]
  · simp [hsize]
  · simp only [Text.has, List.contains_iff_mem] at hnull
    simp only [String.isEmpty_iff] at hempty
    simp [hnull, hempty, Nat.le_of_not_lt hsize]

theorem locate_eq_ok {place : List String} (h : tree.locate p = .ok place) :
    place = placeOf p ∧ tree.at? place ≠ none := by
  obtain ⟨pieces, hpieces, hfollow⟩ := bind_eq_ok.mp h
  obtain ⟨-, -, -, rfl⟩ := piecesOf_eq_ok_iff.mp hpieces
  rw [← foldl_stepTo_pieces]
  exact foldlM_follow_eq_ok (Option.some_ne_none _) hfollow

theorem find_eq_ok_iff {sub : FileTree} :
    tree.find p = .ok sub ↔ tree.locate p = .ok (placeOf p) ∧ tree.at? (placeOf p) = some sub := by
  rw [find, bind_eq_ok]
  constructor
  · rintro ⟨place, hlocate, hat⟩
    obtain ⟨rfl, -⟩ := locate_eq_ok hlocate
    split at hat
    · rename_i sub' hsub
      obtain rfl := Except.ok.inj hat
      exact ⟨hlocate, hsub⟩
    · cases hat
  · rintro ⟨hlocate, hat⟩
    refine ⟨_, hlocate, ?_⟩
    rw [hat]
    rfl

/-- Spellings with the same parts lead to the same tree, if they lead to anything. -/
theorem eq_of_find_eq_ok {sub sub' : FileTree} (hp : tree.find p = .ok sub)
    (hq : tree.find q = .ok sub') (h : p.parts = q.parts) : sub = sub' := by
  have hplace : placeOf p = placeOf q := by rw [placeOf_eq, placeOf_eq, h]
  obtain ⟨-, hp⟩ := find_eq_ok_iff.mp hp
  obtain ⟨-, hq⟩ := find_eq_ok_iff.mp hq
  rw [hplace, hq] at hp
  exact (Option.some.inj hp).symm

/-! ### Spellings -/

/-- The piece that a part is written as, if it is more than a slash or a point at the front. -/
def pieceOf? : PathPart → Option (List Char)
  | .name n => some n.toList
  | .up => some ['.', '.']
  | .root | .here => none

theorem filterMap_pieceOf? (pieces : List (List Char)) :
    (pieces.filterMap PathPart.ofPiece?).filterMap pieceOf?
      = pieces.filter fun piece => (PathPart.ofPiece? piece).isSome := by
  induction pieces with
  | nil => rfl
  | cons piece rest ih =>
      have hpiece : ∀ part, PathPart.ofPiece? piece = some part → pieceOf? part = some piece := by
        intro part hpart
        rw [PathPart.ofPiece?] at hpart
        split_ifs at hpart with hidle hup
        · obtain rfl := Option.some.inj hpart
          rw [hup]
          rfl
        · obtain rfl := Option.some.inj hpart
          exact congrArg some String.toList_ofList
      cases hpart : PathPart.ofPiece? piece with
      | none =>
          rw [List.filterMap_cons_none hpart, List.filter_cons_of_neg (by simp [hpart]), ih]
      | some part =>
          rw [List.filterMap_cons_some hpart, List.filter_cons_of_pos (by simp [hpart]),
            List.filterMap_cons_some (hpiece part hpart), ih]

/-- The parts tell which pieces there are but for the idle ones. -/
theorem filter_pieces_eq (p : Path) :
    (Chars.splitAt '/' p.text.toList).filter (fun piece => (PathPart.ofPiece? piece).isSome)
      = p.parts.filterMap pieceOf? := by
  obtain ⟨front, hfront, hparts⟩ := exists_parts_eq p
  have hnone : front.filterMap pieceOf? = [] := by
    refine List.filterMap_eq_nil_iff.mpr fun part hpart => ?_
    rcases hfront part hpart with rfl | rfl <;> rfl
  rw [hparts, List.filterMap_append, hnone, filterMap_pieceOf?, List.nil_append]

/-- The pieces lead from a place to a folder. -/
def LeadsToFolder (tree : FileTree) (start : List String) (pieces : List (List Char)) : Prop :=
  ∃ last entries, pieces.foldlM tree.follow start = .ok last ∧
    tree.at? last = some (folder entries)

theorem leadsToFolder_cons {start : List String} {piece : List Char} {rest : List (List Char)} :
    tree.LeadsToFolder start (piece :: rest) ↔
      ∃ next, tree.follow start piece = .ok next ∧ tree.LeadsToFolder next rest := by
  simp only [LeadsToFolder, List.foldlM_cons, bind_eq_ok]
  constructor
  · rintro ⟨last, entries, ⟨next, hnext, hrest⟩, hat⟩
    exact ⟨next, hnext, last, entries, hrest, hat⟩
  · rintro ⟨next, hnext, last, entries, hrest, hat⟩
    exact ⟨last, entries, ⟨next, hnext, hrest⟩, hat⟩

theorem LeadsToFolder.start {start : List String} {pieces : List (List Char)}
    (h : tree.LeadsToFolder start pieces) : ∃ entries, tree.at? start = some (folder entries) := by
  cases pieces with
  | nil =>
      obtain ⟨last, entries, hlast, hat⟩ := h
      obtain rfl := Except.ok.inj hlast
      exact ⟨entries, hat⟩
  | cons piece rest =>
      obtain ⟨next, hnext, -⟩ := leadsToFolder_cons.mp h
      rw [follow] at hnext
      split at hnext
      · exact nomatch hnext
      · exact nomatch hnext
      · rename_i entries hat
        exact ⟨entries, hat⟩

/-- Idle pieces do not count on the way to a folder. -/
theorem leadsToFolder_filter {start : List String} {pieces : List (List Char)} :
    tree.LeadsToFolder start pieces ↔
      tree.LeadsToFolder start
        (pieces.filter fun piece => (PathPart.ofPiece? piece).isSome) := by
  induction pieces generalizing start with
  | nil => rfl
  | cons piece rest ih =>
      rw [List.filter_cons]
      split
      · simp only [leadsToFolder_cons, ih]
      · rename_i hidle
        rw [← ih, leadsToFolder_cons]
        have hpiece : piece = [] ∨ piece = ['.'] := by
          rw [PathPart.ofPiece?] at hidle
          split_ifs at hidle with h hup
          · exact h
          · exact absurd rfl hidle
          · exact absurd rfl hidle
        have hstay : ∀ entries, tree.at? start = some (folder entries) →
            tree.follow start piece = .ok start := by
          intro entries hat
          rw [follow, hat]
          exact if_pos hpiece
        constructor
        · rintro ⟨next, hnext, h⟩
          obtain ⟨rfl, -⟩ := follow_eq_ok hnext
          rw [PathPart.ofPiece?, if_pos hpiece] at h
          exact h
        · intro h
          obtain ⟨entries, hat⟩ := h.start
          exact ⟨start, hstay entries hat, h⟩

theorem hasFolder_iff_leadsToFolder :
    tree.hasFolder p = true ↔ ∃ pieces, piecesOf p = .ok pieces ∧ tree.LeadsToFolder [] pieces := by
  rw [hasFolder_iff]
  constructor
  · rintro ⟨entries, hfind⟩
    obtain ⟨hlocate, hat⟩ := find_eq_ok_iff.mp hfind
    obtain ⟨pieces, hpieces, hfollow⟩ := bind_eq_ok.mp hlocate
    exact ⟨pieces, hpieces, _, entries, hfollow, hat⟩
  · rintro ⟨pieces, hpieces, last, entries, hfollow, hat⟩
    have hlocate : tree.locate p = .ok last := bind_eq_ok.mpr ⟨pieces, hpieces, hfollow⟩
    obtain ⟨rfl, -⟩ := locate_eq_ok hlocate
    exact ⟨entries, find_eq_ok_iff.mpr ⟨hlocate, hat⟩⟩

/-- Spellings with the same parts that can be followed lead to a folder both or neither. -/
theorem hasFolder_congr {pieces pieces' : List (List Char)} (hp : piecesOf p = .ok pieces)
    (hq : piecesOf q = .ok pieces') (h : p.parts = q.parts) :
    tree.hasFolder p = tree.hasFolder q := by
  obtain ⟨-, -, -, rfl⟩ := piecesOf_eq_ok_iff.mp hp
  obtain ⟨-, -, -, rfl⟩ := piecesOf_eq_ok_iff.mp hq
  rw [Bool.eq_iff_iff, hasFolder_iff_leadsToFolder, hasFolder_iff_leadsToFolder, hp, hq]
  simp only [Except.ok.injEq, exists_eq_left']
  rw [leadsToFolder_filter, filter_pieces_eq, h, ← filter_pieces_eq, ← leadsToFolder_filter]

/-! ### Long spellings -/

theorem piecesOf_of_lt (hnull : '\x00' ∉ p.text.toList)
    (hsize : maxFollowedBytes < p.text.utf8ByteSize) : piecesOf p = .error .nameTooLong := by
  have hempty : p.text ≠ "" := fun h => by simp [h] at hsize
  rw [piecesOf, if_neg (by simpa [Text.has] using hnull),
    if_neg (by simpa [String.isEmpty_iff] using hempty), if_pos hsize]

/-- An entry of a folder cannot be followed if its path is too long. -/
theorem piecesOf_join_of_lt {name : String} {sub : FileTree} (hp : tree.find p = .ok sub)
    (hname : IsEntryName name)
    (hsize : maxFollowedBytes < p.text.utf8ByteSize + name.utf8ByteSize) :
    piecesOf (p.join name) = .error .nameTooLong := by
  obtain ⟨pieces, hpieces, -⟩ := bind_eq_ok.mp (find_eq_ok_iff.mp hp).1
  obtain ⟨hnull, -, -, -⟩ := piecesOf_eq_ok_iff.mp hpieces
  have hslash : ¬ name.toList.head? = some '/' := fun h => hname.no_slash (List.mem_of_head? h)
  have htext : (p.join name).text = name ∧ p.text = "" ∨ (p.join name).text = p.text ++ name ∨
      (p.join name).text = p.text ++ "/" ++ name := by
    rw [Path.join, if_neg hslash]
    split
    · rename_i hlast
      exact Or.inl ⟨rfl, String.toList_injective (List.getLast?_eq_none_iff.mp hlast)⟩
    · exact Or.inr (Or.inl rfl)
    · exact Or.inr (Or.inr rfl)
  apply piecesOf_of_lt
  · rcases htext with ⟨htext, -⟩ | htext | htext <;> simp [htext, hnull, hname.no_null]
  · rcases htext with ⟨htext, hempty⟩ | htext | htext
    · simpa [htext, hempty] using hsize
    · simpa [htext] using hsize
    · rw [htext, String.utf8ByteSize_append, String.utf8ByteSize_append]
      omega

theorem hasFolder_of_piecesOf_error {error : FileError} (h : piecesOf p = .error error) :
    tree.hasFolder p = false := by
  rw [hasFolder, find, locate, h]
  rfl

theorem locate_of_piecesOf {place : List String} {front : List (List Char)} {piece : List Char}
    (hq : piecesOf q = .ok (front ++ [piece])) (hfront : front.foldlM tree.follow [] = .ok place) :
    tree.locate q = tree.follow place piece := by
  rw [locate, hq]
  change (front ++ [piece]).foldlM tree.follow [] = _
  rw [List.foldlM_append, hfront]
  change [piece].foldlM tree.follow place = _
  rw [List.foldlM_cons]
  exact bind_pure _

/-- A path goes on by a piece from where it leads to, while it is not too long. -/
theorem locate_append {place : List String} {piece : String} (hp : tree.locate p = .ok place)
    (hslash : '/' ∉ piece.toList) (hnull : '\x00' ∉ piece.toList)
    (hsize : (p.text ++ "/" ++ piece).utf8ByteSize ≤ maxFollowedBytes) :
    tree.locate ⟨p.text ++ "/" ++ piece⟩ = tree.follow place piece.toList := by
  obtain ⟨pieces, hpieces, hfollow⟩ := bind_eq_ok.mp hp
  obtain ⟨hpnull, -, -, rfl⟩ := piecesOf_eq_ok_iff.mp hpieces
  have hlonger : piecesOf ⟨p.text ++ "/" ++ piece⟩
      = .ok (Chars.splitAt '/' p.text.toList ++ [piece.toList]) := by
    refine piecesOf_eq_ok_iff.mpr ⟨?_, ?_, hsize, ?_⟩
    · simp [hpnull, hnull]
    · simp
    · rw [String.toList_append, String.toList_append, List.append_assoc]
      exact Path.splitAt_append hslash
  exact locate_of_piecesOf hlonger hfollow

/-- The name of an entry leads from the folder to it. -/
theorem follow_name {place : List String} {entries : List (String × FileTree)} {name : String}
    {sub : FileTree} (hat : tree.at? place = some (folder entries)) (hname : IsEntryName name)
    (hsub : Table.find? name entries = some sub) :
    tree.follow place name.toList = .ok (place ++ [name]) := by
  have hpiece := hname.ofPiece?
  have hlong : ¬ maxNameBytes < Chars.byteSize name.toList := by
    rw [Chars.byteSize_toList]
    exact not_lt.mpr hname.size_le
  rw [PathPart.ofPiece?] at hpiece
  split_ifs at hpiece with hidle hup
  · cases hpiece
  simp only [follow, hat, if_neg hidle, if_neg hup, if_neg hlong, String.ofList_toList, hsub,
    Option.isSome_some, if_true]

/-- A path that goes on from a folder by the name of an entry leads to the entry. -/
theorem find_of_follow {place : List String} {entries : List (String × FileTree)} {name : String}
    {sub : FileTree} (hat : tree.at? place = some (folder entries)) (hname : IsEntryName name)
    (hsub : Table.find? name entries = some sub)
    (hlocate : tree.locate q = tree.follow place name.toList) : tree.find q = .ok sub := by
  rw [follow_name hat hname hsub] at hlocate
  obtain ⟨hplace, -⟩ := locate_eq_ok hlocate
  rw [hplace] at hlocate
  refine find_eq_ok_iff.mpr ⟨hlocate, ?_⟩
  rw [← hplace, at?_append, hat, Option.bind_some, at?, FileTree.entries, hsub]
  rfl

/-- The path of an entry of a folder leads to it, while it is not too long. -/
theorem find_append {entries : List (String × FileTree)} {name : String} {sub : FileTree}
    (hp : tree.find p = .ok (folder entries)) (hname : IsEntryName name)
    (hsub : Table.find? name entries = some sub)
    (hsize : (p.text ++ "/" ++ name).utf8ByteSize ≤ maxFollowedBytes) :
    tree.find ⟨p.text ++ "/" ++ name⟩ = .ok sub := by
  obtain ⟨hlocate, hat⟩ := find_eq_ok_iff.mp hp
  exact find_of_follow hat hname hsub
    (locate_append hlocate hname.no_slash hname.no_null hsize)

/-- A path that ends with a slash goes on by a piece as well: the idle piece behind the slash stays
in the folder. -/
theorem locate_join {place : List String} {name : String} {pieces : List (List Char)}
    (hp : tree.locate p = .ok place) (hslash : '/' ∉ name.toList)
    (hpieces : piecesOf (p.join name) = .ok pieces) :
    tree.locate (p.join name) = tree.follow place name.toList := by
  obtain ⟨before, hbefore, hfollow⟩ := bind_eq_ok.mp hp
  obtain ⟨-, hempty, -, rfl⟩ := piecesOf_eq_ok_iff.mp hbefore
  have hsplit : ∃ front, front.foldlM tree.follow [] = .ok place ∧
      Chars.splitAt '/' (p.join name).text.toList = front ++ [name.toList] := by
    rw [Path.join, if_neg fun h => hslash (List.mem_of_head? h)]
    split
    · rename_i hlast
      exact absurd (String.toList_injective (List.getLast?_eq_none_iff.mp hlast)) hempty
    · rename_i hlast
      obtain ⟨front, hfront⟩ := List.getLast?_eq_some_iff.mp hlast
      refine ⟨Chars.splitAt '/' front, ?_, ?_⟩
      · rw [hfront, Path.splitAt_append List.not_mem_nil, List.foldlM_append] at hfollow
        obtain ⟨last, hlast, hstay⟩ := bind_eq_ok.mp hfollow
        rw [List.foldlM_cons] at hstay
        obtain ⟨next, hnext, hend⟩ := bind_eq_ok.mp hstay
        obtain rfl := Except.ok.inj hend
        obtain ⟨rfl, -⟩ := follow_eq_ok hnext
        exact hlast
      · rw [String.toList_append, hfront, List.append_assoc]
        exact Path.splitAt_append hslash
    · refine ⟨Chars.splitAt '/' p.text.toList, hfollow, ?_⟩
      rw [String.toList_append, String.toList_append, List.append_assoc]
      exact Path.splitAt_append hslash
  obtain ⟨front, hfront, hjoin⟩ := hsplit
  obtain ⟨-, -, -, rfl⟩ := piecesOf_eq_ok_iff.mp hpieces
  exact locate_of_piecesOf (hjoin ▸ hpieces) hfront

/-- The path of an entry of a folder leads to it, if it can be followed. -/
theorem find_join {entries : List (String × FileTree)} {name : String} {sub : FileTree}
    {pieces : List (List Char)} (hp : tree.find p = .ok (folder entries))
    (hname : IsEntryName name) (hsub : Table.find? name entries = some sub)
    (hpieces : piecesOf (p.join name) = .ok pieces) : tree.find (p.join name) = .ok sub := by
  obtain ⟨hlocate, hat⟩ := find_eq_ok_iff.mp hp
  exact find_of_follow hat hname hsub (locate_join hlocate hname.no_slash hpieces)

end FileTree

namespace Path

/-- A path spelled with so many points at its end, each of which stays in the folder. -/
def idle (p : Path) : Nat → Path
  | 0 => p
  | n + 1 => ⟨(p.idle n).text ++ "/" ++ "."⟩

variable {p : Path} {tree : FileTree}

theorem text_idle_ne_empty (hp : p.text ≠ "") (n : Nat) : (p.idle n).text ≠ "" := by
  cases n with
  | zero => exact hp
  | succ n => simp [idle]

theorem parts_idle (hp : p.text ≠ "") (n : Nat) : (p.idle n).parts = p.parts := by
  induction n with
  | zero => rfl
  | succ n ih =>
      have htext : (p.idle n).text.toList ≠ [] := fun h =>
        text_idle_ne_empty hp n (String.toList_injective h)
      rw [idle, parts, String.toList_append, String.toList_append, List.append_assoc, ← ih]
      exact (partsOf_append htext ['.']).trans (List.append_nil _)

theorem size_idle (p : Path) (n : Nat) :
    (p.idle n).text.utf8ByteSize = p.text.utf8ByteSize + 2 * n := by
  induction n with
  | zero => rfl
  | succ n ih =>
      have hpoint : "/".utf8ByteSize = 1 ∧ ".".utf8ByteSize = 1 := by decide
      rw [idle, String.utf8ByteSize_append, String.utf8ByteSize_append, ih, hpoint.1, hpoint.2]
      omega

theorem join_idle_succ (p : Path) (n : Nat) {name : String} (hslash : '/' ∉ name.toList) :
    (p.idle (n + 1)).join name = ⟨(p.idle (n + 1)).text ++ "/" ++ name⟩ := by
  have hlast : (p.idle (n + 1)).text.toList.getLast? = some '.' := by
    rw [idle, String.toList_append]
    exact List.getLast?_append_of_ne_nil _ (List.cons_ne_nil _ _)
  rw [join, if_neg fun h => hslash (List.mem_of_head? h), hlast]
  rfl

theorem find_idle {entries : List (String × FileTree)} {n : Nat}
    (hp : tree.find p = .ok (.folder entries))
    (hsize : (p.idle n).text.utf8ByteSize ≤ FileTree.maxFollowedBytes) :
    tree.find (p.idle n) = .ok (.folder entries) := by
  induction n with
  | zero => exact hp
  | succ n ih =>
      have hshorter : (p.idle n).text.utf8ByteSize ≤ FileTree.maxFollowedBytes := by
        rw [size_idle] at hsize ⊢
        omega
      obtain ⟨hlocate, hat⟩ := FileTree.find_eq_ok_iff.mp (ih hshorter)
      have hlocate' := @FileTree.locate_append tree (p.idle n) _ "." hlocate (by decide) (by decide)
        hsize
      have hstay : tree.follow (FileTree.placeOf (p.idle n)) ".".toList
          = .ok (FileTree.placeOf (p.idle n)) := by
        rw [FileTree.follow, hat]
        rfl
      rw [hstay] at hlocate'
      obtain ⟨hplace, -⟩ := FileTree.locate_eq_ok hlocate'
      rw [hplace] at hlocate' hat
      exact FileTree.find_eq_ok_iff.mpr ⟨hlocate', hat⟩

end Path

end TestSelection
