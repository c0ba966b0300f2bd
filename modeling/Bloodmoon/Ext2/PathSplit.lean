import Bloodmoon.Ext2.Directory

/-!
# Splitting a path

There are two functions that split a path into the path of the parent and the name:
`ext2_path_to_parent_and_name` with its own loop, and `split_into_path_and_name` with `strrchr`. The
first has no value for "no slash" and takes the first character for one, and it looks at
`STR_MAX_SIZE` characters only, one more behind a slash at the beginning. On the other paths both
return the parts around the last slash (`splitsAgree_iff`).
-/

namespace Bloodmoon

open Machine List

/-- `strrchr`: the index of the last occurrence. -/
def strrchr (s : Text) (ch : BitVec 8) : Option ℕ :=
  s.zipIdx.foldl (fun last c => if c.1 = ch then some c.2 else last) none

/-- `split_into_path_and_name`, with room enough for the parent and the name; nothing when the path
is empty. `strncpy` copies at most `STR_MAX_SIZE` characters. -/
def splitIntoPathAndName (fullPath : Text) : Option (Text × Text) :=
  if (fullPath.take strMaxSize).length = 0 then none
  else
    match strrchr fullPath 0x2f#8 with
    | none => some ([], fullPath)
    | some lastSep =>
      let parentLen := if lastSep = 0 then 1 else lastSep
      some (fullPath.take (min parentLen strMaxSize), fullPath.drop (lastSep + 1))

/-! ### The parts of a path -/

/-- The part after the last slash, and the whole path if there is none. -/
def namePart (path : Text) : Text := (path.reverse.takeWhile (· ≠ 0x2f#8)).reverse

/-- The part before the last slash, and nothing if there is none. -/
def parentPart (path : Text) : Text := (path.reverse.dropWhile (· ≠ 0x2f#8)).tail.reverse

/-- The longest pieces of a text without the separator that are not empty. Those of a path between
the slashes say what directory it denotes: the root has none. -/
def tokens (d : BitVec 8) (s : Text) : List Text := (s.splitOn d).filter (· ≠ [])

variable {p b path : Text}

theorem namePart_append (hb : 0x2f#8 ∉ b) : namePart (p ++ 0x2f#8 :: b) = b := by
  have hall : ∀ c ∈ b.reverse, decide (c ≠ 0x2f#8) = true := fun c hc =>
    decide_eq_true fun heq => hb (heq ▸ mem_reverse.1 hc)
  rw [namePart, reverse_append, reverse_cons, append_assoc,
    takeWhile_append_of_pos hall, singleton_append, takeWhile_cons_of_neg (by simp),
    append_nil, reverse_reverse]

theorem parentPart_append (hb : 0x2f#8 ∉ b) : parentPart (p ++ 0x2f#8 :: b) = p := by
  have hall : ∀ c ∈ b.reverse, decide (c ≠ 0x2f#8) = true := fun c hc =>
    decide_eq_true fun heq => hb (heq ▸ mem_reverse.1 hc)
  rw [parentPart, reverse_append, reverse_cons, append_assoc,
    dropWhile_append_of_pos hall, singleton_append, dropWhile_cons_of_neg (by simp),
    tail_cons, reverse_reverse]

theorem namePart_of_notMem (h : 0x2f#8 ∉ path) : namePart path = path := by
  have hall : ∀ c ∈ path.reverse, decide (c ≠ 0x2f#8) = true := fun c hc =>
    decide_eq_true fun heq => h (heq ▸ mem_reverse.1 hc)
  rw [namePart, takeWhile_eq_self_iff.2 hall, reverse_reverse]

/-- A path with a slash has a last one. -/
theorem exists_last_slash (h : 0x2f#8 ∈ path) : ∃ p b, path = p ++ 0x2f#8 :: b ∧ 0x2f#8 ∉ b := by
  induction path with
  | nil => exact absurd h not_mem_nil
  | cons c path ih =>
    by_cases hmem : 0x2f#8 ∈ path
    · obtain ⟨p, b, rfl, hb⟩ := ih hmem
      exact ⟨c :: p, b, rfl, hb⟩
    · obtain rfl := (mem_cons.1 h).resolve_right hmem
      exact ⟨[], path, rfl, hmem⟩

/-! ### The searches -/

section Search

variable {α : Type*} {f : ℕ → α} {d : α} {k : ℕ}

/-- The search for the last slash keeps what it has when there is none. -/
theorem foldl_slash_of_notMem (hb : 0x2f#8 ∉ b) :
    (b.zipIdx k).foldl (fun last c => if c.1 = 0x2f#8 then f c.2 else last) d = d := by
  induction b generalizing k with
  | nil => rfl
  | cons c b ih =>
    obtain ⟨hc, hb⟩ := not_or.1 (mt mem_cons.2 hb)
    rw [zipIdx_cons, foldl_cons, if_neg fun heq => hc heq.symm]
    exact ih hb

/-- The search for the last slash finds it. -/
theorem foldl_slash (hb : 0x2f#8 ∉ b) :
    (p ++ 0x2f#8 :: b).zipIdx.foldl (fun last c => if c.1 = 0x2f#8 then f c.2 else last) d =
      f p.length := by
  rw [zipIdx_append, foldl_append, zipIdx_cons, foldl_cons, if_pos rfl,
    foldl_slash_of_notMem hb, Nat.zero_add]

end Search

/-! ### The two functions -/

/-- Both functions return the part after the last slash as the name, and as the parent a path of the
directory that the part before the last slash denotes. -/
def SplitsAgree (path : Text) : Prop :=
  ∃ parent parent',
    pathToParentAndName path = some (parent, some (namePart path)) ∧
    splitIntoPathAndName path = some (parent', namePart path) ∧
    tokens 0x2f#8 parent = tokens 0x2f#8 (parentPart path) ∧
    tokens 0x2f#8 parent' = tokens 0x2f#8 (parentPart path)

theorem tokens_slash : tokens 0x2f#8 [0x2f#8] = tokens 0x2f#8 [] := by decide

/-- The path of the directory before the last slash: the root if there is nothing. -/
def parentText (p : Text) : Text := if p = [] then [0x2f#8] else p

theorem tokens_parentText (p : Text) : tokens 0x2f#8 (parentText p) = tokens 0x2f#8 p := by
  rw [parentText]
  split_ifs with hp
  · rw [hp, tokens_slash]
  · rfl

/-- `ext2_path_to_parent_and_name` on a path with a slash. -/
theorem pathToParentAndName_slash (hb : 0x2f#8 ∉ b)
    (hlen : (p ++ 0x2f#8 :: b).length ≤ strMaxSize) :
    pathToParentAndName (p ++ 0x2f#8 :: b) = some (parentText p, some b) := by
  have hlast : lastSlash (p ++ 0x2f#8 :: b) = p.length := foldl_slash (f := id) hb
  rw [pathToParentAndName, take_of_length_le hlen]
  simp only [hlast, if_pos hlen, if_pos (Nat.le_succ_of_le hlen)]
  cases p with
  | nil => rfl
  | cons c p => simp [parentText]

/-- Without a slash behind the first character, this character is taken for one. -/
theorem pathToParentAndName_of_tail (hpath : 0x2f#8 ∉ path.tail) (hne : path ≠ [])
    (hlen : path.length ≤ strMaxSize + 1) :
    pathToParentAndName path = some ([0x2f#8], some (path.drop 1)) := by
  obtain ⟨c, path, rfl⟩ := exists_cons_of_ne_nil hne
  have hlast : lastSlash ((c :: path).take strMaxSize) = 0 := by
    rw [show strMaxSize = 65535 + 1 from rfl, take_succ_cons, lastSlash, zipIdx_cons, foldl_cons,
      ite_self]
    exact foldl_slash_of_notMem (f := id) fun hmem => hpath (mem_of_mem_take hmem)
  rw [pathToParentAndName]
  simp only [hlast, if_pos hlen]
  rw [if_neg (by simp [strMaxSize]), if_pos trivial]

/-- `split_into_path_and_name` on a path with a slash. -/
theorem splitIntoPathAndName_slash (hb : 0x2f#8 ∉ b) :
    splitIntoPathAndName (p ++ 0x2f#8 :: b) = some ((parentText p).take strMaxSize, b) := by
  have hlast : strrchr (p ++ 0x2f#8 :: b) 0x2f#8 = some p.length := foldl_slash hb
  have hname : (p ++ 0x2f#8 :: b).drop (p.length + 1) = b := by simp
  have hparent : (p ++ 0x2f#8 :: b).take (min (if p.length = 0 then 1 else p.length) strMaxSize) =
      (parentText p).take strMaxSize := by
    cases p with
    | nil => rfl
    | cons c p =>
      rw [if_neg (by simp), parentText, if_neg (cons_ne_nil c p), Nat.min_comm,
        ← take_take, take_left]
  have hpos : ((p ++ 0x2f#8 :: b).take strMaxSize).length ≠ 0 := by
    rw [length_take, length_append, length_cons, strMaxSize]
    omega
  rw [splitIntoPathAndName, if_neg hpos, hlast]
  simp only [hname, hparent]

/-- A path whose name is all but the first character begins with its last slash. -/
theorem slash_of_drop_eq_namePart (hne : path ≠ []) (hname : path.drop 1 = namePart path) :
    0x2f#8 ∈ path ∧ parentPart path = [] := by
  have hlength := congrArg List.length hname
  rw [length_drop] at hlength
  have hslash : 0x2f#8 ∈ path := by
    by_contra hnot
    rw [namePart_of_notMem hnot] at hlength
    have hpos := length_pos_iff.2 hne
    omega
  obtain ⟨p, b, rfl, hb⟩ := exists_last_slash hslash
  rw [namePart_append hb, length_append, length_cons] at hlength
  rw [parentPart_append hb]
  exact ⟨hslash, length_eq_zero_iff.1 (by omega)⟩

/-- **When the two functions agree**: on the paths with a slash that are not longer than
`STR_MAX_SIZE`, or by one character when the only slash is the first character. -/
theorem splitsAgree_iff (hne : path ≠ []) :
    SplitsAgree path ↔ 0x2f#8 ∈ path ∧ (path.length ≤ strMaxSize ∨
      path.length = strMaxSize + 1 ∧ parentPart path = []) := by
  constructor
  · rintro ⟨parent, parent', hfirst, -, -, -⟩
    rcases Nat.lt_or_ge strMaxSize path.length with hlong | hlen
    · -- the copy of the name has its end only behind the first character
      rw [pathToParentAndName] at hfirst
      split_ifs at hfirst with hzero hlast hone hle
      · have hname := Option.some.inj (congrArg Prod.snd (Option.some.inj hfirst))
        obtain ⟨hslash, hparent⟩ := slash_of_drop_eq_namePart hne hname
        exact ⟨hslash, .inr ⟨Nat.le_antisymm hone hlong, hparent⟩⟩
      · exact nomatch congrArg Prod.snd (Option.some.inj hfirst)
      · exact absurd hlong (Nat.not_lt.2 hle)
      · exact nomatch congrArg Prod.snd (Option.some.inj hfirst)
    · refine ⟨by_contra fun hnot => ?_, .inl hlen⟩
      rw [pathToParentAndName_of_tail (fun hmem => hnot (mem_of_mem_tail hmem)) hne
        (Nat.le_succ_of_le hlen)] at hfirst
      have hname := Option.some.inj (congrArg Prod.snd (Option.some.inj hfirst))
      exact hnot (slash_of_drop_eq_namePart hne hname).1
  · rintro ⟨hslash, hlen⟩
    obtain ⟨p, b, rfl, hb⟩ := exists_last_slash hslash
    rw [parentPart_append hb] at hlen
    have hshort : (parentText p).length ≤ strMaxSize := by
      rw [length_append] at hlen
      rw [parentText]
      split_ifs with hp
      · decide
      · have := hlen.resolve_right fun h => hp h.2
        omega
    have hfirst : pathToParentAndName (p ++ 0x2f#8 :: b) = some (parentText p, some b) := by
      rcases hlen with hlen | ⟨hone, rfl⟩
      · exact pathToParentAndName_slash hb hlen
      · exact pathToParentAndName_of_tail hb hne (Nat.le_of_eq hone)
    have hsecond : splitIntoPathAndName (p ++ 0x2f#8 :: b) = some (parentText p, b) := by
      rw [splitIntoPathAndName_slash hb, take_of_length_le hshort]
    rw [SplitsAgree, namePart_append hb, parentPart_append hb]
    exact ⟨_, _, hfirst, hsecond, tokens_parentText p, tokens_parentText p⟩

/-- The path `/d/x` is split into `/d` and `x`. -/
theorem splitsAgree_file : SplitsAgree [0x2f#8, 0x64#8, 0x2f#8, 0x78#8] :=
  (splitsAgree_iff (by decide)).2 ⟨by decide, .inl (by decide)⟩

/-- The path `ab` is split into the root and `b` by one function, and into the empty path and `ab`
by the other. -/
theorem not_splitsAgree_name :
    pathToParentAndName [0x61#8, 0x62#8] = some ([0x2f#8], some [0x62#8]) ∧
      splitIntoPathAndName [0x61#8, 0x62#8] = some ([], [0x61#8, 0x62#8]) ∧
      ¬ SplitsAgree [0x61#8, 0x62#8] := by
  have hsplit : pathToParentAndName [0x61#8, 0x62#8] = some ([0x2f#8], some [0x62#8]) := by decide
  refine ⟨hsplit, by decide, ?_⟩
  rintro ⟨parent, parent', hfirst, -⟩
  have hname : some [0x62#8] = some (namePart [0x61#8, 0x62#8]) :=
    congrArg Prod.snd (Option.some.inj hfirst)
  exact absurd hname (by decide)

end Bloodmoon
