import Bloodmoon.Ext2.PathSplit

/-!
# The tokens of a path

`strtok` cuts a text into the pieces between the separators. Behind a separator in front of a token
it passes over the end of the text, so that it goes wrong exactly for texts that end with two
separators or are a single one (`strtok_iff`).

`ext2_path_to_inode` cuts the path in this way. On any text the tokens are its components, and the
search ends unless the text ends with two slashes or is a single one (`walkTokens_text`).
-/

namespace Bloodmoon

open Machine List Option

/-! ### Any text -/

/-- The last two characters are separators, or the only one is: the search for a token goes on
behind the end of the text. -/
def Overruns (d : BitVec 8) (s : Text) : Prop := s ≠ [] ∧ ∀ c ∈ s.reverse.take 2, c = d

instance (d : BitVec 8) (s : Text) : Decidable (Overruns d s) := inferInstanceAs (Decidable (_ ∧ _))

variable {d : BitVec 8} {s t p b c rest : Text}

theorem tokens_append (s t : Text) : tokens d (s ++ d :: t) = tokens d s ++ tokens d t := by
  rw [tokens, List.splitOn, splitOnP_append_cons _ _ (by simp), filter_append]
  rfl

theorem tokens_of_notMem (hne : s ≠ []) (h : d ∉ s) : tokens d s = [s] := by
  rw [tokens, splitOn_eq_singleton h, filter_cons_of_pos (by simpa using hne), filter_nil]

theorem tokens_nil : tokens d [] = [] := rfl

theorem tokens_replicate (k : ℕ) (s : Text) : tokens d (List.replicate k d ++ s) = tokens d s := by
  induction k with
  | zero => rfl
  | succ k ih =>
    exact (tokens_append [] _).trans ih

/-- A text has only separators, or a token behind the first ones. -/
theorem exists_token (d : BitVec 8) (s : Text) :
    (∃ k, s = List.replicate k d) ∨
      ∃ k c rest, s = List.replicate k d ++ (c ++ rest) ∧ c ≠ [] ∧ d ∉ c ∧
        ∀ x ∈ rest.head?, x = d := by
  induction s with
  | nil => exact .inl ⟨0, rfl⟩
  | cons x s ih =>
    by_cases hd : x = d
    · subst hd
      rcases ih with ⟨k, rfl⟩ | ⟨k, c, rest, rfl, hc⟩
      · exact .inl ⟨k + 1, rfl⟩
      · exact .inr ⟨k + 1, c, rest, rfl, hc⟩
    · refine .inr ?_
      have hsingle : d ∉ [x] := fun h => hd (mem_singleton.1 h).symm
      rcases ih with ⟨k, rfl⟩ | ⟨k, c, rest, rfl, hne, hc, hrest⟩
      · refine ⟨0, [x], List.replicate k d, rfl, cons_ne_nil _ _, hsingle, ?_⟩
        cases k with
        | zero => exact fun e he => nomatch he
        | succ k => exact fun e he => (Option.some.inj he).symm
      · cases k with
        | zero =>
          refine ⟨0, x :: c, rest, rfl, cons_ne_nil _ _, ?_, hrest⟩
          exact not_mem_cons_of_ne_of_not_mem (Ne.symm hd) hc
        | succ k =>
          exact ⟨0, [x], List.replicate (k + 1) d ++ (c ++ rest), rfl, cons_ne_nil _ _,
            hsingle, fun e he => (Option.some.inj he).symm⟩

/-- A token that has begun goes on up to the next separator. -/
theorem strtokLoop_append {token c rest : Text} (htoken : token ≠ []) (hc : d ∉ c)
    (hrest : ∀ x ∈ rest.head?, x = d) :
    strtokLoop d token false (c ++ rest) = some (some (token ++ c), rest.drop 1) := by
  have hempty : token.isEmpty = false := by
    cases token with
    | nil => exact absurd rfl htoken
    | cons => rfl
  induction c generalizing token with
  | nil =>
    cases rest with
    | nil => simp [strtokLoop, hempty]
    | cons x rest =>
      obtain rfl := hrest x rfl
      simp [strtokLoop, hempty]
  | cons x c ih =>
    obtain ⟨hd, hc⟩ := not_or.1 (mt mem_cons.2 hc)
    rw [cons_append, strtokLoop, if_neg (Ne.symm hd), ih (by simp) hc (by simp)]
    rw [append_assoc, singleton_append]

/-- The separators before a token are passed over. -/
theorem strtok_replicate (k : ℕ) (hne : c ≠ []) (hc : d ∉ c)
    (hrest : ∀ x ∈ rest.head?, x = d) :
    strtok d (List.replicate k d ++ (c ++ rest)) = some (some c, rest.drop 1) := by
  obtain ⟨x, c, rfl⟩ := exists_cons_of_ne_nil hne
  obtain ⟨hd, htail⟩ := not_or.1 (mt mem_cons.2 hc)
  have hgo := @strtokLoop_append d [x] c rest (cons_ne_nil _ _) htail hrest
  have hskip : ∀ k again, strtokLoop d [] again (List.replicate k d ++ (x :: c ++ rest)) =
      some (some (x :: c), rest.drop 1) := by
    intro k
    induction k with
    | zero =>
      intro again
      rw [replicate_zero, nil_append, cons_append, strtokLoop, if_neg (Ne.symm hd)]
      exact hgo
    | succ k ih =>
      intro again
      rw [replicate_succ, cons_append, strtokLoop, if_pos (by rfl)]
      exact ih true
  exact hskip k false

/-- Behind the last token there is nothing to find, and with a separator no end. -/
theorem strtok_separators (k : ℕ) :
    strtok d (List.replicate k d) = if k = 0 then some (none, []) else none := by
  have hskip : ∀ k, strtokLoop d [] true (List.replicate k d) = none := by
    intro k
    induction k with
    | zero => rfl
    | succ k ih =>
      rw [replicate_succ, strtokLoop, if_pos rfl]
      exact ih
  cases k with
  | zero => rfl
  | succ k =>
    rw [strtok, replicate_succ, strtokLoop, if_pos rfl]
    exact hskip k

theorem overruns_replicate (k : ℕ) : Overruns d (List.replicate k d) ↔ k ≠ 0 := by
  rw [Overruns, reverse_replicate]
  constructor
  · rintro ⟨hne, -⟩ rfl
    exact hne rfl
  · intro hk
    refine ⟨by simpa using hk, fun c hc => ?_⟩
    exact eq_of_mem_replicate (mem_of_mem_take hc)

theorem not_overruns_of_notMem (hne : c ≠ []) (hc : d ∉ c) (s : Text) : ¬ Overruns d (s ++ c) := by
  obtain ⟨c, x, rfl⟩ := eq_nil_or_concat c |>.resolve_left hne
  rintro ⟨-, hall⟩
  have hd : x = d := hall x (by simp)
  exact hc (by simp [hd])

/-- Behind a token only the text after its separator counts. -/
theorem overruns_append (hne : c ≠ []) (hc : d ∉ c) (s t : Text) :
    Overruns d (s ++ (c ++ d :: t)) ↔ Overruns d t := by
  obtain ⟨c, x, rfl⟩ := eq_nil_or_concat c |>.resolve_left hne
  have hd : x ≠ d := fun h => hc (by simp [h])
  -- the cases are the texts without, with one and with more characters
  rcases eq_nil_or_concat t with rfl | ⟨t, y, rfl⟩
  · simp [Overruns, hd]
  · rcases eq_nil_or_concat t with rfl | ⟨t, z, rfl⟩
    · simp [Overruns]
    · simp [Overruns]

theorem tokens_separators (k : ℕ) : tokens d (List.replicate k d) = [] := by
  rw [← append_nil (List.replicate k _), tokens_replicate, tokens_nil]

/-- The first token, and the others, which come from the text behind its separator. -/
theorem tokens_token (k : ℕ) (hne : c ≠ []) (hc : d ∉ c)
    (hrest : ∀ x ∈ rest.head?, x = d) :
    tokens d (List.replicate k d ++ (c ++ rest)) = c :: tokens d (rest.drop 1) ∧
      (Overruns d (List.replicate k d ++ (c ++ rest)) ↔ Overruns d (rest.drop 1)) := by
  rw [tokens_replicate]
  cases rest with
  | nil =>
    rw [append_nil, tokens_of_notMem hne hc]
    exact ⟨rfl, iff_of_false (not_overruns_of_notMem hne hc _) fun h => h.1 rfl⟩
  | cons x rest =>
    obtain rfl := hrest x rfl
    rw [tokens_append, tokens_of_notMem hne hc]
    exact ⟨rfl, overruns_append hne hc _ _⟩

/-- There are not more tokens than characters. -/
theorem length_tokens_le (s : Text) : (tokens d s).length ≤ s.length := by
  induction hlen : s.length using Nat.strong_induction_on generalizing s with
  | _ len ih =>
    rcases exists_token d s with ⟨k, rfl⟩ | ⟨k, c, rest, rfl, hne, hc, hrest⟩
    · rw [tokens_separators]
      exact Nat.zero_le _
    · have hpos := length_pos_iff.2 hne
      rw [length_append, length_append] at hlen
      rw [(tokens_token k hne hc hrest).1, length_cons]
      have hle := ih _ (by rw [length_drop]; omega) (rest.drop 1) rfl
      rw [length_drop] at hle
      omega


/-- The tokens that `strtok` returns in at most `fuel` calls, up to the first 0. -/
def strtokCalls (d : BitVec 8) : ℕ → Text → Option (List Text)
  | 0, _ => none
  | fuel + 1, s => (strtok d s).bind fun r => match r.1 with
    | none => some []
    | some token => (strtokCalls d fuel r.2).map (token :: ·)

/-- The calls return the tokens of a text one after the other and then 0, or pass over its end. -/
theorem strtokCalls_eq {fuel : ℕ} (hfuel : s.length < fuel) :
    strtokCalls d fuel s = if Overruns d s then none else some (tokens d s) := by
  induction fuel generalizing s with
  | zero => exact absurd hfuel (Nat.not_lt_zero _)
  | succ fuel ih =>
    rcases exists_token d s with ⟨k, rfl⟩ | ⟨k, c, rest, rfl, hne, hc, hrest⟩
    · rw [strtokCalls, strtok_separators, tokens_separators]
      simp only [overruns_replicate]
      by_cases hk : k = 0
      · rw [if_pos hk, if_neg (not_not_intro hk)]
        rfl
      · rw [if_neg hk, if_pos hk]
        rfl
    · obtain ⟨htokens, hover⟩ := tokens_token k hne hc hrest
      have hpos := length_pos_iff.2 hne
      have hshorter : (rest.drop 1).length < fuel := by
        rw [length_append, length_append] at hfuel
        rw [length_drop]
        omega
      rw [strtokCalls, strtok_replicate k hne hc hrest, bind_some, htokens]
      simp only [ih hshorter, hover]
      split_ifs <;> rfl

/-- **When `strtok` returns the tokens of a text** and stays in it: it does not end with two
separators and is not a single one. -/
theorem strtok_iff (d : BitVec 8) (s : Text) :
    strtokCalls d (s.length + 1) s = some (tokens d s) ↔ ¬ Overruns d s := by
  rw [strtokCalls_eq (Nat.lt_succ_self _)]
  split_ifs with hover
  · exact iff_of_false nofun (not_not_intro hover)
  · exact iff_of_true rfl hover

/-- In `a//` the end is passed over. -/
theorem strtok_two_slashes : strtokCalls 0x2f#8 4 [0x61#8, 0x2f#8, 0x2f#8] = none := rfl

/-! ### Looking up any path -/

namespace Volume

variable {v : Volume}

/-- The inodes that the components lead to, one after the other, as the code finds them. -/
def chain (v : Volume) : ℕ → List Text → Option ℕ
  | n, [] => some n
  | n, c :: cs => (v.inodeFromPathAndParent n c).bind fun n =>
      if n = 0 then some 0 else v.chain n cs

theorem chain_concat (v : Volume) (n : ℕ) (hn : n ≠ 0) (cs : List Text) (c : Text) :
    v.chain n (cs ++ [c]) = (v.chain n cs).bind fun m =>
      if m = 0 then some 0 else v.inodeFromPathAndParent m c := by
  induction cs generalizing n with
  | nil =>
    rw [nil_append, chain, chain, bind_some, if_neg hn]
    cases v.inodeFromPathAndParent n c with
    | none => rfl
    | some m =>
      rw [bind_some]
      split_ifs with hm
      · rw [hm]
      · rfl
  | cons d cs ih =>
    rw [cons_append, chain, chain, bind_assoc]
    refine Option.bind_congr fun m _ => ?_
    split_ifs with hm
    · rw [bind_some, if_pos rfl]
    · exact ih m hm

/-- The loop over the tokens of any text. -/
theorem walkTokens_text (s : Text) {fuel n : ℕ} (hn : n ≠ 0)
    (hfuel : (tokens 0x2f#8 s).length < fuel) :
    ((strtok 0x2f#8 s).bind fun first => v.walkTokens fuel n first) =
      (v.chain n (tokens 0x2f#8 s)).bind fun m =>
        if m ≠ 0 ∧ Overruns 0x2f#8 s then none else some m := by
  induction hlen : s.length using Nat.strong_induction_on generalizing s fuel n with
  | _ len ih =>
    obtain ⟨fuel, rfl⟩ := Nat.exists_eq_succ_of_ne_zero (Nat.ne_zero_of_lt hfuel)
    rcases exists_token 0x2f#8 s with ⟨k, rfl⟩ | ⟨k, c, rest, rfl, hne, hc, hrest⟩
    · rw [strtok_separators, tokens_separators, chain, bind_some]
      have hoff := overruns_replicate (d := 0x2f#8) k
      by_cases hk : k = 0
      · rw [if_pos hk, if_neg fun h => hoff.1 h.2 hk]
        rfl
      · rw [if_neg hk, if_pos ⟨hn, hoff.2 hk⟩]
        rfl
    · obtain ⟨hcomponents, hoff⟩ := tokens_token k hne hc hrest
      rw [hcomponents] at hfuel
      rw [strtok_replicate k hne hc hrest, bind_some, hcomponents, chain, bind_assoc]
      refine Option.bind_congr fun m _ => ?_
      by_cases hm : m = 0
      · rw [if_pos hm, if_pos hm, bind_some, if_neg fun h => h.1 rfl]
      · have hpos := length_pos_iff.2 hne
        rw [length_append, length_append] at hlen
        have hshorter : (rest.drop 1).length < len := by
          rw [length_drop]
          omega
        rw [if_neg hm, if_neg hm, ih _ hshorter _ hm (Nat.lt_of_succ_lt_succ hfuel) rfl]
        simp only [hoff]

/-- **`ext2_path_to_inode`** on any path. -/
theorem pathToInode_text (s : Text) :
    v.pathToInode s =
      (v.chain ext2RootInoIndex (tokens 0x2f#8 (s.take strMaxSize))).bind fun m =>
        if m ≠ 0 ∧ Overruns 0x2f#8 (s.take strMaxSize) then none else some m := by
  refine walkTokens_text _ (by decide) (Nat.lt_succ_of_le ?_)
  exact (length_tokens_le _).trans (length_take_le _ _)

end Volume

end Bloodmoon
