import Vdev.Hwdb

/-!
The split of a literal into pieces, as both programs of the hardware database make it: with
`insertColons`, and then at the colons. What goes on behind the literal is added to the piece
that is open, and the pieces in front of it stay.
-/
namespace Vdev.Hwdb

open CString Shell

theorem insertColons_cons_cons (a b : Char) (s : CStr) : insertColons (a :: b :: s) =
    if a ≠ ':' ∧ b ≠ ':' then a :: b :: ':' :: insertColons s
    else a :: insertColons (b :: s) := rfl

theorem insertColons_colon (s : CStr) : insertColons (':' :: s) = ':' :: insertColons s := by
  cases s with
  | nil => rfl
  | cons b s => rw [insertColons_cons_cons, if_neg (by simp)]

theorem insertColons_pair (a b : Char) (s : CStr) (ha : a ≠ ':') (hb : b ≠ ':') :
    insertColons (a :: b :: s) = a :: b :: ':' :: insertColons s := by
  rw [insertColons_cons_cons, if_pos ⟨ha, hb⟩]

theorem insertColons_single (a : Char) (s : CStr) :
    insertColons (a :: ':' :: s) = a :: ':' :: insertColons s := by
  rw [insertColons_cons_cons, if_neg (by simp), insertColons_colon]

theorem splitOn_piece (a b : CStr) (h : ':' ∉ a) :
    (a ++ ':' :: b).splitOn ':' = a :: b.splitOn ':' :=
  List.splitOn_append_cons_self_of_not_mem h b

/-- What follows a text does not change the pieces that are closed. -/
theorem splitOn_insertColons (l rest : CStr) :
    (insertColons (l ++ rest)).splitOn ':' =
      (pieces l).1 ++ (insertColons ((pieces l).2 ++ rest)).splitOn ':' := by
  fun_induction pieces l with
  | case1 => rfl
  | case2 =>
    rw [List.singleton_append, insertColons_colon]
    exact splitOn_piece [] _ List.not_mem_nil
  | case3 a ha => rfl
  | case4 b rest' ih =>
    rw [List.cons_append, insertColons_colon]
    exact (splitOn_piece [] _ List.not_mem_nil).trans (congrArg ([] :: ·) ih)
  | case5 a rest' ha ih =>
    rw [List.cons_append, List.cons_append, insertColons_single]
    exact (splitOn_piece [a] _ (by simpa using Ne.symm ha)).trans (congrArg ([a] :: ·) ih)
  | case6 a b rest' ha hb ih =>
    rw [List.cons_append, List.cons_append, insertColons_pair a b _ ha hb]
    refine (splitOn_piece [a, b] _ (by simp [Ne.symm ha, Ne.symm hb])).trans ?_
    exact congrArg ([a, b] :: ·) ih

/-- The characters of the pieces are of the text, and at most one is left open. -/
theorem pieces_subset (l : CStr) :
    (∀ p ∈ (pieces l).1, p ⊆ l) ∧ (pieces l).2 ⊆ l := by
  have hbehind (a b : Char) {p s : CStr} (h : p ⊆ s) : p ⊆ a :: b :: s :=
    List.subset_cons_of_subset _ (List.subset_cons_of_subset _ h)
  fun_induction pieces l with
  | case1 => simp
  | case2 => simp
  | case3 a ha => simp
  | case4 b rest ih =>
    rw [List.forall_mem_cons]
    exact ⟨⟨List.nil_subset _, fun p hp => List.subset_cons_of_subset _ (ih.1 p hp)⟩,
      List.subset_cons_of_subset _ ih.2⟩
  | case5 a rest ha ih =>
    rw [List.forall_mem_cons]
    exact ⟨⟨by simp, fun p hp => hbehind _ _ (ih.1 p hp)⟩, hbehind _ _ ih.2⟩
  | case6 a b rest ha hb ih =>
    rw [List.forall_mem_cons]
    exact ⟨⟨by simp, fun p hp => hbehind _ _ (ih.1 p hp)⟩, hbehind _ _ ih.2⟩

theorem pieces_open (l : CStr) : (pieces l).2 = [] ∨ ∃ a, a ≠ ':' ∧ (pieces l).2 = [a] := by
  fun_induction pieces l with
  | case1 => exact Or.inl rfl
  | case2 => exact Or.inl rfl
  | case3 a ha => exact Or.inr ⟨a, ha, rfl⟩
  | case4 b rest ih => exact ih
  | case5 a rest ha ih => exact ih
  | case6 a b rest ha hb ih => exact ih

/-- A piece is empty exactly for a colon that ends a segment of even length. -/
theorem nil_mem_pieces_iff (l : CStr) :
    [] ∈ (pieces l).1 ↔ ∃ seg ∈ (l.splitOn ':').dropLast, seg.length % 2 = 0 := by
  have hcolon (s : CStr) : ((':' :: s).splitOn ':').dropLast = [] :: (s.splitOn ':').dropLast := by
    rw [List.splitOn_cons_eq_if_modifyHead, if_pos (by decide),
      List.dropLast_cons_of_ne_nil (List.splitOn_ne_nil _ _)]
  have hother (c : Char) (s : CStr) (hc : c ≠ ':') :
      ((c :: s).splitOn ':').dropLast = (s.splitOn ':').dropLast.modifyHead (c :: ·) := by
    rw [List.splitOn_cons_eq_if_modifyHead, if_neg (by simpa using hc)]
    rcases s.splitOn ':' with _ | ⟨seg, _ | ⟨seg', segs⟩⟩ <;> rfl
  fun_induction pieces l with
  | case1 => simp
  | case2 =>
    rw [hcolon]
    simp
  | case3 a ha => simp [hother a [] ha]
  | case4 b rest ih =>
    rw [hcolon]
    simp
  | case5 a rest ha ih =>
    rw [hother a _ ha, hcolon, List.modifyHead_cons]
    simpa using ih
  | case6 a b rest ha hb ih =>
    rw [hother a _ ha, hother b _ hb, List.mem_cons, or_iff_right (List.cons_ne_nil _ _).symm]
    refine ih.trans ?_
    rcases (rest.splitOn ':').dropLast with _ | ⟨seg, segs⟩
    · simp
    · simp [Nat.add_assoc]

theorem pieces_ne_nil (c : Char) (s : CStr) (h : (pieces (c :: s)).2 = []) :
    (pieces (c :: s)).1 ≠ [] := by
  cases s with
  | nil =>
    rw [pieces] at h ⊢
    split_ifs at h ⊢
    exact List.cons_ne_nil _ _
  | cons d s =>
    rw [pieces]
    split_ifs <;> exact List.cons_ne_nil _ _

/-- A text that closes with an empty piece ends with a colon. -/
theorem getLast_of_pieces (l : CStr) (hrest : (pieces l).2 = [])
    (hlast : (pieces l).1.getLast? = some []) : l.getLast? = some ':' := by
  have htail (piece : CStr) (ps : List CStr) (hne : piece = [] → ps ≠ [])
      (h : (piece :: ps).getLast? = some []) : ps.getLast? = some [] := by
    cases ps with
    | nil => exact absurd rfl (hne (Option.some.inj h))
    | cons p ps => rwa [List.getLast?_cons_cons] at h
  have hlonger (c : Char) (s : CStr) (h : s.getLast? = some ':') :
      (c :: s).getLast? = some ':' := by
    rwa [List.getLast?_cons_of_ne_nil (List.ne_nil_of_mem (List.mem_of_getLast? h))]
  fun_induction pieces l with
  | case1 => cases hlast
  | case2 => rfl
  | case3 a ha => cases hrest
  | case4 b rest ih =>
    exact hlonger _ _ (ih hrest (htail [] _ (fun _ => pieces_ne_nil b rest hrest) hlast))
  | case5 a rest ha ih =>
    exact hlonger _ _ (hlonger _ _ (ih hrest (htail [a] _ (fun h => absurd h (by simp)) hlast)))
  | case6 a b rest ha hb ih =>
    exact hlonger _ _ (hlonger _ _ (ih hrest (htail [a, b] _ (fun h => absurd h (by simp)) hlast)))

/-- The directories of a match line: the pieces of its literal, and one that ends in the `*`. -/
theorem splitOn_line (l : CStr) :
    ∃ tail, (insertColons (l ++ ['*'])).splitOn ':' =
        (pieces l).1 ++ ((pieces l).2 ++ ['*']) :: tail ∧ ∀ p ∈ tail, p = [] := by
  rw [splitOn_insertColons]
  rcases pieces_open l with h | ⟨a, ha, h⟩
  · rw [h]
    exact ⟨[], rfl, by simp⟩
  · rw [h]
    refine ⟨[[]], ?_, by simp⟩
    rw [List.singleton_append, insertColons_pair a '*' [] ha (by decide)]
    congr 1
    exact splitOn_piece [a, '*'] [] (by simp [Ne.symm ha])

/-- The first piece of a text starts like the text, unless that is a colon. -/
theorem first_piece (c : Char) (s : CStr) :
    ∃ piece ps, (insertColons (c :: s)).splitOn ':' = piece :: ps ∧
      (c ≠ ':' → [c] <+: piece) ∧ (ps = [] → piece ≠ []) := by
  by_cases hc : c = ':'
  · subst hc
    rw [insertColons_colon]
    exact ⟨[], _, splitOn_piece [] _ List.not_mem_nil, fun h => absurd rfl h,
      fun h => absurd h (List.splitOn_ne_nil _ _)⟩
  cases s with
  | nil =>
    have hself : insertColons [c] = [c] := rfl
    rw [hself]
    exact ⟨[c], [], List.splitOn_eq_singleton (by simpa using Ne.symm hc),
      fun _ => List.prefix_rfl, fun _ => List.cons_ne_nil _ _⟩
  | cons d s =>
    by_cases hd : d = ':'
    · subst hd
      rw [insertColons_single]
      exact ⟨[c], _, splitOn_piece [c] _ (by simpa using Ne.symm hc), fun _ => List.prefix_rfl,
        fun _ => List.cons_ne_nil _ _⟩
    · rw [insertColons_pair c d s hc hd]
      exact ⟨[c, d], _, splitOn_piece [c, d] _ (by simp [Ne.symm hc, Ne.symm hd]),
        fun _ => List.prefix_append [c] [d], fun _ => List.cons_ne_nil _ _⟩

/-- The fields of a text that goes on behind a literal: its pieces, and one that starts with what
the literal left open. -/
theorem splitFields_behind (l t : CStr) (ht : t ≠ []) :
    ∃ field fields, splitFields ':' (insertColons (l ++ t)) = (pieces l).1 ++ field :: fields ∧
      (pieces l).2 <+: field := by
  have hfirst : ∃ piece ps, (insertColons ((pieces l).2 ++ t)).splitOn ':' = piece :: ps ∧
      (pieces l).2 <+: piece ∧ (ps = [] → piece ≠ []) := by
    rcases pieces_open l with h | ⟨a, ha, h⟩
    · obtain ⟨c, t', rfl⟩ := List.exists_cons_of_ne_nil ht
      obtain ⟨piece, ps, hsplit, -, hne⟩ := first_piece c t'
      rw [h]
      exact ⟨piece, ps, hsplit, List.nil_prefix, hne⟩
    · obtain ⟨piece, ps, hsplit, hhead, hne⟩ := first_piece a t
      rw [h]
      exact ⟨piece, ps, hsplit, hhead ha, hne⟩
  obtain ⟨piece, ps, hsplit, hhead, hne⟩ := hfirst
  rw [splitFields, splitOn_insertColons, hsplit]
  split_ifs with hlast
  · cases ps with
    | nil =>
      rw [List.getLast?_concat, Option.some.injEq] at hlast
      exact absurd hlast (hne rfl)
    | cons p ps =>
      refine ⟨piece, (p :: ps).dropLast, ?_, hhead⟩
      rw [List.dropLast_append_of_ne_nil (List.cons_ne_nil _ _)]
      rfl
  · exact ⟨piece, ps, rfl, hhead⟩

theorem mem_insertColons (s : CStr) (c : Char) (h : c ∈ insertColons s) : c = ':' ∨ c ∈ s := by
  fun_induction insertColons s with
  | case1 a b rest hab ih =>
    simp only [List.mem_cons] at h ⊢
    rcases h with h | h | h | h
    · exact Or.inr (Or.inl h)
    · exact Or.inr (Or.inr (Or.inl h))
    · exact Or.inl h
    · exact (ih h).imp_right fun hmem => Or.inr (Or.inr hmem)
  | case2 a b rest hab ih =>
    rcases List.mem_cons.mp h with h | h
    · exact Or.inr (h ▸ List.mem_cons_self)
    · exact (ih h).imp_right (List.mem_cons_of_mem _)
  | case3 s hs => exact Or.inr h

/-- In a text without slashes, the names of the path are the pieces at the colons. -/
theorem splitOn_map_slash (s : CStr) (h : '/' ∉ s) : (s.map slash).splitOn '/' = s.splitOn ':' := by
  induction s with
  | nil => rfl
  | cons c s ih =>
    have hs : '/' ∉ s := fun hmem => h (List.mem_cons_of_mem _ hmem)
    have hc : '/' ≠ c := fun heq => h (heq ▸ List.mem_cons_self)
    rw [List.map_cons, List.splitOn_cons_eq_if_modifyHead, List.splitOn_cons_eq_if_modifyHead,
      ih hs, slash]
    by_cases hcolon : c = ':'
    · simp [hcolon]
    · simp [hcolon, Ne.symm hc]

/-- No piece leaves a directory, where the fields can walk down. -/
theorem Walkable.dots_not_mem {ps : List CStr} {rest : CStr} (h : Walkable ps rest) :
    "..".toList ∉ ps := by
  induction ps with
  | nil => exact List.not_mem_nil
  | cons p ps ih =>
    rw [Walkable] at h
    intro hmem
    split_ifs at h with hskip
    · rcases List.mem_cons.mp hmem with rfl | hmem
      · exact absurd hskip (by decide)
      · exact absurd (h.2 _ hmem) (by decide)
    · rcases List.mem_cons.mp hmem with rfl | hmem
      · exact h.1 rfl
      · exact ih h.2 hmem

/-- Without dots, and without an empty piece at the end, the fields can walk down if no piece is
empty. -/
theorem walkable_iff (ps : List CStr) (rest : CStr) (hps : ∀ p ∈ ps, '.' ∉ p) (hrest : '.' ∉ rest)
    (hlast : rest = [] → ps.getLast? ≠ some []) : Walkable ps rest ↔ [] ∉ ps := by
  have hdot (s : CStr) (h : '.' ∉ s) : s ≠ ".".toList ∧ s.head? ≠ some '.' :=
    ⟨fun heq => h (heq ▸ by decide), fun heq => h (List.mem_of_head? heq)⟩
  induction ps with
  | nil => exact ⟨fun _ => List.not_mem_nil, fun _ => (hdot rest hrest).1⟩
  | cons p ps ih =>
    have hps' : ∀ q ∈ ps, '.' ∉ q := fun q hq => hps q (List.mem_cons_of_mem _ hq)
    have hp := hdot p (hps p List.mem_cons_self)
    have hskip (q : CStr) (hq : '.' ∉ q) : Skipped q ↔ q = [] := or_iff_left (hdot q hq).1
    rw [Walkable]
    by_cases hempty : p = []
    · rw [if_pos (show Skipped p from Or.inl hempty)]
      refine ⟨fun h => absurd ?_ (hlast h.1), fun h => absurd (hempty ▸ List.mem_cons_self) h⟩
      -- all pieces are empty, the last one too
      have hall : ∀ q ∈ p :: ps, q = [] := by
        intro q hq
        rcases List.mem_cons.mp hq with rfl | hq
        · exact hempty
        · exact (hskip q (hps' q hq)).mp (h.2 q hq)
      rw [List.getLast?_eq_some_getLast (List.cons_ne_nil _ _), hall _ (List.getLast_mem _)]
    · have hlast' : rest = [] → ps.getLast? ≠ some [] := by
        intro hr hl
        refine hlast hr ?_
        rwa [List.getLast?_cons_of_ne_nil (List.ne_nil_of_mem (List.mem_of_getLast? hl))]
      rw [if_neg fun h => hempty ((hskip p (hps p List.mem_cons_self)).mp h),
        and_iff_right hp.2, List.mem_cons, or_iff_right (Ne.symm hempty)]
      exact ih hps' hlast'

/-- For a literal that has no dot and does not end with a colon, the segments in front of the colons
are of odd length where the fields can walk down. -/
theorem walkable_iff_odd (l : CStr) (hdot : '.' ∉ l) (hlast : l.getLast? ≠ some ':') :
    Walkable (pieces l).1 (pieces l).2 ↔
      ∀ seg ∈ (l.splitOn ':').dropLast, seg.length % 2 = 1 := by
  obtain ⟨hsub, hsub'⟩ := pieces_subset l
  rw [walkable_iff _ _ (fun p hp h => hdot (hsub p hp h)) (fun h => hdot (hsub' h))
    fun hrest h => hlast (getLast_of_pieces l hrest h), nil_mem_pieces_iff]
  simp only [not_exists, not_and, Nat.mod_two_ne_zero]

end Vdev.Hwdb
