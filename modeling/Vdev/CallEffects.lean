import Vdev.SystemCalls

/-!
What a successful call does to the tree, for paths of any shape. In a tree without
symbolic links the location that a path leads to can be read off its components,
and a call that makes or removes an entry works on that location.
-/
namespace Vdev.CallEffects

open CString FileTree SystemCalls

/-- The location that components lead to, whether it exists or not. -/
def follow : Location → List CStr → Location
  | l, [] => l
  | l, c :: cs =>
    if h : Plain c then follow (⟨c, h⟩ :: l) cs
    else if c = ['.', '.'] then follow l.tail cs
    else follow l cs

theorem follow_append (l : Location) (cs ds : List CStr) :
    follow l (cs ++ ds) = follow (follow l cs) ds := by
  induction cs generalizing l with
  | nil => rfl
  | cons c cs ih =>
    rw [List.cons_append, follow, follow]
    split_ifs
    · exact ih _
    · exact ih _
    · exact ih _

theorem walk_eq_ok (T : FS) (l l' : Location) (cs : List CStr) (h : walk T l cs = .ok l') :
    l' = follow l cs := by
  induction cs generalizing l with
  | nil =>
    cases h
    rfl
  | cons c cs ih =>
    rw [walk] at h
    rw [follow]
    split at h
    · cases h
    · cases h
    · split_ifs at h ⊢
      · exact ih _ h
      · exact ih _ h
      · exact ih _ h

/-- Walking succeeds in every tree that has the directories. -/
theorem walk_mono (T U : FS) (l l' : Location) (cs : List CStr)
    (hdirs : ∀ k, T.IsDir k → U.IsDir k) (h : walk T l cs = .ok l') : walk U l cs = .ok l' := by
  induction cs generalizing l with
  | nil => exact h
  | cons c cs ih =>
    rw [walk] at h ⊢
    cases hl : T.get l with
    | none =>
      rw [hl] at h
      cases h
    | some e =>
      cases e with
      | leaf x =>
        rw [hl] at h
        cases h
      | dir a =>
        obtain ⟨b, hb⟩ := hdirs l ⟨a, hl⟩
        rw [hl] at h
        rw [hb]
        dsimp only at h ⊢
        split_ifs at h ⊢
        · exact ih _ h
        · exact ih _ h
        · exact ih _ h

theorem lastOf_eq_name (c : CStr) (n : Name) (h : lastOf c = .name n) : ∃ hc, n = ⟨c, hc⟩ := by
  unfold lastOf at h
  split_ifs at h with hc
  cases h
  exact ⟨hc, rfl⟩

/-- What a call works on is where its path leads, in a directory. -/
theorem target_eq_ok (T : FS) (s : CStr) (l : Location) (n : Name)
    (h : target T s = .ok (l, .name n)) :
    T.IsDir l ∧ n :: l = follow [] (names s) ∧
      ∀ U : FS, (∀ k, T.IsDir k → U.IsDir k) → target U s = .ok (l, .name n) := by
  unfold target at h
  split_ifs at h with hnil
  cases hnames : (names s).reverse with
  | nil =>
    rw [hnames] at h
    cases h
  | cons c cs =>
    rw [hnames] at h
    dsimp only at h
    have hsplit : names s = cs.reverse ++ [c] := by
      rw [← List.reverse_reverse (names s), hnames, List.reverse_cons]
    cases hwalk : walk T [] cs.reverse with
    | error e =>
      rw [hwalk] at h
      cases h
    | ok k =>
      rw [hwalk] at h
      dsimp only at h
      cases hk : T.get k with
      | none =>
        rw [hk] at h
        cases h
      | some e =>
        cases e with
        | leaf x =>
          rw [hk] at h
          cases h
        | dir a =>
          rw [hk] at h
          obtain ⟨rfl, hlast⟩ := Prod.mk.inj (Except.ok.inj h)
          obtain ⟨hc, rfl⟩ := lastOf_eq_name c n hlast
          refine ⟨⟨a, hk⟩, ?_, ?_⟩
          · rw [hsplit, follow_append, ← walk_eq_ok T [] k _ hwalk, follow, dif_pos hc, follow]
          · intro U hU
            obtain ⟨b, hb⟩ := hU k ⟨a, hk⟩
            unfold target
            rw [if_neg hnil, hnames]
            dsimp only
            rw [walk_mono T U [] k _ hU hwalk]
            dsimp only
            rw [hb]
            dsimp only
            rw [hlast]

section Calls

variable {T U : FS} {s : CStr}

/-- `rmdir` removes an empty directory and nothing else. -/
theorem rmdir_eq_ok (h : rmdir T s = .ok U) :
    ∃ n l, T.IsDir (n :: l) ∧ T.Childless (n :: l) ∧ U = T.remove n l := by
  unfold rmdir at h
  split at h
  · cases h
  · rename_i l n _
    cases hn : T.get (n :: l) with
    | none =>
      rw [hn] at h
      cases h
    | some e =>
      cases e with
      | leaf c =>
        rw [hn] at h
        cases h
      | dir a =>
        rw [hn] at h
        dsimp only at h
        split_ifs at h with hc
        cases h
        exact ⟨n, l, ⟨a, hn⟩, hc, rfl⟩
  · cases h
  · cases h
  · cases h

/-- Writing a file replaces its content, whatever the content is. -/
theorem writeFile_eq_ok (content : CStr) (create : Bool) (mode : ℕ)
    (h : writeFile T s content create mode = .ok U) :
    ∃ n l m, target T s = .ok (l, .name n) ∧ ¬T.IsDir (n :: l) ∧ slashed s = false ∧
      U = T.put n l (.leaf (.file m content)) ∧
      ∀ y, writeFile T s y create mode = .ok (T.put n l (.leaf (.file m y))) := by
  unfold writeFile at h ⊢
  split at h
  · cases h
  · rename_i l n htarget
    split at h
    · rename_i hnone
      split_ifs at h with hcreate hslash
      cases h
      have hnodir : ¬T.IsDir (n :: l) := T.not_isDir_of_none _ hnone
      refine ⟨n, l, mode, htarget, hnodir, Bool.eq_false_iff.mpr hslash, rfl, fun y => ?_⟩
      rw [if_neg hcreate, if_neg hslash]
    · cases h
    · rename_i m x hfile
      split_ifs at h with hslash
      cases h
      have hnodir : ¬T.IsDir (n :: l) := T.not_isDir_of_leaf _ _ hfile
      refine ⟨n, l, m, htarget, hnodir, Bool.eq_false_iff.mpr hslash, rfl, fun y => ?_⟩
      rw [if_neg hslash]
    · cases h
  · cases h

end Calls

/-- `U` has every entry of `T`, and new ones that are no regular files. -/
def OnlyAdds (T U : FS) : Prop :=
  ∀ k, U.get k = T.get k ∨ (T.get k = none ∧ ∀ m x, U.get k ≠ some (.leaf (.file m x)))

theorem OnlyAdds.refl (T : FS) : OnlyAdds T T := fun _ => Or.inl rfl

theorem OnlyAdds.trans {T U V : FS} (h : OnlyAdds T U) (h' : OnlyAdds U V) : OnlyAdds T V := by
  intro k
  rcases h k with hU | ⟨hT, hU⟩
  · rw [← hU]
    exact h' k
  · rcases h' k with hV | ⟨_, hV⟩
    · rw [hV]
      exact Or.inr ⟨hT, hU⟩
    · exact Or.inr ⟨hT, hV⟩

theorem OnlyAdds.isDir {T U : FS} {k : Location} (h : OnlyAdds T U) (hk : T.IsDir k) :
    U.IsDir k := by
  obtain ⟨a, ha⟩ := hk
  rcases h k with hU | ⟨hT, _⟩
  · exact ⟨a, by rw [hU, ha]⟩
  · rw [hT] at ha
    cases ha

end Vdev.CallEffects
