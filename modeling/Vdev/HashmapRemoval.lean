import Vdev.HashmapResize

/-!
Searches in an ordered hash map and removals from it. A search may stop at a free
bucket or at one whose entry is nearer to its home than the search is. A removal
closes the gap by shifting the entries behind it one bucket back, up to one that
is at home or a free bucket; the entries keep their order.
-/
namespace Vdev.Hashmap

open CircularProbing IndexRings

variable {K V HashKey : Type*} {hash : HashKey → K → ℕ} {h h' : OrderedHashmap K V HashKey}
  {l : List (K × V)} {e : K × V} {idx : ℕ}

section Rest

namespace Represents

variable (hr : Represents hash h l)

include hr

theorem occupied_iff {i : ℕ} : Occupied h i ↔ h.dibs i ≠ DIB_RAW_FREE :=
  and_iff_left (hr.unmarked i)

theorem inUse_of {i : ℕ} (hi : i < h.nBuckets) (hkv : h.keyValue i = some e) :
    InUse h False i := by
  refine Or.inl ⟨hi, fun hfree => ?_⟩
  rw [(hr.table.empty i hi).mpr hfree] at hkv
  cases hkv

theorem mem_of {i : ℕ} (hi : i < h.nBuckets) (hkv : h.keyValue i = some e) : e ∈ l := by
  obtain ⟨e', he', hkv'⟩ := hr.linked.entry (hr.inUse_of hi hkv)
  rw [hkv] at hkv'
  rwa [Option.some.inj hkv']

/-- No two entries have the same key, and no two buckets the same entry. -/
theorem eq_of_key {e' : K × V} (he : e ∈ l) (he' : e' ∈ l) (hkey : e.1 = e'.1) : e = e' :=
  List.inj_on_of_nodup_map hr.keys he he' hkey

theorem eq_of_keyValue {i j : ℕ} (hi : i < h.nBuckets) (hj : j < h.nBuckets)
    (hkvi : h.keyValue i = some e) (hkvj : h.keyValue j = some e) : i = j := by
  have hui := hr.inUse_of hi hkvi
  have huj := hr.inUse_of hj hkvj
  obtain ⟨L, -, -, hmem, hmap⟩ := hr.linked
  have hnodup : (L.map h.keyValue).Nodup := by
    rw [hmap]
    exact hr.keys.of_map.map (Option.some_injective _)
  exact List.inj_on_of_nodup_map hnodup ((hmem i).mpr hui) ((hmem j).mpr huj)
    (hkvi.trans hkvj.symm)

theorem bucket_of (he : e ∈ l) : ∃ i < h.nBuckets, h.keyValue i = some e := by
  obtain ⟨i, hi, hkv⟩ := hr.linked.bucket he
  exact ⟨i, (hi.resolve_right And.left).1, hkv⟩

/-- A free bucket is left, or there is only the one of the direct storage. -/
theorem exists_free_or : (∃ f < h.nBuckets, h.dibs f = DIB_RAW_FREE) ∨ h.nBuckets = 1 := by
  cases hindirect : h.hasIndirect with
  | true => exact Or.inl (hr.linked.exists_free id (hr.loaded.lt hindirect))
  | false =>
    have hloaded := hr.loaded
    rw [Loaded, hindirect, if_neg Bool.false_ne_true] at hloaded
    exact Or.inr hloaded.1

/-- An entry of the map stands at some distance from its home, and a search for it
passes all the buckets up to there. -/
theorem path_of (he : e ∈ l) :
    ∃ d, h.keyValue (place h.nBuckets (bucketHash hash h e.1) d) = some e ∧
      Passed h.nBuckets (Occupied h) (dist hash h) (bucketHash hash h e.1) d ∧
      Occupied h (place h.nBuckets (bucketHash hash h e.1) d) ∧
      dist hash h (place h.nBuckets (bucketHash hash h e.1) d) = d := by
  obtain ⟨i, hi, hkv⟩ := hr.bucket_of he
  have hocc : Occupied h i :=
    hr.occupied_iff.mpr ((hr.inUse_of hi hkv).resolve_right And.left).2
  have hplace := hr.table.place_dist hi hkv
  refine ⟨dist hash h i, ?_, ?_, ?_, ?_⟩
  · rwa [hplace]
  · exact hr.table.probed.passed hr.table.pos (by rwa [hplace]) (by rw [hplace])
  · rwa [hplace]
  · rw [hplace]

/-- Where a search stops, no entry with its key is at this distance or further. -/
theorem stop (key : K) (distance : ℕ)
    (hstop : h.dibs (place h.nBuckets (bucketHash hash h key) distance) = DIB_RAW_FREE ∨
      dist hash h (place h.nBuckets (bucketHash hash h key) distance) < distance)
    (hpast : ∀ d < distance, ∀ e ∈ l,
      h.keyValue (place h.nBuckets (bucketHash hash h key) d) = some e → e.1 ≠ key) :
    ∀ e ∈ l, e.1 ≠ key := by
  rintro e he rfl
  obtain ⟨d, hkv, hpassed, hocc, hdist⟩ := hr.path_of he
  rcases lt_trichotomy d distance with hlt | rfl | hgt
  · exact hpast d hlt e he hkv rfl
  · rcases hstop with hfree | hrich
    · exact hocc.1 hfree
    · omega
  · obtain ⟨hocc', hle⟩ := hpassed distance hgt
    rcases hstop with hfree | hrich
    · exact hocc'.1 hfree
    · omega

end Represents

end Rest

section Scan

variable [DecidableEq K]

theorem bucketScanLoop_free {key : K} {distance : ℕ} (fuel : ℕ)
    (hfree : h.dibs idx = DIB_RAW_FREE) :
    bucketScanLoop hash h key (fuel + 1) idx distance = some none := by
  rw [bucketScanLoop, if_pos hfree]

theorem bucketScanLoop_settled {key : K} {distance : ℕ} (fuel : ℕ) (ht : Table hash h)
    (hidx : idx < h.nBuckets) (hocc : Occupied h idx) (he : h.keyValue idx = some e) :
    bucketScanLoop hash h key (fuel + 1) idx distance =
      if dist hash h idx < distance then some none
      else if dist hash h idx = distance ∧ e.1 = key then some (some idx)
      else bucketScanLoop hash h key fuel (nextIdx h idx) (distance + 1) := by
  conv_lhs => rw [bucketScanLoop]
  simp only [hocc.1, if_false, ht.calculate hidx hocc, he]
  split_ifs <;> simp_all

/-- A search that has come to some distance finds the key from there on, or it is
nowhere. -/
theorem Represents.scanLoop (hr : Represents hash h l) (key : K) {distance fuel : ℕ}
    (hfuel : h.nBuckets < distance + fuel) (hdistance : distance ≤ h.nBuckets)
    (hpast : ∀ d < distance, ∀ e ∈ l,
      h.keyValue (place h.nBuckets (bucketHash hash h key) d) = some e → e.1 ≠ key) :
    (∃ i < h.nBuckets, ∃ e, h.keyValue i = some e ∧ e.1 = key ∧
      bucketScanLoop hash h key fuel (place h.nBuckets (bucketHash hash h key) distance)
        distance = some (some i)) ∨
    bucketScanLoop hash h key fuel (place h.nBuckets (bucketHash hash h key) distance)
        distance = some none ∧ ∀ e ∈ l, e.1 ≠ key := by
  induction fuel generalizing distance with
  | zero => omega
  | succ fuel ih =>
    have hidx := place_lt hr.table.pos (bucketHash hash h key) distance
    have hnext := nextIdx_eq (h := h) (rfl : place h.nBuckets (bucketHash hash h key) distance = _)
    have hstop := hr.stop key distance
    generalize hp : place h.nBuckets (bucketHash hash h key) distance = idx at hidx hnext hstop ⊢
    by_cases hfree : h.dibs idx = DIB_RAW_FREE
    · exact Or.inr ⟨bucketScanLoop_free fuel hfree, hstop (Or.inl hfree) hpast⟩
    · have hocc := hr.occupied_iff.mpr hfree
      obtain ⟨e, he⟩ := hr.table.entry hidx hfree
      rw [bucketScanLoop_settled fuel hr.table hidx hocc he]
      by_cases hrich : dist hash h idx < distance
      · rw [if_pos hrich]
        exact Or.inr ⟨rfl, hstop (Or.inr hrich) hpast⟩
      · rw [if_neg hrich]
        by_cases hfound : dist hash h idx = distance ∧ e.1 = key
        · rw [if_pos hfound]
          exact Or.inl ⟨idx, hidx, e, he, hfound.2, rfl⟩
        · rw [if_neg hfound, hnext]
          have hlt := hr.table.dist_lt hidx
          refine ih (by omega) (by omega) fun d hd e' he' hkv hkey => ?_
          rcases Nat.lt_succ_iff_lt_or_eq.mp hd with hd | rfl
          · exact hpast d hd e' he' hkv hkey
          · rw [hp, he] at hkv
            obtain rfl := Option.some.inj hkv
            -- an entry with the key would be at its own distance from home
            refine hfound ⟨?_, hkey⟩
            rw [dist_eq he, hkey, ← hp]
            exact offset_place (hr.table.home_lt key) (by omega)

/-- A search finds the bucket of the entry with the key, if there is one. -/
theorem Represents.scan (hr : Represents hash h l) (key : K) :
    (∃ i < h.nBuckets, ∃ e, h.keyValue i = some e ∧ e.1 = key ∧
      bucketScan hash h key = some (some i)) ∨
    bucketScan hash h key = some none ∧ ∀ e ∈ l, e.1 ≠ key := by
  have hfuel : h.nBuckets < 0 + (h.nBuckets + 1) := by omega
  have hscan := hr.scanLoop key hfuel (Nat.zero_le _) fun d hd => absurd hd (Nat.not_lt_zero d)
  rw [place_zero (hr.table.home_lt key)] at hscan
  simpa only [bucketScan, if_pos (hr.table.home_lt key)] using hscan

end Scan

section Shift

/-- The bucket is free or its entry is at home. -/
def Stop (h : OrderedHashmap K V HashKey) (i : ℕ) : Prop := h.dibs i = 0 ∨ h.dibs i = DIB_RAW_FREE

/-- The first `j` entries behind the removed one have moved one bucket back, and the
last of their buckets is the gap. -/
structure Shifted (hash : HashKey → K → ℕ) (h' h : OrderedHashmap K V HashKey) (idx j : ℕ)
    (l : List (K × V)) : Prop where
  shape : SameShape h' h
  table : Table hash h'
  unmarked : ∀ i, h'.dibs i ≠ DIB_RAW_REHASH
  gap : h'.dibs (place h.nBuckets idx j) ≠ DIB_RAW_FREE
  linked : Linked h' (fun i => InUse h' False i ∧ i ≠ place h.nBuckets idx j) l
  behind : ∀ d < j, h'.keyValue (place h.nBuckets idx d) = h.keyValue (place h.nBuckets idx (d + 1))
  ahead : ∀ d < h.nBuckets, j < d →
    h'.keyValue (place h.nBuckets idx d) = h.keyValue (place h.nBuckets idx d) ∧
      h'.dibs (place h.nBuckets idx d) = h.dibs (place h.nBuckets idx d)

namespace Shifted

variable {j : ℕ} (hs : Shifted hash h' h idx j l)

include hs

theorem gap_lt : place h.nBuckets idx j < h'.nBuckets := by
  rw [hs.shape.nBuckets]
  exact place_lt (hs.shape.nBuckets ▸ hs.table.pos) idx j

theorem occupied_iff {i : ℕ} : Occupied h' i ↔ h'.dibs i ≠ DIB_RAW_FREE :=
  and_iff_left (hs.unmarked i)

theorem nextIdx_gap : nextIdx h' (place h.nBuckets idx j) = place h.nBuckets idx (j + 1) := by
  rw [← next_place, ← hs.shape.nBuckets]
  rfl

/-- The entry behind the gap fills it, one step nearer to its home. -/
theorem putAt {d : ℕ} (hkv : h'.keyValue (place h.nBuckets idx (j + 1)) = some e)
    (hd : d < h'.nBuckets) :
    PutAt (bucketSetDib (movedEntry h' (place h.nBuckets idx (j + 1))
      (place h.nBuckets idx j)) (place h.nBuckets idx j) d) h' (place h.nBuckets idx j) d e := by
  have hlt : d < DIB_FREE := lt_of_lt_of_le hd (hs.table.le.trans (by decide))
  refine ⟨(sameShape_setDib _ _).trans (sameShape_move _ _), ?_, ?_, fun i hi hne => ?_⟩
  · rw [dibs_setDib _ hlt, dibs_move]
  · rw [keyValue_setDib, keyValue_move, Function.update_self, hkv]
  · rw [keyValue_setDib, keyValue_move, Function.update_of_ne hne]

/-- The entry behind the gap can be moved into it. -/
theorem canMove (hidx : idx < h.nBuckets) (hj : j + 1 < h.nBuckets)
    (hocc : h'.dibs (place h.nBuckets idx (j + 1)) ≠ DIB_RAW_FREE) :
    CanMove h' (place h.nBuckets idx (j + 1)) (place h.nBuckets idx j) := by
  have hlt : ∀ i < h'.nBuckets, i < IDX_FIRST := fun i hi => by
    have hle := hs.table.le
    rw [idx_first_eq]
    omega
  refine hs.linked.canMove (fun i hi => hlt i (hi.1.resolve_right And.left).1) ⟨Or.inl ⟨?_, hocc⟩, ?_⟩
    (fun hi => hi.2 rfl) (hlt _ hs.gap_lt)
  · rw [hs.shape.nBuckets]
    exact place_lt (by omega) idx (j + 1)
  · intro heq
    have := place_injective hidx hj (by omega) heq
    omega

/-- The shift goes on as long as the next entry is not at home. -/
theorem step {d : ℕ} (hidx : idx < h.nBuckets) (hj : j + 1 < h.nBuckets)
    (hocc : h'.dibs (place h.nBuckets idx (j + 1)) ≠ DIB_RAW_FREE)
    (hdist : dist hash h' (place h.nBuckets idx (j + 1)) = d + 1) :
    Shifted hash (bucketSetDib (movedEntry h' (place h.nBuckets idx (j + 1))
      (place h.nBuckets idx j)) (place h.nBuckets idx j) d) h idx (j + 1) l := by
  have hm := hs.shape.nBuckets
  have hgap := hs.gap_lt
  have hne : place h.nBuckets idx (j + 1) ≠ place h.nBuckets idx j := fun heq => by
    have := place_injective hidx hj (by omega) heq
    omega
  have hq : place h.nBuckets idx (j + 1) < h'.nBuckets := by
    rw [hm]
    exact place_lt (by omega) idx (j + 1)
  obtain ⟨e, he⟩ := hs.table.entry hq hocc
  have hd : d < h'.nBuckets := by
    have := hs.table.dist_lt hq
    omega
  have hput := hs.putAt he hd
  have hlinked := (hs.linked.move ⟨Or.inl ⟨hq, hocc⟩, hne⟩ (fun hin => hin.2 rfl)
    (hs.table.ne_nil hgap)).setDib (place h.nBuckets idx j) d
  have hnext : next h'.nBuckets (place h.nBuckets idx j) = place h.nBuckets idx (j + 1) := by
    rw [hm, next_place]
  -- the gap is one step nearer to the home of the entry behind it
  have hplace : place h.nBuckets idx j = place h'.nBuckets (bucketHash hash h' e.1) d := by
    refine next_injective hgap (place_lt hs.table.pos _ d) ?_
    rw [hnext, next_place, ← hdist]
    exact (hs.table.place_dist hq he).symm
  have hprobed := hs.table.probed.shift hgap (by rw [hnext]; exact hs.occupied_iff.mpr hocc)
    (by rw [hnext, hdist])
  generalize bucketSetDib (movedEntry h' (place h.nBuckets idx (j + 1))
    (place h.nBuckets idx j)) (place h.nBuckets idx j) d = h₁ at hput hlinked ⊢
  have hself := hput.occupied_self
  have hgapocc : Occupied h' (place h.nBuckets idx j) := hs.occupied_iff.mpr hs.gap
  refine ⟨hput.shape.trans hs.shape, ?_, fun i => ?_, ?_, hlinked.iff fun i => ?_, fun c hc => ?_,
    fun c hc hjc => ?_⟩
  · refine hput.table_of_probed hs.table hplace hd (hprobed.congr hs.table.pos (fun i _ => ?_)
      fun i _ _ => rfl)
    exact ⟨fun hi => hi.elim id fun heq => heq ▸ hgapocc, Or.inl⟩
  · by_cases hi : i = place h.nBuckets idx j
    · rw [hi]
      exact hself.2
    · rw [hput.dibs_of_ne hi]
      exact hs.unmarked i
  · rwa [hput.dibs_of_ne hne]
  · by_cases hi : i = place h.nBuckets idx j
    · subst hi
      simp [InUse, hself.1, hput.shape.nBuckets, hgap, hne.symm]
    · simp [InUse, hput.dibs_of_ne hi, hput.shape.nBuckets, hi]
  · rcases Nat.lt_succ_iff_lt_or_eq.mp hc with hc | rfl
    · have hcj : place h.nBuckets idx c ≠ place h.nBuckets idx j := fun heq => by
        have := place_injective hidx (by omega) (by omega) heq
        omega
      rw [hput.elsewhere _ (hm ▸ place_lt (by omega) idx c) hcj]
      exact hs.behind c hc
    · rw [hput.here, ← he]
      exact (hs.ahead _ hj (Nat.lt_succ_self _)).1
  · have hcj : place h.nBuckets idx c ≠ place h.nBuckets idx j := fun heq => by
      have := place_injective hidx hc (by omega) heq
      omega
    rw [hput.elsewhere _ (hm ▸ place_lt (by omega) idx c) hcj, hput.dibs_of_ne hcj]
    exact hs.ahead c hc (by omega)

/-- At a stop the gap becomes free. -/
theorem free (hstop : Occupied h' (place h.nBuckets idx (j + 1)) →
      dist hash h' (place h.nBuckets idx (j + 1)) = 0) :
    Table hash (bucketMarkFree h' (place h.nBuckets idx j)) ∧
      Linked (bucketMarkFree h' (place h.nBuckets idx j))
        (InUse (bucketMarkFree h' (place h.nBuckets idx j)) False) l := by
  have hm := hs.shape.nBuckets
  have hnext : next h'.nBuckets (place h.nBuckets idx j) = place h.nBuckets idx (j + 1) := by
    rw [hm, next_place]
  have hshape : SameShape (bucketMarkFree h' (place h.nBuckets idx j)) h' := ⟨rfl, rfl, rfl, rfl⟩
  have hkv : (bucketMarkFree h' (place h.nBuckets idx j)).keyValue =
      Function.update h'.keyValue (place h.nBuckets idx j) none := rfl
  have hdibs : (bucketMarkFree h' (place h.nBuckets idx j)).dibs =
      Function.update h'.dibs (place h.nBuckets idx j) DIB_RAW_FREE := rfl
  have hlinked : Linked (bucketMarkFree h' (place h.nBuckets idx j))
      (fun i => InUse h' False i ∧ i ≠ place h.nBuckets idx j) l :=
    hs.linked.congr (fun i hi => Function.update_of_ne hi.2 _ _)
      (fun i hi => Function.update_of_ne hi.2 _ _) rfl rfl
      fun i hi => Function.update_of_ne hi.2 _ _
  have hprobed := hs.table.probed.free (p := place h.nBuckets idx j) (by rwa [hnext])
  generalize place h.nBuckets idx j = p at hshape hkv hdibs hlinked hprobed ⊢
  generalize bucketMarkFree h' p = h₁ at hshape hkv hdibs hlinked ⊢
  have hm₁ := hshape.nBuckets
  have hself : h₁.dibs p = DIB_RAW_FREE := by rw [hdibs, Function.update_self]
  have hother : ∀ i, i ≠ p → h₁.dibs i = h'.dibs i := fun i hi => by
    rw [hdibs, Function.update_of_ne hi]
  have hocc : ∀ i, Occupied h₁ i ↔ Occupied h' i ∧ i ≠ p := by
    intro i
    by_cases hi : i = p
    · rw [hi]
      exact iff_of_false (fun hocc => hocc.1 hself) fun hocc => hocc.2 rfl
    · rw [Occupied, Occupied, hother i hi]
      exact (and_iff_left hi).symm
  have hdist : ∀ i, i ≠ p → dist hash h₁ i = dist hash h' i := fun i hi =>
    dist_congr hshape (by rw [hkv, Function.update_of_ne hi])
  refine ⟨⟨hm₁ ▸ hs.table.pos, hm₁ ▸ hs.table.le, fun i hi => ?_, fun i hi hocci => ?_, ?_⟩,
    hlinked.iff fun i => ?_⟩
  · rw [hm₁] at hi
    by_cases hne : i = p
    · rw [hne, hkv, Function.update_self]
      exact iff_of_true rfl hself
    · rw [hkv, Function.update_of_ne hne, hother i hne]
      exact hs.table.empty i hi
  · rw [hm₁] at hi
    obtain ⟨hocci', hne⟩ := (hocc i).mp hocci
    rw [hdist i hne, hother i hne]
    exact hs.table.raw i hi hocci'
  · rw [hm₁]
    exact hprobed.congr hs.table.pos (fun i _ => hocc i) fun i _ hi => hdist i hi.2
  · by_cases hne : i = p
    · rw [hne]
      simp [InUse, hself]
    · simp [InUse, hother i hne, hm₁, hne]

end Shifted

section Loops

theorem shiftBack_stop {right prev : ℕ} (fuel : ℕ) (hright : nextIdx h prev = right) :
    shiftBack hash right (fuel + 1) h prev = some (bucketMarkFree h prev) := by
  rw [shiftBack, if_pos hright]

theorem shiftBack_step {right prev d : ℕ} (fuel : ℕ) (ht : Table hash h)
    (hright : nextIdx h prev ≠ right) (hocc : Occupied h (nextIdx h prev))
    (hdist : dist hash h (nextIdx h prev) = d + 1) (hcan : CanMove h (nextIdx h prev) prev) :
    shiftBack hash right (fuel + 1) h prev =
      shiftBack hash right fuel
        (bucketSetDib (movedEntry h (nextIdx h prev) prev) prev d) (nextIdx h prev) := by
  conv_lhs => rw [shiftBack]
  have hlt : nextIdx h prev < h.nBuckets := Nat.mod_lt _ ht.pos
  simp only [hright, if_false, ht.calculate hlt hocc, hdist, Nat.succ_ne_zero, Nat.add_sub_cancel,
    bucketMoveEntry_eq hcan]

/-- What a removal leaves: the entries that moved are one bucket before their former ones. -/
structure Removed (hash : HashKey → K → ℕ) (h' h : OrderedHashmap K V HashKey) (idx : ℕ)
    (l : List (K × V)) : Prop where
  shape : SameShape h' h
  table : Table hash h'
  unmarked : ∀ i, h'.dibs i ≠ DIB_RAW_REHASH
  linked : Linked h' (InUse h' False) l
  moved : ∀ i < h.nBuckets, i ≠ idx → h.keyValue i ≠ none →
    h'.keyValue i = h.keyValue i ∨ h'.keyValue (prevIdx h i) = h.keyValue i

theorem prevIdx_place (hm : 0 < h.nBuckets) (home d : ℕ) :
    prevIdx h (place h.nBuckets home (d + 1)) = place h.nBuckets home d := by
  refine next_injective (Nat.mod_lt _ hm) (place_lt hm _ _) ?_
  rw [next_place, next, prevIdx, Nat.mod_add_mod, Nat.sub_add_cancel (by omega), Nat.add_mod_left]
  exact Nat.mod_eq_of_lt (place_lt hm home (d + 1))

theorem Shifted.removed {j : ℕ} (hs : Shifted hash h' h idx j l) (hidx : idx < h.nBuckets)
    (hj : j < h.nBuckets) (hstop : Occupied h' (place h.nBuckets idx (j + 1)) →
      dist hash h' (place h.nBuckets idx (j + 1)) = 0) :
    Removed hash (bucketMarkFree h' (place h.nBuckets idx j)) h idx l := by
  obtain ⟨htable, hlinked⟩ := hs.free hstop
  have hpos : 0 < h.nBuckets := by omega
  have hshape : SameShape (bucketMarkFree h' (place h.nBuckets idx j)) h' := ⟨rfl, rfl, rfl, rfl⟩
  refine ⟨hshape.trans hs.shape, htable, fun i => ?_, hlinked, fun i hi hne hfull => ?_⟩
  · by_cases hi : i = place h.nBuckets idx j
    · have hself : (bucketMarkFree h' (place h.nBuckets idx j)).dibs i = DIB_RAW_FREE := by
        rw [hi]
        exact Function.update_self _ _ _
      rw [hself]
      decide
    · have hother : (bucketMarkFree h' (place h.nBuckets idx j)).dibs i = h'.dibs i :=
        Function.update_of_ne hi _ _
      rw [hother]
      exact hs.unmarked i
  · obtain ⟨d, hd, rfl⟩ := exists_place hi hidx
    have hkeep : ∀ c < h.nBuckets, c ≠ j → (bucketMarkFree h' (place h.nBuckets idx j)).keyValue
        (place h.nBuckets idx c) = h'.keyValue (place h.nBuckets idx c) := by
      intro c hc hcj
      exact Function.update_of_ne (fun heq => hcj (place_injective hidx hc hj heq)) _ _
    cases d with
    | zero => exact absurd (place_zero hidx) hne
    | succ d =>
      rcases Nat.lt_or_ge j (d + 1) with hlt | hge
      · rw [hkeep _ hd (by omega)]
        exact Or.inl (hs.ahead _ hd hlt).1
      · rw [prevIdx_place hpos, hkeep d (by omega) (by omega)]
        exact Or.inr (hs.behind d (by omega))

/-- The shift runs up to the stop bucket. -/
theorem Shifted.loop (fuel : ℕ) {j k : ℕ} (hs : Shifted hash h' h idx j l)
    (hidx : idx < h.nBuckets) (hjk : j < k) (hfuel : k ≤ j + fuel)
    (hk : k < h.nBuckets ∨ k = 1 ∧ h.nBuckets = 1)
    (hrow : ∀ d, j < d → d < k → ¬Stop h (place h.nBuckets idx d))
    (hstop : Stop h (place h.nBuckets idx k)) :
    ∃ h'', shiftBack hash (place h.nBuckets idx k) fuel h' (place h.nBuckets idx j) = some h'' ∧
      Removed hash h'' h idx l := by
  induction fuel generalizing h' j with
  | zero => omega
  | succ fuel ih =>
    have hnext := hs.nextIdx_gap
    by_cases hjk' : j + 1 = k
    · refine ⟨_, shiftBack_stop fuel (by rw [hnext, hjk']), hs.removed hidx (by omega) ?_⟩
      intro hocc
      rcases hk with hk | hk
      · obtain ⟨-, hdibs⟩ := hs.ahead (j + 1) (by omega) (Nat.lt_succ_self j)
        rw [← hjk'] at hstop
        have hzero := hstop.resolve_right fun hfree => hocc.1 (hdibs.trans hfree)
        have hlt : place h.nBuckets idx (j + 1) < h'.nBuckets := by
          rw [hs.shape.nBuckets]
          exact place_lt (by omega) idx (j + 1)
        have hraw := hs.table.raw _ hlt hocc
        rw [hdibs, hzero, DIB_RAW_OVERFLOW] at hraw
        omega
      · have hlt : place h.nBuckets idx (j + 1) < h'.nBuckets := by
          rw [hs.shape.nBuckets]
          exact place_lt (by omega) idx (j + 1)
        have hone := hs.table.dist_lt hlt
        have hm := hs.shape.nBuckets
        omega
    · have hlt : j + 1 < h.nBuckets := by omega
      obtain ⟨hkv, hdibs⟩ := hs.ahead (j + 1) hlt (Nat.lt_succ_self j)
      have hnot := hrow (j + 1) (Nat.lt_succ_self j) (by omega)
      rw [Stop, ← hdibs, not_or] at hnot
      have hocc := hs.occupied_iff.mpr hnot.2
      have hq : place h.nBuckets idx (j + 1) < h'.nBuckets := by
        rw [hs.shape.nBuckets]
        exact place_lt (by omega) idx (j + 1)
      obtain ⟨d, hdist⟩ := Nat.exists_eq_succ_of_ne_zero (n := dist hash h'
        (place h.nBuckets idx (j + 1))) fun hzero => hnot.1 (by
          rw [hs.table.raw _ hq hocc, hzero]
          rfl)
      have hne : nextIdx h' (place h.nBuckets idx j) ≠ place h.nBuckets idx k := by
        rw [hnext]
        intro heq
        have := place_injective hidx hlt (by omega) heq
        omega
      have hcan := hs.canMove hidx hlt hnot.2
      rw [shiftBack_step fuel hs.table hne (by rwa [hnext]) (by rw [hnext, hdist])
        (by rwa [hnext]), hnext]
      exact ih (hs.step hidx hlt hnot.2 hdist) (by omega) (by omega) fun c hc hck =>
        hrow c (by omega) hck

theorem findStop_stop {left right : ℕ} (fuel : ℕ) (hstop : Stop h right) :
    findStop h left (fuel + 1) right = some right := by
  rw [Stop] at hstop
  rw [findStop, if_pos hstop]

theorem findStop_next {left right : ℕ} (fuel : ℕ) (hstop : ¬Stop h right) (hne : left ≠ right) :
    findStop h left (fuel + 1) right = findStop h left fuel (nextIdx h right) := by
  rw [Stop] at hstop
  rw [findStop, if_neg hstop, if_neg hne]

/-- The search for the stop bucket ends at the first one behind the removed entry. -/
theorem findStop_eq (fuel : ℕ) {j k : ℕ} (hidx : idx < h.nBuckets) (hj : 0 < j) (hjk : j ≤ k)
    (hk : k ≤ h.nBuckets) (hfuel : k < j + fuel)
    (hrow : ∀ d, 0 < d → d < k → ¬Stop h (place h.nBuckets idx d))
    (hstop : Stop h (place h.nBuckets idx k)) :
    findStop h idx fuel (place h.nBuckets idx j) = some (place h.nBuckets idx k) := by
  induction fuel generalizing j with
  | zero => omega
  | succ fuel ih =>
    rcases Nat.lt_or_ge j k with hlt | hge
    · have hne : idx ≠ place h.nBuckets idx j := fun heq => by
        have := place_injective hidx (by omega) (by omega) ((place_zero hidx).trans heq)
        omega
      rw [findStop_next fuel (hrow j hj hlt) hne, nextIdx_eq rfl]
      exact ih (Nat.succ_pos j) hlt (by omega)
    · obtain rfl : j = k := by omega
      exact findStop_stop fuel hstop

/-- Behind every entry there is a stop bucket, and all before it are shifted. -/
theorem Represents.exists_stop (hr : Represents hash h l) (hidx : idx < h.nBuckets)
    (hfull : h.dibs idx ≠ DIB_RAW_FREE) :
    ∃ k, 0 < k ∧ (k < h.nBuckets ∨ k = 1 ∧ h.nBuckets = 1) ∧
      Stop h (place h.nBuckets idx k) ∧ ∀ d, 0 < d → d < k → ¬Stop h (place h.nBuckets idx d) := by
  classical
  have hsome : ∃ k, 0 < k ∧ (k < h.nBuckets ∨ k = 1 ∧ h.nBuckets = 1) ∧
      Stop h (place h.nBuckets idx k) := by
    rcases hr.exists_free_or with ⟨f, hf, hfree⟩ | hone
    · obtain ⟨k, hk, rfl⟩ := exists_place hf hidx
      refine ⟨k, Nat.pos_of_ne_zero fun hzero => hfull ?_, Or.inl hk, Or.inr hfree⟩
      rwa [hzero, place_zero hidx] at hfree
    · refine ⟨1, Nat.one_pos, Or.inr ⟨rfl, hone⟩, Or.inl ?_⟩
      have hplace : place h.nBuckets idx 1 = idx := by
        rw [hone, place, Nat.mod_one]
        omega
      have hzero : dist hash h idx = 0 := by
        have := hr.table.dist_lt hidx
        omega
      rw [hplace, hr.table.raw idx hidx (hr.occupied_iff.mpr hfull), hzero]
      rfl
  obtain ⟨hpos, hk, hstop⟩ := Nat.find_spec hsome
  refine ⟨Nat.find hsome, hpos, hk, hstop, fun d hd hdk hstop' => ?_⟩
  exact Nat.find_min hsome hdk ⟨hd, Or.inl (by omega), hstop'⟩

end Loops

section Unlink

/-- The links around an entry that leaves the list. -/
theorem nextOf_unlink (hidx : idx ≠ IDX_NIL) :
    nextOf (unlink h idx) = Function.update (nextOf h) (prevOf h idx) (nextOf h idx) := by
  rw [nextOf_of_ne hidx, prevOf_of_ne hidx]
  funext i
  simp only [nextOf, unlink, Function.update_apply]
  split_ifs <;> simp_all

theorem prevOf_unlink (hidx : idx ≠ IDX_NIL) :
    prevOf (unlink h idx) = Function.update (prevOf h) (nextOf h idx) (prevOf h idx) := by
  rw [nextOf_of_ne hidx, prevOf_of_ne hidx]
  funext i
  simp only [prevOf, unlink, Function.update_apply]
  split_ifs <;> simp_all

/-- The entry leaves the list, and the others stay in their order. -/
theorem Linked.unlink {P : ℕ → Prop} (hl : Linked h P l) (hidx : P idx)
    (he : h.keyValue idx = some e) :
    ∃ before behind, l = before ++ e :: behind ∧
      Linked (unlink h idx) (fun i => P i ∧ i ≠ idx) (before ++ behind) := by
  obtain ⟨L, hring, hnodup, hmem, hmap⟩ := hl
  have hin := (hmem idx).mpr hidx
  have hnil : idx ≠ IDX_NIL := fun heq => (List.nodup_cons.mp hnodup).1 (heq ▸ hin)
  obtain ⟨pre, post, rfl⟩ := List.append_of_mem hin
  rw [List.append_cons] at hring hnodup
  have hmap' := hmap.symm
  rw [List.map_append, List.map_cons, he] at hmap'
  obtain ⟨before, rest, rfl, hbefore, hrest⟩ := List.map_eq_append_iff.mp hmap'
  obtain ⟨e', behind, rfl, he', hbehind⟩ := List.map_eq_cons_iff.mp hrest
  obtain rfl := Option.some.inj he'
  refine ⟨before, behind, rfl, pre ++ [] ++ post, ?_, ?_, fun i => ?_, ?_⟩
  · rw [nextOf_unlink hnil, prevOf_unlink hnil]
    exact hring.remove hnodup
  · simpa using (nodup_middle_iff.mp hnodup).2
  · have hne := (nodup_middle_iff.mp hnodup).1
    simp only [← hmem, List.mem_append, List.mem_cons, List.not_mem_nil, or_false, not_or] at hne ⊢
    grind
  · have hkv : (Hashmap.unlink h idx).keyValue = h.keyValue := rfl
    rw [hkv, List.append_nil, List.map_append, List.map_append, hbefore, hbehind]

end Unlink

/-- A removal takes out the entry of the bucket and keeps the others in their order. -/
theorem Represents.removeEntry (hr : Represents hash h l) (hidx : idx < h.nBuckets)
    (he : h.keyValue idx = some e) :
    ∃ h' before behind, removeEntry hash h idx = some h' ∧ l = before ++ e :: behind ∧
      Represents hash h' (before ++ behind) ∧
      (h'.hashKey = h.hashKey ∧ h'.hasIndirect = h.hasIndirect ∧ h'.nBuckets = h.nBuckets) ∧
      ∀ i < h.nBuckets, i ≠ idx → h.keyValue i ≠ none →
        h'.keyValue i = h.keyValue i ∨ h'.keyValue (prevIdx h i) = h.keyValue i := by
  have huse := hr.inUse_of hidx he
  have hfull := (huse.resolve_right And.left).2
  obtain ⟨before, behind, rfl, hlinked⟩ := hr.linked.unlink huse he
  obtain ⟨k, hpos, hk, hstop, hrow⟩ := hr.exists_stop hidx hfull
  have hshifted : Shifted hash (unlink h idx) h idx 0 (before ++ behind) := by
    refine ⟨⟨rfl, rfl, rfl, rfl⟩, hr.table.congr ⟨rfl, rfl, rfl, rfl⟩ (fun _ _ => rfl)
      fun _ _ => rfl, hr.unmarked, ?_, ?_, fun d hd => absurd hd (Nat.not_lt_zero d),
      fun _ _ _ => ⟨rfl, rfl⟩⟩
    · rwa [place_zero hidx]
    · rw [place_zero hidx]
      exact hlinked
  obtain ⟨h', hrun, hremoved⟩ := hshifted.loop h.nBuckets hidx hpos (by omega) hk
    (fun d => hrow d) hstop
  have hright := findStop_eq h.nBuckets hidx Nat.one_pos hpos (by omega) (by omega) hrow
    hstop
  rw [place_zero hidx] at hrun
  rw [← nextIdx_eq (place_zero hidx).symm] at hright
  have hentries : h'.nEntries - 1 = (before ++ behind).length := by
    rw [hremoved.shape.nEntries, hr.nEntries]
    simp
  have hkeys : ((before ++ behind).map Prod.fst).Nodup :=
    hr.keys.sublist (((List.sublist_cons_self e behind).append_left before).map Prod.fst)
  have hloaded : Loaded { h' with nEntries := h'.nEntries - 1 } (before ++ behind).length := by
    have := hr.loaded.mono (m := (before ++ behind).length) (by simp)
    rw [Loaded] at this ⊢
    rwa [hremoved.shape.hasIndirect, hremoved.shape.nBuckets]
  have htable := hremoved.table
  refine ⟨{ h' with nEntries := h'.nEntries - 1 }, before, behind, ?_, rfl,
    ⟨⟨htable.1, htable.2, htable.3, htable.4, htable.5⟩, hremoved.unmarked, hremoved.linked, hkeys,
      hentries, hloaded⟩, ⟨hremoved.shape.hashKey, hremoved.shape.hasIndirect,
      hremoved.shape.nBuckets⟩, hremoved.moved⟩
  simp only [Hashmap.removeEntry, if_neg hfull, hright, hrun, Option.map_some]

end Shift

end Vdev.Hashmap
