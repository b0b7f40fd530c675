import Vdev.HashmapBuckets

/-!
Puts into an ordered hash map. On its way through the buckets, the entry in the
swap bucket has passed only settled entries that are at least as far from home as
it is now. It trades places with the first wealthier one, which then goes on in
its stead, and this ends at the first bucket without a settled entry.
-/
namespace Vdev.Hashmap

open CircularProbing IndexRings

variable {K V HashKey : Type*} (hash : HashKey → K → ℕ)

/-- The buckets that are linked while the entry of the swap bucket may be among them. -/
def InUse (h : OrderedHashmap K V HashKey) (swapped : Prop) (i : ℕ) : Prop :=
  i < h.nBuckets ∧ h.dibs i ≠ DIB_RAW_FREE ∨ swapped ∧ i = IDX_PUT

/-- The entry in the swap bucket is on its way. -/
structure Putting (h : OrderedHashmap K V HashKey) (e : K × V) (idx distance : ℕ)
    (l : List (K × V)) : Prop where
  table : Table hash h
  linked : Linked h (InUse h True) l
  incoming : h.keyValue IDX_PUT = some e
  idx_eq : idx = place h.nBuckets (bucketHash hash h e.1) distance
  passed : Passed h.nBuckets (Occupied h) (dist hash h) (bucketHash hash h e.1) distance
  room : ∃ f < h.nBuckets, ¬Occupied h f

/-- The bucket `f` got a settled entry, and its former entry may be in the swap bucket. -/
structure Placed (h' h : OrderedHashmap K V HashKey) (f : ℕ) (displaced : Bool)
    (l : List (K × V)) : Prop where
  shape : SameShape h' h
  table : Table hash h'
  lt : f < h.nBuckets
  unsettled : ¬Occupied h f
  settled : Occupied h' f
  free_iff : ∀ i, i ≠ f → (h'.dibs i = DIB_RAW_FREE ↔ h.dibs i = DIB_RAW_FREE)
  rehash_iff : ∀ i, i ≠ f → (h'.dibs i = DIB_RAW_REHASH ↔ h.dibs i = DIB_RAW_REHASH)
  displaced_iff : displaced = true ↔ h.dibs f = DIB_RAW_REHASH
  linked : Linked h' (InUse h' (displaced = true)) l

variable {hash} {h h' h'' : OrderedHashmap K V HashKey} {e : K × V} {idx distance : ℕ}
  {l : List (K × V)}

theorem not_occupied_iff {i : ℕ} :
    ¬Occupied h i ↔ h.dibs i = DIB_RAW_FREE ∨ h.dibs i = DIB_RAW_REHASH := by
  rw [Occupied]
  tauto

theorem InUse.congr (swapped : Prop) (hm : h'.nBuckets = h.nBuckets)
    (hfree : ∀ i < h.nBuckets, h'.dibs i = DIB_RAW_FREE ↔ h.dibs i = DIB_RAW_FREE) (i : ℕ) :
    InUse h' swapped i ↔ InUse h swapped i := by
  rw [InUse, InUse, hm]
  refine or_congr_left (and_congr_right fun hi => ?_)
  exact not_congr (hfree i hi)

/-- The swap of the incoming entry with the one in the bucket. -/
theorem putAt_swap (hin : h.keyValue IDX_PUT = some e) (ht : Table hash h) (hidx : idx < h.nBuckets)
    (hdistance : distance < h.nBuckets) :
    PutAt (swappedEntry (bucketSetDib h idx distance) idx) h idx distance e := by
  have hlt : distance < DIB_FREE := lt_of_lt_of_le hdistance (ht.le.trans (by decide))
  refine ⟨(sameShape_swap idx).trans (sameShape_setDib idx distance), ?_, ?_, fun i hi hne => ?_⟩
  · rw [dibs_swap, dibs_setDib idx hlt]
  · rw [(keyValue_swap (ht.ne_put hidx) (ht.ne_tmp hidx)).1, keyValue_setDib, hin]
  · rw [keyValue_swap_of_ne hne (ht.ne_put hi) (ht.ne_tmp hi), keyValue_setDib]

theorem not_inUse_tmp (ht : Table hash h) (swapped : Prop) : ¬InUse h swapped IDX_TMP := by
  have hle := ht.le
  rw [InUse, idx_tmp_eq]
  omega

theorem InUse.lt_first (ht : Table hash h) {swapped : Prop} {i : ℕ} (hi : InUse h swapped i) :
    i < IDX_FIRST := by
  have hle := ht.le
  rw [idx_first_eq]
  rcases hi with hi | hi <;> omega

theorem nextIdx_eq {home d : ℕ} (hplace : idx = place h.nBuckets home d) :
    nextIdx h idx = place h.nBuckets home (d + 1) := by
  rw [← next_place, ← hplace]
  rfl

namespace Putting

variable (hp : Putting hash h e idx distance l)

include hp

theorem idx_lt : idx < h.nBuckets := hp.idx_eq ▸ place_lt hp.table.pos _ _

theorem distance_lt : distance < h.nBuckets := by
  obtain ⟨f, hf, hfree⟩ := hp.room
  exact hp.passed.lt (hp.table.home_lt e.1) hf hfree

/-- A settled entry that is not wealthier is passed. -/
theorem advance (hocc : Occupied h idx) (hle : distance ≤ dist hash h idx) :
    Putting hash h e (nextIdx h idx) (distance + 1) l := by
  refine ⟨hp.table, hp.linked, hp.incoming, nextIdx_eq hp.idx_eq, ?_, hp.room⟩
  exact hp.passed.succ (hp.idx_eq ▸ hocc) (hp.idx_eq ▸ hle)

theorem putAt : PutAt (swappedEntry (bucketSetDib h idx distance) idx) h idx distance e :=
  putAt_swap hp.incoming hp.table hp.idx_lt hp.distance_lt

/-- The swap at a bucket with an entry. -/
theorem swapEntry (hin : InUse h True idx) :
    bucketSwapEntry (bucketSetDib h idx distance) idx =
        some (swappedEntry (bucketSetDib h idx distance) idx) ∧
      Linked (swappedEntry (bucketSetDib h idx distance) idx) (InUse h True) l :=
  (hp.linked.setDib idx distance).swap hin (Or.inr ⟨trivial, rfl⟩) (not_inUse_tmp hp.table True)
    (fun _ => InUse.lt_first hp.table) (hp.table.ne_put hp.idx_lt)

theorem inUse_of_ne (hfree : h.dibs idx ≠ DIB_RAW_FREE) : InUse h True idx :=
  Or.inl ⟨hp.idx_lt, hfree⟩

theorem not_inUse (hfree : h.dibs idx = DIB_RAW_FREE) : ¬InUse h True idx := by
  simp [InUse, hfree, hp.table.ne_put hp.idx_lt]

theorem lt_first : idx < IDX_FIRST := by
  have hle := hp.table.le
  have hlt := hp.idx_lt
  rw [idx_first_eq]
  omega

theorem keyValue_put_swap :
    (swappedEntry (bucketSetDib h idx distance) idx).keyValue IDX_PUT = h.keyValue idx :=
  (keyValue_swap (hp.table.ne_put hp.idx_lt) (hp.table.ne_tmp hp.idx_lt)).2

/-- After a swap the wealthier entry goes on behind its former bucket. -/
theorem swap (hocc : Occupied h idx) (hlt : dist hash h idx < distance) :
    ∃ e', Putting hash (swappedEntry (bucketSetDib h idx distance) idx) e' (nextIdx h idx)
      (dist hash h idx + 1) l := by
  obtain ⟨e', he'⟩ := hp.table.entry hp.idx_lt hocc.1
  have hput := hp.putAt
  have hlinked := (hp.swapEntry (hp.inUse_of_ne hocc.1)).2
  have hincoming := hp.keyValue_put_swap.trans he'
  generalize swappedEntry (bucketSetDib h idx distance) idx = h₁ at hput hlinked hincoming ⊢
  have hm := hput.shape.nBuckets
  have hoccs := hput.occupied_iff
  have hdist : ∀ i < h.nBuckets, dist hash h₁ i = Function.update (dist hash h) idx distance i :=
    fun i hi => hput.dist_update hp.table hp.idx_eq hp.distance_lt hi
  have hhome := (hp.table.place_dist hp.idx_lt he').symm
  refine ⟨e', hput.table hp.table hp.idx_eq hp.distance_lt hp.passed fun _ => hlt, ?_, hincoming,
    ?_, ?_, ?_⟩
  · refine hlinked.iff (InUse.congr True hm fun i _ => ?_)
    by_cases hi : i = idx
    · rw [hi]
      exact iff_of_false hput.occupied_self.1 hocc.1
    · rw [hput.dibs_of_ne hi]
  · rw [bucketHash_congr hput.shape, hm]
    exact nextIdx_eq hhome
  · rw [bucketHash_congr hput.shape, hm]
    have hpassed := hp.table.probed.passed hp.table.pos (hhome ▸ hocc) (by rw [← hhome])
    have hdriven := hpassed.put (p := idx) hlt.le
    refine Passed.succ ?_ ?_ ?_
    · exact hdriven.congr hp.table.pos (fun i _ => (hoccs i).mpr) hdist
    · rw [← hhome]
      exact hput.occupied_self
    · rw [← hhome, hdist idx hp.idx_lt, Function.update_self]
      exact hlt.le
  · obtain ⟨f, hf, hfree⟩ := hp.room
    refine ⟨f, hm ▸ hf, fun hoccf => ?_⟩
    rcases (hoccs f).mp hoccf with hoccf | rfl
    · exact hfree hoccf
    · exact hfree hocc

end Putting

/-- What an entry put into a bucket without a settled one leaves behind. -/
theorem PutAt.placed (hput : PutAt h' h idx distance e) (hp : Putting hash h e idx distance l)
    (hfree : ¬Occupied h idx) {displaced : Bool}
    (hdisplaced : displaced = true ↔ h.dibs idx = DIB_RAW_REHASH)
    (hlinked : Linked h' (InUse h' (displaced = true)) l) :
    Placed hash h' h idx displaced l where
  shape := hput.shape
  table := hput.table hp.table hp.idx_eq hp.distance_lt hp.passed fun hocc => absurd hocc hfree
  lt := hp.idx_lt
  unsettled := hfree
  settled := hput.occupied_self
  free_iff i hi := by rw [hput.dibs_of_ne hi]
  rehash_iff i hi := by rw [hput.dibs_of_ne hi]
  displaced_iff := hdisplaced
  linked := hlinked

/-- The placement behind a swap is one of the map before the swap. -/
theorem Placed.of_swap {f : ℕ} {displaced : Bool} (hplaced : Placed hash h'' h' f displaced l)
    (hput : PutAt h' h idx distance e) (hocc : Occupied h idx) :
    Placed hash h'' h f displaced l := by
  have hne : f ≠ idx := fun heq => hplaced.unsettled (heq ▸ hput.occupied_self)
  have hdibs : ∀ i, i ≠ idx → h'.dibs i = h.dibs i := fun i => hput.dibs_of_ne
  refine ⟨hplaced.shape.trans hput.shape, hplaced.table, ?_, ?_, hplaced.settled, fun i hi => ?_,
    fun i hi => ?_, ?_, hplaced.linked⟩
  · exact hput.shape.nBuckets ▸ hplaced.lt
  · exact fun hoccf => hplaced.unsettled ((hput.occupied_iff f).mpr (Or.inl hoccf))
  · rw [hplaced.free_iff i hi]
    by_cases hidx : i = idx
    · rw [hidx]
      exact iff_of_false hput.occupied_self.1 hocc.1
    · rw [hdibs i hidx]
  · rw [hplaced.rehash_iff i hi]
    by_cases hidx : i = idx
    · rw [hidx]
      exact iff_of_false hput.occupied_self.2 hocc.2
    · rw [hdibs i hidx]
  · rw [hplaced.displaced_iff, hdibs f hne]

theorem putAt_move (idx : ℕ) (hin : h.keyValue IDX_PUT = some e) (ht : Table hash h)
    (hdistance : distance < h.nBuckets) :
    PutAt (movedEntry (bucketSetDib h idx distance) IDX_PUT idx) h idx distance e := by
  have hlt : distance < DIB_FREE := lt_of_lt_of_le hdistance (ht.le.trans (by decide))
  refine ⟨(sameShape_move _ idx).trans (sameShape_setDib idx distance), ?_, ?_, fun i hi hne => ?_⟩
  · rw [dibs_move, dibs_setDib idx hlt]
  · rw [keyValue_move, Function.update_self, keyValue_setDib, hin]
  · rw [keyValue_move, Function.update_of_ne hne, keyValue_setDib]

/-- In a free bucket the entry is at rest. -/
theorem Putting.settle_free (hp : Putting hash h e idx distance l)
    (hfree : h.dibs idx = DIB_RAW_FREE) :
    Placed hash (movedEntry (bucketSetDib h idx distance) IDX_PUT idx) h idx false l := by
  have hput := putAt_move idx hp.incoming hp.table hp.distance_lt
  have hlinked := (hp.linked.setDib idx distance).move (Or.inr ⟨trivial, rfl⟩) (hp.not_inUse hfree)
    (hp.table.ne_nil hp.idx_lt)
  refine hput.placed hp (fun hocc => hocc.1 hfree) ?_ ?_
  · rw [hfree]
    decide
  · generalize movedEntry (bucketSetDib h idx distance) IDX_PUT idx = h₁ at hput hlinked ⊢
    refine hlinked.iff fun i => ?_
    have hself := hput.occupied_self.1
    have hput' : ∀ i < h.nBuckets, i ≠ IDX_PUT := fun i => hp.table.ne_put
    by_cases hi : i = idx
    · subst hi
      simp [InUse, hself, hput.shape.nBuckets, hp.idx_lt]
    · simp only [InUse, hput.dibs_of_ne hi, hput.shape.nBuckets, hi, or_false]
      have := hput' i
      grind

/-- In a bucket with an entry to rehash, it trades places with that entry. -/
theorem Putting.settle_rehash (hp : Putting hash h e idx distance l)
    (hrehash : h.dibs idx = DIB_RAW_REHASH) :
    Placed hash (swappedEntry (bucketSetDib h idx distance) idx) h idx true l := by
  have hput := hp.putAt
  have hnf : h.dibs idx ≠ DIB_RAW_FREE := by
    rw [hrehash]
    decide
  have hlinked := (hp.swapEntry (hp.inUse_of_ne hnf)).2
  refine hput.placed hp (fun hocc => hocc.2 hrehash) (iff_of_true rfl hrehash) ?_
  generalize swappedEntry (bucketSetDib h idx distance) idx = h₁ at hput hlinked ⊢
  have hiff := InUse.congr True hput.shape.nBuckets fun i _ => by
    by_cases hi : i = idx
    · rw [hi]
      exact iff_of_false hput.occupied_self.1 hnf
    · rw [hput.dibs_of_ne hi]
  simpa using hlinked.iff hiff

section Loop

theorem putRobinHoodLoop_free (fuel : ℕ) (hp : Putting hash h e idx distance l)
    (hfree : h.dibs idx = DIB_RAW_FREE) :
    putRobinHoodLoop hash h (fuel + 1) idx distance =
      some (movedEntry (bucketSetDib h idx distance) IDX_PUT idx, false) := by
  have hcan := (hp.linked.setDib idx distance).canMove (fun _ => InUse.lt_first hp.table)
    (Or.inr ⟨trivial, rfl⟩) (hp.not_inUse hfree) hp.lt_first
  rw [putRobinHoodLoop, if_pos hfree, bucketMoveEntry_eq hcan, Option.map_some]

theorem putRobinHoodLoop_rehash (fuel : ℕ) (hp : Putting hash h e idx distance l)
    (hrehash : h.dibs idx = DIB_RAW_REHASH) :
    putRobinHoodLoop hash h (fuel + 1) idx distance =
      some (swappedEntry (bucketSetDib h idx distance) idx, true) := by
  have hnf : h.dibs idx ≠ DIB_RAW_FREE := by
    rw [hrehash]
    decide
  rw [putRobinHoodLoop, if_neg hnf, if_pos hrehash, (hp.swapEntry (hp.inUse_of_ne hnf)).1,
    Option.map_some]

theorem putRobinHoodLoop_swap (fuel : ℕ) (hp : Putting hash h e idx distance l)
    (hocc : Occupied h idx) (hlt : dist hash h idx < distance) :
    putRobinHoodLoop hash h (fuel + 1) idx distance =
      putRobinHoodLoop hash (swappedEntry (bucketSetDib h idx distance) idx) fuel
        (nextIdx h idx) (dist hash h idx + 1) := by
  conv_lhs => rw [putRobinHoodLoop]
  simp only [hocc.1, hocc.2, if_false, hp.table.calculate hp.idx_lt hocc, hlt, if_true,
    (hp.swapEntry (hp.inUse_of_ne hocc.1)).1]

theorem putRobinHoodLoop_pass (fuel : ℕ) (ht : Table hash h) (hidx : idx < h.nBuckets)
    (hocc : Occupied h idx) (hle : distance ≤ dist hash h idx) :
    putRobinHoodLoop hash h (fuel + 1) idx distance =
      putRobinHoodLoop hash h fuel (nextIdx h idx) (distance + 1) := by
  conv_lhs => rw [putRobinHoodLoop]
  simp only [hocc.1, hocc.2, if_false, ht.calculate hidx hocc, hle.not_gt]

/-- The way of an entry ends in some bucket. -/
theorem Putting.loop (hp : Putting hash h e idx distance l) {remaining fuel : ℕ}
    (hend : ¬Occupied h (place h.nBuckets idx remaining)) (hfuel : remaining < fuel) :
    ∃ h' f displaced, putRobinHoodLoop hash h fuel idx distance = some (h', displaced) ∧
      Placed hash h' h f displaced l := by
  induction fuel generalizing h e idx distance remaining with
  | zero => exact absurd hfuel (Nat.not_lt_zero _)
  | succ fuel ih =>
    by_cases hocc : Occupied h idx
    · cases remaining with
      | zero => exact absurd hocc (place_zero hp.idx_lt ▸ hend)
      | succ remaining =>
        have hend' : ¬Occupied h (place h.nBuckets (nextIdx h idx) remaining) := by
          rwa [← place_next] at hend
        rcases lt_or_ge (dist hash h idx) distance with hlt | hle
        · obtain ⟨e', hp'⟩ := hp.swap hocc hlt
          have hput := hp.putAt
          rw [putRobinHoodLoop_swap fuel hp hocc hlt]
          generalize swappedEntry (bucketSetDib h idx distance) idx = h₁ at hput hp' ⊢
          have hend₁ : ¬Occupied h₁ (place h₁.nBuckets (nextIdx h idx) remaining) := by
            rw [hput.shape.nBuckets, hput.occupied_iff, not_or]
            exact ⟨hend', fun heq => hend' (by rwa [heq])⟩
          obtain ⟨h', f, displaced, hrun, hplaced⟩ := ih hp' hend₁ (Nat.lt_of_succ_lt_succ hfuel)
          exact ⟨h', f, displaced, hrun, hplaced.of_swap hput hocc⟩
        · rw [putRobinHoodLoop_pass fuel hp.table hp.idx_lt hocc hle]
          exact ih (hp.advance hocc hle) hend' (Nat.lt_of_succ_lt_succ hfuel)
    · rcases not_occupied_iff.mp hocc with hfree | hrehash
      · exact ⟨_, idx, false, putRobinHoodLoop_free fuel hp hfree, hp.settle_free hfree⟩
      · exact ⟨_, idx, true, putRobinHoodLoop_rehash fuel hp hrehash, hp.settle_rehash hrehash⟩

/-- An entry in the swap bucket can be put where some bucket has no settled entry. -/
theorem putRobinHood_placed (ht : Table hash h) (hlinked : Linked h (InUse h True) l)
    (hin : h.keyValue IDX_PUT = some e) (hroom : ∃ f < h.nBuckets, ¬Occupied h f) :
    ∃ h' f displaced, putRobinHood hash h (bucketHash hash h e.1) = some (h', displaced) ∧
      Placed hash h' h f displaced l := by
  obtain ⟨f, hf, hfree⟩ := hroom
  obtain ⟨d, hd, rfl⟩ := exists_place hf (ht.home_lt e.1)
  have hp : Putting hash h e (bucketHash hash h e.1) 0 l :=
    ⟨ht, hlinked, hin, (place_zero (ht.home_lt e.1)).symm,
      fun j hj => absurd hj (Nat.not_lt_zero j), _, hf, hfree⟩
  exact hp.loop hfree hd

end Loop

end Vdev.Hashmap
