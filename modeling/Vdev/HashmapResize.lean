import Vdev.HashmapPuts

/-!
The resize of an ordered hash map, which rehashes its entries in place. A bucket
that is still to be rehashed has no settled entry, so that a put may end there
and go on with the entry it displaces. Each put settles one bucket, and the
entries that are settled, marked or in the swap bucket are always all of them.
-/
namespace Vdev.Hashmap

open CircularProbing IndexRings CString

variable {K V HashKey : Type*} (hash : HashKey → K → ℕ)

def rehashCount (h : OrderedHashmap K V HashKey) : ℕ :=
  ((Finset.range h.nBuckets).filter fun i => h.dibs i = DIB_RAW_REHASH).card

/-- A map in the middle of a rehash, with an entry in the swap bucket or without. -/
structure Rehashing (h : OrderedHashmap K V HashKey) (swapped : Bool) (nRehashed : ℕ)
    (l : List (K × V)) : Prop where
  table : Table hash h
  linked : Linked h (InUse h (swapped = true)) l
  fits : l.length < h.nBuckets
  count : nRehashed + rehashCount h + swapped.toNat = l.length

variable {hash} {h h' : OrderedHashmap K V HashKey} {l : List (K × V)} {e : K × V}
  {idx nRehashed : ℕ}

theorem rehashCount_settle {f : ℕ} (hm : h'.nBuckets = h.nBuckets) (hf : f < h.nBuckets)
    (hiff : ∀ i, i ≠ f → (h'.dibs i = DIB_RAW_REHASH ↔ h.dibs i = DIB_RAW_REHASH))
    (hself : h'.dibs f ≠ DIB_RAW_REHASH) :
    rehashCount h' + (if h.dibs f = DIB_RAW_REHASH then 1 else 0) = rehashCount h := by
  have herase : (Finset.range h'.nBuckets).filter (fun i => h'.dibs i = DIB_RAW_REHASH) =
      ((Finset.range h.nBuckets).filter fun i => h.dibs i = DIB_RAW_REHASH).erase f := by
    ext i
    by_cases hi : i = f
    · simp [hi, hself]
    · simp [hi, hm, hiff i hi]
  rw [rehashCount, rehashCount, herase]
  split_ifs with hrehash
  · exact Finset.card_erase_add_one (by simp [hf, hrehash])
  · rw [Finset.erase_eq_of_notMem (by simp [hrehash]), Nat.add_zero]

theorem Linked.exists_free {swapped : Prop} (hl : Linked h (InUse h swapped) l)
    (hswapped : ¬swapped) (hlt : l.length < h.nBuckets) :
    ∃ f < h.nBuckets, h.dibs f = DIB_RAW_FREE := by
  by_contra hnone
  push Not at hnone
  have hall : ∀ i, i ∈ Finset.range h.nBuckets ↔ InUse h swapped i := by
    intro i
    rw [Finset.mem_range, InUse]
    exact ⟨fun hi => Or.inl ⟨hi, hnone i hi⟩,
      fun hi => (hi.resolve_right fun hs => hswapped hs.1).1⟩
  have hcard := hl.card hall
  rw [Finset.card_range] at hcard
  omega

namespace Rehashing

variable {swapped : Bool} (hr : Rehashing hash h swapped nRehashed l)

include hr

/-- As there are fewer entries than buckets, a put ends. -/
theorem room : ∃ f < h.nBuckets, ¬Occupied h f := by
  by_contra hnone
  push Not at hnone
  have hsub : ∀ i < h.nBuckets, InUse h (swapped = true) i := fun i hi =>
    Or.inl ⟨hi, (hnone i hi).1⟩
  obtain ⟨L, -, hnodup, hmem, hmap⟩ := hr.linked
  have hlen : L.length = l.length := by simpa using congrArg List.length hmap
  have hle := (List.nodup_range.subperm fun i hi =>
    (hmem i).mpr (hsub i (List.mem_range.mp hi)) : (List.range h.nBuckets).Subperm L).length_le
  have := hr.fits
  rw [List.length_range] at hle
  omega

end Rehashing

/-- A put during a rehash settles one more entry. -/
theorem Placed.rehashing {f : ℕ} {displaced : Bool} (hplaced : Placed hash h' h f displaced l)
    (hr : Rehashing hash h true nRehashed l) : Rehashing hash h' displaced (nRehashed + 1) l := by
  refine ⟨hplaced.table, hplaced.linked, hplaced.shape.nBuckets ▸ hr.fits, ?_⟩
  have hcount := hr.count
  have hsettle := rehashCount_settle hplaced.shape.nBuckets hplaced.lt hplaced.rehash_iff
    hplaced.settled.2
  rw [Bool.toNat_true] at hcount
  have hiff := hplaced.displaced_iff
  cases displaced with
  | true =>
    rw [if_pos (hiff.mp rfl)] at hsettle
    rw [Bool.toNat_true]
    omega
  | false =>
    rw [if_neg fun heq => Bool.false_ne_true (hiff.mpr heq)] at hsettle
    rw [Bool.toNat_false]
    omega

/-- What a part of a rehash does: it marks no further bucket. -/
structure Rehashed (h' h : OrderedHashmap K V HashKey) : Prop where
  shape : SameShape h' h
  unmarked : ∀ i, h'.dibs i = DIB_RAW_REHASH → h.dibs i = DIB_RAW_REHASH

theorem Rehashed.trans {h'' : OrderedHashmap K V HashKey} (h₁ : Rehashed h'' h')
    (h₂ : Rehashed h' h) : Rehashed h'' h :=
  ⟨h₁.shape.trans h₂.shape, fun i hi => h₂.unmarked i (h₁.unmarked i hi)⟩

theorem Placed.rehashed {f : ℕ} {displaced : Bool} (hplaced : Placed hash h' h f displaced l) :
    Rehashed h' h := by
  refine ⟨hplaced.shape, fun i hi => ?_⟩
  by_cases hif : i = f
  · exact absurd (hif ▸ hi) hplaced.settled.2
  · exact (hplaced.rehash_iff i hif).mp hi

section Loop

variable (hash h)

theorem rehashLoop_put (fuel nRehashed : ℕ) (hin : h.keyValue IDX_PUT = some e)
    (hput : putRobinHood hash h (bucketHash hash h e.1) = some (h', false)) :
    rehashLoop hash (fuel + 1) h nRehashed = some (h', nRehashed + 1) := by
  rw [rehashLoop]
  simp only [hin, hput]

theorem rehashLoop_displace (fuel nRehashed : ℕ) (hin : h.keyValue IDX_PUT = some e)
    (hput : putRobinHood hash h (bucketHash hash h e.1) = some (h', true)) :
    rehashLoop hash (fuel + 1) h nRehashed = rehashLoop hash fuel h' (nRehashed + 1) := by
  conv_lhs => rw [rehashLoop]
  simp only [hin, hput]

variable {hash h}

/-- The loop settles the entry in the swap bucket and all that are displaced for it. -/
theorem Rehashing.loop (hr : Rehashing hash h true nRehashed l) {fuel : ℕ}
    (hfuel : rehashCount h < fuel) :
    ∃ h' nRehashed', rehashLoop hash fuel h nRehashed = some (h', nRehashed') ∧
      Rehashing hash h' false nRehashed' l ∧ Rehashed h' h := by
  induction fuel generalizing h nRehashed with
  | zero => exact absurd hfuel (Nat.not_lt_zero _)
  | succ fuel ih =>
    obtain ⟨e, -, hin⟩ := hr.linked.entry (Or.inr ⟨rfl, rfl⟩)
    obtain ⟨h₁, f, displaced, hput, hplaced⟩ := putRobinHood_placed hr.table
      (hr.linked.iff fun i => by simp [InUse]) hin hr.room
    have hr₁ := hplaced.rehashing hr
    cases displaced with
    | false => exact ⟨h₁, nRehashed + 1, rehashLoop_put hash h fuel nRehashed hin hput, hr₁,
        hplaced.rehashed⟩
    | true =>
      have hlt : rehashCount h₁ < fuel := by
        have hcount := hr.count
        have hcount₁ := hr₁.count
        omega
      obtain ⟨h', nRehashed', hrun, hr', hmarks⟩ := ih hr₁ hlt
      refine ⟨h', nRehashed', ?_, hr', hmarks.trans hplaced.rehashed⟩
      rw [rehashLoop_displace hash h fuel nRehashed hin hput, hrun]

end Loop

section Buckets

/-- A marked bucket whose entry is at home only loses its mark. -/
theorem Rehashing.keep (hr : Rehashing hash h false nRehashed l) (hidx : idx < h.nBuckets)
    (hmarked : h.dibs idx = DIB_RAW_REHASH) (he : h.keyValue idx = some e)
    (hhome : bucketHash hash h e.1 = idx) :
    Rehashing hash (setRawDib h idx 0) false (nRehashed + 1) l := by
  have hput : PutAt (setRawDib h idx 0) h idx 0 e :=
    ⟨⟨rfl, rfl, rfl, rfl⟩, rfl, he, fun _ _ _ => rfl⟩
  have hplace : idx = place h.nBuckets (bucketHash hash h e.1) 0 := by
    rw [hhome, place_zero hidx]
  have hnf : h.dibs idx ≠ DIB_RAW_FREE := by
    rw [hmarked]
    decide
  have hsettle := rehashCount_settle hput.shape.nBuckets hidx
    (fun i hi => by rw [hput.dibs_of_ne hi]) hput.occupied_self.2
  rw [if_pos hmarked] at hsettle
  refine ⟨?_, ?_, hr.fits, ?_⟩
  · exact hput.table hr.table hplace hr.table.pos (fun j hj => absurd hj (Nat.not_lt_zero j))
      fun hocc => absurd hmarked hocc.2
  · refine (hr.linked.congr (fun _ _ => rfl) (fun _ _ => rfl) rfl rfl fun _ _ => rfl).iff
      (InUse.congr _ hput.shape.nBuckets fun i _ => ?_)
    by_cases hi : i = idx
    · rw [hi]
      exact iff_of_false hput.occupied_self.1 hnf
    · rw [hput.dibs_of_ne hi]
  · have := hr.count
    omega

/-- The map once the entry at `idx` is out of its old bucket. -/
def takenOut (h : OrderedHashmap K V HashKey) (idx : ℕ) : OrderedHashmap K V HashKey :=
  bucketZero (movedEntry (setRawDib h idx DIB_RAW_FREE) idx IDX_PUT) idx

theorem keyValue_takeOut {i : ℕ} (hidx : idx ≠ IDX_PUT) (hi : i ≠ IDX_PUT) :
    (takenOut h idx).keyValue IDX_PUT = h.keyValue idx ∧
      (takenOut h idx).keyValue i = Function.update h.keyValue idx none i := by
  simp only [takenOut, bucketZero, keyValue_move, keyValue_setRawDib, Function.update_apply]
  simp [hidx.symm, hi]

theorem dibs_takeOut (h : OrderedHashmap K V HashKey) (idx : ℕ) :
    (takenOut h idx).dibs = Function.update h.dibs idx DIB_RAW_FREE := rfl

theorem Linked.takeOut {P : ℕ → Prop} (hl : Linked h P l) (hidx : P idx) (hput : ¬P IDX_PUT) :
    Linked (takenOut h idx) (fun i => P i ∧ i ≠ idx ∨ i = IDX_PUT) l := by
  have hpn : IDX_PUT ≠ IDX_NIL := by
    rw [idx_nil_eq]
    omega
  have hne : idx ≠ IDX_PUT := fun heq => hput (heq ▸ hidx)
  have hraw : Linked (setRawDib h idx DIB_RAW_FREE) P l :=
    hl.congr (fun _ _ => rfl) (fun _ _ => rfl) rfl rfl fun _ _ => rfl
  have hout : ∀ i, P i ∧ i ≠ idx ∨ i = IDX_PUT → i ≠ idx := by
    rintro i (hi | rfl)
    · exact hi.2
    · exact hne.symm
  exact (hraw.move hidx hput hpn).congr (fun i hi => Function.update_of_ne (hout i hi) _ _)
    (fun i hi => Function.update_of_ne (hout i hi) _ _) rfl rfl
    fun i hi => Function.update_of_ne (hout i hi) _ _

/-- The entry of a marked bucket can be moved out. -/
theorem Rehashing.canMove (hr : Rehashing hash h false nRehashed l) (hidx : idx < h.nBuckets)
    (hmarked : h.dibs idx = DIB_RAW_REHASH) :
    CanMove (setRawDib h idx DIB_RAW_FREE) idx IDX_PUT := by
  have hnf : h.dibs idx ≠ DIB_RAW_FREE := by
    rw [hmarked]
    decide
  have hlt : IDX_PUT < IDX_FIRST := by
    rw [idx_first_eq]
    omega
  exact hr.linked.canMove (fun _ => InUse.lt_first hr.table) (Or.inl ⟨hidx, hnf⟩)
    (by simp [InUse, hr.table.le]) hlt

/-- A marked bucket whose entry belongs elsewhere is emptied into the swap bucket. -/
theorem Rehashing.takeOut (hr : Rehashing hash h false nRehashed l) (hidx : idx < h.nBuckets)
    (hmarked : h.dibs idx = DIB_RAW_REHASH) : Rehashing hash (takenOut h idx) true nRehashed l := by
  have hshape : SameShape (takenOut h idx) h := ⟨rfl, rfl, rfl, rfl⟩
  have hnp := hr.table.ne_put hidx
  have hkv : ∀ i < h.nBuckets, (takenOut h idx).keyValue i =
      Function.update h.keyValue idx none i :=
    fun i hi => (keyValue_takeOut hnp (hr.table.ne_put hi)).2
  have hdibs := dibs_takeOut h idx
  have hnf : h.dibs idx ≠ DIB_RAW_FREE := by
    rw [hmarked]
    decide
  have hlinked := hr.linked.takeOut (Or.inl ⟨hidx, hnf⟩) (by simp [InUse, hr.table.le])
  generalize takenOut h idx = h₁ at hshape hkv hdibs hlinked ⊢
  have hm := hshape.nBuckets
  have hself : h₁.dibs idx = DIB_RAW_FREE := by rw [hdibs, Function.update_self]
  have hother : ∀ i, i ≠ idx → h₁.dibs i = h.dibs i := fun i hi => by
    rw [hdibs, Function.update_of_ne hi]
  have hocc : ∀ i, Occupied h₁ i ↔ Occupied h i := by
    intro i
    by_cases hi : i = idx
    · rw [hi]
      exact iff_of_false (fun hocc => hocc.1 hself) fun hocc => hocc.2 hmarked
    · rw [Occupied, Occupied, hother i hi]
  have hdist : ∀ i < h.nBuckets, Occupied h i → dist hash h₁ i = dist hash h i := by
    intro i hi hocci
    have hne : i ≠ idx := fun heq => hocci.2 (heq ▸ hmarked)
    exact dist_congr hshape (by rw [hkv i hi, Function.update_of_ne hne])
  have hsettle := rehashCount_settle hm hidx (fun i hi => by rw [hother i hi]) (by
    rw [hself]
    decide)
  rw [if_pos hmarked] at hsettle
  refine ⟨⟨hm ▸ hr.table.pos, hm ▸ hr.table.le, fun i hi => ?_, fun i hi hocci => ?_, ?_⟩,
    hlinked.iff fun i => ?_, hm ▸ hr.fits, ?_⟩
  · rw [hm] at hi
    rw [hkv i hi]
    by_cases hne : i = idx
    · rw [hne, Function.update_self]
      exact iff_of_true rfl hself
    · rw [Function.update_of_ne hne, hother i hne]
      exact hr.table.empty i hi
  · rw [hm] at hi
    have hocci' := (hocc i).mp hocci
    have hne : i ≠ idx := fun heq => hocci'.2 (heq ▸ hmarked)
    rw [hdist i hi hocci', hother i hne]
    exact hr.table.raw i hi hocci'
  · rw [hm]
    exact hr.table.probed.congr hr.table.pos (fun i _ => hocc i) hdist
  · by_cases hne : i = idx
    · subst hne
      simp [InUse, hself, hnp]
    · simp [InUse, hother i hne, hm, hne]
  · have := hr.count
    rw [Bool.toNat_false] at this
    rw [Bool.toNat_true]
    omega

/-- One old bucket is rehashed, with whatever it drives out. -/
theorem Rehashing.bucket (hr : Rehashing hash h false nRehashed l) (hidx : idx < h.nBuckets) :
    ∃ h' nRehashed', rehashBucket hash h idx nRehashed = some (h', nRehashed') ∧
      Rehashing hash h' false nRehashed' l ∧ Rehashed h' h ∧ h'.dibs idx ≠ DIB_RAW_REHASH := by
  by_cases hmarked : h.dibs idx = DIB_RAW_REHASH
  · obtain ⟨e, he⟩ := hr.table.entry hidx (by
      rw [hmarked]
      decide)
    by_cases hhome : bucketHash hash h e.1 = idx
    · refine ⟨setRawDib h idx 0, nRehashed + 1, ?_, hr.keep hidx hmarked he hhome,
        ⟨⟨rfl, rfl, rfl, rfl⟩, fun i hi => ?_⟩, ?_⟩
      · simp only [rehashBucket, hmarked, ne_eq, not_true_eq_false, if_false, he, hhome, if_true]
      · by_cases hne : i = idx
        · rwa [hne]
        · rwa [dibs_setRawDib, Function.update_of_ne hne] at hi
      · rw [dibs_setRawDib, Function.update_self]
        decide
    · have hr₁ := hr.takeOut hidx hmarked
      have hcount := hr₁.count
      have hfits := hr₁.fits
      have hself : (takenOut h idx).dibs idx ≠ DIB_RAW_REHASH := by
        rw [dibs_takeOut, Function.update_self]
        decide
      have hlt : rehashCount (takenOut h idx) < h.nBuckets := by
        have hm : (takenOut h idx).nBuckets = h.nBuckets := rfl
        omega
      obtain ⟨h', nRehashed', hrun, hr', hmarks⟩ := hr₁.loop hlt
      refine ⟨h', nRehashed', ?_, hr', ⟨hmarks.shape.trans ⟨rfl, rfl, rfl, rfl⟩, fun i hi => ?_⟩,
        fun hi => hself (hmarks.unmarked idx hi)⟩
      · simp only [rehashBucket, hmarked, ne_eq, not_true_eq_false, if_false, he, hhome,
          bucketMoveEntry_eq (hr.canMove hidx hmarked)]
        exact hrun
      · have hi' := hmarks.unmarked i hi
        by_cases hne : i = idx
        · rwa [hne]
        · rwa [dibs_takeOut, Function.update_of_ne hne] at hi'
  · refine ⟨h, nRehashed, ?_, hr, ⟨SameShape.refl h, fun _ hi => hi⟩, hmarked⟩
    rw [rehashBucket, if_pos hmarked]

theorem rehashBuckets_succ {nRehashed' : ℕ} (count : ℕ)
    (hbucket : rehashBucket hash h idx nRehashed = some (h', nRehashed')) :
    rehashBuckets hash (count + 1) idx h nRehashed =
      rehashBuckets hash count (idx + 1) h' nRehashed' := by
  rw [rehashBuckets]
  simp only [hbucket]

/-- When all old buckets have been visited, no mark is left. -/
theorem Rehashing.buckets (hr : Rehashing hash h false nRehashed l) {count : ℕ}
    (hle : idx + count ≤ h.nBuckets)
    (hmarks : ∀ i, h.dibs i = DIB_RAW_REHASH → idx ≤ i ∧ i < idx + count) :
    ∃ h' nRehashed', rehashBuckets hash count idx h nRehashed = some (h', nRehashed') ∧
      Rehashing hash h' false nRehashed' l ∧ SameShape h' h ∧
      ∀ i, h'.dibs i ≠ DIB_RAW_REHASH := by
  induction count generalizing h idx nRehashed with
  | zero =>
    refine ⟨h, nRehashed, rfl, hr, SameShape.refl h, fun i hi => ?_⟩
    have := hmarks i hi
    omega
  | succ count ih =>
    obtain ⟨h₁, n₁, hbucket, hr₁, hrehashed, hself⟩ := hr.bucket (show idx < h.nBuckets by omega)
    rw [rehashBuckets_succ count hbucket]
    have hm := hrehashed.shape.nBuckets
    have hle₁ : idx + 1 + count ≤ h₁.nBuckets := by omega
    obtain ⟨h', nRehashed', hrun, hr', hshape, hnone⟩ := ih hr₁ hle₁ fun i hi => by
      have hbound := hmarks i (hrehashed.unmarked i hi)
      have hne : i ≠ idx := fun heq => hself (heq ▸ hi)
      omega
    exact ⟨h', nRehashed', hrun, hr', hshape.trans hrehashed.shape, hnone⟩

end Buckets

section Represents

variable (hash h l)

/-- The most entries for which the size of the storage is a shift below the width of
an `unsigned`. -/
def MAX_ENTRIES : ℕ := 68719476

/-- The storage of so many entries is large enough, and leaves a bucket free unless it
is the single direct one. -/
def Loaded (nEntries : ℕ) : Prop :=
  if h.hasIndirect then 5 ≤ h.nBuckets ∧ bucketsFor nEntries ≤ h.nBuckets
  else h.nBuckets = 1 ∧ nEntries ≤ 1

structure Represents : Prop where
  table : Table hash h
  unmarked : ∀ i, h.dibs i ≠ DIB_RAW_REHASH
  linked : Linked h (InUse h False) l
  keys : (l.map Prod.fst).Nodup
  nEntries : h.nEntries = l.length
  loaded : Loaded h l.length

variable {hash h l}

theorem bucketsFor_mono {m n : ℕ} (hle : m ≤ n) : bucketsFor m ≤ bucketsFor n := by
  have := Nat.div_le_div_right (c := INV_KEEP_FREE - 1) hle
  rw [bucketsFor, bucketsFor]
  omega

theorem Loaded.mono {m n : ℕ} (hloaded : Loaded h n) (hle : m ≤ n) : Loaded h m := by
  rw [Loaded] at hloaded ⊢
  split_ifs at hloaded ⊢
  · exact ⟨hloaded.1, (bucketsFor_mono hle).trans hloaded.2⟩
  · exact ⟨hloaded.1, hle.trans hloaded.2⟩

/-- Indirect storage is never full. -/
theorem Loaded.lt {n : ℕ} (hloaded : Loaded h n) (hindirect : h.hasIndirect = true) :
    n < h.nBuckets := by
  rw [Loaded, if_pos hindirect, bucketsFor, INV_KEEP_FREE] at hloaded
  omega

theorem Loaded.fits {n : ℕ} (hloaded : Loaded h n) : n ≤ h.nBuckets := by
  cases hindirect : h.hasIndirect with
  | true => exact (hloaded.lt hindirect).le
  | false =>
    rw [Loaded, hindirect, if_neg Bool.false_ne_true] at hloaded
    omega

theorem le_two_pow_log2uRoundUp {x : ℕ} (hx : 0 < x) : x ≤ 2 ^ log2uRoundUp x := by
  rw [log2uRoundUp]
  split_ifs with hone
  · omega
  · have := Nat.lt_log2_self (n := x - 1)
    omega

theorem log2uRoundUp_lt {x k : ℕ} (hk : 0 < k) (hx : x ≤ 2 ^ k) : log2uRoundUp x < k + 1 := by
  rw [log2uRoundUp]
  split_ifs with hone
  · omega
  · rcases Nat.eq_zero_or_pos (x - 1) with hzero | hpos
    · rw [hzero, Nat.log2_zero]
      omega
    · have := (Nat.log2_lt hpos.ne').mpr (show x - 1 < 2 ^ k by omega)
      omega

def shiftFor (newNBuckets : ℕ) : ℕ :=
  log2uRoundUp (max (newNBuckets * (ENTRY_SIZE + 1)) (2 * DIRECT_STORAGE_SIZE))

theorem shiftFor_lt {n : ℕ} (hle : n ≤ MAX_ENTRIES) : shiftFor (bucketsFor n) < 32 := by
  refine log2uRoundUp_lt (by decide) (max_le ?_ (by decide))
  rw [bucketsFor, ENTRY_SIZE, INV_KEEP_FREE]
  rw [MAX_ENTRIES] at hle
  omega

/-- The new storage has at least the buckets that are asked for, at least five, and
fewer than the first index of a swap bucket. -/
theorem buckets_shiftFor {m : ℕ} (hshift : shiftFor m < 32) :
    m ≤ 2 ^ shiftFor m / (ENTRY_SIZE + 1) ∧ 5 ≤ 2 ^ shiftFor m / (ENTRY_SIZE + 1) ∧
      2 ^ shiftFor m / (ENTRY_SIZE + 1) ≤ IDX_PUT := by
  have hlarge := le_two_pow_log2uRoundUp
    (x := max (m * (ENTRY_SIZE + 1)) (2 * DIRECT_STORAGE_SIZE))
    (lt_of_lt_of_le (by decide) (le_max_right _ _))
  have hm : m * (ENTRY_SIZE + 1) ≤ 2 ^ shiftFor m := (le_max_left _ _).trans hlarge
  have hdirect : 2 * DIRECT_STORAGE_SIZE ≤ 2 ^ shiftFor m := (le_max_right _ _).trans hlarge
  have hseven : 7 ≤ shiftFor m := by
    by_contra hlt
    have := Nat.pow_le_pow_right (n := 2) (by decide) (show shiftFor m ≤ 6 by omega)
    have : 2 * DIRECT_STORAGE_SIZE = 78 := rfl
    omega
  have hpow := Nat.pow_le_pow_right (n := 2) (by decide) hseven
  have hsmall := Nat.pow_le_pow_right (n := 2) (by decide) (show shiftFor m ≤ 31 by omega)
  rw [ENTRY_SIZE] at hm ⊢
  refine ⟨(Nat.le_div_iff_mul_le (by decide)).mpr hm, ?_, ?_⟩
  · omega
  · have : IDX_PUT = 4294967292 := rfl
    omega

/-- The enlarged storage before the rehash: all entries are linked as they were, and
none is settled. -/
theorem Represents.enlarge (hr : Represents hash h l) {newShift : ℕ} (hashKey : HashKey)
    (hgrow : h.nBuckets ≤ 2 ^ newShift / (ENTRY_SIZE + 1))
    (hle : 2 ^ newShift / (ENTRY_SIZE + 1) ≤ IDX_PUT)
    (hfits : l.length < 2 ^ newShift / (ENTRY_SIZE + 1)) :
    Rehashing hash (enlarge h newShift hashKey) false 0 l := by
  have hm : (Hashmap.enlarge h newShift hashKey).nBuckets = 2 ^ newShift / (ENTRY_SIZE + 1) := rfl
  have hocc : ∀ i, ¬Occupied (Hashmap.enlarge h newShift hashKey) i := by
    intro i
    rw [not_occupied_iff]
    simp only [Hashmap.enlarge]
    split_ifs <;> simp
  have hold : ∀ i, InUse h False i →
      ¬(h.nBuckets ≤ i ∧ i < 2 ^ newShift / (ENTRY_SIZE + 1)) := fun i hi hbound => by
    have := (hi.resolve_right And.left).1
    omega
  have huse : ∀ i, InUse (Hashmap.enlarge h newShift hashKey) False i ↔ InUse h False i := by
    intro i
    simp only [InUse, Hashmap.enlarge, false_and, or_false]
    split_ifs with hi hfree
    · simp [hfree]
    · exact iff_of_true ⟨hi.trans_le hgrow, by decide⟩ ⟨hi, hfree⟩
    · simp [hi]
  have hlinked : Linked (Hashmap.enlarge h newShift hashKey) (InUse h False) l :=
    hr.linked.congr (fun i hi => if_neg (hold i hi)) (fun i hi => if_neg (hold i hi)) rfl rfl
      fun i hi => if_neg (hold i hi)
  refine ⟨⟨?_, hm ▸ hle, fun i hi => ?_, fun i _ hi => absurd hi (hocc i), fun i _ hi =>
    absurd hi (hocc _)⟩, (hlinked.iff huse).iff fun i => ?_, hm ▸ hfits, ?_⟩
  · exact hm ▸ hr.table.pos.trans_le hgrow
  · rw [hm] at hi
    simp only [Hashmap.enlarge]
    by_cases hlt : i < h.nBuckets
    · rw [if_neg (by omega), if_pos hlt, hr.table.empty i hlt]
      split_ifs with hfree
      · exact iff_of_true hfree rfl
      · exact iff_of_false hfree (by decide)
    · rw [if_pos (by omega), if_neg hlt]
      exact iff_of_true rfl rfl
  · simp only [Bool.false_eq_true]
  · have hcard := hlinked.card (s := (Finset.range (2 ^ newShift / (ENTRY_SIZE + 1))).filter
      fun i => (Hashmap.enlarge h newShift hashKey).dibs i = DIB_RAW_REHASH) fun i => by
        rw [Finset.mem_filter, Finset.mem_range, ← huse i]
        have hnot := not_occupied_iff.mp (hocc i)
        simp only [InUse, hm, false_and, or_false]
        refine and_congr_right fun _ => ?_
        rcases hnot with hfree | hrehash
        · rw [hfree]
          decide
        · rw [hrehash]
          decide
    rw [rehashCount, hm, Bool.toNat_false]
    omega

theorem marked_enlarge {newShift i : ℕ} {hashKey : HashKey}
    (hi : (Hashmap.enlarge h newShift hashKey).dibs i = DIB_RAW_REHASH) : i < h.nBuckets := by
  by_contra hge
  simp only [Hashmap.enlarge, if_neg hge] at hi
  exact absurd hi (by decide)

variable (hash h l)

/-- A resize either fails, for want of memory, or leaves the entries as they were, with
room for the new ones. -/
def ResizeResult (entriesAdd : ℕ) (res : Resources HashKey) :
    Except Errno (OrderedHashmap K V HashKey × Bool) → Prop
  | .error e => e = .enomem ∧ res.realloc = false
  | .ok (h', resized) => Represents hash h' l ∧ Loaded h' (l.length + entriesAdd) ∧
      (resized = false → h' = h)

variable {hash h l}

/-- The rehash in the enlarged storage comes to its end, with all entries counted. -/
theorem Represents.rehash (hr : Represents hash h l) {nEntries : ℕ} (hashKey : HashKey)
    (hle : l.length ≤ nEntries) (hmax : nEntries ≤ MAX_ENTRIES)
    (hgrow : h.nBuckets < bucketsFor nEntries) :
    ∃ h', rehashBuckets hash h.nBuckets 0
        (Hashmap.enlarge h (shiftFor (bucketsFor nEntries)) hashKey) 0 = some (h', h'.nEntries) ∧
      Represents hash h' l ∧ Loaded h' nEntries := by
  obtain ⟨hlarge, hfive, hput⟩ := buckets_shiftFor (shiftFor_lt hmax)
  generalize hshift : shiftFor (bucketsFor nEntries) = shift at hlarge hfive hput ⊢
  have hloaded : ∀ h' : OrderedHashmap K V HashKey,
      SameShape h' (Hashmap.enlarge h shift hashKey) → Loaded h' nEntries := by
    intro h' hshape
    rw [Loaded, hshape.hasIndirect, hshape.nBuckets]
    exact (if_pos rfl).mpr ⟨hfive, hlarge⟩
  have hfits := (hloaded _ (SameShape.refl _)).lt rfl
  have hr₀ := hr.enlarge hashKey (hgrow.le.trans hlarge) hput (lt_of_le_of_lt hle hfits)
  have hold : 0 + h.nBuckets ≤ (Hashmap.enlarge h shift hashKey).nBuckets := by
    rw [Nat.zero_add]
    exact hgrow.le.trans hlarge
  obtain ⟨h', nRehashed, hrun, hr', hshape, hnone⟩ := hr₀.buckets hold fun i hi => by
    rw [Nat.zero_add]
    exact ⟨Nat.zero_le i, marked_enlarge hi⟩
  have hzero : rehashCount h' = 0 := by
    rw [rehashCount, Finset.card_eq_zero, Finset.filter_eq_empty_iff]
    exact fun i _ => hnone i
  have hcount := hr'.count
  have hentries : h'.nEntries = l.length := hshape.nEntries.trans hr.nEntries
  have hall : nRehashed = h'.nEntries := by
    rw [hzero, Bool.toNat_false] at hcount
    omega
  refine ⟨h', hall ▸ hrun, ⟨hr'.table, hnone, ?_, hr.keys, hentries, ?_⟩, hloaded h' hshape⟩
  · exact hr'.linked.iff fun i => by simp only [Bool.false_eq_true]
  · exact (hloaded h' hshape).mono hle

/-- The resize keeps the entries and their order. -/
theorem Represents.resize (hr : Represents hash h l) {entriesAdd : ℕ} (res : Resources HashKey)
    (hmax : l.length + entriesAdd ≤ MAX_ENTRIES) :
    ∃ r, resizeBuckets hash h entriesAdd res = some r ∧
      ResizeResult hash h l entriesAdd res r := by
  have hbuckets : bucketsFor (l.length + entriesAdd) ≤ 85899345 := by
    rw [MAX_ENTRIES] at hmax
    rw [bucketsFor, INV_KEEP_FREE]
    omega
  have hentries : (h.nEntries + entriesAdd) % 2 ^ 32 = l.length + entriesAdd := by
    rw [hr.nEntries]
    rw [MAX_ENTRIES] at hmax
    exact Nat.mod_eq_of_lt (by omega)
  have hmod : bucketsFor (l.length + entriesAdd) % 2 ^ 32 = bucketsFor (l.length + entriesAdd) :=
    Nat.mod_eq_of_lt (by omega)
  have hge : l.length + entriesAdd ≤ bucketsFor (l.length + entriesAdd) := Nat.le_add_right _ _
  have hlimit : UINT_MAX / (ENTRY_SIZE + 1) = 171798691 := by decide
  have hloaded := hr.loaded
  rw [Loaded] at hloaded
  simp only [resizeBuckets, hentries, hmod]
  rw [if_neg (by omega)]
  by_cases hdirect : ¬h.hasIndirect ∧ l.length + entriesAdd ≤ N_DIRECT_BUCKETS
  · rw [if_pos hdirect]
    rw [if_neg hdirect.1] at hloaded
    refine ⟨_, rfl, hr, ?_, fun _ => rfl⟩
    rw [Loaded, if_neg hdirect.1]
    exact ⟨hloaded.1, hdirect.2⟩
  · rw [if_neg hdirect, if_neg (by omega), if_neg (by omega)]
    by_cases henough : bucketsFor (l.length + entriesAdd) ≤ h.nBuckets
    · rw [if_pos henough]
      refine ⟨_, rfl, hr, ?_, fun _ => rfl⟩
      have hdb : N_DIRECT_BUCKETS = 1 := rfl
      rw [Loaded]
      split_ifs at hloaded ⊢ with hindirect
      · exact ⟨hloaded.1, henough⟩
      · exact ⟨hloaded.1, by omega⟩
    · have hshift := shiftFor_lt hmax
      rw [shiftFor] at hshift
      rw [if_neg henough, if_neg hshift.not_ge]
      cases hrealloc : res.realloc with
      | false => exact ⟨_, rfl, rfl, hrealloc⟩
      | true =>
        obtain ⟨h', hrun, hr', hloaded'⟩ := hr.rehash res.hashKey (Nat.le_add_right _ entriesAdd)
          hmax (by omega)
        rw [shiftFor] at hrun
        have hunmarked : ¬∃ idx < h.nBuckets, h.dibs idx = DIB_RAW_REHASH := fun ⟨idx, _, hmark⟩ =>
          hr.unmarked idx hmark
        simp only [hrun, not_true_eq_false, if_false, if_true, hunmarked]
        exact ⟨_, rfl, hr', hloaded', fun hfalse => absurd hfalse Bool.noConfusion⟩

/-- With `MAX_ENTRIES` entries in the largest storage there is, a put asks for a shift
by the width of an `unsigned`. -/
theorem resizeBuckets_full (hindirect : h.hasIndirect = true) (hentries : h.nEntries = MAX_ENTRIES)
    (hle : h.nBuckets ≤ 2 ^ 31 / (ENTRY_SIZE + 1)) (res : Resources HashKey) :
    resizeBuckets hash h 1 res = none := by
  have hnew : (h.nEntries + 1) % 2 ^ 32 = 68719477 := by
    rw [hentries]
    rfl
  have hbuckets : bucketsFor 68719477 % 2 ^ 32 = 85899346 := by decide
  have hlimit : UINT_MAX / (ENTRY_SIZE + 1) = 171798691 := by decide
  have hlargest : 2 ^ 31 / (ENTRY_SIZE + 1) = 85899345 := by decide
  have hshift : 32 ≤ log2uRoundUp
      (max (85899346 * (ENTRY_SIZE + 1)) (2 * DIRECT_STORAGE_SIZE)) := by
    by_contra hlt
    have hlarge := le_two_pow_log2uRoundUp
      (x := max (85899346 * (ENTRY_SIZE + 1)) (2 * DIRECT_STORAGE_SIZE)) (by decide)
    have hpow := Nat.pow_le_pow_right (n := 2) (by decide) (Nat.le_of_lt_succ (not_le.mp hlt))
    have hsize : max (85899346 * (ENTRY_SIZE + 1)) (2 * DIRECT_STORAGE_SIZE) = 2147483650 := by
      decide
    omega
  simp only [resizeBuckets, hnew, hbuckets]
  rw [if_neg (by omega), if_neg fun hdirect => hdirect.1 hindirect, if_neg (by omega),
    if_neg (by omega), if_neg (by omega), if_pos hshift]

end Represents

end Vdev.Hashmap
