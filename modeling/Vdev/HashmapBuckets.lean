import Vdev.Hashmap
import Vdev.CircularProbing
import Vdev.IndexRings

/-!
The buckets of an ordered hash map. The links form a ring with the heads of the
list as its header, and the buckets in the ring hold the entries in their order.
The distances from home form a probe table. A move between buckets renames an
index of the ring, so that the entries keep their order, and a put drives the
entries of the probe table on until a bucket is found that has no settled entry.
-/
namespace Vdev.Hashmap

open CircularProbing IndexRings

variable {K V HashKey : Type*}

section Shapes

structure SameShape (h' h : OrderedHashmap K V HashKey) : Prop where
  hashKey : h'.hashKey = h.hashKey
  hasIndirect : h'.hasIndirect = h.hasIndirect
  nBuckets : h'.nBuckets = h.nBuckets
  nEntries : h'.nEntries = h.nEntries

variable {h h' h'' : OrderedHashmap K V HashKey}

theorem SameShape.refl (h : OrderedHashmap K V HashKey) : SameShape h h := ⟨rfl, rfl, rfl, rfl⟩

theorem SameShape.trans (h₁ : SameShape h'' h') (h₂ : SameShape h' h) : SameShape h'' h :=
  ⟨h₁.1.trans h₂.1, h₁.2.trans h₂.2, h₁.3.trans h₂.3, h₁.4.trans h₂.4⟩

theorem sameShape_move (source target : ℕ) : SameShape (movedEntry h source target) h :=
  ⟨rfl, rfl, rfl, rfl⟩

theorem sameShape_setDib (idx dib : ℕ) : SameShape (bucketSetDib h idx dib) h :=
  ⟨rfl, rfl, rfl, rfl⟩

def swappedEntry (h : OrderedHashmap K V HashKey) (idx : ℕ) : OrderedHashmap K V HashKey :=
  movedEntry (movedEntry (movedEntry h idx IDX_TMP) IDX_PUT idx) IDX_TMP IDX_PUT

theorem sameShape_swap (idx : ℕ) : SameShape (swappedEntry h idx) h :=
  (sameShape_move IDX_TMP IDX_PUT).trans
    ((sameShape_move IDX_PUT idx).trans (sameShape_move idx IDX_TMP))

@[simp] theorem dibs_move (source target : ℕ) :
    (movedEntry h source target).dibs = h.dibs := rfl

@[simp] theorem dibs_swap (idx : ℕ) : (swappedEntry h idx).dibs = h.dibs := by
  rw [swappedEntry, dibs_move, dibs_move, dibs_move]

@[simp] theorem keyValue_setDib (idx dib : ℕ) : (bucketSetDib h idx dib).keyValue = h.keyValue :=
  rfl

@[simp] theorem keyValue_setRawDib (idx dib : ℕ) : (setRawDib h idx dib).keyValue = h.keyValue :=
  rfl

theorem keyValue_move (source target : ℕ) : (movedEntry h source target).keyValue =
    Function.update h.keyValue target (h.keyValue source) := rfl

theorem dibs_setRawDib (idx dib : ℕ) :
    (setRawDib h idx dib).dibs = Function.update h.dibs idx dib := rfl

theorem dibs_setDib (idx : ℕ) {dib : ℕ} (hdib : dib < DIB_FREE) :
    (bucketSetDib h idx dib).dibs = Function.update h.dibs idx (min dib DIB_RAW_OVERFLOW) := by
  rw [bucketSetDib, dibs_setRawDib, if_pos hdib.ne]

end Shapes

section Links

variable (h : OrderedHashmap K V HashKey)

/-- The forward links, with the header at `IDX_NIL`. -/
def nextOf : ℕ → ℕ := Function.update h.iterateNext IDX_NIL h.iterateListHead

def prevOf : ℕ → ℕ := Function.update h.iteratePrevious IDX_NIL h.iterateListTail

/-- The entries are linked in the order of the list, through the buckets with `P`. -/
def Linked (P : ℕ → Prop) (l : List (K × V)) : Prop :=
  ∃ L, Ring (nextOf h) (prevOf h) IDX_NIL L ∧ (IDX_NIL :: L).Nodup ∧ (∀ i, i ∈ L ↔ P i) ∧
    L.map h.keyValue = l.map some

variable {h} {h' : OrderedHashmap K V HashKey} {P P' : ℕ → Prop} {l : List (K × V)}

theorem nextOf_of_ne {i : ℕ} (hi : i ≠ IDX_NIL) : nextOf h i = h.iterateNext i :=
  Function.update_of_ne hi _ _

theorem prevOf_of_ne {i : ℕ} (hi : i ≠ IDX_NIL) : prevOf h i = h.iteratePrevious i :=
  Function.update_of_ne hi _ _

theorem nextOf_nil : nextOf h IDX_NIL = h.iterateListHead := Function.update_self _ _ _

theorem prevOf_nil : prevOf h IDX_NIL = h.iterateListTail := Function.update_self _ _ _

theorem Linked.iff (hl : Linked h P l) (hP : ∀ i, P' i ↔ P i) : Linked h P' l := by
  obtain ⟨L, hring, hnodup, hmem, hmap⟩ := hl
  exact ⟨L, hring, hnodup, fun i => (hmem i).trans (hP i).symm, hmap⟩

/-- What is not linked does not matter. -/
theorem Linked.congr (hl : Linked h P l) (hnext : ∀ i, P i → h'.iterateNext i = h.iterateNext i)
    (hprev : ∀ i, P i → h'.iteratePrevious i = h.iteratePrevious i)
    (hhead : h'.iterateListHead = h.iterateListHead)
    (htail : h'.iterateListTail = h.iterateListTail)
    (hkv : ∀ i, P i → h'.keyValue i = h.keyValue i) : Linked h' P l := by
  obtain ⟨L, hring, hnodup, hmem, hmap⟩ := hl
  have hne : ∀ i ∈ L, i ≠ IDX_NIL := fun i hi heq => (List.nodup_cons.mp hnodup).1 (heq ▸ hi)
  refine ⟨L, hring.congr ?_ ?_, hnodup, hmem, ?_⟩
  · intro i hi
    rcases List.mem_cons.mp hi with rfl | hi
    · rw [nextOf_nil, nextOf_nil, hhead]
    · rw [nextOf_of_ne (hne i hi), nextOf_of_ne (hne i hi), hnext i ((hmem i).mp hi)]
  · intro i hi
    rcases List.mem_cons.mp hi with rfl | hi
    · rw [prevOf_nil, prevOf_nil, htail]
    · rw [prevOf_of_ne (hne i hi), prevOf_of_ne (hne i hi), hprev i ((hmem i).mp hi)]
  · rw [← hmap]
    exact List.map_congr_left fun i hi => hkv i ((hmem i).mp hi)

theorem Linked.setDib (hl : Linked h P l) (idx dib : ℕ) : Linked (bucketSetDib h idx dib) P l :=
  hl.congr (fun _ _ => rfl) (fun _ _ => rfl) rfl rfl fun _ _ => rfl

/-- A linked bucket has one of the entries. -/
theorem Linked.entry (hl : Linked h P l) {i : ℕ} (hi : P i) :
    ∃ e ∈ l, h.keyValue i = some e := by
  obtain ⟨L, -, -, hmem, hmap⟩ := hl
  have hin : h.keyValue i ∈ l.map some := hmap ▸ List.mem_map_of_mem ((hmem i).mpr hi)
  obtain ⟨e, he, heq⟩ := List.mem_map.mp hin
  exact ⟨e, he, heq.symm⟩

theorem Linked.bucket (hl : Linked h P l) {e : K × V} (he : e ∈ l) :
    ∃ i, P i ∧ h.keyValue i = some e := by
  obtain ⟨L, -, -, hmem, hmap⟩ := hl
  have hin : some e ∈ L.map h.keyValue := hmap ▸ List.mem_map_of_mem he
  obtain ⟨i, hi, heq⟩ := List.mem_map.mp hin
  exact ⟨i, (hmem i).mp hi, heq⟩

/-- There are as many linked buckets as entries. -/
theorem Linked.card (hl : Linked h P l) {s : Finset ℕ} (hs : ∀ i, i ∈ s ↔ P i) :
    s.card = l.length := by
  obtain ⟨L, -, hnodup, hmem, hmap⟩ := hl
  have hlen : L.length = l.length := by simpa using congrArg List.length hmap
  have hset : s = L.toFinset := by
    ext i
    rw [hs, List.mem_toFinset, hmem]
  rw [hset, List.toFinset_card_of_nodup (List.nodup_cons.mp hnodup).2, hlen]

/-- The list starts at `source` if and only if nothing is before it. -/
theorem head_eq_iff {L : List ℕ} (hring : Ring (nextOf h) (prevOf h) IDX_NIL L)
    (hnodup : (IDX_NIL :: L).Nodup) {source : ℕ} (hmem : source ∈ L) :
    h.iterateListHead = source ↔ h.iteratePrevious source = IDX_NIL := by
  have hne : source ≠ IDX_NIL := fun heq => (List.nodup_cons.mp hnodup).1 (heq ▸ hmem)
  rw [← nextOf_nil, ← prevOf_of_ne hne]
  constructor
  · intro heq
    rw [← heq]
    exact hring.prev_next List.mem_cons_self
  · intro heq
    rw [← heq]
    exact hring.next_prev (List.mem_cons_of_mem _ hmem)

theorem tail_eq_iff {L : List ℕ} (hring : Ring (nextOf h) (prevOf h) IDX_NIL L)
    (hnodup : (IDX_NIL :: L).Nodup) {source : ℕ} (hmem : source ∈ L) :
    h.iterateListTail = source ↔ h.iterateNext source = IDX_NIL := by
  have hne : source ≠ IDX_NIL := fun heq => (List.nodup_cons.mp hnodup).1 (heq ▸ hmem)
  rw [← prevOf_nil, ← nextOf_of_ne hne]
  constructor
  · intro heq
    rw [← heq]
    exact hring.next_prev List.mem_cons_self
  · intro heq
    rw [← heq]
    exact hring.prev_next (List.mem_cons_of_mem _ hmem)

/-- A move renames the bucket for those before and behind it. -/
theorem nextOf_move {source target : ℕ} (hsource : source ≠ IDX_NIL) (htarget : target ≠ IDX_NIL)
    (hhead : h.iterateListHead = source ↔ h.iteratePrevious source = IDX_NIL) :
    nextOf (movedEntry h source target) =
      Function.update (Function.update (nextOf h) target (nextOf h source))
        (prevOf h source) target := by
  rw [nextOf_of_ne hsource, prevOf_of_ne hsource]
  funext i
  simp only [nextOf, movedEntry, relinkNeighbours, bucketCopy, Function.update_apply,
    if_true, hhead]
  split_ifs <;> simp_all

theorem prevOf_move {source target : ℕ} (hsource : source ≠ IDX_NIL) (htarget : target ≠ IDX_NIL)
    (htail : h.iterateListTail = source ↔ h.iterateNext source = IDX_NIL) :
    prevOf (movedEntry h source target) =
      Function.update (Function.update (prevOf h) target (prevOf h source))
        (nextOf h source) target := by
  rw [prevOf_of_ne hsource, nextOf_of_ne hsource]
  funext i
  simp only [prevOf, movedEntry, relinkNeighbours, bucketCopy, Function.update_apply,
    if_true, htail]
  split_ifs <;> simp_all

/-- A move to a bucket outside the ring keeps the entries in their order. -/
theorem Linked.move (hl : Linked h P l) {source target : ℕ} (hsource : P source)
    (htarget : ¬P target) (hnil : target ≠ IDX_NIL) :
    Linked (movedEntry h source target) (fun i => P i ∧ i ≠ source ∨ i = target) l := by
  obtain ⟨L, hring, hnodup, hmem, hmap⟩ := hl
  have hin := (hmem source).mpr hsource
  have hsn : source ≠ IDX_NIL := fun heq => (List.nodup_cons.mp hnodup).1 (heq ▸ hin)
  have hhead := head_eq_iff hring hnodup hin
  have htail := tail_eq_iff hring hnodup hin
  obtain ⟨pre, post, rfl⟩ := List.append_of_mem hin
  rw [List.append_cons] at hring hnodup hmap
  simp only [List.append_cons pre source post] at hmem
  have hout : target ∉ IDX_NIL :: (pre ++ [source] ++ post) := by
    rw [List.mem_cons, not_or]
    exact ⟨hnil, fun hin' => htarget ((hmem target).mp hin')⟩
  refine ⟨pre ++ [target] ++ post, ?_, nodup_middle_iff.mpr ⟨?_, (nodup_middle_iff.mp hnodup).2⟩,
    fun i => ?_, ?_⟩
  · rw [nextOf_move hsn hnil hhead, prevOf_move hsn hnil htail]
    exact hring.rename hnodup hout
  · simp only [List.mem_cons, List.mem_append, not_or] at hout ⊢
    tauto
  · have hne := (nodup_middle_iff.mp hnodup).1
    simp only [← hmem]
    simp only [List.mem_append, List.mem_cons, List.not_mem_nil, or_false, not_or] at hne ⊢
    grind
  · have hkeep : ∀ i ∈ IDX_NIL :: (pre ++ [source] ++ post),
        Function.update h.keyValue target (h.keyValue source) i = h.keyValue i := by
      intro i hi
      have hne : i ≠ target := fun heq => hout (heq ▸ hi)
      rw [Function.update_of_ne hne]
    rw [← hmap, keyValue_move]
    simp only [List.map_append, List.map_cons, List.map_nil, Function.update_self]
    rw [List.map_congr_left fun i hi => hkeep i (by simp [hi]),
      List.map_congr_left fun i hi => hkeep i (by simp [hi])]

theorem bucketMoveEntry_eq {source target : ℕ} (hcan : CanMove h source target) :
    bucketMoveEntry h source target = some (movedEntry h source target) := if_pos hcan

/-- The links of a linked bucket lead to linked buckets, so that no move out of one of
them fails. -/
theorem Linked.canMove (hl : Linked h P l) (hfirst : ∀ i, P i → i < IDX_FIRST) {source target : ℕ}
    (hsource : P source) (htarget : ¬P target) (hlt : target < IDX_FIRST) :
    CanMove h source target := by
  obtain ⟨L, hring, hnodup, hmem, -⟩ := hl
  have hin := (hmem source).mpr hsource
  have hsn : source ≠ IDX_NIL := fun heq => (List.nodup_cons.mp hnodup).1 (heq ▸ hin)
  have hnext := hring.next_mem (List.mem_cons_of_mem _ hin)
  have hprev := hring.prev_mem (List.mem_cons_of_mem _ hin)
  rw [nextOf_of_ne hsn, List.mem_cons, hmem] at hnext
  rw [prevOf_of_ne hsn, List.mem_cons, hmem] at hprev
  refine ⟨fun heq => htarget (heq ▸ hsource), hfirst source hsource, hlt, fun hne => ?_,
    fun hne => ?_⟩
  · exact hfirst _ (hnext.resolve_left hne)
  · exact hfirst _ (hprev.resolve_left hne)

theorem idx_tmp_eq : IDX_TMP = IDX_PUT + 1 := rfl

theorem idx_first_eq : IDX_FIRST = IDX_PUT + 2 := rfl

theorem idx_nil_eq : IDX_NIL = IDX_PUT + 3 := rfl

/-- A swap with the swap bucket keeps the entries in their order. -/
theorem Linked.swap (hl : Linked h P l) {idx : ℕ} (hidx : P idx) (hput : P IDX_PUT)
    (htmp : ¬P IDX_TMP) (hfirst : ∀ i, P i → i < IDX_FIRST) (hne : idx ≠ IDX_PUT) :
    bucketSwapEntry h idx = some (swappedEntry h idx) ∧ Linked (swappedEntry h idx) P l := by
  have hit : idx ≠ IDX_TMP := fun heq => htmp (heq ▸ hidx)
  have hpt : IDX_PUT ≠ IDX_TMP := fun heq => htmp (heq ▸ hput)
  have htn : IDX_TMP ≠ IDX_NIL := by rw [idx_tmp_eq, idx_nil_eq]; omega
  have hpn : IDX_PUT ≠ IDX_NIL := by rw [idx_nil_eq]; omega
  have htf : IDX_TMP < IDX_FIRST := by rw [idx_tmp_eq, idx_first_eq]; omega
  have hin : idx ≠ IDX_NIL := fun heq => by
    have hlt := hfirst idx hidx
    rw [heq, idx_nil_eq, idx_first_eq] at hlt
    omega
  have hl₁ := hl.move hidx htmp htn
  have hfirst₁ : ∀ i, P i ∧ i ≠ idx ∨ i = IDX_TMP → i < IDX_FIRST := by
    rintro i (hi | rfl)
    · exact hfirst i hi.1
    · exact htf
  have hput₁ : P IDX_PUT ∧ IDX_PUT ≠ idx ∨ IDX_PUT = IDX_TMP := Or.inl ⟨hput, hne.symm⟩
  have hidx₁ : ¬(P idx ∧ idx ≠ idx ∨ idx = IDX_TMP) := by simp [hit]
  have hl₂ := hl₁.move hput₁ hidx₁ hin
  have hfirst₂ : ∀ i, (P i ∧ i ≠ idx ∨ i = IDX_TMP) ∧ i ≠ IDX_PUT ∨ i = idx → i < IDX_FIRST := by
    rintro i (hi | rfl)
    · exact hfirst₁ i hi.1
    · exact hfirst i hidx
  have htmp₂ : (P IDX_TMP ∧ IDX_TMP ≠ idx ∨ IDX_TMP = IDX_TMP) ∧ IDX_TMP ≠ IDX_PUT ∨
      IDX_TMP = idx := Or.inl ⟨Or.inr rfl, hpt.symm⟩
  have hput₂ : ¬((P IDX_PUT ∧ IDX_PUT ≠ idx ∨ IDX_PUT = IDX_TMP) ∧ IDX_PUT ≠ IDX_PUT ∨
      IDX_PUT = idx) := by simp [hne.symm]
  constructor
  · rw [bucketSwapEntry, bucketMoveEntry_eq (hl.canMove hfirst hidx htmp htf)]
    simp only [bucketMoveEntry_eq (hl₁.canMove hfirst₁ hput₁ hidx₁ (hfirst idx hidx))]
    rw [bucketMoveEntry_eq (hl₂.canMove hfirst₂ htmp₂ hput₂ (hfirst _ hput)), swappedEntry]
  · refine (hl₂.move htmp₂ hput₂ hpn).iff fun i => ?_
    by_cases hi : i = idx <;> by_cases hj : i = IDX_PUT <;> by_cases hk : i = IDX_TMP <;>
      simp_all

theorem keyValue_swap {idx : ℕ} (hput : idx ≠ IDX_PUT) (htmp : idx ≠ IDX_TMP) :
    (swappedEntry h idx).keyValue idx = h.keyValue IDX_PUT ∧
      (swappedEntry h idx).keyValue IDX_PUT = h.keyValue idx := by
  have hpt : IDX_PUT ≠ IDX_TMP := by rw [idx_tmp_eq]; omega
  simp only [swappedEntry, keyValue_move, Function.update_apply]
  simp [hput, htmp.symm, hpt]

theorem keyValue_swap_of_ne {idx i : ℕ} (hi : i ≠ idx) (hput : i ≠ IDX_PUT)
    (htmp : i ≠ IDX_TMP) : (swappedEntry h idx).keyValue i = h.keyValue i := by
  simp only [swappedEntry, keyValue_move]
  rw [Function.update_of_ne hput, Function.update_of_ne hi, Function.update_of_ne htmp]

end Links

section Tables

variable (hash : HashKey → K → ℕ)

def Occupied (h : OrderedHashmap K V HashKey) (i : ℕ) : Prop :=
  h.dibs i ≠ DIB_RAW_FREE ∧ h.dibs i ≠ DIB_RAW_REHASH

def dist (h : OrderedHashmap K V HashKey) (i : ℕ) : ℕ :=
  (h.keyValue i).elim 0 fun e => bucketDistance h i (bucketHash hash h e.1)

/-- The settled entries form a probe table, and their raw distances tell how far
they are from home. -/
structure Table (h : OrderedHashmap K V HashKey) : Prop where
  pos : 0 < h.nBuckets
  le : h.nBuckets ≤ IDX_PUT
  empty : ∀ i < h.nBuckets, (h.keyValue i = none ↔ h.dibs i = DIB_RAW_FREE)
  raw : ∀ i < h.nBuckets, Occupied h i → h.dibs i = min (dist hash h i) DIB_RAW_OVERFLOW
  probed : Probed h.nBuckets (Occupied h) (dist hash h)

variable {hash} {h h' : OrderedHashmap K V HashKey} {idx i : ℕ} {e : K × V}

theorem dist_eq (he : h.keyValue i = some e) :
    dist hash h i = offset h.nBuckets i (bucketHash hash h e.1) := by
  rw [dist, he]
  rfl

theorem bucketHash_congr (hs : SameShape h' h) (key : K) :
    bucketHash hash h' key = bucketHash hash h key := by
  rw [bucketHash, bucketHash, hs.hashKey, hs.nBuckets]

theorem dist_congr (hs : SameShape h' h) (hkv : h'.keyValue i = h.keyValue i) :
    dist hash h' i = dist hash h i := by
  cases he : h.keyValue i with
  | none => rw [dist, dist, hkv, he, Option.elim_none, Option.elim_none]
  | some e => rw [dist_eq (hkv.trans he), dist_eq he, bucketHash_congr hs, hs.nBuckets]

namespace Table

variable (ht : Table hash h)

include ht

theorem home_lt (key : K) : bucketHash hash h key < h.nBuckets := Nat.mod_lt _ ht.pos

theorem ne_put (hi : i < h.nBuckets) : i ≠ IDX_PUT := (hi.trans_le ht.le).ne

theorem ne_tmp (hi : i < h.nBuckets) : i ≠ IDX_TMP := by
  have := hi.trans_le ht.le
  rw [idx_tmp_eq]
  omega

theorem ne_nil (hi : i < h.nBuckets) : i ≠ IDX_NIL := by
  have := hi.trans_le ht.le
  rw [idx_nil_eq]
  omega

theorem entry (hi : i < h.nBuckets) (hfree : h.dibs i ≠ DIB_RAW_FREE) :
    ∃ e, h.keyValue i = some e :=
  Option.ne_none_iff_exists'.mp fun hnone => hfree ((ht.empty i hi).mp hnone)

theorem place_dist (hi : i < h.nBuckets) (he : h.keyValue i = some e) :
    place h.nBuckets (bucketHash hash h e.1) (dist hash h i) = i := by
  rw [dist_eq he]
  exact place_offset hi (ht.home_lt e.1)

theorem dist_lt (hi : i < h.nBuckets) : dist hash h i < h.nBuckets := by
  cases he : h.keyValue i with
  | none => simpa [dist, he] using ht.pos
  | some e =>
    rw [dist_eq he]
    exact offset_lt hi (ht.home_lt e.1)

/-- The distance is computed right, also where the byte for it overflows. -/
theorem calculate (hi : i < h.nBuckets) (hocc : Occupied h i) :
    bucketCalculateDib hash h i (h.dibs i) = some (dist hash h i) := by
  obtain ⟨e, he⟩ := ht.entry hi hocc.1
  have hraw := ht.raw i hi hocc
  rw [bucketCalculateDib, if_neg hocc.1]
  split_ifs with hlt
  · rw [hraw] at hlt ⊢
    have hmin : min (dist hash h i) DIB_RAW_OVERFLOW = dist hash h i := by omega
    rw [hmin]
  · rw [he, Option.map_some, dist, he]
    rfl

end Table

/-- What is behind the buckets does not matter. -/
theorem Table.congr (ht : Table hash h) (hs : SameShape h' h)
    (hdibs : ∀ i < h.nBuckets, h'.dibs i = h.dibs i)
    (hkv : ∀ i < h.nBuckets, h'.keyValue i = h.keyValue i) : Table hash h' := by
  have hm := hs.nBuckets
  have hocc : ∀ i < h.nBuckets, (Occupied h' i ↔ Occupied h i) := fun i hi => by
    rw [Occupied, Occupied, hdibs i hi]
  refine ⟨hm ▸ ht.pos, hm ▸ ht.le, fun i hi => ?_, fun i hi hocci => ?_, ?_⟩
  · rw [hm] at hi
    rw [hkv i hi, hdibs i hi]
    exact ht.empty i hi
  · rw [hm] at hi
    rw [hdibs i hi, dist_congr hs (hkv i hi)]
    exact ht.raw i hi ((hocc i hi).mp hocci)
  · rw [hm]
    exact ht.probed.congr ht.pos hocc fun i hi _ => dist_congr hs (hkv i hi)

/-- An entry is put at a distance from its home. -/
structure PutAt (h' h : OrderedHashmap K V HashKey) (idx distance : ℕ) (e : K × V) : Prop where
  shape : SameShape h' h
  dibs : h'.dibs = Function.update h.dibs idx (min distance DIB_RAW_OVERFLOW)
  here : h'.keyValue idx = some e
  elsewhere : ∀ i < h.nBuckets, i ≠ idx → h'.keyValue i = h.keyValue i

namespace PutAt

variable {distance : ℕ} (hput : PutAt h' h idx distance e)

include hput

theorem dibs_self : h'.dibs idx = min distance DIB_RAW_OVERFLOW := by
  rw [hput.dibs, Function.update_self]

theorem dibs_of_ne (hi : i ≠ idx) : h'.dibs i = h.dibs i := by
  rw [hput.dibs, Function.update_of_ne hi]

theorem dibs_lt : h'.dibs idx < DIB_RAW_REHASH := by
  rw [hput.dibs_self]
  exact lt_of_le_of_lt (min_le_right _ _) (by decide)

theorem occupied_self : Occupied h' idx :=
  ⟨(hput.dibs_lt.trans (by decide)).ne, hput.dibs_lt.ne⟩

theorem occupied_iff (i : ℕ) : Occupied h' i ↔ Occupied h i ∨ i = idx := by
  by_cases hi : i = idx
  · subst hi
    exact ⟨fun _ => Or.inr rfl, fun _ => hput.occupied_self⟩
  · rw [Occupied, Occupied, hput.dibs_of_ne hi]
    exact ⟨Or.inl, fun h => h.resolve_right hi⟩

variable (ht : Table hash h) (hidx : idx < h.nBuckets)
  (hplace : idx = place h.nBuckets (bucketHash hash h e.1) distance)
  (hdistance : distance < h.nBuckets)

include ht hplace hdistance

theorem dist_self : dist hash h' idx = distance := by
  rw [dist_eq hput.here, bucketHash_congr hput.shape, hput.shape.nBuckets]
  conv_lhs => rw [hplace]
  exact offset_place (ht.home_lt e.1) hdistance

theorem dist_update (hi : i < h.nBuckets) :
    dist hash h' i = Function.update (dist hash h) idx distance i := by
  by_cases hne : i = idx
  · rw [hne, Function.update_self]
    exact hput.dist_self ht hplace hdistance
  · rw [Function.update_of_ne hne]
    exact dist_congr hput.shape (hput.elsewhere i hi hne)

theorem table_of_probed (hprobed : Probed h.nBuckets (fun i => Occupied h i ∨ i = idx)
      (Function.update (dist hash h) idx distance)) : Table hash h' := by
  have hocc := hput.occupied_iff
  have hdist : ∀ i < h.nBuckets, dist hash h' i = Function.update (dist hash h) idx distance i :=
    fun i hi => hput.dist_update ht hplace hdistance hi
  have hm := hput.shape.nBuckets
  refine ⟨hm ▸ ht.pos, hm ▸ ht.le, fun i hi => ?_, fun i hi hocci => ?_, ?_⟩
  · rw [hm] at hi
    by_cases hne : i = idx
    · rw [hne, hput.here]
      exact ⟨fun hnone => absurd hnone (by simp), fun hfree => absurd hfree hput.occupied_self.1⟩
    · rw [hput.elsewhere i hi hne, hput.dibs_of_ne hne]
      exact ht.empty i hi
  · rw [hm] at hi
    rw [hdist i hi]
    by_cases hne : i = idx
    · rw [hne, Function.update_self, hput.dibs_self]
    · rw [Function.update_of_ne hne, hput.dibs_of_ne hne]
      exact ht.raw i hi (((hocc i).mp hocci).resolve_right hne)
  · rw [hm]
    exact hprobed.congr ht.pos (fun i _ => hocc i) fun i hi _ => hdist i hi

/-- Where the place has no settled entry, or a wealthier one, the table stays one. -/
theorem table (hpassed : Passed h.nBuckets (Occupied h) (dist hash h) (bucketHash hash h e.1)
      distance) (hricher : Occupied h idx → dist hash h idx < distance) : Table hash h' := by
  have hprobed := ht.probed.put ht.pos (ht.home_lt e.1) hdistance hpassed (hplace ▸ hricher)
  rw [← hplace] at hprobed
  exact hput.table_of_probed ht hplace hdistance hprobed

end PutAt

end Tables

end Vdev.Hashmap
