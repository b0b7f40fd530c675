import Vdev.Transfers
import Vdev.UeventBuffer

/-!
`vdev_portable_scandirat` (libvdev/util.c), over entries of any type. The end of the stream is
looked for before the error number, so a read that fails ends the loop like the end of the
directory does, with a positive number where an error would be negative. The listing grows by
doubling and has a place for a null pointer behind its entries.
-/
namespace Vdev.DirectoryScan

open CString
open Transfers (ErrorNumber)
open UeventBuffer (asInt asInt_of_lt)

variable {δ : Type}

/-- What `readdir_r` delivers: some entries, and then the end of the directory or an error. -/
structure DirStream (δ : Type) where
  entries : List δ
  failure : Option ErrorNumber

/-- A comparison function as `qsort` requires it. -/
structure Compar (δ : Type) where
  cmp : δ → δ → Int
  total : ∀ a b, cmp a b ≤ 0 ∨ cmp b a ≤ 0
  trans : ∀ a b c, cmp a b ≤ 0 → cmp b c ≤ 0 → cmp a c ≤ 0

/-- `qsort`. The order of entries that compare equal is not specified. -/
structure QSort (δ : Type) where
  sort : Compar δ → List δ → List δ
  perm : ∀ c l, (sort c l).Perm l
  sorted : ∀ c l, (sort c l).Pairwise (fun a b => c.cmp a b ≤ 0)

/-- Whether `realloc` and `calloc` succeed for the entry with an index. -/
structure Alloc where
  grow : ℕ → Bool
  dup : ℕ → Bool

def sizeofDirent : ℕ := 280

def sizeofPointer : ℕ := 8

/-- The entries that are listed, the capacity that the code counts, the pointers for which the
buffer has room, and what the calls of `realloc` and `calloc` have come to. -/
structure Listing (δ : Type) where
  names : List δ
  capacity : ℕ
  room : ℕ
  allocs : List Bool

def Listing.empty : Listing δ := ⟨[], 0, 0, []⟩

/-- How an iteration that takes an entry ends: the next one follows, memory has run out, or a
pointer was written behind the buffer. -/
inductive Insertion (δ : Type)
  | stored (l : Listing δ)
  | outOfMemory (l : Listing δ)
  | outside

/-- The capacity after `num_dirents_capacity` was doubled. -/
def doubled (capacity : ℕ) : ℕ := 2 * if capacity = 0 then 1 else capacity

/-- The capacity is doubled when it is used up. With `none` memory has run out. -/
def increase (alloc : Alloc) (l : Listing δ) : Listing δ × Bool :=
  if l.capacity ≤ l.names.length then
    if alloc.grow l.names.length then
      ({ l with
          capacity := doubled l.capacity
          room := (doubled l.capacity + 1) * sizeofDirent / sizeofPointer
          allocs := l.allocs ++ [true] }, true)
    else ({ l with allocs := l.allocs ++ [false] }, false)
  else (l, true)

/-- The entry is duplicated and put into the buffer, with a null pointer behind it. -/
def duplicate (alloc : Alloc) (d : δ) (l : Listing δ) : Insertion δ :=
  if alloc.dup l.names.length then
    if l.names.length + 1 < l.room then
      .stored { l with names := l.names ++ [d], allocs := l.allocs ++ [true] }
    else .outside
  else .outOfMemory { l with allocs := l.allocs ++ [false] }

def insert (alloc : Alloc) (d : δ) (l : Listing δ) : Insertion δ :=
  match increase alloc l with
  | (l, false) => .outOfMemory l
  | (l, true) => duplicate alloc d l

def accepts (filter : Option (δ → Int)) (d : δ) : Bool :=
  match filter with
  | none => true
  | some f => f d ≠ 0

/-- What the last call of `readdir_r` returns. -/
def endRc (failure : Option ErrorNumber) : Int := failure.elim 0 (fun e => (e.val : Int))

/-- The loop of `vdev_portable_scandirat`, with the `rc` that it leaves behind. It has no result
when it writes outside of the buffer. -/
def scanLoop (alloc : Alloc) (filter : Option (δ → Int)) (failure : Option ErrorNumber) :
    List δ → Listing δ → Option (Int × Listing δ)
  | [], l => some (endRc failure, l)
  | d :: rest, l =>
    if accepts filter d then
      match insert alloc d l with
      | .stored l => scanLoop alloc filter failure rest l
      | .outOfMemory l => some (Errno.enomem.rc, l)
      | .outside => none
    else scanLoop alloc filter failure rest l

/-- What the function returns, the list that it hands out, and what the calls of `realloc` and
`calloc` came to. -/
structure Result (δ : Type) where
  rc : Int
  namelist : Option (List δ)
  allocs : List Bool

/-- `vdev_portable_scandirat`. The directory is opened, or `openat` or `fdopendir` fails. -/
def portableScandirat (qsort : QSort δ) (alloc : Alloc) (filter : Option (δ → Int))
    (compar : Option (Compar δ)) (dir : Except ErrorNumber (DirStream δ)) : Option (Result δ) :=
  match dir with
  | .error e => some ⟨-e.val, none, []⟩
  | .ok s =>
    (scanLoop alloc filter s.failure s.entries .empty).map fun (rc, l) =>
      if rc < 0 then ⟨rc, none, l.allocs⟩
      else ⟨asInt l.names.length, some (compar.elim l.names (qsort.sort · l.names)), l.allocs⟩

def accepted (filter : Option (δ → Int)) (s : DirStream δ) : List δ :=
  s.entries.filter (accepts filter)

/-- The function returns a number that is not negative exactly when the stream has ended normally
and all its allocations have succeeded, and then the list has that many entries, the accepted ones
in order. -/
def Complete (qsort : QSort δ) (alloc : Alloc) (filter : Option (δ → Int))
    (compar : Option (Compar δ)) (s : DirStream δ) : Prop :=
  ∃ r, portableScandirat qsort alloc filter compar (.ok s) = some r ∧
    (0 ≤ r.rc ↔ s.failure = none ∧ ∀ a ∈ r.allocs, a = true) ∧
    (0 ≤ r.rc → ∃ names, r.namelist = some names ∧ (names.length : Int) = r.rc ∧
      names.Perm (accepted filter s) ∧
      ∀ c, compar = some c → names.Pairwise (fun a b => c.cmp a b ≤ 0))

def capacityAt : ℕ → ℕ
  | 0 => 0
  | i + 1 => if capacityAt i ≤ i then doubled (capacityAt i) else capacityAt i

def FailsAt (alloc : Alloc) (i : ℕ) : Prop :=
  alloc.dup i = false ∨ (capacityAt i ≤ i ∧ alloc.grow i = false)

instance (alloc : Alloc) (i : ℕ) : Decidable (FailsAt alloc i) :=
  inferInstanceAs (Decidable (_ ∨ _))

/-- One of the allocations for the entries from `m` on, but before `n`, fails. -/
def RunsOut (alloc : Alloc) (m n : ℕ) : Prop := ∃ i, m ≤ i ∧ i < n ∧ FailsAt alloc i

structure Fits (l : Listing δ) : Prop where
  capacity : l.capacity = capacityAt l.names.length
  le : l.names.length ≤ l.capacity
  room : l.capacity ≠ 0 → l.capacity < l.room

section Inserting

variable (alloc : Alloc)

theorem Fits.empty : Fits (Listing.empty : Listing δ) where
  capacity := rfl
  le := le_rfl
  room := fun h => absurd rfl h

/-- The capacity is large enough for another entry, unless memory has run out. -/
theorem increase_spec {l : Listing δ} (h : Fits l) :
    (increase alloc l = ({ l with allocs := l.allocs ++ [false] }, false) ∧
      FailsAt alloc l.names.length) ∨
    ∃ capacity room more, increase alloc l = (⟨l.names, capacity, room, l.allocs ++ more⟩, true) ∧
      capacity = capacityAt (l.names.length + 1) ∧ l.names.length < capacity ∧ capacity < room ∧
      (∀ a ∈ more, a = true) ∧
      (capacityAt l.names.length ≤ l.names.length → alloc.grow l.names.length = true) := by
  have hcap := h.capacity
  have hle := h.le
  unfold increase
  by_cases hfull : l.capacity ≤ l.names.length
  · rw [if_pos hfull]
    cases hgrow : alloc.grow l.names.length with
    | false => exact Or.inl ⟨rfl, Or.inr ⟨hcap ▸ hfull, hgrow⟩⟩
    | true =>
      refine Or.inr ⟨_, _, [true], rfl, ?_, ?_, ?_, by simp, fun _ => rfl⟩
      · rw [capacityAt, if_pos (hcap ▸ hfull), ← hcap]
      · unfold doubled
        split_ifs <;> omega
      · unfold sizeofDirent sizeofPointer
        omega
  · rw [if_neg hfull]
    refine Or.inr ⟨l.capacity, l.room, [], by rw [List.append_nil], ?_, by omega,
      h.room (by omega), by simp, fun hle => absurd (hcap ▸ hle) hfull⟩
    rw [capacityAt, if_neg (by omega), hcap]

/-- An entry is listed, within the buffer, or memory has run out. -/
theorem insert_spec {l : Listing δ} (d : δ) (h : Fits l) :
    (FailsAt alloc l.names.length ∧
      ∃ l', insert alloc d l = .outOfMemory l' ∧ false ∈ l'.allocs) ∨
    (¬FailsAt alloc l.names.length ∧
      ∃ l', insert alloc d l = .stored l' ∧ Fits l' ∧ l'.names = l.names ++ [d] ∧
        ∀ a ∈ l'.allocs, a ∈ l.allocs ∨ a = true) := by
  unfold insert
  rcases increase_spec alloc h with
    ⟨hincrease, hfails⟩ | ⟨capacity, room, more, hincrease, hcap, hlt, hroom, hmore, hgrow⟩
  · rw [hincrease]
    exact Or.inl ⟨hfails, _, rfl, by simp⟩
  · rw [hincrease]
    dsimp only
    unfold duplicate
    cases hdup : alloc.dup l.names.length with
    | false => exact Or.inl ⟨Or.inl hdup, _, rfl, by simp⟩
    | true =>
      have hlen : (l.names ++ [d]).length = l.names.length + 1 := by simp
      refine Or.inr ⟨?_, _, by rw [if_pos rfl]; exact if_pos (by dsimp only; omega), ?_, rfl, ?_⟩
      · rintro (hfalse | ⟨hfull, hfalse⟩)
        · rw [hdup] at hfalse
          cases hfalse
        · rw [hgrow hfull] at hfalse
          cases hfalse
      · exact ⟨by rw [hlen]; exact hcap, by rw [hlen]; exact hlt, fun _ => hroom⟩
      · intro a ha
        rcases List.mem_append.mp ha with ha | ha
        · rcases List.mem_append.mp ha with ha | ha
          · exact Or.inl ha
          · exact Or.inr (hmore a ha)
        · exact Or.inr (List.mem_singleton.mp ha)

end Inserting

section Scanning

variable (alloc : Alloc) (filter : Option (δ → Int)) (failure : Option ErrorNumber)

theorem runsOut_step (i n : ℕ) :
    RunsOut alloc i (i + (n + 1)) ↔ FailsAt alloc i ∨ RunsOut alloc (i + 1) (i + 1 + n) := by
  constructor
  · rintro ⟨j, hle, hlt, hfails⟩
    rcases Nat.eq_or_lt_of_le hle with rfl | hlt'
    · exact Or.inl hfails
    · exact Or.inr ⟨j, hlt', by omega, hfails⟩
  · rintro (hfails | ⟨j, hle, hlt, hfails⟩)
    · exact ⟨i, le_rfl, by omega, hfails⟩
    · exact ⟨j, by omega, by omega, hfails⟩

/-- The loop lists the entries that are accepted, or ends when memory has run out for one of
them. -/
theorem scanLoop_spec (entries : List δ) (l : Listing δ) (h : Fits l)
    (hallocs : ∀ a ∈ l.allocs, a = true) :
    ∃ rc l', scanLoop alloc filter failure entries l = some (rc, l') ∧
      (¬RunsOut alloc l.names.length
          (l.names.length + (entries.filter (accepts filter)).length) →
        rc = endRc failure ∧ (∀ a ∈ l'.allocs, a = true) ∧
          l'.names = l.names ++ entries.filter (accepts filter)) ∧
      (RunsOut alloc l.names.length
          (l.names.length + (entries.filter (accepts filter)).length) →
        rc = Errno.enomem.rc ∧ false ∈ l'.allocs) := by
  induction entries generalizing l with
  | nil =>
    refine ⟨_, l, rfl, fun _ => ⟨rfl, hallocs, (List.append_nil _).symm⟩, fun hout => ?_⟩
    obtain ⟨i, hle, hlt, -⟩ := hout
    exact absurd hlt (not_lt.mpr hle)
  | cons d rest ih =>
    cases haccepts : accepts filter d with
    | false =>
      rw [scanLoop, if_neg (by rw [haccepts]; exact Bool.false_ne_true),
        List.filter_cons_of_neg (by rw [haccepts]; exact Bool.false_ne_true)]
      exact ih l h hallocs
    | true =>
      rw [scanLoop, if_pos haccepts, List.filter_cons_of_pos haccepts, List.length_cons,
        runsOut_step]
      rcases insert_spec alloc d h with
        ⟨hfails, l', hinsert, hfalse⟩ | ⟨hfails, l', hinsert, hfits, hnames, hmore⟩
      · rw [hinsert]
        exact ⟨_, l', rfl, fun hnot => absurd (Or.inl hfails) hnot, fun _ => ⟨rfl, hfalse⟩⟩
      · rw [hinsert]
        dsimp only
        have htrue : ∀ a ∈ l'.allocs, a = true := by
          intro a ha
          rcases hmore a ha with hold | hnew
          · exact hallocs a hold
          · exact hnew
        have hlen : l'.names.length = l.names.length + 1 := by
          rw [hnames]
          simp
        obtain ⟨rc, l'', hrun, hfull, hout⟩ := ih l' hfits htrue
        rw [hlen] at hfull hout
        refine ⟨rc, l'', hrun, fun hnot => ?_, fun hor => hout (hor.resolve_left hfails)⟩
        obtain ⟨hrc, hallocs', hnames'⟩ := hfull fun hout => hnot (Or.inr hout)
        refine ⟨hrc, hallocs', ?_⟩
        rw [hnames', hnames, List.append_assoc, List.singleton_append]

theorem endRc_nonneg : 0 ≤ endRc failure := by
  cases failure with
  | none => exact le_rfl
  | some e => exact Int.natCast_nonneg e.val

end Scanning

section Complete

variable (qsort : QSort δ) (alloc : Alloc) (filter : Option (δ → Int))
  (compar : Option (Compar δ)) (s : DirStream δ)

/-- The list that is handed out. -/
theorem sorted_perm (names : List δ) :
    (compar.elim names (qsort.sort · names)).Perm names := by
  cases compar with
  | none => exact List.Perm.refl names
  | some c => exact qsort.perm c names

/-- What the function returns when memory does not run out, however the stream ends. -/
theorem portableScandirat_full (h : ¬RunsOut alloc 0 (accepted filter s).length) :
    ∃ allocs, portableScandirat qsort alloc filter compar (.ok s) = some
        ⟨asInt (accepted filter s).length,
          some (compar.elim (accepted filter s) (qsort.sort · (accepted filter s))), allocs⟩ ∧
      ∀ a ∈ allocs, a = true := by
  obtain ⟨rc, l, hrun, hfull, -⟩ := scanLoop_spec alloc filter s.failure s.entries .empty Fits.empty
    (fun a ha => by cases ha)
  have hout : ¬RunsOut alloc (Listing.empty : Listing δ).names.length
      ((Listing.empty : Listing δ).names.length + (s.entries.filter (accepts filter)).length) := by
    intro hout
    exact h (by simpa [Listing.empty, accepted] using hout)
  obtain ⟨rfl, hallocs, hnames⟩ := hfull hout
  have haccepted : l.names = accepted filter s := hnames
  refine ⟨l.allocs, ?_, hallocs⟩
  rw [portableScandirat, hrun, Option.map_some]
  dsimp only
  rw [if_neg (not_lt.mpr (endRc_nonneg s.failure)), haccepted]

/-- What the function returns when memory runs out. -/
theorem portableScandirat_out (h : RunsOut alloc 0 (accepted filter s).length) :
    ∃ allocs, portableScandirat qsort alloc filter compar (.ok s) =
        some ⟨Errno.enomem.rc, none, allocs⟩ ∧ false ∈ allocs := by
  obtain ⟨rc, l, hrun, -, hout⟩ := scanLoop_spec alloc filter s.failure s.entries .empty Fits.empty
    (fun a ha => by cases ha)
  obtain ⟨rfl, hfalse⟩ := hout (by simpa [Listing.empty, accepted] using h)
  refine ⟨l.allocs, ?_, hfalse⟩
  rw [portableScandirat, hrun, Option.map_some]
  exact congrArg some (if_pos (by decide))

theorem asInt_eq_iff (n : ℕ) : (n : Int) = asInt n ↔ n < 2 ^ 31 := by
  refine ⟨fun h => ?_, fun h => (asInt_of_lt h).symm⟩
  unfold asInt at h
  rw [Int.bmod_def] at h
  omega

theorem asInt_nonneg_iff (n : ℕ) : 0 ≤ asInt n ↔ n % 2 ^ 32 < 2 ^ 31 := by
  unfold asInt
  rw [Int.bmod_def]
  omega

/-- A listing is reported as complete only when it is, if memory runs out or the stream ends
normally; that a read has failed is told only when the number of entries happens to be negative. -/
theorem complete_iff :
    Complete qsort alloc filter compar s ↔
      RunsOut alloc 0 (accepted filter s).length ∨
        if s.failure = none then (accepted filter s).length < 2 ^ 31
        else 2 ^ 31 ≤ (accepted filter s).length % 2 ^ 32 := by
  by_cases hout : RunsOut alloc 0 (accepted filter s).length
  · refine iff_of_true ?_ (Or.inl hout)
    obtain ⟨allocs, hrun, hfalse⟩ := portableScandirat_out qsort alloc filter compar s hout
    have hneg : ¬(0 : Int) ≤ Errno.enomem.rc := by decide
    refine ⟨_, hrun, iff_of_false hneg fun h => ?_, fun h => absurd h hneg⟩
    cases h.2 false hfalse
  · obtain ⟨allocs, hrun, htrue⟩ := portableScandirat_full qsort alloc filter compar s hout
    have hperm := sorted_perm qsort compar (accepted filter s)
    constructor
    · rintro ⟨r, hr, hiff, hlist⟩
      cases Option.some.inj (hrun.symm.trans hr)
      dsimp only at hiff hlist
      refine Or.inr ?_
      split_ifs with hfailure
      · obtain ⟨names, hnames, hlen, -⟩ := hlist (hiff.mpr ⟨hfailure, htrue⟩)
        cases Option.some.inj hnames
        rw [hperm.length_eq] at hlen
        exact (asInt_eq_iff (accepted filter s).length).mp hlen
      · have hneg : ¬0 ≤ asInt (accepted filter s).length := fun h => hfailure (hiff.mp h).1
        rw [asInt_nonneg_iff] at hneg
        omega
    · intro h
      have hcond := h.resolve_left hout
      refine ⟨_, hrun, ?_⟩
      dsimp only
      split_ifs at hcond with hfailure
      · have hint := (asInt_eq_iff (accepted filter s).length).mpr hcond
        have hpos : 0 ≤ asInt (accepted filter s).length := by
          rw [← hint]
          exact Int.natCast_nonneg _
        refine ⟨iff_of_true hpos ⟨hfailure, htrue⟩, fun _ => ⟨_, rfl, ?_, hperm, fun c hc => ?_⟩⟩
        · rw [hperm.length_eq]
          exact hint
        · subst hc
          exact qsort.sorted c _
      · have hneg : ¬0 ≤ asInt (accepted filter s).length := by
          rw [asInt_nonneg_iff]
          omega
        exact ⟨iff_of_false hneg fun h => hfailure h.1, fun h => absurd h hneg⟩

/-- An ordering by merging, which keeps the order of entries that compare equal. -/
def mergeQSort : QSort δ where
  sort := fun c l => l.mergeSort (fun a b => decide (c.cmp a b ≤ 0))
  perm := fun c l => List.mergeSort_perm l _
  sorted := by
    intro c l
    have htrans : ∀ x y z : δ, decide (c.cmp x y ≤ 0) = true → decide (c.cmp y z ≤ 0) = true →
        decide (c.cmp x z ≤ 0) = true := by
      intro x y z hxy hyz
      exact decide_eq_true (c.trans x y z (of_decide_eq_true hxy) (of_decide_eq_true hyz))
    have htotal : ∀ x y : δ, (decide (c.cmp x y ≤ 0) || decide (c.cmp y x ≤ 0)) = true := by
      intro x y
      simpa using c.total x y
    exact (List.pairwise_mergeSort htrans htotal l).imp (fun hle => of_decide_eq_true hle)

/-- Two entries are read, and then `readdir_r` returns `EIO`: the result is 2. -/
theorem not_complete :
    ¬∀ (qsort : QSort ℕ) (alloc : Alloc) (filter : Option (ℕ → Int))
      (compar : Option (Compar ℕ)) (s : DirStream ℕ), Complete qsort alloc filter compar s := by
  intro h
  obtain ⟨r, hr, hiff, -⟩ := h mergeQSort ⟨fun _ => true, fun _ => true⟩ none none
    ⟨[1, 2], some ⟨5, by decide⟩⟩
  cases Option.some.inj hr
  exact absurd (hiff.mp (by decide)).1 (by simp)

end Complete

end Vdev.DirectoryScan
