import Vdev.HashmapOperations

/-!
The iteration over an ordered hash map. It may remove the current entry, which can
shift the next one back by a bucket; the iterator finds it again by its key. An
iteration visits every entry once, in the order of the list, and only what it
removes is missing behind it.
-/
namespace Vdev.Hashmap

open CircularProbing IndexRings

variable {K V HashKey : Type*} {hash : HashKey → K → ℕ} {h h' : OrderedHashmap K V HashKey}
  {l before rest : List (K × V)} {e : K × V} {idx : ℕ}

section Links

/-- The head of the list is the bucket of the first entry. -/
theorem Represents.head (hr : Represents hash h l) :
    match l with
    | [] => h.iterateListHead = IDX_NIL
    | e :: _ => h.iterateListHead < h.nBuckets ∧ h.keyValue h.iterateListHead = some e := by
  obtain ⟨L, hring, -, hmem, hmap⟩ := hr.linked
  cases l with
  | nil =>
    obtain rfl := List.map_eq_nil_iff.mp hmap
    exact nextOf_nil.symm.trans hring.next_header_nil
  | cons e l =>
    obtain ⟨j, L, rfl, hkv, -⟩ := List.map_eq_cons_iff.mp hmap
    have hhead : h.iterateListHead = j := nextOf_nil.symm.trans hring.next_header
    rw [hhead]
    exact ⟨(((hmem j).mp List.mem_cons_self).resolve_right And.left).1, hkv⟩

/-- Behind the bucket of an entry comes the bucket of the next one. -/
theorem Represents.next (hr : Represents hash h (before ++ e :: rest)) (hidx : idx < h.nBuckets)
    (he : h.keyValue idx = some e) :
    match rest with
    | [] => h.iterateNext idx = IDX_NIL
    | e' :: _ => h.iterateNext idx < h.nBuckets ∧ h.keyValue (h.iterateNext idx) = some e' := by
  obtain ⟨L, hring, -, hmem, hmap⟩ := hr.linked
  rw [List.map_append, List.map_cons] at hmap
  obtain ⟨pre, L', rfl, -, hL'⟩ := List.map_eq_append_iff.mp hmap
  obtain ⟨j, post, rfl, hkv, hpost⟩ := List.map_eq_cons_iff.mp hL'
  have hlt : ∀ i ∈ pre ++ j :: post, i < h.nBuckets := fun i hi =>
    (((hmem i).mp hi).resolve_right And.left).1
  obtain rfl := hr.eq_of_keyValue hidx (hlt j (by simp)) he hkv
  have hnext : h.iterateNext idx = post.headD IDX_NIL :=
    (nextOf_of_ne (hr.table.ne_nil hidx)).symm.trans hring.next_eq
  cases rest with
  | nil =>
    obtain rfl := List.map_eq_nil_iff.mp hpost
    exact hnext
  | cons e' rest =>
    obtain ⟨j', post, rfl, hkv', -⟩ := List.map_eq_cons_iff.mp hpost
    rw [hnext]
    exact ⟨hlt j' (by simp), hkv'⟩

end Links

section Sweep

variable [DecidableEq K] (hash)

/-- The loop of `HASHMAP_FOREACH`, whose body removes the current entry if it is doomed,
with the entries it has visited. -/
def sweep (doomed : K × V → Bool) : ℕ → OrderedHashmap K V HashKey → Iterator K →
    Option (OrderedHashmap K V HashKey × List (K × V))
  | 0, _, _ => none
  | fuel + 1, h, i =>
    match hashmapIterate h i with
    | none => none
    | some (none, _) => some (h, [])
    | some (some e, i') =>
      match if doomed e then (hashmapRemove hash h e.1).map Prod.fst else some h with
      | none => none
      | some h' => (sweep doomed fuel h' i').map fun (h'', visited) => (h'', e :: visited)

end Sweep

section Iterators

/-- The iterator is before the rest of the entries, at the bucket of the first one. -/
def Exact (h : OrderedHashmap K V HashKey) (i : Iterator K) : List (K × V) → Prop
  | [] => i.idx = IDX_NIL
  | e :: _ => i.nextKey = some e.1 ∧ i.idx < h.nBuckets ∧ h.keyValue i.idx = some e

/-- The iterator is before the rest of the entries, or one bucket too far. -/
def At (h : OrderedHashmap K V HashKey) (i : Iterator K) : List (K × V) → Prop
  | [] => i.idx = IDX_NIL
  | e :: _ => i.nextKey = some e.1 ∧ i.idx < h.nBuckets ∧
      (h.keyValue i.idx = some e ∨ h.keyValue (prevIdx h i.idx) = some e)

variable {i : Iterator K}

theorem Exact.at (hexact : Exact h i rest) : At h i rest := by
  cases rest with
  | nil => exact hexact
  | cons e rest => exact ⟨hexact.1, hexact.2.1, Or.inl hexact.2.2⟩

/-- A removal of another entry leaves the iterator before the same entries. -/
theorem Exact.removed (hexact : Exact h i rest) (hm : h'.nBuckets = h.nBuckets)
    (he : h.keyValue idx = some e) (hout : e ∉ rest)
    (hmoved : ∀ j < h.nBuckets, j ≠ idx → h.keyValue j ≠ none →
      h'.keyValue j = h.keyValue j ∨ h'.keyValue (prevIdx h j) = h.keyValue j) :
    At h' i rest := by
  cases rest with
  | nil => exact hexact
  | cons e' rest =>
    obtain ⟨hkey, hlt, hkv⟩ := hexact
    have hne : i.idx ≠ idx := fun heq => by
      rw [heq, he] at hkv
      exact hout (Option.some.inj hkv ▸ List.mem_cons_self)
    have hprev : prevIdx h' i.idx = prevIdx h i.idx := by rw [prevIdx, prevIdx, hm]
    refine ⟨hkey, hm ▸ hlt, ?_⟩
    rw [hprev, ← hkv]
    exact hmoved i.idx hlt hne (by simp [hkv])

/-- From the bucket of an entry, the iterator comes to stand before those behind it. -/
theorem Represents.iterateFrom (hr : Represents hash h (before ++ e :: rest))
    (hidx : idx < h.nBuckets) (he : h.keyValue idx = some e) (i : Iterator K) :
    ∃ i', iterateFrom h i idx = some (idx, i') ∧ Exact h i' rest := by
  have hnext := hr.next hidx he
  rw [Hashmap.iterateFrom]
  cases rest with
  | nil =>
    rw [if_neg (not_not.mpr hnext)]
    exact ⟨_, rfl, rfl⟩
  | cons e' rest =>
    obtain ⟨hlt, hkv⟩ := hnext
    rw [if_pos (hr.table.ne_nil hlt), hkv]
    exact ⟨_, rfl, rfl, hlt, hkv⟩

variable [DecidableEq K]

/-- A step returns the next entry. -/
theorem Represents.iterate (hr : Represents hash h (before ++ e :: rest))
    (hat : At h i (e :: rest) ∨ i.idx = IDX_FIRST ∧ before = []) :
    ∃ i', hashmapIterate h i = some (some e, i') ∧ Exact h i' rest := by
  have hle := hr.table.le
  have hnil : ∀ j < h.nBuckets, j ≠ IDX_NIL := fun j => hr.table.ne_nil
  obtain ⟨idx, hidx, he, hstep⟩ : ∃ idx < h.nBuckets, h.keyValue idx = some e ∧
      iterateInInsertionOrder h i = Hashmap.iterateFrom h i idx := by
    rw [iterateInInsertionOrder]
    rcases hat with ⟨hkey, hlt, hwhere⟩ | ⟨hfirst, rfl⟩
    · obtain ⟨idx, hidx, hcomp, he⟩ := hr.compensateShift rfl hlt hwhere
      have hne : i.idx ≠ IDX_FIRST := by
        rw [idx_first_eq]
        omega
      refine ⟨idx, hidx, he, ?_⟩
      rw [if_neg (hnil _ hlt), if_neg fun hand => hne hand.1, if_neg hne, hkey, hcomp]
      rfl
    · obtain ⟨hlt, he⟩ := hr.head
      have hfn : IDX_FIRST ≠ IDX_NIL := by
        rw [idx_first_eq, idx_nil_eq]
        omega
      refine ⟨_, hlt, he, ?_⟩
      rw [hfirst, if_neg hfn, if_neg fun hand => hnil _ hlt hand.2, if_pos rfl]
  obtain ⟨i', hfrom, hat'⟩ := hr.iterateFrom hidx he i
  refine ⟨i', ?_, hat'⟩
  rw [hashmapIterate, hstep, hfrom]
  simp only [hnil idx hidx, if_false, he, Option.map_some]

/-- At the end there is no entry. -/
theorem Represents.iterate_end (hr : Represents hash h l)
    (hat : At h i [] ∨ i.idx = IDX_FIRST ∧ l = []) :
    ∃ i', hashmapIterate h i = some (none, i') := by
  rw [hashmapIterate, iterateInInsertionOrder]
  by_cases hnil : i.idx = IDX_NIL
  · rw [if_pos hnil]
    exact ⟨_, rfl⟩
  · obtain ⟨hfirst, rfl⟩ := hat.resolve_left hnil
    rw [if_neg hnil, if_pos ⟨hfirst, hr.head⟩]
    exact ⟨_, rfl⟩

/-- An iteration visits what is left, and keeps what is not doomed. -/
theorem Represents.sweepFrom (doomed : K × V → Bool) {kept : List (K × V)} {fuel : ℕ}
    (hr : Represents hash h (kept ++ rest))
    (hat : At h i rest ∨ i.idx = IDX_FIRST ∧ kept = []) (hfuel : rest.length < fuel) :
    ∃ h', sweep hash doomed fuel h i = some (h', rest) ∧
      Represents hash h' (kept ++ rest.filter fun e => !doomed e) := by
  induction fuel generalizing h i kept rest with
  | zero => exact absurd hfuel (Nat.not_lt_zero _)
  | succ fuel ih =>
    rw [Hashmap.sweep]
    cases rest with
    | nil =>
      obtain ⟨i', hiterate⟩ := hr.iterate_end (hat.imp id fun hfirst => by simp [hfirst])
      simp only [hiterate]
      exact ⟨h, rfl, hr⟩
    | cons e rest =>
      obtain ⟨i', hiterate, hexact⟩ := hr.iterate hat
      have hlt : rest.length < fuel := Nat.lt_of_succ_lt_succ hfuel
      simp only [hiterate]
      cases hdoomed : doomed e with
      | true =>
        rcases hr.lookup e.1 with ⟨idx, hidx, value, he, hscan, hmem, -⟩ | ⟨-, hne, -⟩
        · have heq := hr.eq_of_key hmem (by simp : e ∈ kept ++ e :: rest) rfl
          rw [heq] at he
          obtain ⟨h₁, hrun, hr₁, -, hsame, hmoved⟩ := hr.removed hidx he
          have hout : e ∉ rest := fun hin => by
            have hnodup := hr.keys.of_map
            rw [List.nodup_middle, List.nodup_cons] at hnodup
            exact hnodup.1 (List.mem_append_right _ hin)
          have hat₁ := hexact.removed hsame.2.2 he hout hmoved
          rw [withoutKey_split hr.keys] at hr₁
          obtain ⟨h', hsweep, hr'⟩ := ih hr₁ (Or.inl hat₁) hlt
          refine ⟨h', ?_, ?_⟩
          · simp only [hashmapRemove, hscan, he, hrun, if_true, Option.map_some, hsweep]
          · rwa [List.filter_cons_of_neg (by simp [hdoomed])]
        · exact absurd rfl (hne e (by simp))
      | false =>
        rw [List.append_cons] at hr
        obtain ⟨h', hsweep, hr'⟩ := ih hr (Or.inl hexact.at) hlt
        refine ⟨h', ?_, ?_⟩
        · simp only [Bool.false_eq_true, if_false, hsweep, Option.map_some]
        · rwa [List.filter_cons_of_pos (by simp [hdoomed]), List.append_cons]

theorem Represents.sweep (hr : Represents hash h l) (doomed : K × V → Bool) :
    ∃ h', sweep hash doomed (l.length + 1) h {} = some (h', l) ∧
      Represents hash h' (l.filter fun e => !doomed e) := by
  have hfirst : At h ({} : Iterator K) l ∨ ({} : Iterator K).idx = IDX_FIRST ∧
      ([] : List (K × V)) = [] := Or.inr ⟨rfl, rfl⟩
  exact Represents.sweepFrom doomed (by rwa [List.nil_append]) hfirst (Nat.lt_succ_self _)

end Iterators

section Runs

variable [DecidableEq K] [DecidableEq V] (hash)

def visited (h : OrderedHashmap K V HashKey) : Option (List (K × V)) :=
  (sweep hash (fun _ => false) (h.nEntries + 1) h {}).map Prod.snd

variable {hash}

omit [DecidableEq V] in
theorem Represents.visited (hr : Represents hash h l) : visited hash h = some l := by
  obtain ⟨h', hsweep, -⟩ := hr.sweep fun _ => false
  rw [Hashmap.visited, hr.nEntries, hsweep]
  rfl

variable (hash)

/-- Through every run, the hash map behaves as the list of its entries in the order
of their insertion, and an iteration shows this list. -/
theorem run_refines_list (sharedHashKey : HashKey) (ops : List (Operation K V HashKey))
    (hbounded : Bounded [] ops) :
    ∃ h rs l, run hash (hashmapNew sharedHashKey) ops = some (h, rs) ∧ AllowedRun [] ops rs l ∧
      visited hash h = some l ∧ h.nEntries = l.length := by
  obtain ⟨h, rs, l, hrun, hallowed, hr⟩ := (represents_new hash sharedHashKey).run hbounded
  exact ⟨h, rs, l, hrun, hallowed, hr.visited, hr.nEntries⟩

/-- Two puts, the second of which moves the map to indirect storage. -/
theorem run_refines_list_two :
    ∃ h rs l, run (fun k n : ℕ => k + n) (hashmapNew 3)
        [.put 5 1 ⟨true, 7⟩, .put 6 2 ⟨true, 7⟩] = some (h, rs) ∧
      AllowedRun [] [.put 5 1 (⟨true, 7⟩ : Resources ℕ), .put 6 2 ⟨true, 7⟩] rs l ∧
      visited (fun k n : ℕ => k + n) h = some l ∧ h.nEntries = l.length :=
  run_refines_list _ 3 _ (bounded_of_length (by decide))

/-- After every run, an iteration that removes some of its entries visits each entry once,
in order, and leaves the others in their order. -/
theorem sweep_keeps_others (sharedHashKey : HashKey) (ops : List (Operation K V HashKey))
    (hbounded : Bounded [] ops) (doomed : K × V → Bool) :
    ∃ h rs l h', run hash (hashmapNew sharedHashKey) ops = some (h, rs) ∧
      AllowedRun [] ops rs l ∧ sweep hash doomed (l.length + 1) h {} = some (h', l) ∧
      visited hash h' = some (l.filter fun e => !doomed e) := by
  obtain ⟨h, rs, l, hrun, hallowed, hr⟩ := (represents_new hash sharedHashKey).run hbounded
  obtain ⟨h', hsweep, hr'⟩ := hr.sweep doomed
  exact ⟨h, rs, l, h', hrun, hallowed, hsweep, hr'.visited⟩

/-- Of two entries, the one with the odd key is removed in passing. -/
theorem sweep_keeps_others_two :
    ∃ h rs l h', run (fun k n : ℕ => k + n) (hashmapNew 3)
        [.put 5 1 ⟨true, 7⟩, .put 6 2 ⟨true, 7⟩] = some (h, rs) ∧
      AllowedRun [] [.put 5 1 (⟨true, 7⟩ : Resources ℕ), .put 6 2 ⟨true, 7⟩] rs l ∧
      sweep (fun k n : ℕ => k + n) (fun e => e.1 % 2 = 1) (l.length + 1) h {} = some (h', l) ∧
      visited (fun k n : ℕ => k + n) h' = some (l.filter fun e => !decide (e.1 % 2 = 1)) :=
  sweep_keeps_others _ 3 _ (bounded_of_length (by decide)) _

end Runs

end Vdev.Hashmap
