import Vdev.HashmapRemoval

/-!
The operations of an ordered hash map against a list of entries with distinct
keys. Through every run of operations that never has more than `MAX_ENTRIES`
entries, no assertion fails, no loop runs on, and the results are those of the
list: a put adds at its end, a replacement and an update keep the place, and a
removal leaves the others in their order. A resize that fails changes nothing.
-/
namespace Vdev.Hashmap

open CircularProbing IndexRings CString

variable {K V HashKey : Type*} {hash : HashKey → K → ℕ} {h h' : OrderedHashmap K V HashKey}
  {l : List (K × V)} {e : K × V} {idx : ℕ}

section Put

/-- With an entry behind it, the tail of the list is not its only link to the header. -/
theorem links_linkPut (htail : h.iterateListTail = IDX_NIL ↔ h.iterateListHead = IDX_NIL)
    (hlink : linkPut h = some h') :
    nextOf h' = Function.update (Function.update (nextOf h) IDX_PUT IDX_NIL)
        (prevOf h IDX_NIL) IDX_PUT ∧
      prevOf h' = Function.update (Function.update (prevOf h) IDX_PUT (prevOf h IDX_NIL))
        IDX_NIL IDX_PUT := by
  have hpn : IDX_PUT ≠ IDX_NIL := by
    rw [idx_nil_eq]
    omega
  rw [linkPut] at hlink
  rw [prevOf_nil]
  split_ifs at hlink with hempty
  · obtain rfl := Option.some.inj hlink
    constructor <;> funext i <;>
      simp only [nextOf, prevOf, linkNew, Function.update_apply, if_pos (htail.mp hempty),
        hempty] <;>
      split_ifs <;> simp_all
  · obtain rfl := Option.some.inj hlink
    constructor <;> funext i <;>
      simp only [nextOf, prevOf, linkNew, Function.update_apply, if_neg (mt htail.mpr hempty)] <;>
      split_ifs <;> simp_all

/-- The entry in the swap bucket is linked behind the last one. -/
theorem Linked.linkPut {P : ℕ → Prop} (hl : Linked h P l) (hput : ¬P IDX_PUT)
    (hin : h.keyValue IDX_PUT = some e) :
    ∃ h', linkPut h = some h' ∧ SameShape h' h ∧ h'.dibs = h.dibs ∧ h'.keyValue = h.keyValue ∧
      Linked h' (fun i => P i ∨ i = IDX_PUT) (l ++ [e]) := by
  obtain ⟨L, hring, hnodup, hmem, hmap⟩ := hl
  have hpn : IDX_PUT ≠ IDX_NIL := by
    rw [idx_nil_eq]
    omega
  have hback := hring.next_prev List.mem_cons_self
  have hforth := hring.prev_next List.mem_cons_self
  rw [prevOf_nil] at hback
  rw [nextOf_nil] at hforth
  have htail : h.iterateListTail = IDX_NIL ↔ h.iterateListHead = IDX_NIL := by
    constructor
    · intro heq
      rwa [heq, nextOf_nil] at hback
    · intro heq
      rwa [heq, prevOf_nil] at hforth
  have hsome : ∃ h', Hashmap.linkPut h = some h' ∧ SameShape h' h ∧ h'.dibs = h.dibs ∧
      h'.keyValue = h.keyValue := by
    rw [Hashmap.linkPut]
    by_cases hnil : h.iterateListTail = IDX_NIL
    · rw [if_pos hnil]
      exact ⟨_, rfl, ⟨rfl, rfl, rfl, rfl⟩, rfl, rfl⟩
    · rw [if_neg hnil, if_pos (nextOf_of_ne hnil ▸ hback)]
      exact ⟨_, rfl, ⟨rfl, rfl, rfl, rfl⟩, rfl, rfl⟩
  obtain ⟨h', hlink, hshape, hdibs, hkv⟩ := hsome
  have hout : IDX_PUT ∉ IDX_NIL :: L := by
    rw [List.mem_cons, not_or]
    exact ⟨hpn, fun hin' => hput ((hmem _).mp hin')⟩
  obtain ⟨hnext, hprev⟩ := links_linkPut htail hlink
  refine ⟨h', hlink, hshape, hdibs, hkv, L ++ [IDX_PUT], ?_, ?_, fun i => ?_, ?_⟩
  · rw [hnext, hprev]
    exact hring.append hnodup hout
  · rw [← List.cons_append]
    exact List.nodup_append.mpr ⟨hnodup, List.nodup_singleton _, fun x hx y hy heq =>
      hout (List.mem_singleton.mp hy ▸ heq ▸ hx)⟩
  · rw [List.mem_append, hmem, List.mem_singleton]
  · rw [hkv, List.map_append, List.map_append, hmap, List.map_cons, List.map_nil, hin]
    rfl

/-- A new entry is put in behind the others. -/
theorem Represents.putEntry (hr : Represents hash h l) {key : K} (value : V)
    (hloaded : Loaded h (l.length + 1)) (hfits : l.length < h.nBuckets)
    (hnew : ∀ e ∈ l, e.1 ≠ key) :
    ∃ h', putEntry hash (fillPut h key value) (bucketHash hash h key) = some h' ∧
      Represents hash h' (l ++ [(key, value)]) := by
  have hshape : SameShape (fillPut h key value) h := ⟨rfl, rfl, rfl, rfl⟩
  have hkv : ∀ i < h.nBuckets, (fillPut h key value).keyValue i = h.keyValue i := fun i hi =>
    Function.update_of_ne (hr.table.ne_put hi) _ _
  have hlinked : Linked (fillPut h key value) (InUse h False) l :=
    hr.linked.congr (fun _ _ => rfl) (fun _ _ => rfl) rfl rfl
      fun i hi => hkv i (hi.resolve_right And.left).1
  have hout : ¬InUse h False IDX_PUT := fun hi =>
    (hr.table.ne_put (hi.resolve_right And.left).1) rfl
  have hfilled : (fillPut h key value).keyValue IDX_PUT = some (key, value) :=
    Function.update_self IDX_PUT _ h.keyValue
  obtain ⟨h₁, hlink, hshape₁, hdibs₁, hkv₁, hlinked₁⟩ := hlinked.linkPut hout hfilled
  have hs := hshape₁.trans hshape
  have hdibs : h₁.dibs = h.dibs := hdibs₁
  have htable : Table hash h₁ := hr.table.congr hs (fun i _ => by rw [hdibs]) fun i hi => by
    rw [hkv₁, hkv i hi]
  have hin : h₁.keyValue IDX_PUT = some (key, value) := by
    rw [hkv₁, hfilled]
  have huse : ∀ i, InUse h₁ True i ↔ InUse h False i ∨ i = IDX_PUT := fun i => by
    simp [InUse, hdibs, hs.nBuckets]
  have hroom : ∃ f < h₁.nBuckets, ¬Occupied h₁ f := by
    obtain ⟨f, hf, hfree⟩ := hr.linked.exists_free id hfits
    exact ⟨f, hs.nBuckets ▸ hf, fun hocc => hocc.1 (hdibs ▸ hfree)⟩
  obtain ⟨h₂, f, displaced, hrun, hplaced⟩ :=
    putRobinHood_placed htable (hlinked₁.iff huse) hin hroom
  rw [bucketHash_congr hs] at hrun
  have hdisplaced : displaced = false := by
    rw [← Bool.not_eq_true, hplaced.displaced_iff, hdibs]
    exact hr.unmarked f
  subst hdisplaced
  have hs₂ := hplaced.shape.trans hs
  have ht := hplaced.table
  have hentries : h₂.nEntries + 1 = (l ++ [(key, value)]).length := by
    rw [hs₂.nEntries, hr.nEntries, List.length_append, List.length_singleton]
  have hkeys : ((l ++ [(key, value)]).map Prod.fst).Nodup := by
    rw [List.map_append, List.nodup_append]
    refine ⟨hr.keys, List.nodup_singleton _, fun k hk k' hk' => ?_⟩
    obtain ⟨e, he, rfl⟩ := List.mem_map.mp hk
    rw [List.mem_singleton.mp hk']
    exact hnew e he
  refine ⟨{ h₂ with nEntries := h₂.nEntries + 1 }, ?_,
    ⟨⟨ht.1, ht.2, ht.3, ht.4, ht.5⟩, fun i => ?_, ?_, hkeys, hentries, ?_⟩⟩
  · have hlt : bucketHash hash h key < (fillPut h key value).nBuckets ∧
        (fillPut h key value).nEntries < (fillPut h key value).nBuckets := by
      rw [hshape.nEntries, hshape.nBuckets, hr.nEntries]
      exact ⟨hr.table.home_lt key, hfits⟩
    rw [Hashmap.putEntry, if_pos hlt, hlink]
    simp only [hrun]
  · by_cases hi : i = f
    · exact hi ▸ hplaced.settled.2
    · exact fun hmark => hr.unmarked i (hdibs ▸ (hplaced.rehash_iff i hi).mp hmark)
  · exact hplaced.linked.iff fun i => by simp only [Bool.false_eq_true]; rfl
  · rw [List.length_append, List.length_singleton]
    rw [Loaded] at hloaded ⊢
    rwa [hs₂.hasIndirect, hs₂.nBuckets]

/-- What adding a new key may come to: without memory for a resize, nothing is changed. -/
def Added (l : List (K × V)) (key : K) (value : V) (res : Resources HashKey)
    (r : Except Errno ℕ) (l' : List (K × V)) : Prop :=
  r = .ok 1 ∧ l' = l ++ [(key, value)] ∨ r = .error .enomem ∧ res.realloc = false ∧ l' = l

theorem Added.length_le {key : K} {value : V} {res : Resources HashKey} {r : Except Errno ℕ}
    {l' : List (K × V)} (hadded : Added l key value res r l') : l'.length ≤ l.length + 1 := by
  rcases hadded with ⟨-, rfl⟩ | ⟨-, -, rfl⟩
  · rw [List.length_append, List.length_singleton]
  · exact Nat.le_succ _

theorem Represents.putBoldly (hr : Represents hash h l) {key : K} (value : V)
    (res : Resources HashKey) (hmax : l.length < MAX_ENTRIES) (hnew : ∀ e ∈ l, e.1 ≠ key) :
    ∃ h' r l', putBoldly hash h (bucketHash hash h key) key value res = some (h', r) ∧
      Added l key value res r l' ∧ Represents hash h' l' := by
  obtain ⟨r, hresize, hresult⟩ := hr.resize res (show l.length + 1 ≤ MAX_ENTRIES from hmax)
  cases r with
  | error err =>
    obtain ⟨rfl, hrealloc⟩ := hresult
    refine ⟨h, .error .enomem, l, ?_, Or.inr ⟨rfl, hrealloc, rfl⟩, hr⟩
    simp only [Hashmap.putBoldly, if_pos (hr.table.home_lt key), hresize]
  | ok r =>
    obtain ⟨h₁, resized⟩ := r
    obtain ⟨hr₁, hloaded, hsame⟩ := hresult
    have hhash : (if resized = true then bucketHash hash h₁ key else bucketHash hash h key) =
        bucketHash hash h₁ key := by
      cases resized with
      | true => rfl
      | false =>
        rw [hsame rfl]
        rfl
    have hfits : l.length < h₁.nBuckets := hloaded.fits
    obtain ⟨h', hput, hr'⟩ := hr₁.putEntry value hloaded hfits hnew
    refine ⟨h', .ok 1, _, ?_, Or.inl ⟨rfl, rfl⟩, hr'⟩
    simp only [Hashmap.putBoldly, if_pos (hr.table.home_lt key), hresize, hhash, hput,
      Option.map_some]

/-- A put into the bucket's worth of room that a removal has left. -/
theorem Represents.putRemoved {l' : List (K × V)} (hr : Represents hash h l)
    (hr' : Represents hash h' l') (hlen : l'.length + 1 ≤ l.length)
    (hsame : h'.hashKey = h.hashKey ∧ h'.hasIndirect = h.hasIndirect ∧ h'.nBuckets = h.nBuckets)
    {key : K} (value : V) (hnew : ∀ e ∈ l', e.1 ≠ key) :
    ∃ h'', Hashmap.putEntry hash (fillPut h' key value) (bucketHash hash h key) = some h'' ∧
      Represents hash h'' (l' ++ [(key, value)]) := by
  obtain ⟨hhash, hindirect, hm⟩ := hsame
  have hloaded : Loaded h' (l'.length + 1) := by
    have := hr.loaded.mono hlen
    rw [Loaded] at this ⊢
    rwa [hindirect, hm]
  have hkey : bucketHash hash h key = bucketHash hash h' key := by
    rw [bucketHash, bucketHash, hhash, hm]
  rw [hkey]
  exact hr'.putEntry value hloaded hloaded.fits hnew

end Put

section Values

variable [DecidableEq K]

def setValue (l : List (K × V)) (key : K) (value : V) : List (K × V) :=
  l.map fun e => if e.1 = key then (key, value) else e

def withoutKey (l : List (K × V)) (key : K) : List (K × V) := l.filter fun e => e.1 ≠ key

theorem fst_set (key : K) (value : V) (e : K × V) :
    (if e.1 = key then (key, value) else e).1 = e.1 := by
  split_ifs with hkey
  · exact hkey.symm
  · rfl

theorem keys_setValue (l : List (K × V)) (key : K) (value : V) :
    (setValue l key value).map Prod.fst = l.map Prod.fst := by
  rw [setValue, List.map_map]
  refine List.map_congr_left fun e _ => ?_
  exact fst_set key value e

theorem length_setValue (l : List (K × V)) (key : K) (value : V) :
    (setValue l key value).length = l.length := List.length_map _

theorem length_withoutKey_le (l : List (K × V)) (key : K) : (withoutKey l key).length ≤ l.length :=
  List.length_filter_le _ _

theorem withoutKey_of_forall_ne {key : K} (hne : ∀ e ∈ l, e.1 ≠ key) : withoutKey l key = l :=
  List.filter_eq_self.mpr fun e he => decide_eq_true (hne e he)

theorem withoutKey_split {before behind : List (K × V)}
    (hkeys : ((before ++ e :: behind).map Prod.fst).Nodup) :
    withoutKey (before ++ e :: behind) e.1 = before ++ behind := by
  rw [List.map_append, List.map_cons, List.nodup_middle, List.nodup_cons, List.mem_append,
    not_or] at hkeys
  have hne : ∀ l' : List (K × V), e.1 ∉ l'.map Prod.fst → withoutKey l' e.1 = l' :=
    fun l' hout => withoutKey_of_forall_ne fun x hx heq => hout (heq ▸ List.mem_map_of_mem hx)
  have hbefore := hne before hkeys.1.1
  have hbehind := hne behind hkeys.1.2
  rw [withoutKey] at hbefore hbehind ⊢
  rw [List.filter_append, List.filter_cons_of_neg (by simp), hbefore, hbehind]

/-- The key is in no other bucket. -/
theorem Represents.update_keyValue (hr : Represents hash h l) (hidx : idx < h.nBuckets)
    (he : h.keyValue idx = some e) (value : V) {i : ℕ} (hi : i < h.nBuckets) :
    Function.update h.keyValue idx (some (e.1, value)) i =
      (h.keyValue i).map fun e' => if e'.1 = e.1 then (e.1, value) else e' := by
  have hmem := hr.mem_of hidx he
  by_cases hne : i = idx
  · rw [hne, Function.update_self, he, Option.map_some, if_pos rfl]
  · rw [Function.update_of_ne hne]
    cases hkv : h.keyValue i with
    | none => rfl
    | some e' =>
      have hkey : e'.1 ≠ e.1 := fun heq => hne (hr.eq_of_keyValue hi hidx hkv
        (hr.eq_of_key (hr.mem_of hi hkv) hmem heq ▸ he))
      rw [Option.map_some, if_neg hkey]

/-- A new value for the key of a bucket. -/
theorem Represents.setValue (hr : Represents hash h l) (hidx : idx < h.nBuckets)
    (he : h.keyValue idx = some e) (value : V) :
    Represents hash { h with keyValue := Function.update h.keyValue idx (some (e.1, value)) }
      (setValue l e.1 value) := by
  generalize hh₁ : { h with keyValue := Function.update h.keyValue idx (some (e.1, value)) } = h₁
  have hshape : SameShape h₁ h := by
    rw [← hh₁]
    exact ⟨rfl, rfl, rfl, rfl⟩
  have hdibs : h₁.dibs = h.dibs := by rw [← hh₁]
  have hkv : ∀ i < h.nBuckets, h₁.keyValue i =
      (h.keyValue i).map fun e' => if e'.1 = e.1 then (e.1, value) else e' := by
    rw [← hh₁]
    exact fun i hi => hr.update_keyValue hidx he value hi
  have hm := hshape.nBuckets
  have hocc : ∀ i, Occupied h₁ i ↔ Occupied h i := fun i => by rw [Occupied, Occupied, hdibs]
  have hdist : ∀ i < h.nBuckets, dist hash h₁ i = dist hash h i := by
    intro i hi
    rw [dist, dist, hkv i hi]
    cases h.keyValue i with
    | none => rfl
    | some e' =>
      simp only [Option.map_some, Option.elim_some, fst_set, bucketDistance,
        bucketHash_congr hshape, hm]
  have huse : ∀ i, InUse h₁ False i ↔ InUse h False i := fun i => by rw [InUse, InUse, hm, hdibs]
  refine ⟨⟨hm ▸ hr.table.pos, hm ▸ hr.table.le, fun i hi => ?_, fun i hi hocci => ?_, ?_⟩,
    fun i => ?_, ?_, ?_, ?_, ?_⟩
  · rw [hm] at hi
    rw [hkv i hi, Option.map_eq_none_iff, hdibs]
    exact hr.table.empty i hi
  · rw [hm] at hi
    rw [hdibs, hdist i hi]
    exact hr.table.raw i hi ((hocc i).mp hocci)
  · rw [hm]
    exact hr.table.probed.congr hr.table.pos (fun i _ => hocc i) fun i hi _ => hdist i hi
  · rw [hdibs]
    exact hr.unmarked i
  · obtain ⟨L, hring, hnodup, hmemL, hmap⟩ := hr.linked
    refine ⟨L, ?_, hnodup, fun i => (hmemL i).trans (huse i).symm, ?_⟩
    · rw [← hh₁]
      exact hring
    · have hlt : ∀ i ∈ L, i < h.nBuckets := fun i hi =>
        (((hmemL i).mp hi).resolve_right And.left).1
      rw [List.map_congr_left fun i hi => hkv i (hlt i hi), Hashmap.setValue, List.map_map]
      have hcomp := congrArg (List.map (Option.map fun e' : K × V =>
        if e'.1 = e.1 then (e.1, value) else e')) hmap
      rw [List.map_map, List.map_map] at hcomp
      exact hcomp
  · rw [keys_setValue]
    exact hr.keys
  · rw [hshape.nEntries, hr.nEntries, length_setValue]
  · have hloaded := hr.loaded
    rw [length_setValue]
    rw [Loaded] at hloaded ⊢
    rwa [hshape.hasIndirect, hm]

/-- Behind a removal the entry of another bucket is found again. -/
theorem Represents.compensateShift {l' : List (K × V)} (hr' : Represents hash h' l')
    (hm : h'.nBuckets = h.nBuckets) (hidx : idx < h.nBuckets)
    (hmoved : h'.keyValue idx = some e ∨ h'.keyValue (prevIdx h idx) = some e) :
    ∃ i < h'.nBuckets, compensateShift h' (some e.1) idx = some i ∧ h'.keyValue i = some e := by
  have hprev : prevIdx h' idx = prevIdx h idx := by rw [prevIdx, prevIdx, hm]
  have hprevlt : prevIdx h idx < h'.nBuckets := by
    rw [hm]
    exact Nat.mod_lt _ (by omega)
  have hidx' : idx < h'.nBuckets := by omega
  rw [Hashmap.compensateShift, hprev]
  by_cases hkey : (h'.keyValue idx).map Prod.fst = some e.1
  · obtain ⟨e', hkv, hfst⟩ := Option.map_eq_some_iff.mp hkey
    have hmem : e ∈ l' := hmoved.elim (hr'.mem_of hidx') (hr'.mem_of hprevlt)
    obtain rfl := hr'.eq_of_key (hr'.mem_of hidx' hkv) hmem hfst
    exact ⟨idx, hidx', by simp only [hkey, if_true], hkv⟩
  · have hkv := hmoved.resolve_left fun heq => hkey (by rw [heq, Option.map_some])
    refine ⟨prevIdx h idx, hprevlt, ?_, hkv⟩
    simp only [hkey, if_false, hkv, Option.map_some, if_true]

end Values

section Empty

variable (hash) in
theorem represents_new (sharedHashKey : HashKey) :
    Represents hash (hashmapNew sharedHashKey : OrderedHashmap K V HashKey) [] := by
  have hnone : ∀ i, ¬Occupied (hashmapNew sharedHashKey : OrderedHashmap K V HashKey) i :=
    fun i hocc => hocc.1 rfl
  have hpos : 0 < N_DIRECT_BUCKETS := by decide
  have hle : N_DIRECT_BUCKETS ≤ IDX_PUT := by decide
  have hmark : DIB_RAW_FREE ≠ DIB_RAW_REHASH := by decide
  refine ⟨⟨hpos, hle, fun i _ => iff_of_true rfl rfl, fun i _ hocc => absurd hocc (hnone i),
    fun i _ hocc => absurd hocc (hnone _)⟩, fun _ => hmark,
    ⟨[], ?_, List.nodup_singleton _, fun i => ?_, rfl⟩, List.nodup_nil, rfl, ⟨rfl, Nat.zero_le 1⟩⟩
  · exact ⟨nextOf_nil, prevOf_nil, trivial⟩
  · simp [InUse, hashmapNew]

theorem represents_clear (h : OrderedHashmap K V HashKey) (sharedHashKey : HashKey) :
    Represents hash (hashmapClear h sharedHashKey) [] :=
  represents_new hash sharedHashKey

end Empty

section Runs

variable (K V HashKey) in
inductive Operation
  | put (key : K) (value : V) (res : Resources HashKey)
  | replace (key : K) (value : V) (res : Resources HashKey)
  | update (key : K) (value : V)
  | get (key : K)
  | remove (key : K)
  | removeAndPut (oldKey newKey : K) (value : V)
  | removeAndReplace (oldKey newKey : K) (value : V)
  | clear (sharedHashKey : HashKey)

variable (V) in
inductive Result
  | code (r : Except Errno ℕ)
  | data (value : Option V)
  | done

variable [DecidableEq K]

def lookup (l : List (K × V)) (key : K) : Option V :=
  (l.find? fun e => decide (e.1 = key)).map Prod.snd

theorem lookup_of_mem (hr : Represents hash h l) (he : e ∈ l) : lookup l e.1 = some e.2 := by
  rw [lookup]
  cases hfind : l.find? fun e' => decide (e'.1 = e.1) with
  | none => exact absurd (List.find?_eq_none.mp hfind e he) (by simp)
  | some e' =>
    have hkey : e'.1 = e.1 := by simpa using List.find?_some hfind
    obtain rfl := hr.eq_of_key (List.mem_of_find?_eq_some hfind) he hkey
    rfl

theorem lookup_of_forall_ne {key : K} (hne : ∀ e ∈ l, e.1 ≠ key) : lookup l key = none := by
  rw [lookup, List.find?_eq_none.mpr fun e he => by simpa using hne e he]
  rfl

/-- A search, with what the list says about the key. -/
theorem Represents.lookup (hr : Represents hash h l) (key : K) :
    (∃ i < h.nBuckets, ∃ value, h.keyValue i = some (key, value) ∧
      bucketScan hash h key = some (some i) ∧ (key, value) ∈ l ∧
      lookup l key = some value) ∨
    bucketScan hash h key = some none ∧ (∀ e ∈ l, e.1 ≠ key) ∧ lookup l key = none := by
  rcases hr.scan key with ⟨i, hi, e, he, rfl, hscan⟩ | ⟨hscan, hne⟩
  · have hmem := hr.mem_of hi he
    exact Or.inl ⟨i, hi, e.2, he, hscan, hmem, lookup_of_mem hr hmem⟩
  · exact Or.inr ⟨hscan, hne, lookup_of_forall_ne hne⟩

/-- A removal by key, with the list without the key. -/
theorem Represents.removed (hr : Represents hash h l) (hidx : idx < h.nBuckets)
    (he : h.keyValue idx = some e) :
    ∃ h', Hashmap.removeEntry hash h idx = some h' ∧ Represents hash h' (withoutKey l e.1) ∧
      (withoutKey l e.1).length + 1 = l.length ∧
      (h'.hashKey = h.hashKey ∧ h'.hasIndirect = h.hasIndirect ∧ h'.nBuckets = h.nBuckets) ∧
      ∀ i < h.nBuckets, i ≠ idx → h.keyValue i ≠ none →
        h'.keyValue i = h.keyValue i ∨ h'.keyValue (prevIdx h i) = h.keyValue i := by
  obtain ⟨h', before, behind, hrun, rfl, hr', hsame, hmoved⟩ := hr.removeEntry hidx he
  rw [withoutKey_split hr.keys]
  exact ⟨h', hrun, hr', by simp [Nat.add_assoc], hsame, hmoved⟩

/-- Another entry with the new key is removed, and the bucket of the old key is known
behind that. -/
theorem Represents.removeReplaced (hr : Represents hash h l) (newKey : K)
    (hidx : idx < h.nBuckets) (he : h.keyValue idx = some e) :
    ∃ j h₁ k l₁, bucketScan hash h newKey = some j ∧
      Hashmap.removeReplaced hash h idx j = some (h₁, k) ∧ k < h₁.nBuckets ∧
      h₁.keyValue k = some e ∧ Represents hash h₁ l₁ ∧
      withoutKey l₁ e.1 = withoutKey (withoutKey l newKey) e.1 ∧ l₁.length ≤ l.length ∧
      h₁.hashKey = h.hashKey ∧ h₁.hasIndirect = h.hasIndirect ∧ h₁.nBuckets = h.nBuckets := by
  rcases hr.lookup newKey with ⟨j, hj, value, hkv, hscan, hmem, -⟩ | ⟨hscan, hne, -⟩
  · by_cases hij : idx = j
    · subst hij
      obtain rfl := Option.some.inj (he.symm.trans hkv)
      refine ⟨_, h, idx, l, hscan, by rw [Hashmap.removeReplaced, if_pos rfl], hidx, he, hr, ?_,
        le_rfl, rfl, rfl, rfl⟩
      simp only [withoutKey, List.filter_filter, Bool.and_self]
    · obtain ⟨h₁, hrun, hr₁, hlen, hsame, hmoved⟩ := hr.removed hj hkv
      have hfull : h.keyValue idx ≠ none := by simp [he]
      have hmoved' := hmoved idx hidx hij hfull
      rw [he] at hmoved'
      obtain ⟨k, hk, hcomp, hkvk⟩ := hr₁.compensateShift hsame.2.2 hidx hmoved'
      refine ⟨_, h₁, k, _, hscan, ?_, hk, hkvk, hr₁, rfl, by omega, hsame⟩
      simp only [Hashmap.removeReplaced, if_neg hij, hrun, he, Option.map_some, hcomp]
  · refine ⟨none, h, idx, l, hscan, rfl, hidx, he, hr, ?_, le_rfl, rfl, rfl, rfl⟩
    rw [withoutKey_of_forall_ne hne]

variable [DecidableEq V] (hash)

def apply (h : OrderedHashmap K V HashKey) :
    Operation K V HashKey → Option (OrderedHashmap K V HashKey × Result V)
  | .put key value res => (hashmapPut hash h key value res).map fun (h', r) => (h', .code r)
  | .replace key value res =>
    (hashmapReplace hash h key value res).map fun (h', r) => (h', .code r)
  | .update key value => (hashmapUpdate hash h key value).map fun (h', r) => (h', .code r)
  | .get key => (hashmapGet hash h key).map fun value => (h, .data value)
  | .remove key => (hashmapRemove hash h key).map fun (h', value) => (h', .data value)
  | .removeAndPut oldKey newKey value =>
    (hashmapRemoveAndPut hash h oldKey newKey value).map fun (h', r) => (h', .code r)
  | .removeAndReplace oldKey newKey value =>
    (hashmapRemoveAndReplace hash h oldKey newKey value).map fun (h', r) => (h', .code r)
  | .clear sharedHashKey => some (hashmapClear h sharedHashKey, .done)

/-- What an operation may return on a list of entries, and the list behind it. -/
def Allowed (l : List (K × V)) : Operation K V HashKey → Result V → List (K × V) → Prop
  | .put key value res, r, l' =>
    match lookup l key with
    | some old => r = .code (if old = value then .ok 0 else .error .eexist) ∧ l' = l
    | none => ∃ c, r = .code c ∧ Added l key value res c l'
  | .replace key value res, r, l' =>
    match lookup l key with
    | some _ => r = .code (.ok 0) ∧ l' = setValue l key value
    | none => ∃ c, r = .code c ∧ Added l key value res c l'
  | .update key value, r, l' =>
    match lookup l key with
    | some _ => r = .code (.ok 0) ∧ l' = setValue l key value
    | none => r = .code (.error .enoent) ∧ l' = l
  | .get key, r, l' => r = .data (lookup l key) ∧ l' = l
  | .remove key, r, l' => r = .data (lookup l key) ∧ l' = withoutKey l key
  | .removeAndPut oldKey newKey value, r, l' =>
    match lookup l oldKey, lookup l newKey with
    | none, _ => r = .code (.error .enoent) ∧ l' = l
    | some _, some _ => r = .code (.error .eexist) ∧ l' = l
    | some _, none => r = .code (.ok 0) ∧ l' = withoutKey l oldKey ++ [(newKey, value)]
  | .removeAndReplace oldKey newKey value, r, l' =>
    match lookup l oldKey with
    | none => r = .code (.error .enoent) ∧ l' = l
    | some _ => r = .code (.ok 0) ∧
        l' = withoutKey (withoutKey l newKey) oldKey ++ [(newKey, value)]
  | .clear _, r, l' => r = .done ∧ l' = []

variable {hash}

theorem Represents.put (hr : Represents hash h l) (hmax : l.length < MAX_ENTRIES) (key : K)
    (value : V) (res : Resources HashKey) :
    ∃ h' r l', hashmapPut hash h key value res = some (h', r) ∧
      Allowed l (.put key value res) (.code r) l' ∧ Represents hash h' l' := by
  rcases hr.lookup key with ⟨i, hi, old, he, hscan, -, hlookup⟩ | ⟨hscan, hne, hlookup⟩
  · refine ⟨h, if old = value then .ok 0 else .error .eexist, l, ?_, ?_, hr⟩
    · simp only [hashmapPut, hscan, he]
      split_ifs <;> rfl
    · simp [Allowed, hlookup]
  · obtain ⟨h', r, l', hput, hadded, hr'⟩ := hr.putBoldly value res hmax hne
    refine ⟨h', r, l', ?_, ?_, hr'⟩
    · simp only [hashmapPut, hscan, hput]
    · simp only [Allowed, hlookup]
      exact ⟨r, rfl, hadded⟩

theorem Represents.replace (hr : Represents hash h l) (hmax : l.length < MAX_ENTRIES) (key : K)
    (value : V) (res : Resources HashKey) :
    ∃ h' r l', hashmapReplace hash h key value res = some (h', r) ∧
      Allowed l (.replace key value res) (.code r) l' ∧ Represents hash h' l' := by
  rcases hr.lookup key with ⟨i, hi, old, he, hscan, -, hlookup⟩ | ⟨hscan, hne, hlookup⟩
  · refine ⟨_, .ok 0, _, ?_, ?_, hr.setValue hi he value⟩
    · simp only [hashmapReplace, hscan]
    · simp [Allowed, hlookup]
  · obtain ⟨h', r, l', hput, hadded, hr'⟩ := hr.putBoldly value res hmax hne
    refine ⟨h', r, l', ?_, ?_, hr'⟩
    · simp only [hashmapReplace, hscan, hput]
    · simp only [Allowed, hlookup]
      exact ⟨r, rfl, hadded⟩

theorem Represents.update (hr : Represents hash h l) (key : K) (value : V) :
    ∃ h' r l', hashmapUpdate hash h key value = some (h', r) ∧
      Allowed l (.update key value : Operation K V HashKey) (.code r) l' ∧
      Represents hash h' l' := by
  rcases hr.lookup key with ⟨i, hi, old, he, hscan, -, hlookup⟩ | ⟨hscan, hne, hlookup⟩
  · refine ⟨_, .ok 0, _, ?_, ?_, hr.setValue hi he value⟩
    · simp only [hashmapUpdate, hscan, he]
    · simp [Allowed, hlookup]
  · refine ⟨h, .error .enoent, l, ?_, ?_, hr⟩
    · simp only [hashmapUpdate, hscan]
    · simp [Allowed, hlookup]

omit [DecidableEq V] in
theorem Represents.get (hr : Represents hash h l) (key : K) :
    hashmapGet hash h key = some (Hashmap.lookup l key) := by
  rcases hr.lookup key with ⟨i, hi, old, he, hscan, -, hlookup⟩ | ⟨hscan, hne, hlookup⟩
  · simp only [hashmapGet, hscan, he, hlookup, Option.map_some]
  · simp only [hashmapGet, hscan, hlookup]

omit [DecidableEq V] in
theorem Represents.remove (hr : Represents hash h l) (key : K) :
    ∃ h', hashmapRemove hash h key = some (h', Hashmap.lookup l key) ∧
      Represents hash h' (withoutKey l key) := by
  rcases hr.lookup key with ⟨i, hi, old, he, hscan, -, hlookup⟩ | ⟨hscan, hne, hlookup⟩
  · obtain ⟨h', hrun, hr', -⟩ := hr.removed hi he
    refine ⟨h', ?_, hr'⟩
    simp only [hashmapRemove, hscan, he, hrun, hlookup, Option.map_some]
  · rw [withoutKey_of_forall_ne hne]
    refine ⟨h, ?_, hr⟩
    simp only [hashmapRemove, hscan, hlookup]

theorem Represents.removeAndPut (hr : Represents hash h l) (oldKey newKey : K) (value : V) :
    ∃ h' r l', hashmapRemoveAndPut hash h oldKey newKey value = some (h', r) ∧
      Allowed l (.removeAndPut oldKey newKey value : Operation K V HashKey) (.code r) l' ∧
      Represents hash h' l' := by
  rcases hr.lookup oldKey with ⟨i, hi, old, he, hscan, -, hlookup⟩ | ⟨hscan, hne, hlookup⟩
  · rcases hr.lookup newKey with ⟨j, hj, old', he', hscan', -, hlookup'⟩ |
      ⟨hscan', hne', hlookup'⟩
    · refine ⟨h, .error .eexist, l, ?_, ?_, hr⟩
      · simp only [hashmapRemoveAndPut, hscan, hscan']
      · simp [Allowed, hlookup, hlookup']
    · obtain ⟨h₁, hrun, hr₁, hlen, hsame, -⟩ := hr.removed hi he
      obtain ⟨h₂, hput, hr₂⟩ := hr.putRemoved hr₁ hlen.le hsame value fun e he =>
        hne' e (List.mem_of_mem_filter he)
      refine ⟨h₂, .ok 0, _, ?_, ?_, hr₂⟩
      · simp only [hashmapRemoveAndPut, hscan, hscan', hrun, hput, Option.map_some]
      · simp [Allowed, hlookup, hlookup']
  · refine ⟨h, .error .enoent, l, ?_, ?_, hr⟩
    · simp only [hashmapRemoveAndPut, hscan]
    · simp [Allowed, hlookup]

theorem Represents.removeAndReplace (hr : Represents hash h l) (oldKey newKey : K) (value : V) :
    ∃ h' r l', hashmapRemoveAndReplace hash h oldKey newKey value = some (h', r) ∧
      Allowed l (.removeAndReplace oldKey newKey value : Operation K V HashKey) (.code r) l' ∧
      Represents hash h' l' := by
  rcases hr.lookup oldKey with ⟨i, hi, old, he, hscan, hmem, hlookup⟩ | ⟨hscan, hne, hlookup⟩
  · obtain ⟨j, h₁, k, l₁, hscan', hreplaced, hk, hkv, hr₁, hlist, hlen, hsame⟩ :=
      hr.removeReplaced newKey hi he
    obtain ⟨h₂, hrun, hr₂, hlen₂, hsame₂, -⟩ := hr₁.removed hk hkv
    rw [hlist] at hr₂ hlen₂
    have hnew : ∀ e ∈ withoutKey (withoutKey l newKey) oldKey, e.1 ≠ newKey := fun e hmem =>
      of_decide_eq_true (List.mem_filter.mp (List.mem_of_mem_filter hmem)).2
    have hsame' : h₂.hashKey = h.hashKey ∧ h₂.hasIndirect = h.hasIndirect ∧
        h₂.nBuckets = h.nBuckets := by
      rw [hsame₂.1, hsame₂.2.1, hsame₂.2.2]
      exact hsame
    obtain ⟨h₃, hput, hr₃⟩ := hr.putRemoved hr₂ (by omega) hsame' value hnew
    refine ⟨h₃, .ok 0, _, ?_, ?_, hr₃⟩
    · simp only [hashmapRemoveAndReplace, hscan, hscan', hreplaced, hrun, hput, Option.map_some]
    · simp [Allowed, hlookup]
  · refine ⟨h, .error .enoent, l, ?_, ?_, hr⟩
    · simp only [hashmapRemoveAndReplace, hscan]
    · simp [Allowed, hlookup]

/-- An operation does what the list allows. -/
theorem Represents.apply (hr : Represents hash h l) (hmax : l.length < MAX_ENTRIES)
    (op : Operation K V HashKey) :
    ∃ h' r l', apply hash h op = some (h', r) ∧ Allowed l op r l' ∧ Represents hash h' l' := by
  cases op with
  | put key value res =>
    obtain ⟨h', r, l', hrun, hallowed, hr'⟩ := hr.put hmax key value res
    refine ⟨h', .code r, l', ?_, hallowed, hr'⟩
    simp only [Hashmap.apply, hrun, Option.map_some]
  | replace key value res =>
    obtain ⟨h', r, l', hrun, hallowed, hr'⟩ := hr.replace hmax key value res
    refine ⟨h', .code r, l', ?_, hallowed, hr'⟩
    simp only [Hashmap.apply, hrun, Option.map_some]
  | update key value =>
    obtain ⟨h', r, l', hrun, hallowed, hr'⟩ := hr.update key value
    refine ⟨h', .code r, l', ?_, hallowed, hr'⟩
    simp only [Hashmap.apply, hrun, Option.map_some]
  | get key =>
    refine ⟨h, .data (Hashmap.lookup l key), l, ?_, ⟨rfl, rfl⟩, hr⟩
    simp only [Hashmap.apply, hr.get key, Option.map_some]
  | remove key =>
    obtain ⟨h', hrun, hr'⟩ := hr.remove key
    refine ⟨h', .data (Hashmap.lookup l key), _, ?_, ⟨rfl, rfl⟩, hr'⟩
    simp only [Hashmap.apply, hrun, Option.map_some]
  | removeAndPut oldKey newKey value =>
    obtain ⟨h', r, l', hrun, hallowed, hr'⟩ := hr.removeAndPut oldKey newKey value
    refine ⟨h', .code r, l', ?_, hallowed, hr'⟩
    simp only [Hashmap.apply, hrun, Option.map_some]
  | removeAndReplace oldKey newKey value =>
    obtain ⟨h', r, l', hrun, hallowed, hr'⟩ := hr.removeAndReplace oldKey newKey value
    refine ⟨h', .code r, l', ?_, hallowed, hr'⟩
    simp only [Hashmap.apply, hrun, Option.map_some]
  | clear sharedHashKey => exact ⟨_, .done, [], rfl, ⟨rfl, rfl⟩, represents_clear h sharedHashKey⟩

variable (hash)

def run (h : OrderedHashmap K V HashKey) :
    List (Operation K V HashKey) → Option (OrderedHashmap K V HashKey × List (Result V))
  | [] => some (h, [])
  | op :: ops =>
    match apply hash h op with
    | none => none
    | some (h', r) => (run h' ops).map fun (h'', rs) => (h'', r :: rs)

def AllowedRun (l : List (K × V)) :
    List (Operation K V HashKey) → List (Result V) → List (K × V) → Prop
  | [], rs, l' => rs = [] ∧ l' = l
  | op :: ops, rs, l' => ∃ r rs' l₁, rs = r :: rs' ∧ Allowed l op r l₁ ∧ AllowedRun l₁ ops rs' l'

/-- Before each operation there are fewer than `MAX_ENTRIES` entries. -/
def Bounded (l : List (K × V)) : List (Operation K V HashKey) → Prop
  | [] => True
  | op :: ops => l.length < MAX_ENTRIES ∧ ∀ r l', Allowed l op r l' → Bounded l' ops

variable {hash}

/-- An operation adds at most one entry. -/
theorem Allowed.length_le {op : Operation K V HashKey} {r : Result V} {l' : List (K × V)}
    (hallowed : Allowed l op r l') : l'.length ≤ l.length + 1 := by
  cases op with
  | put key value res =>
    simp only [Allowed] at hallowed
    split at hallowed
    · rw [hallowed.2]
      exact Nat.le_succ _
    · obtain ⟨c, -, hadded⟩ := hallowed
      exact hadded.length_le
  | replace key value res =>
    simp only [Allowed] at hallowed
    split at hallowed
    · rw [hallowed.2, length_setValue]
      exact Nat.le_succ _
    · obtain ⟨c, -, hadded⟩ := hallowed
      exact hadded.length_le
  | update key value =>
    simp only [Allowed] at hallowed
    split at hallowed
    · rw [hallowed.2, length_setValue]
      exact Nat.le_succ _
    · rw [hallowed.2]
      exact Nat.le_succ _
  | get key =>
    rw [hallowed.2]
    exact Nat.le_succ _
  | remove key =>
    rw [hallowed.2]
    exact (length_withoutKey_le l key).trans (Nat.le_succ _)
  | removeAndPut oldKey newKey value =>
    simp only [Allowed] at hallowed
    split at hallowed
    · rw [hallowed.2]
      exact Nat.le_succ _
    · rw [hallowed.2]
      exact Nat.le_succ _
    · rw [hallowed.2, List.length_append, List.length_singleton]
      exact Nat.succ_le_succ (length_withoutKey_le l oldKey)
  | removeAndReplace oldKey newKey value =>
    simp only [Allowed] at hallowed
    split at hallowed
    · rw [hallowed.2]
      exact Nat.le_succ _
    · rw [hallowed.2, List.length_append, List.length_singleton]
      exact Nat.succ_le_succ ((length_withoutKey_le _ oldKey).trans (length_withoutKey_le l newKey))
  | clear sharedHashKey =>
    rw [hallowed.2]
    exact Nat.zero_le _

/-- A run with few enough operations is bounded. -/
theorem bounded_of_length {ops : List (Operation K V HashKey)}
    (hlength : l.length + ops.length ≤ MAX_ENTRIES) : Bounded l ops := by
  induction ops generalizing l with
  | nil => trivial
  | cons op ops ih =>
    rw [List.length_cons] at hlength
    refine ⟨by omega, fun r l' hallowed => ih ?_⟩
    have := hallowed.length_le
    omega

theorem Represents.run (hr : Represents hash h l) {ops : List (Operation K V HashKey)}
    (hbounded : Bounded l ops) :
    ∃ h' rs l', run hash h ops = some (h', rs) ∧ AllowedRun l ops rs l' ∧
      Represents hash h' l' := by
  induction ops generalizing h l with
  | nil => exact ⟨h, [], l, rfl, ⟨rfl, rfl⟩, hr⟩
  | cons op ops ih =>
    obtain ⟨h₁, r, l₁, hrun, hallowed, hr₁⟩ := hr.apply hbounded.1 op
    obtain ⟨h', rs, l', hruns, halloweds, hr'⟩ := ih hr₁ (hbounded.2 r l₁ hallowed)
    refine ⟨h', r :: rs, l', ?_, ⟨r, rs, l₁, rfl, hallowed, halloweds⟩, hr'⟩
    simp only [Hashmap.run, hrun, hruns, Option.map_some]

end Runs

end Vdev.Hashmap
