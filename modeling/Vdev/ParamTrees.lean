import Vdev.Data
import Vdev.SglibIterators

/-!
The parameter sets of libvdev/param.c as the red-black trees they are. The rest
of the development takes a parameter set for a sorted list; the trees that
`vdev_params_add` builds are shown here to stand for these lists, with the same
results and in the same order, and to be freed without touching a freed node.
-/
namespace Vdev.ParamTrees

open CString Data RedBlackTrees RedBlackTrees.ColoredTree SglibTrees SglibIterators

/-- `struct vdev_param_t`, with the address that `calloc` gave it. -/
structure Param where
  address : ℕ
  key : CStr
  value : CStr
  deriving DecidableEq, Repr

/-- What the three allocations of `vdev_params_add` return. -/
structure Allocations where
  newParam : Option ℕ
  keyDup : Bool := true
  valueDup : Bool := true

/-- `vdev_params_add`: the tree it leaves and its error, if any. -/
def vdevParamsAdd (params : ColoredTree Param) (key value : CStr) (alloc : Allocations) :
    Option (ColoredTree Param × Option Errno) :=
  match findMember Param.key key params with
  | some _ => some (params, some .eexist)
  | none =>
    match alloc.newParam with
    | none => some (params, some .enomem)
    | some address =>
      if ¬alloc.keyDup then some (params, some .enomem)
      else if ¬alloc.valueDup then some (params, some .enomem)
      else (add Param.key Param.address params ⟨address, key, value⟩).map fun t => (t, none)

/-- A call of `vdev_params_add`. -/
structure Call where
  key : CStr
  value : CStr
  alloc : Allocations

def Allocations.succeed (alloc : Allocations) : Bool :=
  alloc.newParam.isSome && alloc.keyDup && alloc.valueDup

def addAll : List Call → ColoredTree Param → Option (ColoredTree Param × List (Option Errno))
  | [], params => some (params, [])
  | call :: calls, params => do
    let (params', rc) ← vdevParamsAdd params call.key call.value call.alloc
    let (params'', rcs) ← addAll calls params'
    some (params'', rc :: rcs)

def addToList (call : Call) (p : Params) : Params × Option Errno :=
  match p.add call.key call.value with
  | .error e => (p, some e)
  | .ok q => if call.alloc.succeed then (q, none) else (p, some .enomem)

def addAllToList : List Call → Params → Params × List (Option Errno)
  | [], p => (p, [])
  | call :: calls, p =>
    ((addAllToList calls (addToList call p).1).1,
      (addToList call p).2 :: (addAllToList calls (addToList call p).1).2)

def Param.entry (p : Param) : CStr × CStr := (p.key, p.value)

structure Represents (t : ColoredTree Param) (p : Params) : Prop where
  consistent : Consistent Param.key Param.address t
  entries : t.toList.map Param.entry = p.entries

theorem Represents.nil : Represents .nil Params.empty := ⟨Consistent.nil, rfl⟩

theorem Represents.mem_keys {t : ColoredTree Param} {p : Params} (h : Represents t p)
    (key : CStr) : key ∈ p.entries.map Prod.fst ↔ ∃ x ∈ t.toList, x.key = key := by
  rw [← h.entries, List.map_map, List.mem_map]
  rfl

theorem insertRank_entries (x : Param) {xs : List Param} (hnew : ∀ y ∈ xs, y.key ≠ x.key) :
    (insertRank (rank Param.key Param.address) x xs).map Param.entry =
      Params.insertEntry x.key x.value (xs.map Param.entry) := by
  induction xs with
  | nil => rfl
  | cons y xs ih =>
    have hy : y.key ≠ x.key := hnew y List.mem_cons_self
    have hrest := ih fun z hz => hnew z (List.mem_cons_of_mem _ hz)
    have hlt : rank Param.key Param.address x < rank Param.key Param.address y ↔
        x.key < y.entry.1 := by
      rw [← goesLeft_iff]
      simp [goesLeft, Ne.symm hy, Param.entry]
    rw [insertRank, List.orderedInsert_cons, List.map_cons, Params.insertEntry]
    by_cases h : x.key < y.entry.1
    · rw [if_pos (hlt.mpr h), if_pos h]
      rfl
    · rw [if_neg (fun h' => h (hlt.mp h')), if_neg h, List.map_cons]
      exact congrArg _ hrest

/-- `vdev_params_add` on the tree and on the list go together. -/
theorem Represents.step {t : ColoredTree Param} {p : Params} (h : Represents t p) (call : Call) :
    ∃ t', vdevParamsAdd t call.key call.value call.alloc = some (t', (addToList call p).2) ∧
      Represents t' (addToList call p).1 := by
  rw [vdevParamsAdd]
  cases hfind : findMember Param.key call.key t with
  | some x =>
    have hmem : call.key ∈ p.entries.map Prod.fst :=
      (h.mem_keys call.key).mpr ⟨x, findMember_some hfind⟩
    rw [addToList, Params.add_of_mem p _ _ hmem]
    exact ⟨t, rfl, h⟩
  | none =>
    have hnew := findMember_none h.consistent.ordered hfind
    have hkey : call.key ∉ p.entries.map Prod.fst := fun hmem => by
      obtain ⟨x, hx, hxkey⟩ := (h.mem_keys call.key).mp hmem
      exact hnew x hx hxkey
    have hadd : p.add call.key call.value =
        .ok ⟨Params.insertEntry call.key call.value p.entries,
          Params.sorted_insertEntry call.key call.value p.entries p.sorted hkey⟩ := dif_neg hkey
    rw [addToList, hadd]
    obtain ⟨key, value, newParam, keyDup, valueDup⟩ := call
    cases newParam with
    | none => exact ⟨t, rfl, h⟩
    | some address =>
      cases keyDup with
      | false => exact ⟨t, rfl, h⟩
      | true =>
        cases valueDup with
        | false => exact ⟨t, rfl, h⟩
        | true =>
          obtain ⟨t', hsome, hcons, hlist⟩ := h.consistent.add ⟨address, key, value⟩
            fun y hy => rank_ne_of_key (hnew y hy)
          refine ⟨t', ?_, hcons, ?_⟩
          · simp only [hsome]
            rfl
          · rw [hlist, insertRank_entries _ hnew, h.entries]
            rfl

theorem Represents.run (calls : List Call) {t : ColoredTree Param} {p : Params}
    (h : Represents t p) :
    ∃ t', addAll calls t = some (t', (addAllToList calls p).2) ∧
      Represents t' (addAllToList calls p).1 := by
  induction calls generalizing t p with
  | nil => exact ⟨t, rfl, h⟩
  | cons call calls ih =>
    obtain ⟨t₁, hstep, h₁⟩ := h.step call
    obtain ⟨t', hrun, h'⟩ := ih h₁
    refine ⟨t', ?_, h'⟩
    simp only [addAll, hstep, hrun, Option.bind_eq_bind, Option.bind_some, addAllToList]

theorem Represents.find {t : ColoredTree Param} {p : Params} (h : Represents t p) (key : CStr) :
    (findMember Param.key key t).map Param.value = p.find key := by
  cases hfind : findMember Param.key key t with
  | some x =>
    obtain ⟨hmem, hkey⟩ := findMember_some hfind
    refine ((p.find_eq_some_iff key x.value).mpr ?_).symm
    rw [← h.entries, ← hkey]
    exact List.mem_map.mpr ⟨x, hmem, rfl⟩
  | none =>
    have hnew := findMember_none h.consistent.ordered hfind
    cases hp : p.find key with
    | none => rfl
    | some value =>
      have hmem := (p.find_eq_some_iff key value).mp hp
      rw [← h.entries] at hmem
      obtain ⟨x, hx, hentry⟩ := List.mem_map.mp hmem
      exact absurd (congrArg Prod.fst hentry) (hnew x hx)

/-- The trees that `vdev_params_add` builds give the results of the sorted lists. -/
theorem paramTrees_refine_lists (calls : List Call) :
    ∃ t, addAll calls .nil = some (t, (addAllToList calls Params.empty).2) ∧
      consistencyCheck Param.key t = some () ∧
      t.toList.map Param.entry = (addAllToList calls Params.empty).1.entries ∧
      ∀ key, (findMember Param.key key t).map Param.value =
        (addAllToList calls Params.empty).1.find key := by
  obtain ⟨t, hrun, ht⟩ := Represents.nil.run calls
  exact ⟨t, hrun, ht.consistent.check, ht.entries, ht.find⟩

/-- The loops over the parameters that any sequence of calls has built visit the
entries in order. -/
theorem paramTrees_loop (calls : List Call) {t : ColoredTree Param} {rcs : List (Option Errno)}
    (hrun : addAll calls .nil = some (t, rcs)) (hsize : t.size + 1 < 2 ^ 64) {fuel : ℕ}
    (hfuel : t.size < fuel) :
    ∃ reads it xs, itInit 1 t = some (reads, it) ∧ visited 1 fuel it = some xs ∧
      xs.map Param.entry = (addAllToList calls Params.empty).1.entries := by
  obtain ⟨u, hrun', hu⟩ := Represents.nil.run calls
  cases Option.some.inj (hrun.symm.trans hrun')
  have hheight := height_le_of_consistent hu.consistent hsize
  obtain ⟨reads, path, hinit, hfuture, hfits⟩ := itInit_spec 1 le_rfl hheight
  have hlength : (traverse 1 t).length < fuel := by
    rw [traverse_inorder, length_toList]
    exact hfuel
  have hvisited := visited_eq 1 le_rfl hfits _ (traverse 1 t) rfl hfuture hlength
  refine ⟨reads, _, traverse 1 t, hinit, hvisited, ?_⟩
  rw [traverse_inorder]
  exact hu.entries

def twoCalls : List Call :=
  [⟨"b".toList, "2".toList, ⟨some 1, true, true⟩⟩, ⟨"a".toList, "1".toList, ⟨some 2, true, true⟩⟩]

def twoParams : ColoredTree Param :=
  .node .black (.node .red .nil ⟨2, "a".toList, "1".toList⟩ .nil) ⟨1, "b".toList, "2".toList⟩ .nil

theorem paramTrees_loop_two :
    ∃ reads it xs, itInit 1 twoParams = some (reads, it) ∧ visited 1 3 it = some xs ∧
      xs.map Param.entry = (addAllToList twoCalls Params.empty).1.entries :=
  @paramTrees_loop twoCalls twoParams [none, none] (by decide) (by decide) 3 (by decide)

/-- `vdev_params_free` on what any sequence of calls has built: the strings and the
node of each parameter are freed once, and no freed node is touched. -/
theorem paramsFree_safe (calls : List Call) {t : ColoredTree Param} {rcs : List (Option Errno)}
    (hrun : addAll calls .nil = some (t, rcs)) (hsize : t.size + 1 < 2 ^ 64) {fuel : ℕ}
    (hfuel : t.size < fuel) :
    ∃ trace, vdevParamsFree fuel t = some trace ∧ trace.Pairwise MayFollow ∧
      ∃ nodes : List Param, nodes.Perm t.toList ∧
        done trace = t.toList.map Event.freeStrings ++ nodes.map Event.free := by
  obtain ⟨u, hrun', hu⟩ := Represents.nil.run calls
  cases Option.some.inj (hrun.symm.trans hrun')
  exact vdevParamsFree_spec (height_le_of_consistent hu.consistent hsize)
    (nodup_of_consistent hu.consistent) hfuel

theorem paramsFree_safe_two :
    ∃ trace, vdevParamsFree 3 twoParams = some trace ∧ trace.Pairwise MayFollow ∧
      ∃ nodes : List Param, nodes.Perm twoParams.toList ∧
        done trace = twoParams.toList.map Event.freeStrings ++ nodes.map Event.free :=
  @paramsFree_safe twoCalls twoParams [none, none] (by decide) (by decide) 3 (by decide)

end Vdev.ParamTrees
