import Vdev.CString
import Vdev.Runs

/-!
The growable vector of sglib.h (libvdev), over an arbitrary type of elements. Its capacity is not
stored: it is the power of two whose exponent the struct keeps. Growing moves the exponent before
`realloc` is called, and `yoink` leaves an exponent of one behind with no buffer, so that the
exponent and the buffer can disagree.
-/
namespace Vdev.SglibVectors

open CString Runs

variable {α : Type}

/-- `struct sglib_type_vector`. The buffer has a place for each of the elements that fit. -/
structure Vec (α : Type) where
  buf : Option (List α)
  len : ℕ
  exp : ℕ
  deriving DecidableEq

/-- What `realloc` does: it fails, or places that are new have any value. -/
inductive Realloc (α : Type)
  | fails
  | succeeds (junk : ℕ → α)

/-- A buffer that now has `n` places. -/
def resize (junk : ℕ → α) (n : ℕ) (cells : List α) : List α :=
  cells.take n ++ (List.range (n - cells.length)).map junk

variable (size : ℕ)

/-- `sglib___type_vector_grow`, for elements of `size` bytes. -/
def grow (r : Realloc α) (v : Vec α) : Int × Vec α :=
  let v := { v with exp := v.exp + 1 }
  match r with
  | .fails => (Errno.enomem.rc, v)
  | .succeeds junk =>
    (0, { v with buf := some (resize junk (2 ^ v.exp * size % 2 ^ 64 / size) (v.buf.getD [])) })

/-- `sglib_type_vector_init`. -/
def init : Vec α := ⟨none, 0, 0⟩

/-- The test of `sglib_type_vector_push_back`. The power of two is cut to an `unsigned`. -/
def Full (v : Vec α) : Prop := 2 ^ v.exp % 2 ^ 32 ≤ v.len + 1

instance (v : Vec α) : Decidable (Full v) := inferInstanceAs (Decidable (_ ≤ _))

/-- `v->buf[i] = t`. It has no result when there is no such place. -/
def store (v : Vec α) (i : ℕ) (t : α) : Option (Vec α) :=
  match v.buf with
  | none => none
  | some cells => if i < cells.length then some { v with buf := some (cells.set i t) } else none

/-- `v->buf[i]`. -/
def load (v : Vec α) (i : ℕ) : Option α := v.buf.bind (·[i]?)

/-- `sglib_type_vector_push_back`. -/
def pushBack (t : α) (r : Realloc α) (v : Vec α) : Option (Int × Vec α) :=
  let (rc, v) := if Full v then grow size r v else (0, v)
  if rc = Errno.enomem.rc then some (rc, v)
  else (store v v.len t).map fun v => (0, { v with len := v.len + 1 })

/-- `sglib_type_vector_pop_back`. It aborts when there is no element. -/
def popBack (v : Vec α) : Option (α × Vec α) :=
  if v.len = 0 then none else (load v (v.len - 1)).map fun t => (t, { v with len := v.len - 1 })

/-- `sglib_type_vector_set`. -/
def set (t : α) (i : ℕ) (v : Vec α) : Option (Int × Vec α) :=
  if v.len ≤ i then some (Errno.einval.rc, v) else (store v i t).map fun v => (0, v)

/-- `sglib_type_vector_clear`. -/
def clear (_ : Vec α) : Vec α := ⟨none, 0, 0⟩

/-- `sglib_type_vector_yoink`. -/
def yoink (v : Vec α) : (Option (List α) × ℕ) × Vec α := ((v.buf, v.len), ⟨none, 0, 1⟩)

/-- The operations; a call of `push_back` comes with what `realloc` does if it is called. -/
inductive Op (α : Type)
  | init
  | pushBack (t : α) (r : Realloc α)
  | popBack
  | set (t : α) (i : ℕ)
  | elemAt (i : ℕ)
  | clear
  | yoink

/-- The vector, the list that it should stand for, and whether memory outside of the buffer was
written to. -/
structure State (α : Type) where
  vec : Vec α
  list : List α
  outside : Bool

def started : State α := ⟨init, [], false⟩

/-- One operation. `pop_back` of no element, and looking at a place that is not there, have no
next state. -/
def step (op : Op α) (s : State α) : Option (State α) :=
  match op with
  | .init => some { s with vec := init, list := [] }
  | .pushBack t r =>
    match pushBack size t r s.vec with
    | none => some { s with outside := true }
    | some (rc, v) => some { s with vec := v, list := if rc = 0 then s.list ++ [t] else s.list }
  | .popBack => (popBack s.vec).map fun (_, v) => { s with vec := v, list := s.list.dropLast }
  | .set t i =>
    match set t i s.vec with
    | none => some { s with outside := true }
    | some (_, v) => some { s with vec := v, list := s.list.set i t }
  | .elemAt i => (load s.vec i).map fun _ => s
  | .clear => some { s with vec := clear s.vec, list := [] }
  | .yoink => some { s with vec := (yoink s.vec).2, list := [] }

/-- There is no buffer and no element, or the first places of the buffer are the list. -/
def Represents (v : Vec α) (l : List α) : Prop :=
  (v.buf = none ∧ v.len = 0 ∧ l = []) ∨
    ∃ cells, v.buf = some cells ∧ v.len ≤ cells.length ∧ cells.take v.len = l

/-- What is asked of an operation that leads from `s` to `s'`. -/
structure Holds (op : Op α) (s s' : State α) : Prop where
  inside : s'.outside = false
  represents : Represents s'.vec s'.list
  unchanged : ∀ t r, op = .pushBack t r →
    (pushBack size t r s.vec).map Prod.fst = some Errno.enomem.rc → s'.vec = s.vec

/-- A `push_back` is not called after a `yoink` unless the vector was made new, and where it
grows the buffer, `realloc` succeeds and its size does not overflow. -/
def Ok (op : Op α) (s : State α) : Prop :=
  ∀ t r, op = .pushBack t r →
    (s.vec.buf = none → s.vec.exp = 0) ∧
    (Full s.vec → (∃ junk, r = .succeeds junk) ∧ 2 ^ (s.vec.exp + 1) * size < 2 ^ 63)

/-- The vector has a place for another element behind those of the list. -/
def Roomy (v : Vec α) (l : List α) : Prop :=
  ∃ cells, v.buf = some cells ∧ v.len < cells.length ∧ cells.take v.len = l ∧
    cells.length = 2 ^ v.exp

/-- A buffer has the places that the exponent says. Without one the exponent is zero, or one
after a `yoink`. -/
structure Inv (s : State α) : Prop where
  inside : s.outside = false
  represents : Represents s.vec s.list
  room : ∀ cells, s.vec.buf = some cells → cells.length = 2 ^ s.vec.exp
  bare : s.vec.buf = none → s.vec.exp ≤ 1

section Buffers

theorem length_resize (junk : ℕ → α) (n : ℕ) (cells : List α) :
    (resize junk n cells).length = n := by
  simp only [resize, List.length_append, List.length_take, List.length_map, List.length_range]
  omega

/-- The places that a buffer had keep their elements when it grows. -/
theorem take_resize (junk : ℕ → α) (n k : ℕ) (cells : List α) (hk : k ≤ cells.length)
    (hn : cells.length ≤ n) : (resize junk n cells).take k = cells.take k := by
  rw [resize, List.take_of_length_le hn, List.take_append_of_le_length hk]

theorem Represents.none {l : List α} {exp : ℕ} (h : l = []) : Represents ⟨none, 0, exp⟩ l :=
  Or.inl ⟨rfl, rfl, h⟩

theorem Represents.length {v : Vec α} {l : List α} (h : Represents v l) : l.length = v.len := by
  rcases h with ⟨-, hlen, rfl⟩ | ⟨cells, -, hle, rfl⟩
  · exact hlen.symm
  · exact List.length_take_of_le hle

theorem Represents.cells {v : Vec α} {l cells : List α} (h : Represents v l)
    (hbuf : v.buf = some cells) : v.len ≤ cells.length ∧ cells.take v.len = l := by
  rcases h with ⟨hnone, -, -⟩ | ⟨cells', hbuf', hle, htake⟩
  · rw [hnone] at hbuf
    cases hbuf
  · cases Option.some.inj (hbuf.symm.trans hbuf')
    exact ⟨hle, htake⟩

/-- An element is written behind the others. -/
theorem Roomy.store {v : Vec α} {l : List α} (h : Roomy v l) (t : α) :
    ∃ w, store v v.len t = some w ∧ Represents { w with len := w.len + 1 } (l ++ [t]) ∧
      ∃ cells, w.buf = some cells ∧ cells.length = 2 ^ w.exp := by
  obtain ⟨cells, hbuf, hlt, rfl, hroom⟩ := h
  have hlen : (cells.set v.len t).length = cells.length := List.length_set ..
  refine ⟨{ v with buf := some (cells.set v.len t) }, ?_, Or.inr ⟨_, rfl, ?_, ?_⟩, _, rfl, ?_⟩
  · rw [SglibVectors.store, hbuf]
    exact if_pos hlt
  · rw [hlen]
    exact hlt
  · rw [List.take_add_one, List.getElem?_set_self hlt, List.take_set_of_le le_rfl]
    rfl
  · rw [hlen, hroom]

theorem Represents.store {v w : Vec α} {l : List α} {i : ℕ} {t : α} (h : Represents v l)
    (hi : i < v.len) (hstore : store v i t = some w) : Represents w (l.set i t) := by
  rcases h with ⟨hnone, hzero, -⟩ | ⟨cells, hbuf, hle, rfl⟩
  · omega
  · rw [SglibVectors.store, hbuf] at hstore
    dsimp only at hstore
    rw [if_pos (by omega)] at hstore
    cases Option.some.inj hstore
    exact Or.inr ⟨cells.set i t, rfl, by simpa using hle, List.take_set⟩

theorem Represents.load {v : Vec α} {l : List α} (h : Represents v l) (i : ℕ) (hi : i < v.len) :
    load v i = l[i]? := by
  rcases h with ⟨-, hlen, -⟩ | ⟨cells, hbuf, hle, rfl⟩
  · omega
  · rw [SglibVectors.load, hbuf, Option.bind_some, List.getElem?_take_of_lt hi]

theorem Represents.popBack {v w : Vec α} {l : List α} {t : α} (h : Represents v l)
    (hpop : popBack v = some (t, w)) :
    l.getLast? = some t ∧ Represents w l.dropLast ∧ w.buf = v.buf ∧ w.exp = v.exp := by
  unfold SglibVectors.popBack at hpop
  split_ifs at hpop with hzero
  obtain ⟨x, hload, heq⟩ := Option.map_eq_some_iff.mp hpop
  cases heq
  have hlast : l[v.len - 1]? = some t := by
    rw [← h.load _ (by omega)]
    exact hload
  have hlength := h.length
  rcases h with ⟨-, hlen, -⟩ | ⟨cells, hbuf, hle, rfl⟩
  · exact absurd hlen hzero
  · have hdrop : (cells.take v.len).dropLast = cells.take (v.len - 1) := by
      rw [List.dropLast_eq_take, hlength, List.take_take]
      congr 1
      omega
    refine ⟨?_, Or.inr ⟨cells, hbuf, ?_, hdrop.symm⟩, rfl, rfl⟩
    · rw [List.getLast?_eq_getElem?, hlength, hlast]
    · dsimp only
      omega

end Buffers

section Growing

variable {size : ℕ}

theorem grow_fails (v : Vec α) :
    grow size .fails v = (Errno.enomem.rc, { v with exp := v.exp + 1 }) := rfl

/-- When `realloc` fails the exponent has been moved. -/
theorem pushBack_fails {v : Vec α} (t : α) (h : Full v) :
    pushBack size t .fails v = some (Errno.enomem.rc, { v with exp := v.exp + 1 }) := by
  rw [SglibVectors.pushBack, if_pos h, grow_fails]
  exact if_pos rfl

/-- With an exponent of one and no buffer, `push_back` writes through a null pointer. This is what
`yoink` leaves behind, and a first `push_back` that fails. -/
theorem pushBack_bare {v : Vec α} (t : α) (r : Realloc α) (hbuf : v.buf = none) (hlen : v.len = 0)
    (hexp : v.exp = 1) : pushBack size t r v = none := by
  have hfull : ¬Full v := by
    unfold Full
    rw [hexp, hlen]
    decide
  rw [SglibVectors.pushBack, if_neg hfull]
  dsimp only
  rw [if_neg (by decide), store, hbuf]
  rfl

/-- A size that does not overflow is that of the next power of two. -/
theorem grow_succeeds (hsize : 0 < size) (junk : ℕ → α) (v : Vec α)
    (hfits : 2 ^ (v.exp + 1) * size < 2 ^ 63) :
    grow size (.succeeds junk) v =
      (0, ⟨some (resize junk (2 ^ (v.exp + 1)) (v.buf.getD [])), v.len, v.exp + 1⟩) := by
  have hroom : 2 ^ (v.exp + 1) * size % 2 ^ 64 / size = 2 ^ (v.exp + 1) := by
    rw [Nat.mod_eq_of_lt (by omega), Nat.mul_div_cancel _ hsize]
  rw [grow]
  dsimp only
  rw [hroom]

/-- When `realloc` succeeds there is a place for one more element. -/
theorem Inv.roomy_grow (hsize : 0 < size) {s : State α} (h : Inv s) (junk : ℕ → α)
    (hfits : 2 ^ (s.vec.exp + 1) * size < 2 ^ 63) :
    ∃ v, grow size (.succeeds junk) s.vec = (0, v) ∧ Roomy v s.list := by
  refine ⟨_, grow_succeeds hsize junk s.vec hfits, _, rfl, ?_, ?_, length_resize ..⟩
  · have hpos := Nat.two_pow_pos s.vec.exp
    rw [length_resize]
    rcases h.represents with ⟨-, hlen, -⟩ | ⟨cells, hbuf, hle, -⟩
    · dsimp only
      omega
    · have hroom := h.room cells hbuf
      dsimp only
      omega
  · rcases h.represents with ⟨-, hlen, hnil⟩ | ⟨cells, hbuf, hle, htake⟩
    · rw [hnil]
      dsimp only
      rw [hlen, List.take_zero]
    · have hroom := h.room cells hbuf
      rw [hbuf, Option.getD_some]
      dsimp only
      rw [take_resize _ _ _ _ hle (by omega), htake]

/-- An exponent of zero means that the next element needs a place. -/
theorem full_of_exp_zero {v : Vec α} (h : v.exp = 0) : Full v := by
  unfold Full
  rw [h]
  omega

/-- A vector with a buffer that `push_back` has not to grow has a place left. -/
theorem Inv.roomy_of_not_full {s : State α} (h : Inv s) (hnot : ¬Full s.vec)
    (hbuf : s.vec.buf ≠ none) : Roomy s.vec s.list := by
  obtain ⟨cells, hbuf⟩ := Option.ne_none_iff_exists'.mp hbuf
  have hroom := h.room cells hbuf
  have hcut := Nat.mod_le (2 ^ s.vec.exp) (2 ^ 32)
  unfold Full at hnot
  exact ⟨cells, hbuf, by omega, (h.represents.cells hbuf).2, hroom⟩

/-- An element is added, in a place of its own. -/
theorem Inv.pushBack (hsize : 0 < size) {s : State α} (h : Inv s) (t : α) (r : Realloc α)
    (hok : Ok size (.pushBack t r) s) :
    ∃ v, pushBack size t r s.vec = some (0, v) ∧ Represents v (s.list ++ [t]) ∧
      ∃ cells, v.buf = some cells ∧ cells.length = 2 ^ v.exp := by
  obtain ⟨hbare, hgrow⟩ := hok t r rfl
  have hroomy : ∃ v, (if Full s.vec then grow size r s.vec else (0, s.vec)) = (0, v) ∧
      Roomy v s.list := by
    by_cases hfull : Full s.vec
    · obtain ⟨⟨junk, rfl⟩, hfits⟩ := hgrow hfull
      rw [if_pos hfull]
      exact h.roomy_grow hsize junk hfits
    · refine ⟨s.vec, if_neg hfull, h.roomy_of_not_full hfull fun hnone => hfull ?_⟩
      exact full_of_exp_zero (hbare hnone)
  obtain ⟨v, hprepared, hroomy⟩ := hroomy
  obtain ⟨w, hstore, hrep, hroom⟩ := hroomy.store t
  refine ⟨{ w with len := w.len + 1 }, ?_, hrep, hroom⟩
  rw [SglibVectors.pushBack, hprepared]
  dsimp only
  rw [if_neg (by decide), hstore, Option.map_some]

end Growing

section Steps

variable {size : ℕ}

theorem Inv.holds {s s' : State α} {op : Op α} (h : Inv s') (hop : ∀ t r, op ≠ .pushBack t r) :
    Holds size op s s' where
  inside := h.inside
  represents := h.represents
  unchanged := fun t r heq => absurd heq (hop t r)

theorem inv_started : Inv (started : State α) where
  inside := rfl
  represents := Represents.none rfl
  room := fun cells h => by cases h
  bare := fun _ => Nat.zero_le 1

/-- A vector without a buffer stands for the empty list. -/
theorem Inv.emptied {s : State α} (h : Inv s) (exp : ℕ) (hexp : exp ≤ 1) :
    Inv (⟨⟨none, 0, exp⟩, [], s.outside⟩ : State α) where
  inside := h.inside
  represents := Represents.none rfl
  room := fun cells hbuf => by cases hbuf
  bare := fun _ => hexp

theorem Inv.popped {s : State α} {t : α} {v : Vec α} (h : Inv s)
    (hpop : popBack s.vec = some (t, v)) :
    Inv { s with vec := v, list := s.list.dropLast } := by
  obtain ⟨-, hrep, hbuf, hexp⟩ := h.represents.popBack hpop
  refine ⟨h.inside, hrep, fun cells hcells => ?_, fun hnone => ?_⟩
  · dsimp only at hcells ⊢
    rw [hexp]
    exact h.room cells (hbuf ▸ hcells)
  · dsimp only at hnone ⊢
    rw [hexp]
    exact h.bare (hbuf ▸ hnone)

/-- `set` writes to a place of the list, or refuses an index beyond it. -/
theorem Inv.set {s : State α} (h : Inv s) (t : α) (i : ℕ) :
    ∃ rc v, set t i s.vec = some (rc, v) ∧ Inv { s with vec := v, list := s.list.set i t } := by
  by_cases hi : s.vec.len ≤ i
  · refine ⟨Errno.einval.rc, s.vec, if_pos hi, h.inside, ?_, h.room, h.bare⟩
    have hlen := h.represents.length
    dsimp only
    rw [List.set_eq_of_length_le (by omega)]
    exact h.represents
  · rcases h.represents with ⟨-, hzero, -⟩ | ⟨cells, hbuf, hle, -⟩
    · omega
    · have hstore : store s.vec i t = some { s.vec with buf := some (cells.set i t) } := by
        rw [SglibVectors.store, hbuf]
        exact if_pos (by omega)
      refine ⟨0, { s.vec with buf := some (cells.set i t) }, ?_, h.inside,
        h.represents.store (by omega) hstore, fun cells' hcells => ?_, fun hnone => ?_⟩
      · rw [SglibVectors.set, if_neg hi, hstore, Option.map_some]
      · dsimp only at hcells ⊢
        rw [← Option.some.inj hcells, List.length_set]
        exact h.room cells hbuf
      · cases hnone

/-- What one operation keeps. -/
theorem Inv.step (hsize : 0 < size) {s s' : State α} {op : Op α} (h : Inv s)
    (hok : Ok size op s) (hstep : step size op s = some s') : Inv s' ∧ Holds size op s s' := by
  cases op with
  | init =>
    cases Option.some.inj hstep
    have hinv := h.emptied 0 (Nat.zero_le 1)
    exact ⟨hinv, hinv.holds (by simp)⟩
  | pushBack t r =>
    obtain ⟨v, hpush, hrep, cells, hbuf, hroom⟩ := h.pushBack hsize t r hok
    rw [SglibVectors.step, hpush] at hstep
    cases Option.some.inj hstep
    have hinv : Inv { s with vec := v, list := s.list ++ [t] } := by
      refine ⟨h.inside, hrep, fun cells' hcells => ?_, fun hnone => ?_⟩
      · cases Option.some.inj (hbuf.symm.trans hcells)
        exact hroom
      · dsimp only at hnone
        rw [hbuf] at hnone
        cases hnone
    refine ⟨hinv, hinv.inside, hinv.represents, fun t' r' heq hfailed => ?_⟩
    cases heq
    rw [hpush] at hfailed
    cases hfailed
  | popBack =>
    obtain ⟨⟨t, v⟩, hpop, heq⟩ := Option.map_eq_some_iff.mp hstep
    cases heq
    have hinv := h.popped hpop
    exact ⟨hinv, hinv.holds (by simp)⟩
  | set t i =>
    obtain ⟨rc, v, hset, hinv⟩ := h.set t i
    rw [SglibVectors.step, hset] at hstep
    cases Option.some.inj hstep
    exact ⟨hinv, hinv.holds (by simp)⟩
  | elemAt i =>
    obtain ⟨t, -, rfl⟩ := Option.map_eq_some_iff.mp hstep
    exact ⟨h, h.holds (by simp)⟩
  | clear =>
    cases Option.some.inj hstep
    have hinv := h.emptied 0 (Nat.zero_le 1)
    exact ⟨hinv, hinv.holds (by simp)⟩
  | yoink =>
    cases Option.some.inj hstep
    have hinv := h.emptied 1 le_rfl
    exact ⟨hinv, hinv.holds (by simp)⟩

/-- Apart from sizes that overflow, no other `push_back` does what is asked of it. -/
theorem Inv.ok_of_holds {s s' : State α} {t : α} {r : Realloc α} (h : Inv s)
    (hstep : SglibVectors.step size (.pushBack t r) s = some s')
    (hholds : Holds size (.pushBack t r) s s') :
    (s.vec.buf = none → s.vec.exp = 0) ∧ (Full s.vec → ∃ junk, r = .succeeds junk) := by
  constructor
  · intro hnone
    by_contra hexp
    have hone : s.vec.exp = 1 := by
      have hle := h.bare hnone
      omega
    have hlen : s.vec.len = 0 := by
      rcases h.represents with ⟨-, hlen, -⟩ | ⟨cells, hbuf, -, -⟩
      · exact hlen
      · rw [hnone] at hbuf
        cases hbuf
    rw [SglibVectors.step, pushBack_bare t r hnone hlen hone] at hstep
    cases Option.some.inj hstep
    cases hholds.inside
  · intro hfull
    cases r with
    | succeeds junk => exact ⟨junk, rfl⟩
    | fails =>
      have hpush : SglibVectors.pushBack size t .fails s.vec = _ := pushBack_fails t hfull
      have hsame := hholds.unchanged t .fails rfl (by rw [hpush]; rfl)
      rw [SglibVectors.step, hpush] at hstep
      cases Option.some.inj hstep
      have hexp := congrArg Vec.exp hsame
      exact absurd hexp (Nat.succ_ne_self _)

/-- After each operation of a run whose calls of `push_back` meet the condition, the vector
represents its list. -/
theorem holds_of_run (hsize : 0 < size) {ops pre post : List (Op α)} {op : Op α}
    {s s' : State α} (hok : Guarded (step size) (Ok size) ops started)
    (hops : ops = pre ++ op :: post) (hpre : run (step size) pre started = some s)
    (hstep : SglibVectors.step size op s = some s') : Holds size op s s' := by
  subst hops
  obtain ⟨hbefore, hafter⟩ := guarded_append (step size) hok
  have hinv : Inv s := guarded_invariant (step size) Inv
    (fun op s s' hop h hs => (h.step hsize hop hs).1) hbefore inv_started hpre
  exact (hinv.step hsize (hafter s hpre).1 hstep).2

/-- Elements of eight bytes: the vector grows twice, an element is taken off and the other one is
set, one is added without growing, and the vector is cleared and used again. -/
def usedVector : List (Op ℕ) :=
  [.pushBack 7 (.succeeds fun _ => 0), .pushBack 8 (.succeeds fun _ => 0), .popBack, .set 5 0,
    .pushBack 9 .fails, .clear, .pushBack 6 (.succeeds fun _ => 0)]

theorem usedVector_ok : Guarded (SglibVectors.step 8) (Ok 8) usedVector started := by
  have hsucceeds (t : ℕ) (s : State ℕ) (hbare : s.vec.buf = none → s.vec.exp = 0)
      (hexp : s.vec.exp ≤ 1) : Ok 8 (.pushBack t (.succeeds fun _ => 0)) s := by
    rintro _ _ ⟨⟩
    refine ⟨hbare, fun _ => ⟨⟨_, rfl⟩, ?_⟩⟩
    have hpow : 2 ^ (s.vec.exp + 1) ≤ 2 ^ 2 := Nat.pow_le_pow_right (by decide) (by omega)
    omega
  refine ⟨hsucceeds 7 started (fun _ => rfl) (by decide), fun s hs => ?_⟩
  obtain rfl : s = ⟨⟨some [7, 0], 1, 1⟩, [7], false⟩ := (Option.some.inj hs).symm
  refine ⟨hsucceeds 8 _ (fun hnone => absurd hnone (by decide)) (by decide), fun s hs => ?_⟩
  obtain rfl : s = ⟨⟨some [7, 8, 0, 0], 2, 2⟩, [7, 8], false⟩ := (Option.some.inj hs).symm
  refine ⟨by rintro _ _ ⟨⟩, fun s hs => ?_⟩
  obtain rfl : s = ⟨⟨some [7, 8, 0, 0], 1, 2⟩, [7], false⟩ := (Option.some.inj hs).symm
  refine ⟨by rintro _ _ ⟨⟩, fun s hs => ?_⟩
  obtain rfl : s = ⟨⟨some [5, 8, 0, 0], 1, 2⟩, [5], false⟩ := (Option.some.inj hs).symm
  refine ⟨?_, fun s hs => ?_⟩
  · rintro _ _ ⟨⟩
    exact ⟨fun hnone => absurd hnone (by decide), fun hfull => absurd hfull (by decide)⟩
  obtain rfl : s = ⟨⟨some [5, 9, 0, 0], 2, 2⟩, [5, 9], false⟩ := (Option.some.inj hs).symm
  refine ⟨by rintro _ _ ⟨⟩, fun s hs => ?_⟩
  obtain rfl : s = ⟨⟨none, 0, 0⟩, [], false⟩ := (Option.some.inj hs).symm
  exact ⟨hsucceeds 6 _ (fun _ => rfl) (by decide), fun _ _ => trivial⟩

theorem holds_of_run_used :
    Holds 8 (.pushBack 9 .fails) (⟨⟨some [5, 8, 0, 0], 1, 2⟩, [5], false⟩ : State ℕ)
      ⟨⟨some [5, 9, 0, 0], 2, 2⟩, [5, 9], false⟩ := by
  have hops : usedVector =
      [.pushBack 7 (.succeeds fun _ => 0), .pushBack 8 (.succeeds fun _ => 0), .popBack,
        .set 5 0] ++ .pushBack 9 .fails :: [.clear, .pushBack 6 (.succeeds fun _ => 0)] := rfl
  exact holds_of_run (by decide) usedVector_ok hops rfl rfl

/-- A `push_back` that fails leaves another vector behind. -/
theorem not_holds_of_run :
    ¬∀ (ops pre post : List (Op ℕ)) (op : Op ℕ) (s s' : State ℕ), ops = pre ++ op :: post →
      run (SglibVectors.step 8) pre started = some s → SglibVectors.step 8 op s = some s' →
      Holds 8 op s s' := by
  intro h
  have hholds := h [.pushBack 7 .fails] [] [] (.pushBack 7 .fails) started
    ⟨⟨none, 0, 1⟩, [], false⟩ rfl rfl rfl
  have hsame := hholds.unchanged 7 .fails rfl rfl
  exact absurd (congrArg Vec.exp hsame) (by decide)

end Steps

end Vdev.SglibVectors
