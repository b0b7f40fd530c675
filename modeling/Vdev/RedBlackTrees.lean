import Mathlib.Data.List.Sort
import Mathlib.Tactic

/-!
Binary trees whose nodes carry a colour. In a balanced tree no red node has a
red son, and all paths to the leaves meet the same number of black nodes. A
balanced tree is low: its height is at most twice the binary logarithm of its
size. The elements of a search tree are listed in order, and a three-way
comparison with the node finds what it looks for.
-/
namespace Vdev.RedBlackTrees

inductive Color
  | red | black
  deriving DecidableEq, Repr

inductive ColoredTree (α : Type*)
  | nil
  | node (bits : Color) (left : ColoredTree α) (elem : α) (right : ColoredTree α)
  deriving DecidableEq, Repr

namespace ColoredTree

variable {α : Type*}

def toList : ColoredTree α → List α
  | nil => []
  | node _ l x r => l.toList ++ x :: r.toList

def size : ColoredTree α → ℕ
  | nil => 0
  | node _ l _ r => l.size + r.size + 1

def height : ColoredTree α → ℕ
  | nil => 0
  | node _ l _ r => max l.height r.height + 1

def isRed : ColoredTree α → Bool
  | node .red _ _ _ => true
  | _ => false

def setBits (bits : Color) : ColoredTree α → ColoredTree α
  | nil => nil
  | node _ l x r => node bits l x r

def mirror : ColoredTree α → ColoredTree α
  | nil => nil
  | node bits l x r => node bits r.mirror x l.mirror

@[simp] theorem toList_nil : (nil : ColoredTree α).toList = [] := rfl

@[simp] theorem toList_node (bits : Color) (l : ColoredTree α) (x : α) (r : ColoredTree α) :
    (node bits l x r).toList = l.toList ++ x :: r.toList := rfl

@[simp] theorem mirror_node (bits : Color) (l : ColoredTree α) (x : α) (r : ColoredTree α) :
    (node bits l x r).mirror = node bits r.mirror x l.mirror := rfl

@[simp] theorem setBits_node (bits bits' : Color) (l : ColoredTree α) (x : α)
    (r : ColoredTree α) : (node bits l x r).setBits bits' = node bits' l x r := rfl

@[simp] theorem toList_setBits (bits : Color) (t : ColoredTree α) :
    (t.setBits bits).toList = t.toList := by
  cases t <;> rfl

@[simp] theorem mirror_mirror (t : ColoredTree α) : t.mirror.mirror = t := by
  induction t with
  | nil => rfl
  | node bits l x r ihl ihr => rw [mirror_node, mirror_node, ihl, ihr]

theorem toList_mirror (t : ColoredTree α) : t.mirror.toList = t.toList.reverse := by
  induction t with
  | nil => rfl
  | node bits l x r ihl ihr => simp [ihl, ihr]

theorem length_toList (t : ColoredTree α) : t.toList.length = t.size := by
  induction t with
  | nil => rfl
  | node bits l x r ihl ihr =>
    rw [toList_node, List.length_append, List.length_cons, ihl, ihr, size]
    omega

/-- A balanced tree with the colour of its root and the number of black nodes on
each path. A leaf counts as black. -/
inductive Balanced : ColoredTree α → Color → ℕ → Prop
  | nil : Balanced nil .black 0
  | red {l r : ColoredTree α} {x : α} {n : ℕ} (hl : Balanced l .black n)
      (hr : Balanced r .black n) : Balanced (node .red l x r) .red n
  | black {l r : ColoredTree α} {x : α} {cl cr : Color} {n : ℕ} (hl : Balanced l cl n)
      (hr : Balanced r cr n) : Balanced (node .black l x r) .black (n + 1)

theorem Balanced.mirror {t : ColoredTree α} {c : Color} {n : ℕ} (h : t.Balanced c n) :
    t.mirror.Balanced c n := by
  induction h with
  | nil => exact .nil
  | red _ _ ihl ihr => exact .red ihr ihl
  | black _ _ ihl ihr => exact .black ihr ihl

theorem Balanced.isRed_eq {t : ColoredTree α} {c : Color} {n : ℕ} (h : t.Balanced c n) :
    t.isRed = (c == .red) := by
  cases h <;> rfl

theorem Balanced.blacken {t : ColoredTree α} {c : Color} {n : ℕ} (h : t.Balanced c n) :
    ∃ m, (t.setBits .black).Balanced .black m := by
  cases h with
  | nil => exact ⟨0, .nil⟩
  | red hl hr => exact ⟨_, .black hl hr⟩
  | black hl hr => exact ⟨_, .black hl hr⟩

theorem Balanced.blacken_red {t : ColoredTree α} {n : ℕ} (h : t.Balanced .red n) :
    (t.setBits .black).Balanced .black (n + 1) := by
  cases h with
  | red hl hr => exact .black hl hr

theorem Balanced.two_pow_le {t : ColoredTree α} {c : Color} {n : ℕ} (h : t.Balanced c n) :
    2 ^ n ≤ t.size + 1 := by
  induction h with
  | nil => exact le_rfl
  | red _ _ ihl ihr =>
    rw [size]
    omega
  | black _ _ ihl ihr =>
    rw [size, pow_succ]
    omega

theorem Balanced.height_le {t : ColoredTree α} {c : Color} {n : ℕ} (h : t.Balanced c n) :
    t.height ≤ 2 * n + if c = .red then 1 else 0 := by
  induction h with
  | nil => exact le_rfl
  | red _ _ ihl ihr =>
    simp only [height, reduceCtorEq, if_false, if_true] at ihl ihr ⊢
    omega
  | @black l r x cl cr n hl hr ihl ihr =>
    have hone : ∀ c : Color, (if c = .red then 1 else 0) ≤ 1 := fun c => by split_ifs <;> omega
    have hcl := hone cl
    have hcr := hone cr
    simp only [height, reduceCtorEq, if_false]
    omega

/-- A balanced tree with a black root and fewer than `2 ^ k - 1` elements has a
height below `2 * k`. -/
theorem Balanced.height_lt {t : ColoredTree α} {n k : ℕ} (h : t.Balanced .black n)
    (hsize : t.size + 1 < 2 ^ k) : t.height < 2 * k := by
  have hheight := h.height_le
  have hpow : 2 ^ n < 2 ^ k := lt_of_le_of_lt h.two_pow_le hsize
  have hn : n < k := (Nat.pow_lt_pow_iff_right (by omega)).mp hpow
  simp only [reduceCtorEq, if_false] at hheight
  omega

/-- The root is red, and so is one of its sons; this is the only place with two red
nodes in a row. -/
inductive Loose : ColoredTree α → ℕ → Prop
  | left {l r : ColoredTree α} {x : α} {n : ℕ} (hl : Balanced l .red n)
      (hr : Balanced r .black n) : Loose (node .red l x r) n
  | right {l r : ColoredTree α} {x : α} {n : ℕ} (hl : Balanced l .black n)
      (hr : Balanced r .red n) : Loose (node .red l x r) n

theorem Loose.mirror {t : ColoredTree α} {n : ℕ} (h : t.Loose n) : t.mirror.Loose n := by
  cases h with
  | left hl hr => exact .right hr.mirror hl.mirror
  | right hl hr => exact .left hr.mirror hl.mirror

theorem Loose.blacken {t : ColoredTree α} {n : ℕ} (h : t.Loose n) :
    (t.setBits .black).Balanced .black (n + 1) := by
  cases h with
  | left hl hr => exact .black hl hr
  | right hl hr => exact .black hl hr

def Ordered {β : Type*} [LinearOrder β] (rank : α → β) (t : ColoredTree α) : Prop :=
  t.toList.Pairwise (fun a b => rank a < rank b)

end ColoredTree

section Ranks

variable {α β : Type*} [LinearOrder β] (rank : α → β)

def insertRank (x : α) (xs : List α) : List α :=
  xs.orderedInsert (fun a b => rank a < rank b) x

def eraseRank (x : α) (xs : List α) : List α := xs.filter fun y => rank y ≠ rank x

variable {rank}

theorem mem_insertRank {x y : α} {xs : List α} : y ∈ insertRank rank x xs ↔ y = x ∨ y ∈ xs :=
  List.mem_orderedInsert (fun a b => rank a < rank b)

theorem insertRank_left {x t : α} (h : rank x < rank t) (l r : List α) :
    insertRank rank x (l ++ t :: r) = insertRank rank x l ++ t :: r := by
  induction l with
  | nil => simp [insertRank, h]
  | cons y l ih =>
    simp only [insertRank, List.cons_append, List.orderedInsert_cons] at ih ⊢
    split_ifs
    · rfl
    · rw [ih, List.cons_append]

theorem insertRank_right {x t : α} (h : ¬rank x < rank t) {l : List α} (r : List α)
    (hl : ∀ y ∈ l, rank y < rank t) :
    insertRank rank x (l ++ t :: r) = l ++ t :: insertRank rank x r := by
  induction l with
  | nil => simp [insertRank, h]
  | cons y l ih =>
    have hy : ¬rank x < rank y := fun hxy => h (hxy.trans (hl y List.mem_cons_self))
    have hrest := ih fun z hz => hl z (List.mem_cons_of_mem _ hz)
    simp only [insertRank, List.cons_append, List.orderedInsert_cons, if_neg hy] at hrest ⊢
    rw [hrest]

theorem pairwise_insertRank {x : α} {xs : List α}
    (hsorted : xs.Pairwise (fun a b => rank a < rank b)) (hnew : ∀ y ∈ xs, rank y ≠ rank x) :
    (insertRank rank x xs).Pairwise (fun a b => rank a < rank b) := by
  induction xs with
  | nil => exact List.pairwise_singleton _ _
  | cons y xs ih =>
    have hy := List.pairwise_cons.mp hsorted
    rw [insertRank, List.orderedInsert_cons]
    split_ifs with hlt
    · refine List.pairwise_cons.mpr ⟨fun z hz => ?_, hsorted⟩
      rcases List.mem_cons.mp hz with rfl | hz
      · exact hlt
      · exact hlt.trans (hy.1 z hz)
    · refine List.pairwise_cons.mpr ⟨fun z hz => ?_, ?_⟩
      · rcases mem_insertRank.mp hz with rfl | hz
        · exact lt_of_le_of_ne (not_lt.mp hlt) (hnew y List.mem_cons_self)
        · exact hy.1 z hz
      · exact ih hy.2 fun z hz => hnew z (List.mem_cons_of_mem _ hz)

theorem pairwise_eraseRank {xs : List α} (x : α)
    (hsorted : xs.Pairwise (fun a b => rank a < rank b)) :
    (eraseRank rank x xs).Pairwise (fun a b => rank a < rank b) := hsorted.filter _

theorem eraseRank_of_forall {x : α} {xs : List α} (h : ∀ y ∈ xs, rank y ≠ rank x) :
    eraseRank rank x xs = xs :=
  List.filter_eq_self.mpr fun y hy => decide_eq_true (h y hy)

theorem eraseRank_append_cons (x t : α) (l r : List α) :
    eraseRank rank x (l ++ t :: r) =
      eraseRank rank x l ++ (if rank t = rank x then [] else [t]) ++ eraseRank rank x r := by
  rw [eraseRank, List.filter_append, List.filter_cons]
  by_cases ht : rank t = rank x
  · simp [ht, eraseRank]
  · simp [ht, eraseRank]

namespace ColoredTree

variable {bits : Color} {l r : ColoredTree α} {t : α}

theorem Ordered.left (h : Ordered rank (node bits l t r)) : Ordered rank l :=
  (List.pairwise_append.mp h).1

theorem Ordered.right (h : Ordered rank (node bits l t r)) : Ordered rank r :=
  (List.pairwise_cons.mp (List.pairwise_append.mp h).2.1).2

theorem Ordered.lt_root (h : Ordered rank (node bits l t r)) {y : α} (hy : y ∈ l.toList) :
    rank y < rank t := (List.pairwise_append.mp h).2.2 y hy t List.mem_cons_self

theorem Ordered.root_lt (h : Ordered rank (node bits l t r)) {y : α} (hy : y ∈ r.toList) :
    rank t < rank y := (List.pairwise_cons.mp (List.pairwise_append.mp h).2.1).1 y hy

/-- Where an element with a given rank is. -/
theorem Ordered.mem_cases (h : Ordered rank (node bits l t r)) {b : β}
    (hmem : ∃ y ∈ (node bits l t r).toList, rank y = b) :
    (b < rank t ∧ ∃ y ∈ l.toList, rank y = b) ∨ rank t = b ∨
      (rank t < b ∧ ∃ y ∈ r.toList, rank y = b) := by
  obtain ⟨y, hy, rfl⟩ := hmem
  rcases List.mem_append.mp hy with hy | hy
  · exact Or.inl ⟨h.lt_root hy, y, hy, rfl⟩
  · rcases List.mem_cons.mp hy with rfl | hy
    · exact Or.inr (Or.inl rfl)
    · exact Or.inr (Or.inr ⟨h.root_lt hy, y, hy, rfl⟩)

/-- Deletion of an element on the left leaves the root and the right alone. -/
theorem Ordered.erase_left (h : Ordered rank (node bits l t r)) {x : α} (hx : rank x < rank t) :
    eraseRank rank x (node bits l t r).toList = eraseRank rank x l.toList ++ t :: r.toList := by
  have hr : eraseRank rank x r.toList = r.toList :=
    eraseRank_of_forall fun y hy => ne_of_gt (hx.trans (h.root_lt hy))
  rw [toList_node, eraseRank_append_cons, if_neg (ne_of_gt hx), hr, List.append_assoc]
  rfl

theorem Ordered.erase_right (h : Ordered rank (node bits l t r)) {x : α} (hx : rank t < rank x) :
    eraseRank rank x (node bits l t r).toList = l.toList ++ t :: eraseRank rank x r.toList := by
  have hl : eraseRank rank x l.toList = l.toList :=
    eraseRank_of_forall fun y hy => ne_of_lt ((h.lt_root hy).trans hx)
  rw [toList_node, eraseRank_append_cons, if_neg (ne_of_lt hx), hl, List.append_assoc]
  rfl

theorem Ordered.erase_root (h : Ordered rank (node bits l t r)) {x : α} (hx : rank t = rank x) :
    eraseRank rank x (node bits l t r).toList = l.toList ++ r.toList := by
  have hl : eraseRank rank x l.toList = l.toList :=
    eraseRank_of_forall fun y hy => hx ▸ ne_of_lt (h.lt_root hy)
  have hr : eraseRank rank x r.toList = r.toList :=
    eraseRank_of_forall fun y hy => hx ▸ ne_of_gt (h.root_lt hy)
  rw [toList_node, eraseRank_append_cons, if_pos hx, hl, hr, List.append_nil]

end ColoredTree

end Ranks

end Vdev.RedBlackTrees
