import Vdev.SglibTrees
import Vdev.Runs
import Mathlib.Data.Prod.Lex

/-!
What the calls of the sglib trees do to the list of the elements. The elements
are in the order of their keys and addresses; an insertion puts one at its
place, a deletion takes one out, and a search by key finds an element with the
key if there is one. Between two calls a tree is consistent: in every run of the
calls no assertion fails, and the consistency check of sglib passes.
-/
namespace Vdev.SglibTrees

open RedBlackTrees RedBlackTrees.ColoredTree Runs

section Order
variable {α κ : Type*} [LinearOrder κ] (key : α → κ) (address : α → ℕ)

/-- The order of the elements: by key, and by address under one key. -/
def rank (x : α) : κ ×ₗ ℕ := toLex (key x, address x)

theorem goesLeft_iff {x y : α} :
    goesLeft key address x y ↔ rank key address x < rank key address y := by
  simp [goesLeft, rank, Prod.Lex.toLex_lt_toLex]

theorem goesRight_iff {x y : α} :
    goesRight key address x y ↔ rank key address y < rank key address x := by
  have hcomm : key x = key y ↔ key y = key x := eq_comm
  simp [goesRight, rank, Prod.Lex.toLex_lt_toLex, hcomm]

omit [LinearOrder κ] in
theorem rank_inj {x y : α} :
    rank key address x = rank key address y ↔ key x = key y ∧ address x = address y := by
  simp [rank]

theorem toList_addRecursive (elem : α) {t t' : ColoredTree α}
    (hord : Ordered (rank key address) t) (h : addRecursive key address elem t = some t') :
    t'.toList = insertRank (rank key address) elem t.toList := by
  induction t generalizing t' with
  | nil =>
    cases h
    rfl
  | node bits l x r ihl ihr =>
    by_cases hleft : goesLeft key address elem x
    · rw [addRecursive_left key address hleft] at h
      obtain ⟨l', hadd, hfix⟩ := Option.bind_eq_some_iff.mp h
      have hlist : t'.toList = (node bits l' x r).toList := by
        split_ifs at hfix
        · exact toList_fixInsertionDiscrepancy hfix
        · cases hfix
          rfl
      rw [hlist, toList_node, ihl hord.left hadd, toList_node,
        insertRank_left ((goesLeft_iff key address).mp hleft)]
    · rw [addRecursive_right key address hleft] at h
      obtain ⟨r', hadd, hfix⟩ := Option.bind_eq_some_iff.mp h
      have hlist : t'.toList = (node bits l x r').toList := by
        split_ifs at hfix
        · exact toList_fixRightInsertionDiscrepancy hfix
        · cases hfix
          rfl
      rw [hlist, toList_node, ihr hord.right hadd, toList_node,
        insertRank_right (fun hlt => hleft ((goesLeft_iff key address).mpr hlt)) _
          fun y hy => hord.lt_root hy]

theorem toList_deleteRightmostLeaf {t t' : ColoredTree α} {theLeaf : α} {res : Bool}
    (h : deleteRightmostLeaf t = some (t', theLeaf, res)) :
    t.toList = t'.toList ++ [theLeaf] := by
  induction t generalizing t' theLeaf res with
  | nil => cases h
  | node bits l x r ihl ihr =>
    cases r with
    | nil =>
      cases l with
      | nil =>
        cases h
        rfl
      | node lBits ll y lr =>
        cases h
        rfl
    | node rBits rl y rr =>
      rw [deleteRightmostLeaf_right] at h
      obtain ⟨⟨r', leaf, deep⟩, hdel, hfix⟩ := Option.bind_eq_some_iff.mp h
      have hlist : t'.toList = (node bits l x r').toList ∧ theLeaf = leaf := by
        cases deep with
        | true =>
          obtain ⟨⟨u, res'⟩, hu, heq⟩ := Option.bind_eq_some_iff.mp hfix
          cases heq
          exact ⟨toList_fixDeletionDiscrepancy hu, rfl⟩
        | false =>
          cases hfix
          exact ⟨rfl, rfl⟩
      rw [toList_node, ihr hdel, hlist.1, hlist.2, toList_node, List.append_assoc,
        List.cons_append]

theorem toList_deleteHere {bits : Color} {l r t' : ColoredTree α} {res : Bool}
    (h : deleteHere bits l r = some (t', res)) : t'.toList = l.toList ++ r.toList := by
  cases l with
  | nil =>
    cases r with
    | nil =>
      cases h
      rfl
    | node rBits rl x rr =>
      cases h
      rfl
  | node lBits ll x lr =>
    rw [deleteHere_left] at h
    obtain ⟨⟨l', leaf, deep⟩, hdel, hfix⟩ := Option.bind_eq_some_iff.mp h
    have hlist : t'.toList = (node bits l' leaf r).toList := by
      cases deep with
      | true => exact toList_fixLeftDeletionDiscrepancy hfix
      | false =>
        cases hfix
        rfl
    rw [hlist, toList_deleteRightmostLeaf hdel, toList_node, List.append_assoc]
    rfl

theorem deleteRecursive_left {elem t : α} (h : goesLeft key address elem t) (bits : Color)
    (l r : ColoredTree α) :
    deleteRecursive key address elem (.node bits l t r) =
      (deleteRecursive key address elem l).bind fun p =>
        if p.2 then fixLeftDeletionDiscrepancy (.node bits p.1 t r)
        else some (.node bits p.1 t r, false) := if_pos h

theorem deleteRecursive_right {elem t : α} (hl : ¬goesLeft key address elem t)
    (hr : goesRight key address elem t) (bits : Color) (l r : ColoredTree α) :
    deleteRecursive key address elem (.node bits l t r) =
      (deleteRecursive key address elem r).bind fun p =>
        if p.2 then fixRightDeletionDiscrepancy (.node bits l t p.1)
        else some (.node bits l t p.1, false) := (if_neg hl).trans (if_pos hr)

theorem deleteRecursive_here {elem t : α} (h : rank key address t = rank key address elem)
    (bits : Color) (l r : ColoredTree α) :
    deleteRecursive key address elem (.node bits l t r) = deleteHere bits l r := by
  have hl : ¬goesLeft key address elem t := fun hlt =>
    absurd ((goesLeft_iff key address).mp hlt) (h ▸ lt_irrefl _)
  have hr : ¬goesRight key address elem t := fun hlt =>
    absurd ((goesRight_iff key address).mp hlt) (h ▸ lt_irrefl _)
  exact (if_neg hl).trans ((if_neg hr).trans (if_pos ((rank_inj key address).mp h).2.symm))

/-- What follows a deletion in the left son. -/
theorem lowered_left {bits c : Color} {l r : ColoredTree α} {x : α} {n : ℕ}
    {del : Option (ColoredTree α × Bool)} (h : Balanced (.node bits l x r) c n)
    (hdel : ∀ {cl : Color} {k : ℕ}, Balanced l cl k →
      ∃ l' deep, del = some (l', deep) ∧ Lowered cl k l' deep) :
    ∃ t' res, (del.bind fun p =>
      if p.2 then fixLeftDeletionDiscrepancy (.node bits p.1 x r)
      else some (.node bits p.1 x r, false)) = some (t', res) ∧ Lowered c n t' res := by
  cases h with
  | red hl hr =>
    obtain ⟨l', deep, rfl, hlow⟩ := hdel hl
    cases deep with
    | true => exact fixLeftDeletionDiscrepancy_red hlow hr
    | false => exact ⟨_, _, rfl, .red, .red (hlow.black_of_false rfl) hr, by simp⟩
  | black hl hr =>
    obtain ⟨l', deep, rfl, hlow⟩ := hdel hl
    cases deep with
    | true => exact fixLeftDeletionDiscrepancy_black hlow hr
    | false =>
      obtain ⟨c', hbal, -⟩ := hlow
      exact ⟨_, _, rfl, .black, .black hbal hr, fun _ => rfl⟩

theorem lowered_right {bits c : Color} {l r : ColoredTree α} {x : α} {n : ℕ}
    {del : Option (ColoredTree α × Bool)} (h : Balanced (.node bits l x r) c n)
    (hdel : ∀ {cr : Color} {k : ℕ}, Balanced r cr k →
      ∃ r' deep, del = some (r', deep) ∧ Lowered cr k r' deep) :
    ∃ t' res, (del.bind fun p =>
      if p.2 then fixRightDeletionDiscrepancy (.node bits l x p.1)
      else some (.node bits l x p.1, false)) = some (t', res) ∧ Lowered c n t' res := by
  cases h with
  | red hl hr =>
    obtain ⟨r', deep, rfl, hlow⟩ := hdel hr
    cases deep with
    | true => exact fixDeletionDiscrepancy_red hl hlow
    | false => exact ⟨_, _, rfl, .red, .red hl (hlow.black_of_false rfl), by simp⟩
  | black hl hr =>
    obtain ⟨r', deep, rfl, hlow⟩ := hdel hr
    cases deep with
    | true => exact fixDeletionDiscrepancy_black hl hlow
    | false =>
      obtain ⟨c', hbal, -⟩ := hlow
      exact ⟨_, _, rfl, .black, .black hl hbal, fun _ => rfl⟩

/-- The deletion of a member meets no failing assertion and keeps the balance. -/
theorem deleteRecursive_balanced {elem : α} {t : ColoredTree α} {c : Color} {n : ℕ}
    (h : Balanced t c n) (hord : Ordered (rank key address) t)
    (hmem : ∃ y ∈ t.toList, rank key address y = rank key address elem) :
    ∃ t' res, deleteRecursive key address elem t = some (t', res) ∧ Lowered c n t' res := by
  induction t generalizing c n with
  | nil =>
    obtain ⟨y, hy, -⟩ := hmem
    cases hy
  | node bits l x r ihl ihr =>
    rcases hord.mem_cases hmem with ⟨hlt, hmem⟩ | heq | ⟨hlt, hmem⟩
    · rw [deleteRecursive_left key address ((goesLeft_iff key address).mpr hlt)]
      exact lowered_left h fun hl => ihl hl hord.left hmem
    · rw [deleteRecursive_here key address heq]
      exact deleteHere_balanced h
    · rw [deleteRecursive_right key address
        (fun h => lt_asymm hlt ((goesLeft_iff key address).mp h))
        ((goesRight_iff key address).mpr hlt)]
      exact lowered_right h fun hr => ihr hr hord.right hmem

theorem toList_deleteRecursive {elem : α} {t t' : ColoredTree α} {res : Bool}
    (hord : Ordered (rank key address) t)
    (h : deleteRecursive key address elem t = some (t', res)) :
    t'.toList = eraseRank (rank key address) elem t.toList := by
  induction t generalizing t' res with
  | nil => cases h
  | node bits l x r ihl ihr =>
    rcases lt_trichotomy (rank key address elem) (rank key address x) with hlt | heq | hlt
    · rw [deleteRecursive_left key address ((goesLeft_iff key address).mpr hlt)] at h
      obtain ⟨⟨l', deep⟩, hdel, hfix⟩ := Option.bind_eq_some_iff.mp h
      have hlist : t'.toList = (node bits l' x r).toList := by
        cases deep with
        | true => exact toList_fixLeftDeletionDiscrepancy hfix
        | false =>
          cases hfix
          rfl
      rw [hlist, toList_node, ihl hord.left hdel, hord.erase_left hlt]
    · rw [deleteRecursive_here key address heq.symm] at h
      rw [toList_deleteHere h, hord.erase_root heq.symm]
    · rw [deleteRecursive_right key address
        (fun h => lt_asymm hlt ((goesLeft_iff key address).mp h))
        ((goesRight_iff key address).mpr hlt)] at h
      obtain ⟨⟨r', deep⟩, hdel, hfix⟩ := Option.bind_eq_some_iff.mp h
      have hlist : t'.toList = (node bits l x r').toList := by
        cases deep with
        | true => exact toList_fixDeletionDiscrepancy hfix
        | false =>
          cases hfix
          rfl
      rw [hlist, toList_node, ihr hord.right hdel, hord.erase_right hlt]

structure Consistent (t : ColoredTree α) : Prop where
  balanced : ∃ n, Balanced t .black n
  ordered : Ordered (rank key address) t

variable {key address}

theorem key_le_of_rank_lt {x y : α} (h : rank key address x < rank key address y) :
    key x ≤ key y := by
  rcases Prod.Lex.toLex_lt_toLex.mp h with hlt | ⟨heq, -⟩
  · exact hlt.le
  · exact heq.le

theorem Consistent.nil : Consistent key address (.nil : ColoredTree α) :=
  ⟨⟨0, .nil⟩, List.Pairwise.nil⟩

theorem Consistent.add {t : ColoredTree α} (h : Consistent key address t) (elem : α)
    (hnew : ∀ y ∈ t.toList, rank key address y ≠ rank key address elem) :
    ∃ t', SglibTrees.add key address t elem = some t' ∧ Consistent key address t' ∧
      t'.toList = insertRank (rank key address) elem t.toList := by
  obtain ⟨n, hbal⟩ := h.balanced
  obtain ⟨u, hadd, -, hu⟩ := addRecursive_balanced key address elem hbal
  have hlist : (u.setBits .black).toList = insertRank (rank key address) elem t.toList := by
    rw [toList_setBits, toList_addRecursive key address elem h.ordered hadd]
  refine ⟨u.setBits .black, ?_, ⟨?_, ?_⟩, hlist⟩
  · rw [SglibTrees.add, hadd]
    rfl
  · rcases hu with ⟨c, hu⟩ | ⟨-, hu⟩
    · exact hu.blacken
    · exact ⟨_, hu.blacken⟩
  · rw [Ordered, hlist]
    exact pairwise_insertRank h.ordered hnew

theorem Lowered.blacken {c : Color} {n : ℕ} {t : ColoredTree α} {res : Bool}
    (h : Lowered c n t res) : ∃ m, Balanced (t.setBits .black) .black m := by
  cases res with
  | true =>
    obtain ⟨-, m, -, hbal⟩ := h
    exact hbal.blacken
  | false =>
    obtain ⟨c', hbal, -⟩ := h
    exact hbal.blacken

theorem Consistent.delete {t : ColoredTree α} (h : Consistent key address t) {elem : α}
    (hmem : ∃ y ∈ t.toList, rank key address y = rank key address elem) :
    ∃ t', SglibTrees.delete key address t elem = some t' ∧ Consistent key address t' ∧
      t'.toList = eraseRank (rank key address) elem t.toList := by
  obtain ⟨n, hbal⟩ := h.balanced
  obtain ⟨u, res, hdel, hlow⟩ := deleteRecursive_balanced key address hbal h.ordered hmem
  have hlist : (u.setBits .black).toList = eraseRank (rank key address) elem t.toList := by
    rw [toList_setBits, toList_deleteRecursive key address h.ordered hdel]
  refine ⟨u.setBits .black, ?_, ⟨hlow.blacken, ?_⟩, hlist⟩
  · rw [SglibTrees.delete, hdel]
    rfl
  · rw [Ordered, hlist]
    exact pairwise_eraseRank elem h.ordered

theorem findMember_some {k : κ} {t : ColoredTree α} {x : α}
    (h : findMember key k t = some x) : x ∈ t.toList ∧ key x = k := by
  induction t with
  | nil => cases h
  | node bits l y r ihl ihr =>
    rw [findMember] at h
    rw [toList_node, List.mem_append, List.mem_cons]
    split_ifs at h with hlt hgt
    · exact ⟨Or.inl (ihl h).1, (ihl h).2⟩
    · exact ⟨Or.inr (Or.inr (ihr h).1), (ihr h).2⟩
    · cases h
      exact ⟨Or.inr (Or.inl rfl), le_antisymm (not_lt.mp hlt) (not_lt.mp hgt)⟩

theorem findMember_none {k : κ} {t : ColoredTree α} (hord : Ordered (rank key address) t)
    (h : findMember key k t = none) : ∀ x ∈ t.toList, key x ≠ k := by
  induction t with
  | nil => intro x hx; cases hx
  | node bits l y r ihl ihr =>
    rw [findMember] at h
    intro x hx
    split_ifs at h with hlt hgt
    · rcases List.mem_append.mp hx with hx | hx
      · exact ihl hord.left h x hx
      · rcases List.mem_cons.mp hx with rfl | hx
        · exact hlt.ne'
        · exact (hlt.trans_le (key_le_of_rank_lt (hord.root_lt hx))).ne'
    · rcases List.mem_append.mp hx with hx | hx
      · exact ((key_le_of_rank_lt (hord.lt_root hx)).trans_lt hgt).ne
      · rcases List.mem_cons.mp hx with rfl | hx
        · exact hgt.ne
        · exact ihr hord.right h x hx

theorem isMember_eq (elem : α) {t : ColoredTree α} (hord : Ordered (rank key address) t) :
    ∃ b, isMember key address elem t = some b ∧
      (b = true ↔ ∃ y ∈ t.toList, rank key address y = rank key address elem) := by
  induction t with
  | nil => exact ⟨false, rfl, by simp⟩
  | node bits l x r ihl ihr =>
    have hmem : (∃ y ∈ (node bits l x r).toList, rank key address y = rank key address elem) ↔
        (∃ y ∈ l.toList, rank key address y = rank key address elem) ∨
          rank key address x = rank key address elem ∨
          ∃ y ∈ r.toList, rank key address y = rank key address elem := by
      simp [or_and_right, exists_or]
    rw [isMember]
    rcases lt_trichotomy (rank key address elem) (rank key address x) with hlt | heq | hlt
    · obtain ⟨b, hb, hiff⟩ := ihl hord.left
      rw [if_pos ((goesLeft_iff key address).mpr hlt)]
      refine ⟨b, hb, hiff.trans (Iff.trans ?_ hmem.symm)⟩
      refine ⟨Or.inl, fun h => h.resolve_right fun h => ?_⟩
      rcases h with h | ⟨y, hy, h⟩
      · exact hlt.ne h.symm
      · exact (hlt.trans (hord.root_lt hy)).ne h.symm
    · rw [if_neg fun h => heq.not_lt ((goesLeft_iff key address).mp h),
        if_neg fun h => heq.not_gt ((goesRight_iff key address).mp h),
        if_pos ((rank_inj key address).mp heq).2]
      exact ⟨true, rfl, fun _ => hmem.mpr (Or.inr (Or.inl heq.symm)), fun _ => rfl⟩
    · obtain ⟨b, hb, hiff⟩ := ihr hord.right
      rw [if_neg fun h => lt_asymm hlt ((goesLeft_iff key address).mp h),
        if_pos ((goesRight_iff key address).mpr hlt)]
      refine ⟨b, hb, hiff.trans (Iff.trans ?_ hmem.symm)⟩
      refine ⟨fun h => Or.inr (Or.inr h), fun h => ?_⟩
      rcases h with ⟨y, hy, h⟩ | h | h
      · exact absurd h ((hord.lt_root hy).trans hlt).ne
      · exact absurd h hlt.ne
      · exact h

omit [LinearOrder κ] in
theorem sonInOrder_of_forall {r : κ → κ → Bool} {son : ColoredTree α} {t : α}
    (h : ∀ x ∈ son.toList, r (key x) (key t) = true) : sonInOrder key r son t = true := by
  cases son with
  | nil => rfl
  | node bits l x r' => exact h x (by simp)

/-- Every path of a balanced tree is as deep as the first one. -/
theorem consistencyCheckRecursive_eq {t : ColoredTree α} {c : Color} {n : ℕ}
    (h : Balanced t c n) (hord : Ordered (rank key address) t) {pathdeep : Option ℕ} {cdeep : ℕ}
    (hdeep : pathdeep = none ∨ pathdeep = some (cdeep + n)) :
    consistencyCheckRecursive key t pathdeep cdeep = some (some (cdeep + n)) := by
  have hsons : ∀ {bits : Color} {l r : ColoredTree α} {x : α},
      Ordered (rank key address) (.node bits l x r) →
      sonInOrder key (fun a b => a ≤ b) l x ∧ sonInOrder key (fun a b => b ≤ a) r x := by
    intro bits l r x hord
    exact ⟨sonInOrder_of_forall fun y hy =>
        decide_eq_true (key_le_of_rank_lt (hord.lt_root hy)),
      sonInOrder_of_forall fun y hy => decide_eq_true (key_le_of_rank_lt (hord.root_lt hy))⟩
  induction h generalizing pathdeep cdeep with
  | nil =>
    rcases hdeep with rfl | rfl
    · rfl
    · exact if_pos rfl
  | @red l r x n hl hr ihl ihr =>
    have hcond := hsons hord
    have hcolor : Color.red = .red → ¬l.isRed ∧ ¬r.isRed := by
      rw [hl.isRed_eq, hr.isRed_eq]
      simp
    rw [consistencyCheckRecursive, if_pos ⟨hcond.1, hcond.2, hcolor⟩]
    simp only [if_true]
    rw [ihl hord.left hdeep]
    exact ihr hord.right (Or.inr rfl)
  | @black l r x cl cr n hl hr ihl ihr =>
    have hcond := hsons hord
    have hsum : cdeep + (n + 1) = cdeep + 1 + n := by omega
    rw [hsum] at hdeep ⊢
    rw [consistencyCheckRecursive, if_pos ⟨hcond.1, hcond.2, by simp⟩]
    simp only [reduceCtorEq, if_false]
    rw [ihl hord.left hdeep]
    exact ihr hord.right (Or.inr rfl)

theorem Consistent.check {t : ColoredTree α} (h : Consistent key address t) :
    consistencyCheck key t = some () := by
  obtain ⟨n, hbal⟩ := h.balanced
  rw [consistencyCheck, if_neg (by simp [hbal.isRed_eq]),
    consistencyCheckRecursive_eq hbal h.ordered (Or.inl rfl)]
  rfl

end Order

section Operations
variable {α κ : Type*} [LinearOrder κ] (key : α → κ) (address : α → ℕ)

inductive Operation (α : Type*)
  | add (elem : α)
  | addIfNotMember (elem : α)
  | delete (elem : α)
  | deleteIfMember (elem : α)

def apply : Operation α → ColoredTree α → Option (ColoredTree α)
  | .add elem, t => SglibTrees.add key address t elem
  | .addIfNotMember elem, t => (addIfNotMember key address t elem).map Prod.fst
  | .delete elem, t => SglibTrees.delete key address t elem
  | .deleteIfMember elem, t => (deleteIfMember key address t elem).map Prod.fst

/-- A node is put into a tree once, and deleted while it is there. -/
def Allowed : Operation α → ColoredTree α → Prop
  | .add elem, t => ∀ y ∈ t.toList, address y ≠ address elem
  | .delete elem, t => elem ∈ t.toList
  | _, _ => True

inductive OnList : Operation α → List α → List α → Prop
  | add (elem : α) (xs : List α) :
      OnList (.add elem) xs (insertRank (rank key address) elem xs)
  | addNew {elem : α} {xs : List α} (hnew : ∀ y ∈ xs, key y ≠ key elem) :
      OnList (.addIfNotMember elem) xs (insertRank (rank key address) elem xs)
  | addPresent {elem y : α} {xs : List α} (hy : y ∈ xs) (hkey : key y = key elem) :
      OnList (.addIfNotMember elem) xs xs
  | delete (elem : α) (xs : List α) :
      OnList (.delete elem) xs (eraseRank (rank key address) elem xs)
  | deleteMember {elem y : α} {xs : List α} (hy : y ∈ xs) (hkey : key y = key elem) :
      OnList (.deleteIfMember elem) xs (eraseRank (rank key address) y xs)
  | deleteAbsent {elem : α} {xs : List α} (hnew : ∀ y ∈ xs, key y ≠ key elem) :
      OnList (.deleteIfMember elem) xs xs

inductive OnListRun : List (Operation α) → List α → List α → Prop
  | nil (xs : List α) : OnListRun [] xs xs
  | cons {op : Operation α} {ops : List (Operation α)} {xs ys zs : List α}
      (hop : OnList key address op xs ys) (hops : OnListRun ops ys zs) : OnListRun (op :: ops) xs zs

variable {key address}

omit [LinearOrder κ] in
theorem rank_ne_of_key {x y : α} (h : key y ≠ key x) :
    rank key address y ≠ rank key address x :=
  fun heq => h ((rank_inj key address).mp heq).1

theorem Consistent.apply {t : ColoredTree α} (h : Consistent key address t) {op : Operation α}
    (hok : Allowed address op t) :
    ∃ t', SglibTrees.apply key address op t = some t' ∧ Consistent key address t' ∧
      OnList key address op t.toList t'.toList := by
  cases op with
  | add elem =>
    obtain ⟨t', hadd, hcons, hlist⟩ := h.add elem fun y hy heq =>
      hok y hy ((rank_inj key address).mp heq).2
    exact ⟨t', hadd, hcons, hlist ▸ .add elem t.toList⟩
  | addIfNotMember elem =>
    cases hfind : findMember key (key elem) t with
    | some memb =>
      obtain ⟨hmem, hkey⟩ := findMember_some hfind
      refine ⟨t, ?_, h, .addPresent hmem hkey⟩
      rw [SglibTrees.apply, addIfNotMember, hfind]
      rfl
    | none =>
      have hnew := findMember_none h.ordered hfind
      obtain ⟨t', hadd, hcons, hlist⟩ := h.add elem fun y hy => rank_ne_of_key (hnew y hy)
      refine ⟨t', ?_, hcons, hlist ▸ .addNew hnew⟩
      rw [SglibTrees.apply, addIfNotMember, hfind]
      simp only [hadd, Option.map_some]
  | delete elem =>
    obtain ⟨t', hdel, hcons, hlist⟩ := h.delete ⟨elem, hok, rfl⟩
    exact ⟨t', hdel, hcons, hlist ▸ .delete elem t.toList⟩
  | deleteIfMember elem =>
    cases hfind : findMember key (key elem) t with
    | some memb =>
      obtain ⟨hmem, hkey⟩ := findMember_some hfind
      obtain ⟨t', hdel, hcons, hlist⟩ := h.delete ⟨memb, hmem, rfl⟩
      refine ⟨t', ?_, hcons, hlist ▸ .deleteMember hmem hkey⟩
      rw [SglibTrees.apply, deleteIfMember, hfind]
      simp only [hdel, Option.map_some]
    | none =>
      refine ⟨t, ?_, h, .deleteAbsent (findMember_none h.ordered hfind)⟩
      rw [SglibTrees.apply, deleteIfMember, hfind]
      rfl

theorem Consistent.run {ops : List (Operation α)} {t : ColoredTree α}
    (h : Consistent key address t)
    (hok : Guarded (SglibTrees.apply key address) (Allowed address) ops t) :
    ∃ t', Runs.run (SglibTrees.apply key address) ops t = some t' ∧
      Consistent key address t' ∧ OnListRun key address ops t.toList t'.toList := by
  induction ops generalizing t with
  | nil => exact ⟨t, rfl, h, .nil t.toList⟩
  | cons op ops ih =>
    obtain ⟨t₁, happly, hcons, hlist⟩ := h.apply hok.1
    obtain ⟨t', hrun, hcons', hlists⟩ := ih hcons (hok.2 t₁ happly)
    refine ⟨t', ?_, hcons', .cons hlist hlists⟩
    rw [Runs.run, happly]
    exact hrun

theorem findMember_eq_none_iff {t : ColoredTree α} (hord : Ordered (rank key address) t) (k : κ) :
    findMember key k t = none ↔ ∀ x ∈ t.toList, key x ≠ k := by
  constructor
  · exact findMember_none hord
  · intro hnone
    cases hfind : findMember key k t with
    | none => rfl
    | some x =>
      obtain ⟨hmem, hkey⟩ := findMember_some hfind
      exact absurd hkey (hnone x hmem)

/-- In every run of the calls no assertion fails. The tree that is reached passes
the consistency check and holds the elements in order, and the two searches
answer for these elements. -/
theorem run_passes_check (ops : List (Operation α))
    (hok : Guarded (SglibTrees.apply key address) (Allowed address) ops .nil) :
    ∃ t, Runs.run (SglibTrees.apply key address) ops .nil = some t ∧
      consistencyCheck key t = some () ∧
      t.toList.Pairwise (fun a b => rank key address a < rank key address b) ∧
      OnListRun key address ops [] t.toList ∧
      (∀ k x, findMember key k t = some x → x ∈ t.toList ∧ key x = k) ∧
      (∀ k, findMember key k t = none ↔ ∀ x ∈ t.toList, key x ≠ k) ∧
      ∀ elem, ∃ b, isMember key address elem t = some b ∧
        (b = true ↔ ∃ y ∈ t.toList, rank key address y = rank key address elem) := by
  obtain ⟨t, hrun, hcons, hlist⟩ := Consistent.nil.run hok
  exact ⟨t, hrun, hcons.check, hcons.ordered, hlist, fun k x => findMember_some,
    findMember_eq_none_iff hcons.ordered, fun elem => isMember_eq elem hcons.ordered⟩

/-- Three insertions, one of them refused, and the deletions of the root and of a leaf. -/
theorem run_passes_check_small :
    let ops : List (Operation (ℕ × ℕ)) :=
      [.add (2, 0), .add (1, 1), .addIfNotMember (3, 2), .addIfNotMember (3, 4), .delete (2, 0),
        .deleteIfMember (1, 9)]
    ∃ t, Runs.run (SglibTrees.apply Prod.fst Prod.snd) ops .nil = some t ∧
      consistencyCheck Prod.fst t = some () ∧
      t.toList.Pairwise (fun a b => rank Prod.fst Prod.snd a < rank Prod.fst Prod.snd b) ∧
      OnListRun Prod.fst Prod.snd ops [] t.toList ∧
      (∀ k x, findMember Prod.fst k t = some x → x ∈ t.toList ∧ x.1 = k) ∧
      (∀ k, findMember Prod.fst k t = none ↔ ∀ x ∈ t.toList, x.1 ≠ k) ∧
      ∀ elem, ∃ b, isMember Prod.fst Prod.snd elem t = some b ∧
        (b = true ↔ ∃ y ∈ t.toList, rank Prod.fst Prod.snd y = rank Prod.fst Prod.snd elem) := by
  intro ops
  apply run_passes_check
  apply guarded_of_check _ (fun op t =>
    match op with
    | .add elem => t.toList.all fun y => y.2 ≠ elem.2
    | .delete elem => t.toList.contains elem
    | _ => true)
  · intro op t h
    cases op with
    | add elem => simpa [Allowed] using h
    | delete elem => simpa [Allowed] using h
    | addIfNotMember elem => trivial
    | deleteIfMember elem => trivial
  · decide

end Operations

end Vdev.SglibTrees
