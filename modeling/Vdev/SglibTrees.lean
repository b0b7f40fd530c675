import Vdev.RedBlackTrees

/-!
The red-black trees that `SGLIB_DEFINE_RBTREE_FUNCTIONS` defines (libvdev/sglib.h):
insertion and deletion with their repairs of the colours, the searches and the
consistency check. Elements are compared by their key, and elements with the
same key by their address. The macros are written for one side and instantiated
for both, so the other side is the mirror image here. A failed assertion and the
dereference of a null pointer are `none`.
-/
namespace Vdev.SglibTrees

open RedBlackTrees RedBlackTrees.ColoredTree

section Repairs

variable {α : Type*}

/-- `SGLIB___RBTREE_FIX_INSERTION_DISCREPANCY`, with `leftt` the left side. -/
def fixInsertionDiscrepancy : ColoredTree α → Option (ColoredTree α)
  | .nil => none
  | .node _ .nil _ _ => none
  | .node bits (.node tlBits tll b tlr) a right =>
    if right.isRed then
      if tlBits = .red ∧ (tll.isRed ∨ tlr.isRed) then
        some (.node .red (.node .black tll b tlr) a (right.setBits .black))
      else some (.node bits (.node tlBits tll b tlr) a right)
    else if tlBits = .red then
      if tll.isRed then some (.node .black tll b (.node .red tlr a right))
      else
        match tlr with
        | .node .red cl c cr =>
          some (.node .black (.node tlBits tll b cl) c (.node .red cr a right))
        | _ => some (.node bits (.node tlBits tll b tlr) a right)
    else some (.node bits (.node tlBits tll b tlr) a right)

/-- `SGLIB___RBTREE_FIX_DELETION_DISCREPANCY`, with `leftt` the left side. The
second component is `res`: whether the tree has lost a black node on each path. -/
def fixDeletionDiscrepancy : ColoredTree α → Option (ColoredTree α × Bool)
  | .nil => none
  | .node bits .nil a right =>
    if bits = .red then some (.node .black .nil a right, false) else none
  | .node bits (.node .red bl b br) a right =>
    match br with
    | .nil => some (.node .black bl b (.node bits .nil a right), false)
    | .node cBits cl c cr =>
      if cBits = .red then none
      else if ¬cl.isRed ∧ ¬cr.isRed then
        some (.node .black bl b (.node bits (.node .red cl c cr) a right), false)
      else
        match cr with
        | .node .red dl d dr =>
          some (.node .black (.node .red bl b (.node cBits cl c dl)) d (.node bits dr a right),
            false)
        | _ =>
          some (.node cBits (.node .red bl b (cl.setBits .black)) c (.node bits cr a right), false)
  | .node bits (.node .black bl b br) a right =>
    if ¬bl.isRed ∧ ¬br.isRed then
      some (.node .black (.node .red bl b br) a right, bits = .black)
    else
      match br with
      | .node .red cl c cr =>
        some (.node bits (.node .black bl b cl) c (.node .black cr a right), false)
      | _ => some (.node bits (bl.setBits .black) b (.node .black br a right), false)

def fixLeftInsertionDiscrepancy (t : ColoredTree α) : Option (ColoredTree α) :=
  fixInsertionDiscrepancy t

def fixRightInsertionDiscrepancy (t : ColoredTree α) : Option (ColoredTree α) :=
  (fixInsertionDiscrepancy t.mirror).map mirror

/-- The left son has become lower, so the macro looks at the right one. -/
def fixLeftDeletionDiscrepancy (t : ColoredTree α) : Option (ColoredTree α × Bool) :=
  (fixDeletionDiscrepancy t.mirror).map fun p => (p.1.mirror, p.2)

def fixRightDeletionDiscrepancy (t : ColoredTree α) : Option (ColoredTree α × Bool) :=
  fixDeletionDiscrepancy t

end Repairs

section Functions

variable {α κ : Type*} [LinearOrder κ] (key : α → κ) (address : α → ℕ)

/-- `cmp < 0 || (cmp==0 && elem<t)`. -/
def goesLeft (elem t : α) : Bool :=
  key elem < key t || (key elem = key t && address elem < address t)

/-- `cmp > 0 || (cmp==0 && elem>t)`. -/
def goesRight (elem t : α) : Bool :=
  key t < key elem || (key elem = key t && address t < address elem)

def addRecursive (elem : α) : ColoredTree α → Option (ColoredTree α)
  | .nil => some (.node .red .nil elem .nil)
  | .node bits l t r =>
    if goesLeft key address elem t then do
      let l' ← addRecursive elem l
      if bits = .black then fixLeftInsertionDiscrepancy (.node bits l' t r)
      else some (.node bits l' t r)
    else do
      let r' ← addRecursive elem r
      if bits = .black then fixRightInsertionDiscrepancy (.node bits l t r')
      else some (.node bits l t r')

/-- `sglib_add`. -/
def add (tree : ColoredTree α) (elem : α) : Option (ColoredTree α) :=
  (addRecursive key address elem tree).map (setBits .black)

/-- `delete_rightmost_leaf`: the tree without its last element, that element, and
whether the tree has become lower. -/
def deleteRightmostLeaf : ColoredTree α → Option (ColoredTree α × α × Bool)
  | .nil => none
  | .node bits .nil t .nil => some (.nil, t, bits = .black)
  | .node bits (.node lBits ll x lr) t .nil =>
    some (.node .black ll x lr, t, bits = .black ∧ lBits = .black)
  | .node bits l t (.node rBits rl x rr) => do
    let (r', theLeaf, deepDecreased) ← deleteRightmostLeaf (.node rBits rl x rr)
    if deepDecreased then do
      let (t', res) ← fixRightDeletionDiscrepancy (.node bits l t r')
      some (t', theLeaf, res)
    else some (.node bits l t r', theLeaf, false)

/-- What `delete_recursive` does at the element itself. -/
def deleteHere (bits : Color) (l r : ColoredTree α) : Option (ColoredTree α × Bool) :=
  match l, r with
  | .nil, .nil => some (.nil, bits = .black)
  | .nil, .node rBits rl x rr =>
    some (.node .black rl x rr, bits = .black ∧ rBits = .black)
  | .node lBits ll x lr, r => do
    let (l', theLeaf, deepDecreased) ← deleteRightmostLeaf (.node lBits ll x lr)
    if deepDecreased then fixLeftDeletionDiscrepancy (.node bits l' theLeaf r)
    else some (.node bits l' theLeaf r, false)

def deleteRecursive (elem : α) : ColoredTree α → Option (ColoredTree α × Bool)
  | .nil => none
  | .node bits l t r =>
    if goesLeft key address elem t then do
      let (l', deepDecreased) ← deleteRecursive elem l
      if deepDecreased then fixLeftDeletionDiscrepancy (.node bits l' t r)
      else some (.node bits l' t r, false)
    else if goesRight key address elem t then do
      let (r', deepDecreased) ← deleteRecursive elem r
      if deepDecreased then fixRightDeletionDiscrepancy (.node bits l t r')
      else some (.node bits l t r', false)
    else if address elem = address t then deleteHere bits l r
    else none

/-- `sglib_delete`. -/
def delete (tree : ColoredTree α) (elem : α) : Option (ColoredTree α) :=
  (deleteRecursive key address elem tree).map fun p => p.1.setBits .black

/-- `sglib_find_member`: only the key decides. -/
def findMember (elem : κ) : ColoredTree α → Option α
  | .nil => none
  | .node _ l t r =>
    if elem < key t then findMember elem l
    else if key t < elem then findMember elem r
    else some t

/-- `sglib_is_member`. -/
def isMember (elem : α) : ColoredTree α → Option Bool
  | .nil => some false
  | .node _ l t r =>
    if goesLeft key address elem t then isMember elem l
    else if goesRight key address elem t then isMember elem r
    else if address elem = address t then some true
    else none

/-- `sglib_add_if_not_member`. -/
def addIfNotMember (tree : ColoredTree α) (elem : α) : Option (ColoredTree α × Bool) :=
  match findMember key (key elem) tree with
  | some _ => some (tree, false)
  | none => (add key address tree elem).map fun t => (t, true)

/-- `sglib_delete_if_member`. -/
def deleteIfMember (tree : ColoredTree α) (elem : α) : Option (ColoredTree α × Option α) :=
  match findMember key (key elem) tree with
  | some memb => (delete key address tree memb).map fun t => (t, some memb)
  | none => some (tree, none)

/-- The comparison of a son with its parent in `consistency_check_recursive`. -/
def sonInOrder (r : κ → κ → Bool) (son : ColoredTree α) (t : α) : Bool :=
  match son with
  | .nil => true
  | .node _ _ x _ => r (key x) (key t)

/-- `consistency_check_recursive`, with the path depth that was found so far. -/
def consistencyCheckRecursive : ColoredTree α → Option ℕ → ℕ → Option (Option ℕ)
  | .nil, none, cdeep => some (some cdeep)
  | .nil, some pathdeep, cdeep => if pathdeep = cdeep then some (some pathdeep) else none
  | .node bits l t r, pathdeep, cdeep =>
    if sonInOrder key (fun a b => a ≤ b) l t ∧ sonInOrder key (fun a b => b ≤ a) r t ∧
        (bits = .red → ¬l.isRed ∧ ¬r.isRed) then do
      let deeper := if bits = .red then cdeep else cdeep + 1
      let pathdeep ← consistencyCheckRecursive l pathdeep deeper
      consistencyCheckRecursive r pathdeep deeper
    else none

/-- `consistency_check`: `some` when no assertion fails. -/
def consistencyCheck (t : ColoredTree α) : Option Unit :=
  if t.isRed then none else (consistencyCheckRecursive key t none 0).map fun _ => ()

end Functions

section RepairLemmas

variable {α : Type*}

theorem toList_fixInsertionDiscrepancy {t t' : ColoredTree α}
    (h : fixInsertionDiscrepancy t = some t') : t'.toList = t.toList := by
  revert h
  fun_cases fixInsertionDiscrepancy t
  all_goals
    intro h
    cases h
  all_goals simp

theorem toList_fixDeletionDiscrepancy {t t' : ColoredTree α} {res : Bool}
    (h : fixDeletionDiscrepancy t = some (t', res)) : t'.toList = t.toList := by
  cases t with
  | nil => cases h
  | node bits b a right =>
    rcases b with _ | ⟨bBits, bl, b, br⟩
    · rw [fixDeletionDiscrepancy] at h
      split_ifs at h
      cases h
      simp
    · cases bBits with
      | red =>
        rcases br with _ | ⟨cBits, cl, c, cr⟩
        · cases h
          simp
        · simp only [fixDeletionDiscrepancy] at h
          split_ifs at h
          · cases h
            simp
          · split at h
            · cases h
              simp
            · cases h
              simp
      | black =>
        simp only [fixDeletionDiscrepancy] at h
        split_ifs at h
        · cases h
          simp
        · split at h
          · cases h
            simp
          · cases h
            simp

/-- The macro leaves a tree alone in which nothing is to be repaired. -/
theorem fixInsertionDiscrepancy_of_balanced {tl right : ColoredTree α} {a : α} {cl : Color} {n : ℕ}
    (hl : Balanced tl cl n) (hnil : tl ≠ .nil) (bits : Color) :
    fixInsertionDiscrepancy (.node bits tl a right) = some (.node bits tl a right) := by
  cases hl with
  | nil => exact absurd rfl hnil
  | red hl hr => cases hl <;> cases hr <;> simp [fixInsertionDiscrepancy, isRed]
  | black hl hr => simp [fixInsertionDiscrepancy]

/-- A black node whose left son is loose is repaired. -/
theorem fixInsertionDiscrepancy_of_loose {tl right : ColoredTree α} {a : α} {cr : Color} {n : ℕ}
    (hl : tl.Loose n) (hr : Balanced right cr n) :
    ∃ t' c, fixInsertionDiscrepancy (.node .black tl a right) = some t' ∧
      Balanced t' c (n + 1) := by
  have hright := hr.isRed_eq
  cases hl with
  | left hll hlr =>
    cases hll with
    | red hlll hllr =>
      cases cr with
      | red =>
        refine ⟨_, .red, (if_pos hright).trans (if_pos ⟨rfl, Or.inl rfl⟩), ?_⟩
        exact .red (.black (.red hlll hllr) hlr) hr.blacken_red
      | black =>
        refine ⟨_, .black, (if_neg (by simp [hright])).trans (if_pos rfl), ?_⟩
        exact .black (.red hlll hllr) (.red hlr hr)
  | @right tll tlr b n hll hlr =>
    have htll := hll.isRed_eq
    cases hlr with
    | red hlrl hlrr =>
      cases cr with
      | red =>
        refine ⟨_, .red, (if_pos hright).trans (if_pos ⟨rfl, Or.inr rfl⟩), ?_⟩
        exact .red (.black hll (.red hlrl hlrr)) hr.blacken_red
      | black =>
        refine ⟨_, .black, (if_neg (by simp [hright])).trans ((if_pos rfl).trans
          (if_neg (by simp [htll]))), ?_⟩
        exact .black (.red hll hlrl) (.red hlrr hr)

/-- Whether the tree has become lower, and what it is then. -/
def Lowered (c : Color) (n : ℕ) (t : ColoredTree α) : Bool → Prop
  | true => c = .black ∧ ∃ m, n = m + 1 ∧ Balanced t .black m
  | false => ∃ c', Balanced t c' n ∧ (c = .black → c' = .black)

/-- The black nodes on a path from a node with a given colour over sons of a given height. -/
def heightOver (n : ℕ) : Color → ℕ
  | .red => n
  | .black => n + 1

theorem balanced_node {bits : Color} {l r : ColoredTree α} {x : α} {n : ℕ}
    (hl : Balanced l .black n) (hr : Balanced r .black n) :
    Balanced (.node bits l x r) bits (heightOver n bits) := by
  cases bits with
  | red => exact .red hl hr
  | black => exact .black hl hr

/-- With a black sibling, a red nephew makes up for the lost node; without one
the sibling becomes red. -/
theorem fixDeletionDiscrepancy_black_sibling {bits : Color} {bl br right : ColoredTree α} {a b : α}
    {cl cr : Color} {m : ℕ} (hbl : Balanced bl cl m) (hbr : Balanced br cr m)
    (hr : Balanced right .black m) :
    ∃ t' res, fixDeletionDiscrepancy (.node bits (.node .black bl b br) a right) = some (t', res) ∧
      Lowered bits (heightOver (m + 1) bits) t' res := by
  have hblRed := hbl.isRed_eq
  have hbrRed := hbr.isRed_eq
  cases cr with
  | red =>
    cases hbr with
    | red hcl hcr =>
      refine ⟨_, false, if_neg (by simp [hbrRed]), bits, ?_, fun h => h⟩
      exact balanced_node (.black hbl hcl) (.black hcr hr)
  | black =>
    cases cl with
    | red =>
      have hfix : fixDeletionDiscrepancy (.node bits (.node .black bl b br) a right) =
          some (.node bits (bl.setBits .black) b (.node .black br a right), false) := by
        refine (if_neg (by simp [hblRed])).trans ?_
        cases hbr <;> rfl
      refine ⟨_, false, hfix, bits, ?_, fun h => h⟩
      exact balanced_node hbl.blacken_red (.black hbr hr)
    | black =>
      refine ⟨_, _, if_pos (by simp [hblRed, hbrRed]), ?_⟩
      cases bits with
      | red => exact ⟨.black, .black (.red hbl hbr) hr, fun _ => rfl⟩
      | black => exact ⟨rfl, m + 1, rfl, .black (.red hbl hbr) hr⟩

/-- With a red sibling, which has two black sons, its inner son takes its place. -/
theorem fixDeletionDiscrepancy_red_sibling {bl br right : ColoredTree α} {a b : α}
    {m : ℕ} (hbl : Balanced bl .black (m + 1)) (hbr : Balanced br .black (m + 1))
    (hr : Balanced right .black m) :
    ∃ t', fixDeletionDiscrepancy (.node .black (.node .red bl b br) a right) = some (t', false) ∧
      Balanced t' .black (m + 2) := by
  cases hbr with
  | @black cl cr c ccl ccr _ hcl hcr =>
    have hclRed := hcl.isRed_eq
    have hcrRed := hcr.isRed_eq
    cases ccr with
    | red =>
      cases hcr with
      | red hdl hdr =>
        refine ⟨_, if_neg (by simp [hcrRed]), ?_⟩
        exact .black (.red hbl (.black hcl hdl)) (.black hdr hr)
    | black =>
      cases ccl with
      | red =>
        have hfix : fixDeletionDiscrepancy
            (.node .black (.node .red bl b (.node .black cl c cr)) a right) =
            some (.node .black (.node .red bl b (cl.setBits .black)) c (.node .black cr a right),
              false) := by
          refine (if_neg (by simp [hclRed])).trans ?_
          cases hcr <;> rfl
        exact ⟨_, hfix, .black (.red hbl hcl.blacken_red) (.black hcr hr)⟩
      | black =>
        refine ⟨_, if_pos (by simp [hclRed, hcrRed]), ?_⟩
        exact .black hbl (.black (.red hcl hcr) hr)

/-- Under a red node the sibling is black. -/
theorem fixDeletionDiscrepancy_red {b right : ColoredTree α} {a : α} {n : ℕ}
    (hb : Balanced b .black n) (hlow : Lowered .black n right true) :
    ∃ t' res, fixDeletionDiscrepancy (.node .red b a right) = some (t', res) ∧
      Lowered .red n t' res := by
  obtain ⟨-, m, rfl, hright⟩ := hlow
  cases hb with
  | black hbl hbr => exact fixDeletionDiscrepancy_black_sibling hbl hbr hright

theorem fixDeletionDiscrepancy_black {b right : ColoredTree α} {a : α} {cb cr : Color} {n : ℕ}
    (hb : Balanced b cb n) (hlow : Lowered cr n right true) :
    ∃ t' res, fixDeletionDiscrepancy (.node .black b a right) = some (t', res) ∧
      Lowered .black (n + 1) t' res := by
  obtain ⟨-, m, rfl, hright⟩ := hlow
  cases hb with
  | black hbl hbr => exact fixDeletionDiscrepancy_black_sibling hbl hbr hright
  | red hbl hbr =>
    obtain ⟨t', hfix, hbal⟩ := fixDeletionDiscrepancy_red_sibling hbl hbr hright
    exact ⟨t', false, hfix, .black, hbal, fun _ => rfl⟩

theorem fixInsertionDiscrepancy_spec {tl right : ColoredTree α} {a : α} {cr : Color} {n : ℕ}
    (hl : (∃ cl, Balanced tl cl n) ∨ tl.Loose n) (hnil : tl ≠ .nil) (hr : Balanced right cr n) :
    ∃ t' c, fixInsertionDiscrepancy (.node .black tl a right) = some t' ∧
      Balanced t' c (n + 1) := by
  rcases hl with ⟨cl, hl⟩ | hl
  · exact ⟨_, .black, fixInsertionDiscrepancy_of_balanced hl hnil .black, .black hl hr⟩
  · exact fixInsertionDiscrepancy_of_loose hl hr

theorem fixRightInsertionDiscrepancy_spec {left tr : ColoredTree α} {a : α} {cl : Color} {n : ℕ}
    (hl : Balanced left cl n) (hr : (∃ cr, Balanced tr cr n) ∨ tr.Loose n) (hnil : tr ≠ .nil) :
    ∃ t' c, fixRightInsertionDiscrepancy (.node .black left a tr) = some t' ∧
      Balanced t' c (n + 1) := by
  have hmirror : (∃ cr, Balanced tr.mirror cr n) ∨ tr.mirror.Loose n :=
    hr.imp (fun ⟨cr, h⟩ => ⟨cr, h.mirror⟩) Loose.mirror
  have hnil' : tr.mirror ≠ .nil := fun h => hnil (by rw [← mirror_mirror tr, h]; rfl)
  obtain ⟨t', c, hfix, hbal⟩ := fixInsertionDiscrepancy_spec (a := a) hmirror hnil' hl.mirror
  refine ⟨t'.mirror, c, ?_, hbal.mirror⟩
  rw [fixRightInsertionDiscrepancy, mirror_node, hfix]
  rfl

theorem Lowered.mirror {c : Color} {n : ℕ} {t : ColoredTree α} {res : Bool}
    (h : Lowered c n t res) : Lowered c n t.mirror res := by
  cases res with
  | true =>
    obtain ⟨hc, m, hn, hbal⟩ := h
    exact ⟨hc, m, hn, hbal.mirror⟩
  | false =>
    obtain ⟨c', hbal, hc⟩ := h
    exact ⟨c', hbal.mirror, hc⟩

theorem fixLeftDeletionDiscrepancy_eq {bits : Color} {left b : ColoredTree α} {a : α}
    {t' : ColoredTree α} {res : Bool} {c : Color} {n : ℕ}
    (h : fixDeletionDiscrepancy (.node bits b.mirror a left.mirror) = some (t', res))
    (hlow : Lowered c n t' res) :
    ∃ t' res, fixLeftDeletionDiscrepancy (.node bits left a b) = some (t', res) ∧
      Lowered c n t' res := by
  refine ⟨t'.mirror, res, ?_, hlow.mirror⟩
  rw [fixLeftDeletionDiscrepancy, mirror_node, h]
  rfl

theorem fixLeftDeletionDiscrepancy_red {left b : ColoredTree α} {a : α} {n : ℕ}
    (hlow : Lowered .black n left true) (hb : Balanced b .black n) :
    ∃ t' res, fixLeftDeletionDiscrepancy (.node .red left a b) = some (t', res) ∧
      Lowered .red n t' res := by
  obtain ⟨t', res, hfix, hlow⟩ := fixDeletionDiscrepancy_red (a := a) hb.mirror hlow.mirror
  exact fixLeftDeletionDiscrepancy_eq hfix hlow

theorem fixLeftDeletionDiscrepancy_black {left b : ColoredTree α} {a : α} {cb cl : Color} {n : ℕ}
    (hlow : Lowered cl n left true) (hb : Balanced b cb n) :
    ∃ t' res, fixLeftDeletionDiscrepancy (.node .black left a b) = some (t', res) ∧
      Lowered .black (n + 1) t' res := by
  obtain ⟨t', res, hfix, hlow⟩ := fixDeletionDiscrepancy_black (a := a) hb.mirror hlow.mirror
  exact fixLeftDeletionDiscrepancy_eq hfix hlow

theorem toList_fixRightInsertionDiscrepancy {t t' : ColoredTree α}
    (h : fixRightInsertionDiscrepancy t = some t') : t'.toList = t.toList := by
  obtain ⟨u, hu, rfl⟩ := Option.map_eq_some_iff.mp h
  rw [toList_mirror, toList_fixInsertionDiscrepancy hu, toList_mirror, List.reverse_reverse]

theorem toList_fixLeftDeletionDiscrepancy {t t' : ColoredTree α} {res : Bool}
    (h : fixLeftDeletionDiscrepancy t = some (t', res)) : t'.toList = t.toList := by
  obtain ⟨⟨u, res'⟩, hu, heq⟩ := Option.map_eq_some_iff.mp h
  cases heq
  rw [toList_mirror, toList_fixDeletionDiscrepancy hu, toList_mirror, List.reverse_reverse]

end RepairLemmas

section FunctionLemmas
variable {α κ : Type*} [LinearOrder κ] (key : α → κ) (address : α → ℕ)

theorem addRecursive_left {elem t : α} (h : goesLeft key address elem t) (bits : Color)
    (l r : ColoredTree α) :
    addRecursive key address elem (.node bits l t r) =
      (addRecursive key address elem l).bind fun l' =>
        if bits = .black then fixLeftInsertionDiscrepancy (.node bits l' t r)
        else some (.node bits l' t r) := if_pos h

theorem addRecursive_right {elem t : α} (h : ¬goesLeft key address elem t) (bits : Color)
    (l r : ColoredTree α) :
    addRecursive key address elem (.node bits l t r) =
      (addRecursive key address elem r).bind fun r' =>
        if bits = .black then fixRightInsertionDiscrepancy (.node bits l t r')
        else some (.node bits l t r') := if_neg h

/-- Below a red node the tree may become loose, and no worse. -/
theorem addRecursive_balanced (elem : α) {t : ColoredTree α} {c : Color} {n : ℕ}
    (h : Balanced t c n) :
    ∃ t', addRecursive key address elem t = some t' ∧ t' ≠ .nil ∧
      ((∃ c', Balanced t' c' n) ∨ c = .red ∧ t'.Loose n) := by
  induction h with
  | nil => exact ⟨_, rfl, by simp, Or.inl ⟨.red, .red .nil .nil⟩⟩
  | @red l r x n hl hr ihl ihr =>
    by_cases hleft : goesLeft key address elem x
    · obtain ⟨l', hadd, hnil, hl'⟩ := ihl
      refine ⟨.node .red l' x r, ?_, by simp, ?_⟩
      · rw [addRecursive_left key address hleft, hadd]
        rfl
      · rcases hl' with ⟨c', hl'⟩ | ⟨hc, -⟩
        · cases c' with
          | red => exact Or.inr ⟨rfl, .left hl' hr⟩
          | black => exact Or.inl ⟨.red, .red hl' hr⟩
        · cases hc
    · obtain ⟨r', hadd, hnil, hr'⟩ := ihr
      refine ⟨.node .red l x r', ?_, by simp, ?_⟩
      · rw [addRecursive_right key address hleft, hadd]
        rfl
      · rcases hr' with ⟨c', hr'⟩ | ⟨hc, -⟩
        · cases c' with
          | red => exact Or.inr ⟨rfl, .right hl hr'⟩
          | black => exact Or.inl ⟨.red, .red hl hr'⟩
        · cases hc
  | @black l r x cl cr n hl hr ihl ihr =>
    have hne : ∀ {t' : ColoredTree α} {c' : Color}, Balanced t' c' (n + 1) → t' ≠ .nil := by
      rintro _ _ h rfl
      cases h
    by_cases hleft : goesLeft key address elem x
    · obtain ⟨l', hadd, hnil, hl'⟩ := ihl
      obtain ⟨t', c', hfix, hbal⟩ :=
        fixInsertionDiscrepancy_spec (a := x) (hl'.imp_right And.right) hnil hr
      refine ⟨t', ?_, hne hbal, Or.inl ⟨c', hbal⟩⟩
      rw [addRecursive_left key address hleft, hadd]
      exact hfix
    · obtain ⟨r', hadd, hnil, hr'⟩ := ihr
      obtain ⟨t', c', hfix, hbal⟩ :=
        fixRightInsertionDiscrepancy_spec (a := x) hl (hr'.imp_right And.right) hnil
      refine ⟨t', ?_, hne hbal, Or.inl ⟨c', hbal⟩⟩
      rw [addRecursive_right key address hleft, hadd]
      exact hfix

theorem deleteRightmostLeaf_right (bits rBits : Color) (l rl rr : ColoredTree α) (t x : α) :
    deleteRightmostLeaf (.node bits l t (.node rBits rl x rr)) =
      (deleteRightmostLeaf (.node rBits rl x rr)).bind fun p =>
        if p.2.2 then
          (fixRightDeletionDiscrepancy (.node bits l t p.1)).bind fun q => some (q.1, p.2.1, q.2)
        else some (.node bits l t p.1, p.2.1, false) := by
  cases l <;> rfl

theorem Lowered.black_of_false {c : Color} {n : ℕ} {t : ColoredTree α}
    (h : Lowered c n t false) (hc : c = .black) : Balanced t .black n := by
  obtain ⟨c', hbal, himp⟩ := h
  cases himp hc
  exact hbal

/-- A balanced tree without its last node. -/
theorem deleteRightmostLeaf_balanced {t : ColoredTree α} {c : Color} {n : ℕ}
    (h : Balanced t c n) (hnil : t ≠ .nil) :
    ∃ t' theLeaf res, deleteRightmostLeaf t = some (t', theLeaf, res) ∧ Lowered c n t' res := by
  induction h with
  | nil => exact absurd rfl hnil
  | @red l r x n hl hr ihl ihr =>
    cases r with
    | nil =>
      cases hr
      cases hl
      exact ⟨_, _, _, rfl, .black, .nil, by simp⟩
    | node rBits rl y rr =>
      obtain ⟨r', theLeaf, res, hdel, hlow⟩ := ihr (by simp)
      rw [deleteRightmostLeaf_right, hdel]
      cases res with
      | true =>
        obtain ⟨t', res, hfix, hlow'⟩ := fixDeletionDiscrepancy_red (a := x) hl hlow
        refine ⟨t', theLeaf, res, ?_, hlow'⟩
        rw [Option.bind_some, if_pos rfl, fixRightDeletionDiscrepancy, hfix]
        rfl
      | false => exact ⟨_, _, _, rfl, .red, .red hl (hlow.black_of_false rfl), by simp⟩
  | @black l r x cl cr n hl hr ihl ihr =>
    cases r with
    | nil =>
      cases hr
      cases hl with
      | nil => exact ⟨_, _, _, rfl, rfl, 0, rfl, .nil⟩
      | red hll hlr => exact ⟨_, _, _, rfl, .black, .black hll hlr, fun _ => rfl⟩
    | node rBits rl y rr =>
      obtain ⟨r', theLeaf, res, hdel, hlow⟩ := ihr (by simp)
      rw [deleteRightmostLeaf_right, hdel]
      cases res with
      | true =>
        obtain ⟨t', res, hfix, hlow'⟩ := fixDeletionDiscrepancy_black (a := x) hl hlow
        refine ⟨t', theLeaf, res, ?_, hlow'⟩
        rw [Option.bind_some, if_pos rfl, fixRightDeletionDiscrepancy, hfix]
        rfl
      | false =>
        obtain ⟨c', hbal, -⟩ := hlow
        exact ⟨_, _, _, rfl, .black, .black hl hbal, fun _ => rfl⟩

theorem deleteHere_left (bits lBits : Color) (ll lr r : ColoredTree α) (x : α) :
    deleteHere bits (.node lBits ll x lr) r =
      (deleteRightmostLeaf (.node lBits ll x lr)).bind fun p =>
        if p.2.2 then fixLeftDeletionDiscrepancy (.node bits p.1 p.2.1 r)
        else some (.node bits p.1 p.2.1 r, false) := by
  cases r <;> rfl

theorem deleteHere_balanced {bits c : Color} {l r : ColoredTree α} {t : α} {n : ℕ}
    (h : Balanced (.node bits l t r) c n) :
    ∃ t' res, deleteHere bits l r = some (t', res) ∧ Lowered c n t' res := by
  cases l with
  | nil =>
    cases h with
    | red hl hr =>
      cases hl
      cases hr
      exact ⟨_, _, rfl, .black, .nil, by simp⟩
    | black hl hr =>
      cases hl
      cases hr with
      | nil => exact ⟨_, _, rfl, rfl, 0, rfl, .nil⟩
      | red hrl hrr => exact ⟨_, _, rfl, .black, .black hrl hrr, fun _ => rfl⟩
  | node lBits ll x lr =>
    rw [deleteHere_left]
    cases h with
    | red hl hr =>
      obtain ⟨l', theLeaf, res, hdel, hlow⟩ := deleteRightmostLeaf_balanced hl (by simp)
      rw [hdel]
      cases res with
      | true => exact fixLeftDeletionDiscrepancy_red hlow hr
      | false => exact ⟨_, _, rfl, .red, .red (hlow.black_of_false rfl) hr, by simp⟩
    | black hl hr =>
      obtain ⟨l', theLeaf, res, hdel, hlow⟩ := deleteRightmostLeaf_balanced hl (by simp)
      rw [hdel]
      cases res with
      | true => exact fixLeftDeletionDiscrepancy_black hlow hr
      | false =>
        obtain ⟨c', hbal, -⟩ := hlow
        exact ⟨_, _, rfl, .black, .black hbal hr, fun _ => rfl⟩

end FunctionLemmas

end Vdev.SglibTrees
