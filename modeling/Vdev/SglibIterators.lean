import Vdev.SglibOperations

/-!
The iterators of the sglib trees (libvdev/sglib.h): a path from the root with a
pass counter for each node on it. The order of the iterator is the pass at which
a node is current. The path has room for `SGLIB_MAX_TREE_DEEP` nodes; a write
behind it, and the dereference of a null pointer, are `none`. Each round of the
loop is listed with the node whose sons it reads, which says what an iterator
still needs when its client frees the nodes.
-/
namespace Vdev.SglibIterators

open RedBlackTrees RedBlackTrees.ColoredTree SglibTrees

variable {α : Type*}

def SGLIB_MAX_TREE_DEEP : ℕ := 128

/-- `path` and `pass` up to `pathi`, the last entry first. -/
abbrev Path (α : Type*) := List (ColoredTree α × ℕ)

/-- `struct sglib_iterator`, without the sub-comparator, which no caller sets. -/
structure Iterator (α : Type*) where
  currentElem : Option α
  path : Path α

def son (pass : ℕ) (l r : ColoredTree α) : ColoredTree α := if pass = 0 then l else r

/-- One round of the loop of `it_compute_current_elem`: the nodes it reads and the
path behind it. -/
def round : Path α → Option (List α × Path α)
  | [] => some ([], [])
  | (t, pass) :: below =>
    if 2 ≤ pass then some ([], below)
    else
      match t with
      | .nil => none
      | .node _ l x r =>
        match son pass l r with
        | .nil => some ([x], (t, pass + 1) :: below)
        | s =>
          if below.length + 1 < SGLIB_MAX_TREE_DEEP then
            some ([x], (s, 0) :: (t, pass + 1) :: below)
          else none

/-- `if (it->pathi>0 && it->order == it->pass[it->pathi-1])`. -/
def atTop (order : ℕ) : Path α → Option α
  | (.node _ _ x _, pass) :: _ => if order = pass then some x else none
  | _ => none

/-- The rounds that a path is good for. -/
def work : Path α → ℕ
  | [] => 0
  | (.nil, _) :: below => work below + 1
  | (.node _ l _ r, pass) :: below =>
    work below +
      (if pass = 0 then 3 * l.size + 3 * r.size + 3 else if pass = 1 then 3 * r.size + 2 else 1)

theorem work_push {s : ColoredTree α} (hs : s ≠ .nil) (below : Path α) :
    work ((s, 0) :: below) = work below + 3 * s.size := by
  cases s with
  | nil => exact absurd rfl hs
  | node bits l x r =>
    rw [work, if_pos rfl, size]
    omega

theorem round_pop {pass : ℕ} (hpass : 2 ≤ pass) (t : ColoredTree α) (below : Path α) :
    round ((t, pass) :: below) = some ([], below) := if_pos hpass

theorem round_null {pass : ℕ} (hpass : ¬2 ≤ pass) (below : Path α) :
    round ((.nil, pass) :: below) = (none : Option (List α × Path α)) := if_neg hpass

theorem round_node {pass : ℕ} (hpass : ¬2 ≤ pass) (bits : Color) (l r : ColoredTree α) (x : α)
    (below : Path α) :
    (son pass l r = .nil ∧ round ((.node bits l x r, pass) :: below) =
      some ([x], (.node bits l x r, pass + 1) :: below)) ∨
    (son pass l r ≠ .nil ∧ round ((.node bits l x r, pass) :: below) =
      if below.length + 1 < SGLIB_MAX_TREE_DEEP then
        some ([x], (son pass l r, 0) :: (.node bits l x r, pass + 1) :: below)
      else none) := by
  cases hson : son pass l r with
  | nil =>
    refine Or.inl ⟨rfl, (if_neg hpass).trans ?_⟩
    simp only [hson]
  | node sBits sl y sr =>
    refine Or.inr ⟨by simp, (if_neg hpass).trans ?_⟩
    simp only [hson]

theorem work_round {path path' : Path α} {reads : List α} (hne : path ≠ [])
    (h : round path = some (reads, path')) : work path' < work path := by
  match path, hne with
  | (t, pass) :: below, _ =>
    by_cases hpass : 2 ≤ pass
    · rw [round_pop hpass] at h
      cases h
      cases t with
      | nil => exact Nat.lt_succ_self _
      | node bits l x r =>
        rw [work, if_neg (by omega), if_neg (by omega)]
        omega
    · cases t with
      | nil =>
        rw [round_null hpass] at h
        cases h
      | node bits l x r =>
        have hson : work ((node bits l x r, pass) :: below) =
            work ((node bits l x r, pass + 1) :: below) + 3 * (son pass l r).size + 1 := by
          have hcases : pass = 0 ∨ pass = 1 := by omega
          rcases hcases with rfl | rfl
          · simp [work, son]
            omega
          · simp [work, son]
            omega
        rcases round_node hpass bits l r x below with ⟨hnil, heq⟩ | ⟨hnil, heq⟩
        · rw [heq] at h
          cases h
          omega
        · rw [heq] at h
          split_ifs at h
          cases h
          rw [work_push hnil]
          omega

/-- `it_compute_current_elem`: the nodes that are read and the iterator behind it. -/
def computeCurrentElem (order : ℕ) (path : Path α) : Option (List α × Iterator α) :=
  if hne : path = [] then some ([], ⟨none, []⟩)
  else
    match h : round path with
    | none => none
    | some (reads, path') =>
      match atTop order path' with
      | some x => some (reads, ⟨some x, path'⟩)
      | none =>
        have : work path' < work path := work_round hne h
        (computeCurrentElem order path').map fun p => (reads ++ p.1, p.2)
termination_by work path

/-- `it_init` in a given order. -/
def itInit (order : ℕ) (tree : ColoredTree α) : Option (List α × Iterator α) :=
  match tree with
  | .nil => some ([], ⟨none, []⟩)
  | .node bits l x r =>
    if order = 0 then some ([], ⟨some x, [(.node bits l x r, 0)]⟩)
    else computeCurrentElem order [(.node bits l x r, 0)]

/-- `it_next`. -/
def itNext (order : ℕ) (it : Iterator α) : Option (List α × Iterator α) :=
  computeCurrentElem order it.path

def visited (order : ℕ) : ℕ → Iterator α → Option (List α)
  | 0, _ => none
  | fuel + 1, it =>
    match it.currentElem with
    | none => some []
    | some x => do
      let (_, it') ← itNext order it
      let rest ← visited order fuel it'
      some (x :: rest)

/-- The element, if the order of the iterator is this pass. -/
def here (order pass : ℕ) (x : α) : List α := if order = pass then [x] else []

/-- The elements in the order of the pass at which they are current. -/
def traverse (order : ℕ) : ColoredTree α → List α
  | .nil => []
  | .node _ l x r =>
    here order 0 x ++ traverse order l ++ here order 1 x ++ traverse order r ++ here order 2 x

theorem traverse_inorder (t : ColoredTree α) : traverse 1 t = t.toList := by
  induction t with
  | nil => rfl
  | node bits l x r ihl ihr => simp [traverse, here, ihl, ihr]

theorem perm_traverse {order : ℕ} (horder : order ≤ 2) (t : ColoredTree α) :
    (traverse order t).Perm t.toList := by
  induction t with
  | nil => exact List.Perm.nil
  | node bits l x r ihl ihr =>
    have hcases : order = 0 ∨ order = 1 ∨ order = 2 := by omega
    rcases hcases with rfl | rfl | rfl
    · simpa [traverse, here] using
        ((ihl.append ihr).cons x).trans List.perm_middle.symm
    · simpa [traverse, here] using ihl.append (ihr.cons x)
    · have hmove : (traverse 2 l ++ (traverse 2 r ++ [x])).Perm (l.toList ++ x :: r.toList) :=
        ihl.append ((List.perm_append_singleton x _).trans (ihr.cons x))
      simpa [traverse, here] using hmove

/-- What is still to come below a node whose current pass has been dealt with. -/
def remaining (order : ℕ) : ColoredTree α → ℕ → List α
  | .nil, _ => []
  | .node _ l x r, pass =>
    if pass = 0 then
      traverse order l ++ here order 1 x ++ traverse order r ++ here order 2 x
    else if pass = 1 then traverse order r ++ here order 2 x
    else []

/-- What is still to come when the son that the last node waits for is done. -/
def pending (order : ℕ) : Path α → List α
  | [] => []
  | (t, pass) :: below => (atTop order [(t, pass)]).toList ++ remaining order t pass ++
      pending order below

/-- What is still to come when the last node of the path has just been dealt with. -/
def future (order : ℕ) : Path α → List α
  | [] => []
  | (t, pass) :: below => remaining order t pass ++ pending order below

theorem atTop_cons (order pass : ℕ) (t : ColoredTree α) (below : Path α) :
    atTop order ((t, pass) :: below) = atTop order [(t, pass)] := by
  cases t <;> rfl

theorem atTop_toList (order pass : ℕ) (bits : Color) (l r : ColoredTree α) (x : α) :
    (atTop order [(.node bits l x r, pass)]).toList = here order pass x := by
  rw [atTop, here]
  split_ifs <;> rfl

theorem pending_eq (order : ℕ) (path : Path α) :
    pending order path = (atTop order path).toList ++ future order path := by
  cases path with
  | nil => rfl
  | cons top below =>
    obtain ⟨t, pass⟩ := top
    rw [pending, future, atTop_cons order pass t below, List.append_assoc]

theorem remaining_next {pass : ℕ} (hpass : ¬2 ≤ pass) (order : ℕ) (bits : Color)
    (l r : ColoredTree α) (x : α) :
    remaining order (.node bits l x r) pass = traverse order (son pass l r) ++
      (here order (pass + 1) x ++ remaining order (.node bits l x r) (pass + 1)) := by
  have hcases : pass = 0 ∨ pass = 1 := by omega
  rcases hcases with rfl | rfl
  · simp [remaining, son]
  · simp [remaining, son]

theorem traverse_eq {s : ColoredTree α} (hs : s ≠ .nil) (order : ℕ) :
    traverse order s = (atTop order [(s, 0)]).toList ++ remaining order s 0 := by
  cases s with
  | nil => exact absurd rfl hs
  | node bits l x r =>
    rw [atTop_toList, remaining, if_pos rfl, traverse]
    simp only [List.append_assoc]

/-- A round keeps what is to come. -/
theorem pending_round (order : ℕ) {path path' : Path α} {reads : List α}
    (h : round path = some (reads, path')) : pending order path' = future order path := by
  match path with
  | [] =>
    cases h
    rfl
  | (t, pass) :: below =>
    by_cases hpass : 2 ≤ pass
    · rw [round_pop hpass] at h
      cases h
      cases t with
      | nil => rfl
      | node bits l x r =>
        rw [future, remaining, if_neg (by omega), if_neg (by omega), List.nil_append]
    · cases t with
      | nil =>
        rw [round_null hpass] at h
        cases h
      | node bits l x r =>
        rw [future, remaining_next hpass]
        rcases round_node hpass bits l r x below with ⟨hnil, heq⟩ | ⟨hnil, heq⟩
        · rw [heq] at h
          cases h
          rw [pending, hnil, traverse, List.nil_append, atTop_toList]
        · rw [heq] at h
          split_ifs at h
          cases h
          rw [pending, pending, atTop_toList, ← traverse_eq hnil]
          simp only [List.append_assoc]

/-- The nodes of the path, each as deep as its place allows. -/
def Fits (depth : ℕ) : Path α → Prop
  | [] => True
  | (t, _) :: below => t ≠ .nil ∧ below.length + t.height ≤ depth ∧ Fits depth below

theorem height_son (pass : ℕ) (bits : Color) (l r : ColoredTree α) (x : α) :
    (son pass l r).height + 1 ≤ (node bits l x r).height := by
  rw [height, son]
  split_ifs <;> omega

theorem height_pos {t : ColoredTree α} (h : t ≠ .nil) : 0 < t.height := by
  cases t with
  | nil => exact absurd rfl h
  | node bits l x r => exact Nat.succ_pos _

/-- In a tree that is not too high a round never writes behind the path. -/
theorem round_fits {depth : ℕ} (hdepth : depth ≤ SGLIB_MAX_TREE_DEEP) {path : Path α}
    (hfits : Fits depth path) :
    ∃ reads path', round path = some (reads, path') ∧ Fits depth path' := by
  match path with
  | [] => exact ⟨[], [], rfl, trivial⟩
  | (t, pass) :: below =>
    obtain ⟨hnil, hheight, hbelow⟩ := hfits
    by_cases hpass : 2 ≤ pass
    · exact ⟨[], below, round_pop hpass t below, hbelow⟩
    · cases t with
      | nil => exact absurd rfl hnil
      | node bits l x r =>
        have hson := height_son pass bits l r x
        rcases round_node hpass bits l r x below with ⟨hs, heq⟩ | ⟨hs, heq⟩
        · exact ⟨_, _, heq, hnil, hheight, hbelow⟩
        · have hpos := height_pos hs
          rw [if_pos (by omega)] at heq
          refine ⟨_, _, heq, hs, ?_, hnil, hheight, hbelow⟩
          rw [List.length_cons]
          omega

theorem computeCurrentElem_nil (order : ℕ) :
    computeCurrentElem order ([] : Path α) = some ([], ⟨none, []⟩) := by
  rw [computeCurrentElem, dif_pos rfl]

theorem computeCurrentElem_cons (order : ℕ) {path path' : Path α} {reads : List α}
    (hne : path ≠ []) (h : round path = some (reads, path')) :
    computeCurrentElem order path =
      match atTop order path' with
      | some x => some (reads, ⟨some x, path'⟩)
      | none => (computeCurrentElem order path').map fun p => (reads ++ p.1, p.2) := by
  rw [computeCurrentElem, dif_neg hne]
  split
  · rename_i hnone
    rw [h] at hnone
    cases hnone
  · rename_i reads₁ path₁ hsome
    rw [h] at hsome
    cases hsome
    rfl

/-- The iterator moves to the first element that is to come. -/
theorem computeCurrentElem_spec (order : ℕ) {depth : ℕ} (hdepth : depth ≤ SGLIB_MAX_TREE_DEEP)
    {path : Path α} (hfits : Fits depth path) :
    ∃ reads path', computeCurrentElem order path =
        some (reads, ⟨(future order path).head?, path'⟩) ∧
      future order path' = (future order path).tail ∧ Fits depth path' := by
  induction hn : work path using Nat.strong_induction_on generalizing path with
  | h n ih =>
    subst hn
    cases hpath : path with
    | nil => exact ⟨[], [], computeCurrentElem_nil order, rfl, trivial⟩
    | cons top below =>
      have hne : path ≠ [] := by simp [hpath]
      rw [← hpath]
      obtain ⟨reads, path', hround, hfits'⟩ := round_fits hdepth hfits
      have hpending := (pending_eq order path').symm.trans (pending_round order hround)
      rw [computeCurrentElem_cons order hne hround]
      cases htop : atTop order path' with
      | some x =>
        rw [htop] at hpending
        exact ⟨reads, path', by rw [← hpending]; rfl, by rw [← hpending]; rfl, hfits'⟩
      | none =>
        rw [htop] at hpending
        obtain ⟨reads', path'', heq, htail, hfits''⟩ := ih _ (work_round hne hround) hfits' rfl
        rw [Option.toList_none, List.nil_append] at hpending
        refine ⟨reads ++ reads', path'', ?_, ?_, hfits''⟩
        · rw [heq, hpending]
          rfl
        · rw [htail, hpending]

theorem itInit_spec (order : ℕ) {depth : ℕ} (hdepth : depth ≤ SGLIB_MAX_TREE_DEEP)
    {t : ColoredTree α} (ht : t.height ≤ depth) :
    ∃ reads path, itInit order t = some (reads, ⟨(traverse order t).head?, path⟩) ∧
      future order path = (traverse order t).tail ∧ Fits depth path := by
  cases t with
  | nil => exact ⟨[], [], rfl, rfl, trivial⟩
  | node bits l x r =>
    have hfits : Fits depth [(node bits l x r, 0)] := ⟨by simp, by simpa using ht, trivial⟩
    have hfuture : future order [(node bits l x r, 0)] = remaining order (node bits l x r) 0 :=
      List.append_nil _
    have htraverse := traverse_eq (s := node bits l x r) (by simp) order
    rw [atTop_toList, ← hfuture] at htraverse
    by_cases horder : order = 0
    · rw [here, if_pos horder] at htraverse
      refine ⟨[], [(node bits l x r, 0)], ?_, ?_, hfits⟩
      · rw [htraverse]
        exact if_pos horder
      · rw [htraverse]
        rfl
    · rw [here, if_neg horder, List.nil_append] at htraverse
      obtain ⟨reads, path', heq, htail, hfits'⟩ := computeCurrentElem_spec order hdepth hfits
      refine ⟨reads, path', ?_, ?_, hfits'⟩
      · rw [htraverse, ← heq]
        exact if_neg horder
      · rw [htail, htraverse]

/-- A loop over an iterator visits what the iterator has to come, each element once. -/
theorem visited_eq (order : ℕ) {depth : ℕ} (hdepth : depth ≤ SGLIB_MAX_TREE_DEEP)
    {path : Path α} (hfits : Fits depth path) (current : Option α) (xs : List α)
    (hcurrent : current = xs.head?) (hfuture : future order path = xs.tail) {fuel : ℕ}
    (hfuel : xs.length < fuel) : visited order fuel ⟨current, path⟩ = some xs := by
  induction xs generalizing path current fuel with
  | nil =>
    obtain ⟨fuel, rfl⟩ : ∃ n, fuel = n + 1 := ⟨fuel - 1, by simp at hfuel; omega⟩
    subst hcurrent
    rfl
  | cons x xs ih =>
    obtain ⟨fuel, rfl⟩ : ∃ n, fuel = n + 1 := ⟨fuel - 1, by simp at hfuel; omega⟩
    subst hcurrent
    obtain ⟨reads, path', heq, htail, hfits'⟩ := computeCurrentElem_spec order hdepth hfits
    rw [hfuture, List.tail_cons] at heq htail
    have hrest := ih hfits' xs.head? rfl htail (by simpa using hfuel)
    have hnext : itNext order ⟨some x, path⟩ = some (reads, ⟨xs.head?, path'⟩) := heq
    simp only [visited, List.head?_cons, hnext, hrest, Option.bind_eq_bind, Option.bind_some]

inductive Event (α : Type*)
  | read (x : α)
  | freeStrings (x : α)
  | free (x : α)
  deriving DecidableEq, Repr

def Event.node : Event α → α
  | read x => x
  | freeStrings x => x
  | free x => x

/-- A loop over an iterator whose body does something to the current node. -/
def eachElem (order : ℕ) (body : α → Event α) : ℕ → Iterator α → Option (List (Event α))
  | 0, _ => none
  | fuel + 1, it =>
    match it.currentElem with
    | none => some []
    | some x => do
      let (reads, it') ← itNext order it
      let rest ← eachElem order body fuel it'
      some (body x :: (reads.map .read ++ rest))

/-- `vdev_params_free`: the strings of all nodes in one loop, the nodes in a second. -/
def vdevParamsFree (fuel : ℕ) (params : ColoredTree α) : Option (List (Event α)) := do
  let (reads, itr) ← itInit 1 params
  let strings ← eachElem 1 .freeStrings fuel itr
  let (reads', itr') ← itInit 2 params
  let nodes ← eachElem 2 .free fuel itr'
  some (reads.map .read ++ strings ++ (reads'.map .read ++ nodes))

theorem mem_remaining {pass : ℕ} (hpass : ¬2 ≤ pass) (bits : Color) (l r : ColoredTree α)
    (x : α) : x ∈ remaining 2 (node bits l x r) pass := by
  have hcases : pass = 0 ∨ pass = 1 := by omega
  rcases hcases with rfl | rfl <;> simp [remaining, here]

/-- In postorder only nodes are read that have not been current yet. -/
theorem mem_future_of_round {path path' : Path α} {reads : List α}
    (h : round path = some (reads, path')) : ∀ x ∈ reads, x ∈ future 2 path := by
  match path with
  | [] =>
    cases h
    exact fun x hx => absurd hx List.not_mem_nil
  | (t, pass) :: below =>
    by_cases hpass : 2 ≤ pass
    · rw [round_pop hpass] at h
      cases h
      exact fun x hx => absurd hx List.not_mem_nil
    · cases t with
      | nil =>
        rw [round_null hpass] at h
        cases h
      | node bits l y r =>
        have hy := List.mem_append_left (pending 2 below) (mem_remaining hpass bits l r y)
        rcases round_node hpass bits l r y below with ⟨hnil, heq⟩ | ⟨hnil, heq⟩
        · rw [heq] at h
          cases h
          exact fun x hx => List.mem_singleton.mp hx ▸ hy
        · rw [heq] at h
          split_ifs at h
          cases h
          exact fun x hx => List.mem_singleton.mp hx ▸ hy

theorem mem_future_of_compute {path : Path α} {reads : List α} {it : Iterator α}
    (h : computeCurrentElem 2 path = some (reads, it)) : ∀ x ∈ reads, x ∈ future 2 path := by
  induction hn : work path using Nat.strong_induction_on generalizing path reads with
  | h n ih =>
    subst hn
    by_cases hne : path = []
    · subst hne
      rw [computeCurrentElem_nil] at h
      cases h
      exact fun x hx => absurd hx List.not_mem_nil
    · cases hround : round path with
      | none =>
        rw [computeCurrentElem, dif_neg hne] at h
        split at h
        · cases h
        · rename_i hsome
          rw [hround] at hsome
          cases hsome
      | some p =>
        obtain ⟨reads₁, path₁⟩ := p
        have hpending := (pending_eq 2 path₁).symm.trans (pending_round 2 hround)
        have hreads := mem_future_of_round hround
        rw [computeCurrentElem_cons 2 hne hround] at h
        cases htop : atTop 2 path₁ with
        | some x =>
          rw [htop] at h
          cases h
          exact hreads
        | none =>
          rw [htop] at h hpending
          obtain ⟨⟨reads₂, it₂⟩, hrest, heq⟩ := Option.map_eq_some_iff.mp h
          cases heq
          rw [Option.toList_none, List.nil_append] at hpending
          intro x hx
          rcases List.mem_append.mp hx with hx | hx
          · exact hreads x hx
          · rw [← hpending]
            exact ih _ (work_round hne hround) hrest rfl x hx

def Event.isRead : Event α → Bool
  | read _ => true
  | _ => false

/-- What was done to the nodes, apart from reading them. -/
def done (trace : List (Event α)) : List (Event α) := trace.filter fun e => !e.isRead

/-- `f` may follow `e`: a node that was freed is not touched again. -/
def MayFollow (e f : Event α) : Prop := ∀ x, e = .free x → f.node ≠ x

theorem done_reads (reads : List α) : done (reads.map Event.read) = [] := by
  simp [done, Event.isRead]

theorem done_append (trace trace' : List (Event α)) :
    done (trace ++ trace') = done trace ++ done trace' := List.filter_append ..

/-- The loop does its work on each element once; in postorder it touches no
element again behind it. -/
theorem eachElem_spec (order : ℕ) {depth : ℕ} (hdepth : depth ≤ SGLIB_MAX_TREE_DEEP)
    (body : α → Event α) (hbody : ∀ x, (body x).isRead = false ∧ (body x).node = x)
    {path : Path α} (hfits : Fits depth path) (xs : List α)
    (hfuture : future order path = xs.tail) {fuel : ℕ} (hfuel : xs.length < fuel) :
    ∃ trace, eachElem order body fuel ⟨xs.head?, path⟩ = some trace ∧
      done trace = xs.map body ∧
      (order = 2 → xs.Nodup → (∀ e ∈ trace, e.node ∈ xs) ∧ trace.Pairwise MayFollow) := by
  induction xs generalizing path fuel with
  | nil =>
    obtain ⟨fuel, rfl⟩ : ∃ n, fuel = n + 1 := ⟨fuel - 1, by simp at hfuel; omega⟩
    refine ⟨[], rfl, rfl, fun _ _ => ⟨fun e he => absurd he List.not_mem_nil, .nil⟩⟩
  | cons x xs ih =>
    obtain ⟨fuel, rfl⟩ : ∃ n, fuel = n + 1 := ⟨fuel - 1, by simp at hfuel; omega⟩
    obtain ⟨reads, path', heq, htail, hfits'⟩ := computeCurrentElem_spec order hdepth hfits
    have hreads : order = 2 → ∀ y ∈ reads, y ∈ xs := by
      intro horder y hy
      subst horder
      have hmem := mem_future_of_compute heq y hy
      rwa [hfuture] at hmem
    rw [hfuture, List.tail_cons] at heq htail
    obtain ⟨trace, hrest, hdone, hpost⟩ := ih hfits' htail (by simpa using hfuel)
    have hnext : itNext order ⟨some x, path⟩ = some (reads, ⟨xs.head?, path'⟩) := heq
    refine ⟨body x :: (reads.map .read ++ trace), ?_, ?_, fun horder hnodup => ?_⟩
    · simp only [eachElem, List.head?_cons, hnext, hrest, Option.bind_eq_bind, Option.bind_some]
    · have hcons : done (body x :: (reads.map .read ++ trace)) =
          body x :: done (reads.map .read ++ trace) := by
        simp [done, (hbody x).1]
      rw [hcons, done_append, done_reads, hdone]
      rfl
    · obtain ⟨hx, hnodup⟩ := List.nodup_cons.mp hnodup
      obtain ⟨hnodes, hpair⟩ := hpost horder hnodup
      have hlater : ∀ e ∈ reads.map Event.read ++ trace, e.node ∈ xs := by
        intro e he
        rcases List.mem_append.mp he with he | he
        · obtain ⟨y, hy, rfl⟩ := List.mem_map.mp he
          exact hreads horder y hy
        · exact hnodes e he
      refine ⟨fun e he => ?_, List.pairwise_cons.mpr ⟨fun f hf y hy => ?_, ?_⟩⟩
      · rcases List.mem_cons.mp he with rfl | he
        · rw [(hbody x).2]
          exact List.mem_cons_self
        · exact List.mem_cons_of_mem _ (hlater e he)
      · have hxy : x = y := by rw [← (hbody x).2, hy]; rfl
        exact fun hnode => hx (by rw [hxy, ← hnode]; exact hlater f hf)
      · refine List.pairwise_append.mpr ⟨?_, hpair, fun e he f _ y hy => ?_⟩
        · refine List.pairwise_map.mpr (List.pairwise_of_forall fun a b y hy => ?_)
          cases hy
        · obtain ⟨z, -, rfl⟩ := List.mem_map.mp he
          cases hy

/-- No node is touched behind its release, and every node is released once. -/
theorem vdevParamsFree_spec {t : ColoredTree α} (ht : t.height ≤ SGLIB_MAX_TREE_DEEP)
    (hnodup : t.toList.Nodup) {fuel : ℕ} (hfuel : t.size < fuel) :
    ∃ trace, vdevParamsFree fuel t = some trace ∧ trace.Pairwise MayFollow ∧
      ∃ nodes : List α, nodes.Perm t.toList ∧
        done trace = t.toList.map Event.freeStrings ++ nodes.map Event.free := by
  have hperm₂ : (traverse 2 t).Perm t.toList := perm_traverse le_rfl t
  obtain ⟨reads, path, hinit, hfuture, hfits⟩ := itInit_spec 1 le_rfl ht
  obtain ⟨reads', path', hinit', hfuture', hfits'⟩ := itInit_spec 2 le_rfl ht
  obtain ⟨strings, hstrings, hdone, -⟩ := eachElem_spec 1 le_rfl Event.freeStrings
    (fun x => ⟨rfl, rfl⟩) hfits (traverse 1 t) hfuture
    (by rw [traverse_inorder, length_toList]; exact hfuel)
  obtain ⟨nodes, hnodes, hdone', hpost⟩ := eachElem_spec 2 le_rfl Event.free
    (fun x => ⟨rfl, rfl⟩) hfits' (traverse 2 t) hfuture'
    (by rw [hperm₂.length_eq, length_toList]; exact hfuel)
  obtain ⟨-, hpair⟩ := hpost rfl (hperm₂.nodup_iff.mpr hnodup)
  have hquiet : ∀ e ∈ reads.map Event.read ++ strings, ∀ f, MayFollow e f := by
    intro e he f y hy
    subst hy
    have hmem : Event.free y ∈ done (reads.map Event.read ++ strings) :=
      List.mem_filter.mpr ⟨he, rfl⟩
    rw [done_append, done_reads, hdone] at hmem
    obtain ⟨z, -, hz⟩ := List.mem_map.mp hmem
    cases hz
  refine ⟨reads.map .read ++ strings ++ (reads'.map .read ++ nodes), ?_, ?_,
    traverse 2 t, hperm₂, ?_⟩
  · simp only [vdevParamsFree, hinit, hinit', hstrings, hnodes, Option.bind_eq_bind,
      Option.bind_some]
  · refine List.pairwise_append.mpr ⟨?_, ?_, fun e he f _ => hquiet e he f⟩
    · exact List.pairwise_of_forall_mem_list fun e he f _ => hquiet e he f
    · refine List.pairwise_append.mpr ⟨?_, hpair, fun e he f _ y hy => ?_⟩
      · refine List.pairwise_map.mpr (List.pairwise_of_forall fun a b y hy => ?_)
        cases hy
      · obtain ⟨z, -, rfl⟩ := List.mem_map.mp he
        cases hy
  · rw [done_append, done_append, done_append, done_reads, done_reads, hdone, hdone',
      traverse_inorder]
    rfl

section ReachedTrees

variable {κ : Type*} [LinearOrder κ] {key : α → κ} {address : α → ℕ}

/-- With fewer elements than there are addresses, the path has room for every branch. -/
theorem height_le_of_consistent {t : ColoredTree α} (h : Consistent key address t)
    (hsize : t.size + 1 < 2 ^ 64) : t.height ≤ SGLIB_MAX_TREE_DEEP := by
  obtain ⟨n, hbal⟩ := h.balanced
  exact (hbal.height_lt hsize).le

theorem nodup_of_consistent {t : ColoredTree α} (h : Consistent key address t) :
    t.toList.Nodup := by
  have hord : t.toList.Pairwise (fun a b => rank key address a < rank key address b) := h.ordered
  refine hord.imp fun {a b} hlt heq => ?_
  rw [heq] at hlt
  exact lt_irrefl _ hlt

/-- An iterator over a tree that a run of the calls has built visits every element
once, in its order, and stays inside its path. -/
theorem iterator_visits_all (ops : List (Operation α)) {t : ColoredTree α}
    (hok : Runs.Guarded (apply key address) (Allowed address) ops .nil)
    (hrun : Runs.run (apply key address) ops .nil = some t) (hsize : t.size + 1 < 2 ^ 64)
    {order fuel : ℕ} (horder : order ≤ 2) (hfuel : t.size < fuel) :
    ∃ reads it xs, itInit order t = some (reads, it) ∧ visited order fuel it = some xs ∧
      xs.Perm t.toList ∧ xs.Nodup ∧
      (order = 1 → xs.Pairwise (fun a b => rank key address a < rank key address b)) := by
  obtain ⟨u, hrun', hcons, -⟩ := Consistent.nil.run hok
  cases Option.some.inj (hrun.symm.trans hrun')
  have hheight := height_le_of_consistent hcons hsize
  have hperm := perm_traverse horder t
  obtain ⟨reads, path, hinit, hfuture, hfits⟩ := itInit_spec order le_rfl hheight
  have hlength : (traverse order t).length < fuel := by
    rw [hperm.length_eq, length_toList]
    exact hfuel
  have hvisited := visited_eq order le_rfl hfits _ (traverse order t) rfl hfuture hlength
  refine ⟨reads, _, traverse order t, hinit, hvisited, hperm,
    hperm.nodup_iff.mpr (nodup_of_consistent hcons), fun hone => ?_⟩
  rw [hone, traverse_inorder]
  exact hcons.ordered

/-- The elements of a tree of two nodes, in their order. -/
theorem iterator_visits_all_two :
    let t : ColoredTree (ℕ × ℕ) := .node .black (.node .red .nil (1, 1) .nil) (2, 0) .nil
    ∃ reads it xs, itInit 1 t = some (reads, it) ∧ visited 1 3 it = some xs ∧
      xs.Perm t.toList ∧ xs.Nodup ∧
      xs.Pairwise (fun a b => rank Prod.fst Prod.snd a < rank Prod.fst Prod.snd b) := by
  intro t
  have hok : Runs.Guarded (apply Prod.fst Prod.snd) (Allowed Prod.snd)
      [.add (2, 0), .add (1, 1)] (.nil : ColoredTree (ℕ × ℕ)) :=
    ⟨fun y hy => absurd hy List.not_mem_nil, fun s hs => ⟨fun y hy => by
      cases Option.some.inj hs
      simp at hy
      simp [hy], fun _ _ => trivial⟩⟩
  have hrun : Runs.run (apply Prod.fst Prod.snd) [.add (2, 0), .add (1, 1)] .nil = some t := rfl
  obtain ⟨reads, it, xs, hinit, hvisited, hperm, hnodup, hordered⟩ :=
    iterator_visits_all [.add (2, 0), .add (1, 1)] hok hrun (by decide)
      (show 1 ≤ 2 by decide) (show t.size < 3 by decide)
  exact ⟨reads, it, xs, hinit, hvisited, hperm, hnodup, hordered rfl⟩

end ReachedTrees

end Vdev.SglibIterators
