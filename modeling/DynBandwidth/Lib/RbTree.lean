import Mathlib.Data.List.Basic
import Mathlib.Order.Lattice

/-! # Red-black trees with bottom-up repair

A red-black tree whose repair loops walk up from a node to the root. The nodes above the current one
are the frames of a path (nearest first), each with the direction taken, the colour and datum of the
node and the subtree that was not entered; `plug` puts the tree together again.

* `insertColor` repairs after a red node was linked below a path, `eraseColor` after a black leaf
  was cut off; their cases carry the numbers they have in the literature.
* `descend` searches with two tests (go left, go right); `upsert` links a new datum at the leaf
  found, or changes the datum met. `first` and `eraseFirst` read and remove the leftmost node.

Everything that is proved is about the in-order list `toList`: `upsert` inserts at one position or
changes one entry (`upsert_cases`), at the right position if the tests agree with an order of the
entries (`upsert_sorted`), and `eraseFirst` drops the head (`toList_eraseFirst`). -/

namespace DynBandwidth.Lib.RbTree

inductive Color
  | red
  | black
  deriving DecidableEq, Repr

inductive RbNode (α : Type)
  | nil
  | node (color : Color) (left : RbNode α) (data : α) (right : RbNode α)
  deriving DecidableEq, Repr

/-- The child of a node that a path goes through. -/
inductive Dir
  | left
  | right
  deriving DecidableEq, Repr

/-- A node above the current one. -/
structure Frame (α : Type) where
  dir : Dir
  color : Color
  data : α
  sibling : RbNode α

variable {α : Type}

/-! ### Paths -/

/-- The node of a frame, with `t` as the child the path goes through. -/
def Frame.fill (f : Frame α) (t : RbNode α) : RbNode α :=
  match f.dir with
  | .left => .node f.color t f.data f.sibling
  | .right => .node f.color f.sibling f.data t

/-- The whole tree: `t` below the path. -/
def plug (t : RbNode α) : List (Frame α) → RbNode α
  | [] => t
  | f :: up => plug (f.fill t) up

def RbNode.toList : RbNode α → List α
  | .nil => []
  | .node _ l x r => l.toList ++ x :: r.toList

@[simp] theorem toList_nil : (RbNode.nil : RbNode α).toList = [] := rfl

@[simp] theorem toList_node (c : Color) (l r : RbNode α) (x : α) :
    (RbNode.node c l x r).toList = l.toList ++ x :: r.toList := rfl

theorem toList_eq_nil {t : RbNode α} : t.toList = [] ↔ t = .nil := by
  cases t <;> simp

/-- The entries left of the current node. -/
def lefts : List (Frame α) → List α
  | [] => []
  | f :: up => lefts up ++ (match f.dir with | .left => [] | .right => f.sibling.toList ++ [f.data])

/-- The entries right of the current node. -/
def rights : List (Frame α) → List α
  | [] => []
  | f :: up => (match f.dir with | .left => f.data :: f.sibling.toList | .right => []) ++ rights up

theorem toList_plug : ∀ (up : List (Frame α)) (t : RbNode α),
    (plug t up).toList = lefts up ++ t.toList ++ rights up
  | [], t => by simp [plug, lefts, rights]
  | f :: up, t => by
    rw [plug, toList_plug up]
    rcases f with ⟨_ | _, c, x, s⟩ <;> simp [Frame.fill, lefts, rights]

theorem toList_plug_congr {t t' : RbNode α} (h : t.toList = t'.toList) (up : List (Frame α)) :
    (plug t up).toList = (plug t' up).toList := by
  rw [toList_plug, toList_plug, h]

/-! ### The leftmost and the rightmost node -/

def RbNode.first : RbNode α → Option α
  | .nil => none
  | .node _ .nil x _ => some x
  | .node _ (.node c l y r) _ _ => (RbNode.node c l y r).first

theorem first_eq_head? : ∀ t : RbNode α, t.first = t.toList.head?
  | .nil => rfl
  | .node _ .nil x r => rfl
  | .node _ (.node c l y r) x s => by
    rw [RbNode.first, first_eq_head? (.node c l y r), toList_node _ (.node c l y r) s x,
      List.head?_append_of_ne_nil _ (by simp)]

def RbNode.last : RbNode α → Option α
  | .nil => none
  | .node _ _ x .nil => some x
  | .node _ _ _ (.node c l y r) => (RbNode.node c l y r).last

theorem last_eq_getLast? : ∀ t : RbNode α, t.last = t.toList.getLast?
  | .nil => rfl
  | .node _ l x .nil => by simp [RbNode.last]
  | .node _ l x (.node c m y r) => by
    rw [RbNode.last, last_eq_getLast? (.node c m y r), toList_node _ l (.node c m y r) x,
      List.getLast?_append_of_ne_nil _ (by simp), List.getLast?_cons_of_ne_nil (by simp)]

/-! ### Insertion -/

def RbNode.isRed : RbNode α → Bool
  | .node .red _ _ _ => true
  | _ => false

/-- Colour a node black, if there is one. -/
def RbNode.setBlack : RbNode α → RbNode α
  | .nil => .nil
  | .node _ l x r => .node .black l x r

@[simp] theorem toList_setBlack (t : RbNode α) : t.setBlack.toList = t.toList := by
  cases t <;> rfl

/-- **Cases 2 and 3 of the repair loop of an insertion**: the red node `l`, `x`, `r` is the `d`
child of a red node with datum `p` and other child `s`, which is the `d'` child of a node with
colour `c`, datum `g` and other child `u`. An inner node is first rotated at the parent (Case 2),
then the grandparent is rotated (Case 3). -/
def insertRotate (d' d : Dir) (l : RbNode α) (x : α) (r : RbNode α) (p : α) (s : RbNode α)
    (c : Color) (g : α) (u : RbNode α) : RbNode α :=
  match d', d with
  | .left, .left => .node c (.node .red l x r) p (.node .red s.setBlack g u)
  | .left, .right => .node c (.node .red s p l.setBlack) x (.node .red r.setBlack g u)
  | .right, .left => .node c (.node .red u g l.setBlack) x (.node .red r.setBlack p s)
  | .right, .right => .node c (.node .red u g s.setBlack) p (.node .red l x r)

/-- **The repair loop of an insertion**: the red node `l`, `x`, `r` was put below the path. The
current node is red all along. -/
def insertColor (l : RbNode α) (x : α) (r : RbNode α) : List (Frame α) → RbNode α
  | [] => .node .black l x r
  | ⟨d, .black, p, s⟩ :: up => plug (.node .red l x r) (⟨d, .black, p, s⟩ :: up)
  -- a red root: the root of a red-black tree is black
  | [⟨d, .red, p, s⟩] => plug (.node .red l x r) [⟨d, .red, p, s⟩]
  | ⟨d, .red, p, s⟩ :: ⟨d', c, g, u⟩ :: up =>
    if u.isRed then
      -- Case 1: colour flips, go on at the grandparent
      match d' with
      | .left => insertColor (Frame.fill ⟨d, .black, p, s⟩ (.node .red l x r)) g u.setBlack up
      | .right => insertColor u.setBlack g (Frame.fill ⟨d, .black, p, s⟩ (.node .red l x r)) up
    else plug (insertRotate d' d l x r p s c g u) up

theorem toList_insertRotate (d' d : Dir) (l : RbNode α) (x : α) (r : RbNode α) (p : α)
    (s : RbNode α) (c : Color) (g : α) (u : RbNode α) :
    (insertRotate d' d l x r p s c g u).toList =
      (Frame.fill ⟨d', c, g, u⟩ (Frame.fill ⟨d, .red, p, s⟩ (.node .red l x r))).toList := by
  cases d' <;> cases d <;> simp [insertRotate, Frame.fill]

/-- The repair does not touch the order of the entries. -/
theorem toList_insertColor (l : RbNode α) (x : α) (r : RbNode α) (up : List (Frame α)) :
    (insertColor l x r up).toList = (plug (.node .red l x r) up).toList := by
  induction l, x, r, up using insertColor.induct with
  | case1 l x r => simp [insertColor, plug]
  | case2 l x r d p s up => simp [insertColor]
  | case3 l x r d p s => simp [insertColor]
  | case4 l x r d p s c g u up hu ih =>
    rw [insertColor, if_pos hu, ih, plug, plug]
    refine toList_plug_congr ?_ up
    cases d <;> simp [Frame.fill]
  | case5 l x r d p s c g u up hu ih =>
    rw [insertColor, if_pos hu, ih, plug, plug]
    refine toList_plug_congr ?_ up
    cases d <;> simp [Frame.fill]
  | case6 l x r d p s d' c g u up hu =>
    have h : insertColor l x r (⟨d, .red, p, s⟩ :: ⟨d', c, g, u⟩ :: up) =
        plug (insertRotate d' d l x r p s c g u) up := by
      cases d' <;> rw [insertColor, if_neg hu]
    rw [h, plug, plug]
    exact toList_plug_congr (toList_insertRotate d' d l x r p s c g u) up

/-! ### Removal of the leftmost node -/

/-- **Cases 2 to 4 of the repair loop of a removal**: `n` is the `d` child of a node with colour
`c` and datum `p`, its paths are one black node short, and its sibling is black. The flag says
whether the subtree of the parent is still short, that is, whether the loop goes on there. -/
def eraseCases (n : RbNode α) (d : Dir) (c : Color) (p : α) : RbNode α → RbNode α × Bool
  -- no sibling: its paths have a black node more than those of `n`
  | .nil => (Frame.fill ⟨d, c, p, .nil⟩ n, false)
  | .node _ sl sx sr =>
    match d with
    | .left =>
      match sl, sr with
      -- Case 4: rotate at the parent
      | sl, .node .red l x r => (.node c (.node .black n p sl) sx (.node .black l x r), false)
      -- Case 3: rotate at the sibling, and Case 4
      | .node .red l x r, sr =>
        (.node c (.node .black n p l) x (.node .black r.setBlack sx sr), false)
      -- Case 2: colour flip of the sibling
      | sl, sr => (.node .black n p (.node .red sl sx sr), c = .black)
    | .right =>
      match sl, sr with
      | .node .red l x r, sr => (.node c (.node .black l x r) sx (.node .black sr p n), false)
      | sl, .node .red l x r =>
        (.node c (.node .black sl sx l.setBlack) x (.node .black r p n), false)
      | sl, sr => (.node .black (.node .red sl sx sr) p n, c = .black)

theorem toList_eraseCases (n : RbNode α) (d : Dir) (c : Color) (p : α) (s : RbNode α) :
    (eraseCases n d c p s).1.toList = (Frame.fill ⟨d, c, p, s⟩ n).toList := by
  unfold eraseCases
  rcases s with _ | ⟨sc, sl, sx, sr⟩
  · rfl
  · cases d <;> dsimp only [Frame.fill] <;> split <;> simp

/-- **The repair loop of a removal**: the paths through `n` are one black node short. -/
def eraseColor (n : RbNode α) : List (Frame α) → RbNode α
  | [] => n
  -- Case 1: rotate at the parent, which becomes red, so that the loop ends with Cases 2 to 4
  | ⟨.left, c, p, .node .red sl sx sr⟩ :: up =>
    plug (eraseCases n .left .red p sl.setBlack).1 (⟨.left, c, sx, sr⟩ :: up)
  | ⟨.right, c, p, .node .red sl sx sr⟩ :: up =>
    plug (eraseCases n .right .red p sr.setBlack).1 (⟨.right, c, sx, sl⟩ :: up)
  | ⟨d, c, p, s⟩ :: up =>
    if (eraseCases n d c p s).2 then eraseColor (eraseCases n d c p s).1 up
    else plug (eraseCases n d c p s).1 up

theorem toList_eraseColor (n : RbNode α) (up : List (Frame α)) :
    (eraseColor n up).toList = (plug n up).toList := by
  induction n, up using eraseColor.induct with
  | case1 n => rfl
  | case2 n c p sl sx sr up =>
    rw [eraseColor, plug, plug]
    exact toList_plug_congr (by simp [Frame.fill, toList_eraseCases]) up
  | case3 n c p sl sx sr up =>
    rw [eraseColor, plug, plug]
    exact toList_plug_congr (by simp [Frame.fill, toList_eraseCases]) up
  | case4 n d c p s up h1 h2 hgo ih =>
    rw [eraseColor, if_pos hgo, ih, plug]
    · exact toList_plug_congr (toList_eraseCases n d c p s) up
    all_goals assumption
  | case5 n d c p s up h1 h2 hgo =>
    rw [eraseColor, if_neg hgo, plug]
    · exact toList_plug_congr (toList_eraseCases n d c p s) up
    all_goals assumption

/-- Remove the leftmost node of the tree below the path. It has no left child; a right child takes
its place and colour. -/
def eraseFirstAt : RbNode α → List (Frame α) → RbNode α
  | .nil, up => plug .nil up
  | .node c .nil _ (.node _ l x r), up => plug (.node c l x r) up
  | .node .black .nil _ .nil, up => eraseColor .nil up
  | .node .red .nil _ .nil, up => plug .nil up
  | .node c (.node c' l y r) x s, up => eraseFirstAt (.node c' l y r) (⟨.left, c, x, s⟩ :: up)

/-- **Remove the leftmost node.** -/
def RbNode.eraseFirst (t : RbNode α) : RbNode α := eraseFirstAt t []

theorem toList_eraseFirstAt (t : RbNode α) (up : List (Frame α)) :
    (eraseFirstAt t up).toList = lefts up ++ t.toList.tail ++ rights up := by
  induction t, up using eraseFirstAt.induct with
  | case1 up => simp [eraseFirstAt, toList_plug]
  | case2 c x c' l y r up => simp [eraseFirstAt, toList_plug]
  | case3 x up => simp [eraseFirstAt, toList_eraseColor, toList_plug]
  | case4 x up => simp [eraseFirstAt, toList_plug]
  | case5 c c' l y r x s up ih =>
    rw [eraseFirstAt, ih, toList_node c, List.tail_append_of_ne_nil (by simp)]
    simp [lefts, rights]

@[simp] theorem toList_eraseFirst (t : RbNode α) : t.eraseFirst.toList = t.toList.tail := by
  simp [RbNode.eraseFirst, toList_eraseFirstAt, lefts, rights]

/-! ### Search and insertion -/

/-- Where a search ends: at an empty place below a path, or at a node. -/
inductive Spot (α : Type)
  | leaf (up : List (Frame α))
  | hit (color : Color) (left : RbNode α) (data : α) (right : RbNode α) (up : List (Frame α))

/-- **The search**: go left where `lt` says so, else right where `gt` says so, else stop. -/
def descend (lt gt : α → Bool) : RbNode α → List (Frame α) → Spot α
  | .nil, up => .leaf up
  | .node c l x r, up =>
    if lt x then descend lt gt l (⟨.left, c, x, r⟩ :: up)
    else if gt x then descend lt gt r (⟨.right, c, x, l⟩ :: up)
    else .hit c l x r up

/-- **Search, then link `new` at the empty place found or change the datum met**; the second value
is the datum met. -/
def RbNode.upsert (lt gt : α → Bool) (new : α) (merge : α → α) (t : RbNode α) :
    RbNode α × Option α :=
  match descend lt gt t [] with
  | .leaf up => (insertColor .nil new .nil up, none)
  | .hit c l x r up => (plug (.node c l (merge x) r) up, some x)

section Search
variable (lt gt : α → Bool)

/-- What the search leaves to its left and right, and that a node it stops at passed both tests. -/
theorem descend_spec : ∀ (t : RbNode α) (up : List (Frame α)),
    match descend lt gt t up with
    | .leaf up' => lefts up' ++ rights up' = lefts up ++ t.toList ++ rights up
    | .hit c l x r up' => plug (.node c l x r) up' = plug t up ∧ lt x = false ∧ gt x = false
  | .nil, up => by simp [descend]
  | .node c l x r, up => by
    rw [descend]
    split_ifs with h1 h2
    · have ih := descend_spec l (⟨.left, c, x, r⟩ :: up)
      generalize descend lt gt l (⟨.left, c, x, r⟩ :: up) = s at ih ⊢
      cases s with
      | leaf up' => dsimp only at ih ⊢; rw [ih]; simp [lefts, rights]
      | hit c' l' y r' up' => exact ih
    · have ih := descend_spec r (⟨.right, c, x, l⟩ :: up)
      generalize descend lt gt r (⟨.right, c, x, l⟩ :: up) = s at ih ⊢
      cases s with
      | leaf up' => dsimp only at ih ⊢; rw [ih]; simp [lefts, rights]
      | hit c' l' y r' up' => exact ih
    · exact ⟨rfl, by simpa using h1, by simpa using h2⟩

/-- The search has last gone right at the entry on its left, and left at the entry on its right. -/
def Between (l r : List α) : Prop :=
  (∀ x ∈ l.getLast?, gt x = true) ∧ ∀ x ∈ r.head?, lt x = true

theorem descend_between : ∀ (t : RbNode α) (up : List (Frame α)),
    Between lt gt (lefts up) (rights up) →
    match descend lt gt t up with
    | .leaf up' => Between lt gt (lefts up') (rights up')
    | .hit _ _ _ _ _ => True
  | .nil, up, h => by simpa [descend] using h
  | .node c l x r, up, h => by
    rw [descend]
    split_ifs with h1 h2
    · exact descend_between l _ ⟨by simpa [lefts] using h.1, by simpa [rights] using h1⟩
    · exact descend_between r _ ⟨by simpa [lefts] using h2, by simpa [rights] using h.2⟩
    · trivial

/-- **What `upsert` can do**: insert `new` at some position, between entries where the search turned
right and left, or change one entry that passed both tests. -/
theorem upsert_cases (new : α) (merge : α → α) (t : RbNode α) :
    (∃ l r, t.toList = l ++ r ∧ (t.upsert lt gt new merge).1.toList = l ++ new :: r ∧
      (t.upsert lt gt new merge).2 = none ∧ Between lt gt l r) ∨
    (∃ l x r, t.toList = l ++ x :: r ∧ (t.upsert lt gt new merge).1.toList = l ++ merge x :: r ∧
      (t.upsert lt gt new merge).2 = some x ∧ lt x = false ∧ gt x = false) := by
  have h := descend_spec lt gt t []
  have h' := descend_between lt gt t [] ⟨by simp [lefts], by simp [rights]⟩
  unfold RbNode.upsert
  generalize descend lt gt t [] = s at h h' ⊢
  cases s with
  | leaf up =>
    left
    refine ⟨lefts up, rights up, by simpa [lefts, rights] using h.symm, ?_, rfl, h'⟩
    simp [toList_insertColor, toList_plug]
  | hit c l x r up =>
    right
    obtain ⟨h1, h2, h3⟩ := h
    refine ⟨lefts up ++ l.toList, x, r.toList ++ rights up, ?_, ?_, rfl, h2, h3⟩
    · have h1' := congrArg RbNode.toList h1
      rw [toList_plug] at h1'
      simpa [plug] using h1'.symm
    · simp [toList_plug]

/-- An entry that is met and not changed leaves the tree as it is. -/
theorem upsert_same {new x : α} {merge : α → α} {t : RbNode α}
    (h : (t.upsert lt gt new merge).2 = some x) (hx : merge x = x) :
    (t.upsert lt gt new merge).1 = t := by
  have hspec := descend_spec lt gt t []
  unfold RbNode.upsert at h ⊢
  generalize descend lt gt t [] = s at h hspec ⊢
  cases s with
  | leaf up => cases h
  | hit c l y r up =>
    cases h
    dsimp only
    rw [hx]
    exact hspec.1

/-- The two tests compare with `k` in the order of the keys of the entries. -/
def Agree {γ : Type} [LinearOrder γ] (key : α → γ) (k : γ) (xs : List α) : Prop :=
  ∀ x ∈ xs, (lt x = true ↔ k < key x) ∧ (gt x = true ↔ key x < k)

variable {lt gt}

/-- In a sorted tree the search stays between the smaller and the larger entries. -/
theorem descend_sorted {γ : Type} [LinearOrder γ] {key : α → γ} {k : γ} :
    ∀ (t : RbNode α) (up : List (Frame α)), Agree lt gt key k t.toList →
      t.toList.Pairwise (fun a b => key a < key b) →
      (∀ x ∈ lefts up, key x < k) → (∀ x ∈ rights up, k < key x) →
      match descend lt gt t up with
      | .leaf up' => (∀ x ∈ lefts up', key x < k) ∧ ∀ x ∈ rights up', k < key x
      | .hit _ _ x _ _ => key x = k
  | .nil, up, _, _, hl, hr => by simpa [descend] using ⟨hl, hr⟩
  | .node c l x r, up, ha, hs, hl, hr => by
    rw [toList_node, List.pairwise_append, List.pairwise_cons] at hs
    obtain ⟨hsl, ⟨hxr, hsr⟩, hlx⟩ := hs
    have hx := ha x (by simp)
    rw [descend]
    split_ifs with h1 h2
    · have hk := hx.1.mp h1
      refine descend_sorted l _ (fun y hy => ha y (by simp [hy])) hsl ?_ ?_
      · simpa [lefts] using hl
      · intro y hy
        simp only [rights, List.cons_append, List.mem_cons, List.mem_append] at hy
        rcases hy with rfl | hy | hy
        · exact hk
        · exact hk.trans (hxr y hy)
        · exact hr y hy
    · have hk := hx.2.mp h2
      refine descend_sorted r _ (fun y hy => ha y (by simp [hy])) hsr ?_ ?_
      · intro y hy
        simp only [lefts, List.mem_append, List.mem_singleton] at hy
        rcases hy with hy | hy | rfl
        · exact hl y hy
        · exact (hlx y hy x (by simp)).trans hk
        · exact hk
      · simpa [rights] using hr
    · exact le_antisymm (not_lt.mp fun h => h1 (hx.1.mpr h)) (not_lt.mp fun h => h2 (hx.2.mpr h))

/-- **What `upsert` does to a sorted tree**: `new` is put between the entries below and above `k`
unless there is an entry at `k`, which is changed. -/
theorem upsert_sorted {γ : Type} [LinearOrder γ] {key : α → γ} {k : γ} {t : RbNode α}
    (ha : Agree lt gt key k t.toList) (hs : t.toList.Pairwise fun a b => key a < key b)
    (new : α) (merge : α → α) :
    (∃ l r, t.toList = l ++ r ∧ (t.upsert lt gt new merge).1.toList = l ++ new :: r ∧
      (t.upsert lt gt new merge).2 = none ∧ (∀ x ∈ l, key x < k) ∧ ∀ x ∈ r, k < key x) ∨
    (∃ l x r, t.toList = l ++ x :: r ∧ (t.upsert lt gt new merge).1.toList = l ++ merge x :: r ∧
      (t.upsert lt gt new merge).2 = some x ∧ key x = k) := by
  have h := descend_spec lt gt t []
  have h' := descend_sorted t [] ha hs (by simp [lefts]) (by simp [rights])
  unfold RbNode.upsert
  generalize descend lt gt t [] = s at h h' ⊢
  cases s with
  | leaf up =>
    left
    refine ⟨lefts up, rights up, by simpa [lefts, rights] using h.symm, ?_, rfl, h'.1, h'.2⟩
    simp [toList_insertColor, toList_plug]
  | hit c l x r up =>
    right
    have h1 := congrArg RbNode.toList h.1
    refine ⟨lefts up ++ l.toList, x, r.toList ++ rights up, ?_, ?_, rfl, h'⟩
    · rw [toList_plug] at h1; simpa [plug] using h1.symm
    · simp [toList_plug]

end Search

end DynBandwidth.Lib.RbTree
