import DynBandwidth.Lib.RbBalance
import Mathlib.Logic.Function.Basic

/-! # Red-black trees in memory

A node of a red-black tree in memory has a word with the address of its parent and, in the lowest
bit, its colour, and the addresses of its children. The functions here are the usual ones for such
trees, step by step as they read and write the nodes; `none` is an access to an address that has no
node, or a loop that has used up its rounds. The two halves of a loop that are mirror images are one
text with a direction.

`At m t up` says that the memory has the tree `t`, whose entries are the addresses of its nodes,
below the path `up`. It is kept by what happens at other addresses (`Holds.congr`, `Spine.congr`),
and going up or down a path does not change what it says (`at_plug`). The step that all rotations
share is `rbRotateSetParents` (`rotateSetParents_spec`). -/

namespace DynBandwidth.Lib.RbTree

def Dir.flip : Dir → Dir
  | .left => .right
  | .right => .left

@[simp] theorem Dir.flip_flip (d : Dir) : d.flip.flip = d := by cases d <;> rfl

variable {α : Type}

/-- The other child of a frame is entered. -/
theorem fill_flip (d : Dir) (c : Color) (x : α) (s t : RbNode α) :
    Frame.fill ⟨d.flip, c, x, s⟩ t = Frame.fill ⟨d, c, x, t⟩ s := by
  cases d <;> rfl

theorem perm_fill (f : Frame α) (t : RbNode α) :
    (f.fill t).toList.Perm (f.data :: (t.toList ++ f.sibling.toList)) := by
  rcases f with ⟨_ | _, c, x, s⟩
  · exact List.perm_middle
  · exact List.perm_middle.trans (List.perm_append_comm.cons x)

/-- A node, seen in a direction. -/
theorem exists_fill (d : Dir) (c : Color) (l : RbNode α) (x : α) (r : RbNode α) :
    ∃ s t, RbNode.node c l x r = Frame.fill ⟨d, c, x, s⟩ t := by
  cases d with
  | left => exact ⟨r, l, rfl⟩
  | right => exact ⟨l, r, rfl⟩

theorem setBlack_fill (d : Dir) (c : Color) (x : α) (s t : RbNode α) :
    (Frame.fill ⟨d, c, x, s⟩ t).setBlack = Frame.fill ⟨d, .black, x, s⟩ t := by
  cases d <;> rfl

theorem mem_fill {f : Frame α} {t : RbNode α} {y : α} :
    y ∈ (f.fill t).toList ↔ y = f.data ∨ y ∈ t.toList ∨ y ∈ f.sibling.toList := by
  rw [(perm_fill f t).mem_iff, List.mem_cons, List.mem_append]

end DynBandwidth.Lib.RbTree

namespace DynBandwidth.Lib.RbHeap

open DynBandwidth.Lib.RbTree

/-! ### Memory -/

/-- An address; zero is that of no node. -/
abbrev Addr := BitVec 64

/-- A node. The word `pc` has the parent and the colour. -/
structure Cell where
  pc : BitVec 64
  left : Addr
  right : Addr
  deriving DecidableEq, Repr

def Cell.child (c : Cell) : Dir → Addr
  | .left => c.left
  | .right => c.right

def Cell.setChild (c : Cell) (x : Addr) : Dir → Cell
  | .left => { c with left := x }
  | .right => { c with right := x }

/-- The nodes, and the word that has the address of the root. -/
structure Mem where
  node : Addr → Option Cell
  root : Addr

/-- Red is 0, black is 1. -/
def bit : Color → BitVec 64
  | .red => 0#64
  | .black => 1#64

def word (p : Addr) (c : Color) : BitVec 64 := p ||| bit c

/-- The address in a word, whose two lowest bits are not part of it. -/
def parentOf (pc : BitVec 64) : Addr := pc &&& ~~~3#64

def isBlack (pc : BitVec 64) : Bool := pc &&& 1#64 == 1#64

/-! ### Functions -/

section Functions
variable (m : Mem)

def Mem.put (x : Addr) (c : Cell) : Mem := { m with node := Function.update m.node x (some c) }

def Mem.setPc (x : Addr) (pc : BitVec 64) : Option Mem :=
  (m.node x).map fun c => m.put x { c with pc := pc }

def Mem.setChild (d : Dir) (x y : Addr) : Option Mem :=
  (m.node x).map fun c => m.put x (c.setChild y d)

def Mem.rbSetParentColor (x p : Addr) (c : Color) : Option Mem := m.setPc x (word p c)

def Mem.rbSetParent (x p : Addr) : Option Mem :=
  (m.node x).bind fun c => m.setPc x ((c.pc &&& 1#64) ||| p)

def Mem.rbSetBlack (x : Addr) : Option Mem := (m.node x).bind fun c => m.setPc x (c.pc ||| 1#64)

/-- A node, if it is there, gets a parent and becomes black. -/
def Mem.adopt (x p : Addr) : Option Mem := if x = 0 then some m else m.rbSetParentColor x p .black

/-- A node, if it is there, gets a parent. -/
def Mem.reparent (x p : Addr) : Option Mem := if x = 0 then some m else m.rbSetParent x p

/-- There is a node, and it is red. -/
def Mem.isRed (x : Addr) : Option Bool :=
  if x = 0 then some false else (m.node x).map fun c => !isBlack c.pc

/-- What pointed to `old` points to `new`. -/
def Mem.rbChangeChild (old new parent : Addr) : Option Mem :=
  if parent = 0 then some { m with root := new }
  else (m.node parent).bind fun c =>
    if c.left = old then m.setChild .left parent new else m.setChild .right parent new

/-- `new` gets the parent and the colour of `old`, which gets `new` as its parent and a colour. -/
def Mem.rbRotateSetParents (old new : Addr) (c : Color) : Option Mem := do
  let o ← m.node old
  let m ← m.setPc new o.pc
  let m ← m.rbSetParentColor old new c
  m.rbChangeChild old new (parentOf o.pc)

/-- **A new node** as the child of `parent` where a search has ended. -/
def Mem.rbLinkNode (x parent : Addr) (d : Dir) : Option Mem :=
  (m.node x).bind fun _ =>
    if parent = 0 then some { m.put x ⟨0, 0, 0⟩ with root := x }
    else (m.put x ⟨parent, 0, 0⟩).setChild d parent x

/-- The leftmost node below a node. -/
def Mem.firstBelow : ℕ → Addr → Option Addr
  | 0, _ => none
  | n + 1, x => (m.node x).bind fun c => if c.left = 0 then some x else Mem.firstBelow n c.left

/-- The leftmost node, or zero. -/
def Mem.rbFirst (n : ℕ) : Option Addr := if m.root = 0 then some 0 else m.firstBelow n m.root

end Functions

/-! ### Words -/

/-- An address of a node: it is not zero, and its two lowest bits are. -/
def Aligned (x : Addr) : Prop := x ≠ 0 ∧ x &&& 3#64 = 0#64

instance (x : Addr) : Decidable (Aligned x) := inferInstanceAs (Decidable (_ ∧ _))

theorem parentOf_word {p : Addr} (h : p &&& 3#64 = 0#64) (c : Color) :
    parentOf (word p c) = p := by
  have hp : p &&& (3#64 ||| ~~~3#64) = p := BitVec.and_allOnes
  rw [BitVec.and_or_distrib_left, h, BitVec.zero_or] at hp
  have hc : bit c &&& ~~~3#64 = 0#64 := by cases c <;> rfl
  rw [parentOf, word, BitVec.and_or_distrib_right, hp, hc, BitVec.or_zero]

theorem and_one {p : Addr} (h : p &&& 3#64 = 0#64) : p &&& 1#64 = 0#64 := by
  rw [show 1#64 = 3#64 &&& 1#64 from rfl, ← BitVec.and_assoc, h, BitVec.zero_and]

theorem isBlack_word {p : Addr} (h : p &&& 3#64 = 0#64) (c : Color) :
    isBlack (word p c) = decide (c = .black) := by
  rw [isBlack, word, BitVec.and_or_distrib_right, and_one h, BitVec.zero_or]
  cases c <;> rfl

/-- A new parent leaves the colour as it is. -/
theorem word_parent {q : Addr} (h : q &&& 3#64 = 0#64) (p : Addr) (c : Color) :
    (word q c &&& 1#64) ||| p = word p c := by
  rw [word, BitVec.and_or_distrib_right, and_one h, BitVec.zero_or, word, BitVec.or_comm]
  cases c <;> rfl

theorem word_black (p : Addr) (c : Color) : word p c ||| 1#64 = word p .black := by
  rw [word, BitVec.or_assoc]
  cases c <;> rfl

theorem word_red (p : Addr) : word p .red = p := BitVec.or_zero

/-! ### Cells -/

/-- A cell with the two children as seen in a direction. -/
def cellOf (d : Dir) (pc : BitVec 64) (near far : Addr) : Cell :=
  match d with
  | .left => ⟨pc, near, far⟩
  | .right => ⟨pc, far, near⟩

section Cells
variable (d : Dir) (pc pc' : BitVec 64) (a b x : Addr)

@[simp] theorem child_cellOf : (cellOf d pc a b).child d = a := by cases d <;> rfl

@[simp] theorem child_flip_cellOf : (cellOf d pc a b).child d.flip = b := by cases d <;> rfl

@[simp] theorem pc_cellOf : (cellOf d pc a b).pc = pc := by cases d <;> rfl

@[simp] theorem setChild_cellOf : (cellOf d pc a b).setChild x d = cellOf d pc x b := by
  cases d <;> rfl

@[simp] theorem setChild_flip_cellOf : (cellOf d pc a b).setChild x d.flip = cellOf d pc a x := by
  cases d <;> rfl

@[simp] theorem withPc_cellOf : { cellOf d pc a b with pc := pc' } = cellOf d pc' a b := by
  cases d <;> rfl

theorem cellOf_flip : cellOf d.flip pc a b = cellOf d pc b a := by cases d <;> rfl

end Cells

/-! ### Trees in memory -/

/-- The address of the top node. -/
def ptr : RbNode Addr → Addr
  | .nil => 0
  | .node _ _ x _ => x

/-- The nodes of a tree are in memory, below a parent. -/
def Holds (node : Addr → Option Cell) : Addr → RbNode Addr → Prop
  | _, .nil => True
  | p, .node c l x r => node x = some ⟨word p c, ptr l, ptr r⟩ ∧ Holds node x l ∧ Holds node x r

/-- The node at the end of a path. -/
def top : List (Frame Addr) → Addr
  | [] => 0
  | f :: _ => f.data

/-- The nodes of a path and what is beside it are in memory, with `x` at its end. -/
def Spine (m : Mem) : Addr → List (Frame Addr) → Prop
  | x, [] => m.root = x
  | x, f :: up =>
    m.node f.data = some (cellOf f.dir (word (top up) f.color) x (ptr f.sibling)) ∧
      Holds m.node f.data f.sibling ∧ Spine m f.data up

/-- The addresses of the nodes of a path and of what is beside it. -/
def beside : List (Frame Addr) → List Addr
  | [] => []
  | f :: up => f.data :: (f.sibling.toList ++ beside up)

/-- Addresses of nodes, each of them once. -/
def Sound (xs : List Addr) : Prop := xs.Nodup ∧ ∀ x ∈ xs, Aligned x

/-- **The memory has a tree below a path.** -/
structure At (m : Mem) (t : RbNode Addr) (up : List (Frame Addr)) : Prop where
  tree : Holds m.node (top up) t
  path : Spine m (ptr t) up
  sound : Sound (t.toList ++ beside up)

section Trees
variable {m m' : Mem} {node node' : Addr → Option Cell} {t : RbNode Addr} {up : List (Frame Addr)}
  {p x : Addr}

@[simp] theorem ptr_nil : ptr .nil = 0 := rfl

@[simp] theorem ptr_node (c : Color) (l : RbNode Addr) (x : Addr) (r : RbNode Addr) :
    ptr (.node c l x r) = x := rfl

@[simp] theorem ptr_setBlack (t : RbNode Addr) : ptr t.setBlack = ptr t := by cases t <;> rfl

theorem ptr_fill (f : Frame Addr) (t : RbNode Addr) : ptr (f.fill t) = f.data := by
  rcases f with ⟨_ | _, c, x, s⟩ <;> rfl

theorem ptr_eq_zero (h : ∀ x ∈ t.toList, Aligned x) : ptr t = 0 ↔ t = .nil := by
  cases t with
  | nil => exact iff_of_true rfl rfl
  | node c l x r => exact iff_of_false (h x (by simp)).1 fun hno => by cases hno

theorem ptr_mem (h : t ≠ .nil) : ptr t ∈ t.toList := by
  cases t with
  | nil => exact absurd rfl h
  | node c l x r => simp [ptr]

theorem holds_fill {f : Frame Addr} : Holds node p (f.fill t) ↔
    node f.data = some (cellOf f.dir (word p f.color) (ptr t) (ptr f.sibling)) ∧
      Holds node f.data t ∧ Holds node f.data f.sibling := by
  rcases f with ⟨_ | _, c, x, s⟩
  · exact Iff.rfl
  · exact and_congr_right fun _ => and_comm

/-- Only the nodes of the tree matter. -/
theorem Holds.congr : ∀ {t : RbNode Addr} {p : Addr}, Holds node p t →
    (∀ x ∈ t.toList, node' x = node x) → Holds node' p t
  | .nil, _, _, _ => trivial
  | .node c l x r, p, ⟨hx, hl, hr⟩, hsame => by
    refine ⟨(hsame x (by simp)).trans hx, hl.congr fun y hy => ?_, hr.congr fun y hy => ?_⟩
    · exact hsame y (by simp [hy])
    · exact hsame y (by simp [hy])

theorem Spine.congr : ∀ {up : List (Frame Addr)} {x : Addr}, Spine m x up →
    (∀ y ∈ beside up, m'.node y = m.node y) → m'.root = m.root → Spine m' x up
  | [], _, h, _, hroot => hroot.trans h
  | f :: up, x, ⟨hf, hs, hup⟩, hsame, hroot => by
    refine ⟨(hsame _ (by simp [beside])).trans hf, hs.congr fun y hy => ?_,
      hup.congr (fun y hy => ?_) hroot⟩
    · exact hsame y (by simp [beside, hy])
    · exact hsame y (by simp [beside, hy])

theorem Sound.perm {xs ys : List Addr} (h : Sound xs) (hp : xs.Perm ys) : Sound ys :=
  ⟨hp.nodup_iff.mp h.1, fun x hx => h.2 x (hp.mem_iff.mpr hx)⟩

theorem Sound.of_count {xs ys : List Addr} (h : Sound xs) (hc : ∀ a, xs.count a = ys.count a) :
    Sound ys := h.perm (List.perm_iff_count.mpr hc)

theorem count_fill (f : Frame Addr) (t : RbNode Addr) (a : Addr) : (f.fill t).toList.count a =
    t.toList.count a + f.sibling.toList.count a + if f.data == a then 1 else 0 := by
  rw [(perm_fill f t).count_eq, List.count_cons, List.count_append]

theorem Sound.sublist {xs ys : List Addr} (h : Sound xs) (hs : ys.Sublist xs) : Sound ys :=
  ⟨hs.nodup h.1, fun x hx => h.2 x (hs.subset hx)⟩

theorem perm_beside (f : Frame Addr) : ((f.fill t).toList ++ beside up).Perm
    (t.toList ++ beside (f :: up)) := by
  refine ((perm_fill f t).append_right _).trans ?_
  rw [beside, List.cons_append, List.append_assoc]
  exact List.perm_middle.symm

theorem perm_plug : ∀ {up : List (Frame Addr)} {t : RbNode Addr},
    (plug t up).toList.Perm (t.toList ++ beside up)
  | [], t => by rw [plug, beside, List.append_nil]
  | f :: up, t => by
    rw [plug]
    exact perm_plug.trans (perm_beside f)

/-- **One step of a path.** -/
theorem at_fill {f : Frame Addr} : At m (f.fill t) up ↔ At m t (f :: up) := by
  constructor
  · rintro ⟨ht, hp, hs⟩
    obtain ⟨hf, ht, hsib⟩ := holds_fill.mp ht
    rw [ptr_fill] at hp
    exact ⟨ht, ⟨hf, hsib, hp⟩, hs.perm (perm_beside f)⟩
  · rintro ⟨ht, ⟨hf, hsib, hp⟩, hs⟩
    refine ⟨holds_fill.mpr ⟨hf, ht, hsib⟩, ?_, hs.perm (perm_beside f).symm⟩
    rw [ptr_fill]
    exact hp

/-- **A path may be taken from the top or from its end.** -/
theorem at_plug : ∀ {up : List (Frame Addr)} {t : RbNode Addr}, At m (plug t up) [] ↔ At m t up
  | [], _ => Iff.rfl
  | f :: up, t => by rw [plug, at_plug, at_fill]

theorem At.congr (h : At m t up) (hsame : ∀ y ∈ t.toList ++ beside up, m'.node y = m.node y)
    (hroot : m'.root = m.root) : At m' t up where
  tree := h.tree.congr fun y hy => hsame y (List.mem_append_left _ hy)
  path := h.path.congr (fun y hy => hsame y (List.mem_append_right _ hy)) hroot
  sound := h.sound

end Trees

/-! ### Steps -/

/-- The nodes at other addresses are as before. -/
def Outside (xs : List Addr) (m m' : Mem) : Prop := ∀ y, y ∉ xs → m'.node y = m.node y

section Steps
variable {m m' : Mem} {c : Cell} {d : Dir} {x y : Addr}

@[simp] theorem put_self (m : Mem) (x : Addr) (c : Cell) : (m.put x c).node x = some c :=
  Function.update_self _ _ _

theorem put_of_ne (m : Mem) (h : y ≠ x) (c : Cell) : (m.put x c).node y = m.node y :=
  Function.update_of_ne h _ _

@[simp] theorem root_put (m : Mem) (x : Addr) (c : Cell) : (m.put x c).root = m.root := rfl

theorem outside_put (m : Mem) (x : Addr) (c : Cell) : Outside [x] m (m.put x c) :=
  fun y hy => put_of_ne m (by simpa using hy) c

theorem Outside.mono {xs ys : List Addr} (h : Outside xs m m') (hs : xs ⊆ ys) :
    Outside ys m m' := fun y hy => h y fun hm => hy (hs hm)

theorem Outside.trans {xs ys zs : List Addr} {m'' : Mem} (h : Outside xs m m')
    (h' : Outside ys m' m'') (hx : xs ⊆ zs) (hy : ys ⊆ zs) : Outside zs m m'' :=
  fun y hz => (h' y fun hm => hz (hy hm)).trans (h y fun hm => hz (hx hm))

theorem setChild_eq (h : m.node x = some c) (d : Dir) (y : Addr) :
    m.setChild d x y = some (m.put x (c.setChild y d)) := by
  rw [Mem.setChild, h, Option.map_some]

theorem setPc_eq (h : m.node x = some c) (pc : BitVec 64) :
    m.setPc x pc = some (m.put x { c with pc := pc }) := by
  rw [Mem.setPc, h, Option.map_some]

section CellOf
variable {pc : BitVec 64} {a b : Addr} (h : m.node x = some (cellOf d pc a b))
include h

theorem setPc_cellOf (pc' : BitVec 64) : m.setPc x pc' = some (m.put x (cellOf d pc' a b)) := by
  rw [setPc_eq h, withPc_cellOf]

theorem setChild_near (y : Addr) : m.setChild d x y = some (m.put x (cellOf d pc y b)) := by
  rw [setChild_eq h, setChild_cellOf]

theorem setChild_far (y : Addr) : m.setChild d.flip x y = some (m.put x (cellOf d pc a y)) := by
  rw [setChild_eq h, setChild_flip_cellOf]

end CellOf

/-- **The node at the end of a path is replaced.** -/
theorem changeChild_spec {up : List (Frame Addr)} {old : Addr} (h : Spine m old up)
    (hs : Sound (old :: beside up)) (new : Addr) :
    ∃ m', m.rbChangeChild old new (top up) = some m' ∧ Spine m' new up ∧
      Outside (beside up) m m' := by
  cases up with
  | nil => exact ⟨{ m with root := new }, if_pos rfl, rfl, fun y _ => rfl⟩
  | cons f up =>
    obtain ⟨hf, hsib, hup⟩ := h
    obtain ⟨⟨hold, hdata, hnd⟩, hal⟩ : (old ∉ beside (f :: up) ∧
        f.data ∉ f.sibling.toList ++ beside up ∧ (f.sibling.toList ++ beside up).Nodup) ∧
        ∀ y ∈ old :: beside (f :: up), Aligned y := by
      refine ⟨?_, hs.2⟩
      have hnd := hs.1
      rw [List.nodup_cons, beside, List.nodup_cons] at hnd
      exact ⟨by rw [beside]; exact hnd.1, hnd.2⟩
    have hset : m.rbChangeChild old new f.data =
        some (m.put f.data (cellOf f.dir (word (top up) f.color) new (ptr f.sibling))) := by
      rw [Mem.rbChangeChild, if_neg (hal f.data (by simp [beside])).1, hf, Option.bind_some]
      cases hd : f.dir with
      | left =>
        rw [hd] at hf
        rw [if_pos (show (cellOf .left _ old (ptr f.sibling)).left = old from rfl),
          setChild_eq hf]
        rfl
      | right =>
        rw [hd] at hf
        have hne : ptr f.sibling ≠ old := by
          intro heq
          by_cases hnil : f.sibling = .nil
          · rw [hnil] at heq
            exact (hal old List.mem_cons_self).1 heq.symm
          · refine hold ?_
            rw [← heq]
            exact List.mem_cons_of_mem _ (List.mem_append_left _ (ptr_mem hnil))
        rw [if_neg (show ¬ (cellOf .right _ old (ptr f.sibling)).left = old from hne),
          setChild_eq hf]
        rfl
    refine ⟨_, hset, ⟨put_self _ _ _, hsib.congr fun y hy => ?_, hup.congr (fun y hy => ?_) rfl⟩,
      fun y hy => put_of_ne _ ?_ _⟩
    · refine put_of_ne _ ?_ _
      rintro rfl
      exact hdata (List.mem_append_left _ hy)
    · refine put_of_ne _ ?_ _
      rintro rfl
      exact hdata (List.mem_append_right _ hy)
    · rintro rfl
      exact hy List.mem_cons_self

/-- The top node of a tree gets another parent and another colour. -/
theorem Holds.put_top {l r : RbNode Addr} {q p : Addr} {c c' : Color}
    (h : Holds m.node q (.node c l x r)) (hnd : (RbNode.node c l x r).toList.Nodup) :
    Holds (m.put x ⟨word p c', ptr l, ptr r⟩).node p (.node c' l x r) := by
  obtain ⟨-, hl, hr⟩ := h
  rw [toList_node, List.nodup_append, List.nodup_cons] at hnd
  obtain ⟨-, ⟨hxr, -⟩, hlx⟩ := hnd
  refine ⟨put_self _ _ _, hl.congr fun y hy => put_of_ne _ ?_ _, hr.congr fun y hy =>
    put_of_ne _ ?_ _⟩
  · exact hlx y hy x List.mem_cons_self
  · rintro rfl
    exact hxr hy

/-- **A tree gets another parent** and becomes black. -/
theorem adopt_spec {t : RbNode Addr} {q : Addr} (h : Holds m.node q t) (hs : Sound t.toList)
    (p : Addr) : ∃ m', m.adopt (ptr t) p = some m' ∧ Holds m'.node p t.setBlack ∧
      Outside t.toList m m' ∧ m'.root = m.root := by
  cases t with
  | nil => exact ⟨m, if_pos rfl, trivial, fun y _ => rfl, rfl⟩
  | node c l x r =>
    have hne : ptr (.node c l x r) ≠ 0 := (hs.2 x (by simp)).1
    refine ⟨_, by rw [Mem.adopt, if_neg hne]; exact setPc_eq h.1 _, h.put_top hs.1, fun y hy => ?_,
      rfl⟩
    refine put_of_ne _ ?_ _
    rintro rfl
    exact hy (by simp)

/-- A tree, if there is one, gets another parent and keeps its colour. -/
theorem reparent_spec {t : RbNode Addr} {q : Addr} (h : Holds m.node q t) (hs : Sound t.toList)
    (hq : q &&& 3#64 = 0#64) (p : Addr) : ∃ m', m.reparent (ptr t) p = some m' ∧
      Holds m'.node p t ∧ Outside t.toList m m' ∧ m'.root = m.root := by
  cases t with
  | nil => exact ⟨m, if_pos rfl, trivial, fun y _ => rfl, rfl⟩
  | node c l x r =>
    have hne : ptr (.node c l x r) ≠ 0 := (hs.2 x (by simp)).1
    refine ⟨_, ?_, h.put_top hs.1, fun y hy => ?_, rfl⟩
    · rw [Mem.reparent, if_neg hne, Mem.rbSetParent, ptr, h.1, Option.bind_some, word_parent hq]
      exact setPc_eq h.1 _
    · refine put_of_ne _ ?_ _
      rintro rfl
      exact hy (by simp)

theorem top_aligned {up : List (Frame Addr)} (h : ∀ x ∈ beside up, Aligned x) :
    top up &&& 3#64 = 0#64 := by
  cases up with
  | nil => rfl
  | cons f up => exact (h f.data List.mem_cons_self).2

/-- Two nodes and some others, all of them different from the rest. -/
theorem apart {a b : Addr} {xs ys : List Addr} (h : (a :: b :: (xs ++ ys)).Nodup) :
    a ≠ b ∧ a ∉ xs ∧ b ∉ xs ∧ (∀ y ∈ xs, y ≠ a ∧ y ≠ b) ∧ ∀ y ∈ ys, y ≠ a ∧ y ≠ b ∧ y ∉ xs := by
  rw [List.nodup_cons, List.nodup_cons, List.nodup_append] at h
  grind

/-- **The end of a rotation**: the node `p` takes the place of `g`, which has become its child. -/
theorem rotateSetParents_spec {g p : Addr} {c : Color} {any : BitVec 64} {n s u : RbNode Addr}
    {up : List (Frame Addr)} (col : Color)
    (hg : m.node g = some (cellOf d (word (top up) c) (ptr s) (ptr u)))
    (hp : m.node p = some (cellOf d any (ptr n) g)) (hn : Holds m.node p n)
    (hs : Holds m.node g s) (hu : Holds m.node g u) (hup : Spine m g up)
    (hsound : Sound (p :: g :: (beside up ++ (n.toList ++ s.toList ++ u.toList)))) :
    ∃ m', m.rbRotateSetParents g p col = some m' ∧
      At m' (Frame.fill ⟨d, c, p, Frame.fill ⟨d, col, g, u⟩ s⟩ n) up ∧
      Outside (p :: g :: beside up) m m' := by
  obtain ⟨hpg, hpup, hgup, hbeside, hrest⟩ := apart hsound.1
  have htop : top up &&& 3#64 = 0#64 := top_aligned fun x hx => hsound.2 x (by simp [hx])
  have hspine : Spine ((m.put p (cellOf d (word (top up) c) (ptr n) g)).put g
      (cellOf d (word p col) (ptr s) (ptr u))) g up := by
    refine hup.congr (fun y hy => ?_) rfl
    rw [put_of_ne _ (hbeside y hy).2, put_of_ne _ (hbeside y hy).1]
  obtain ⟨m', h', hup', hout⟩ := changeChild_spec hspine
    (hsound.sublist (List.Sublist.cons p ((List.sublist_append_left _ _).cons_cons g))) p
  have hsame : ∀ y, y ≠ p ∧ y ≠ g ∧ y ∉ beside up → m'.node y = m.node y := by
    rintro y ⟨hyp, hyg, hyu⟩
    rw [hout y hyu, put_of_ne _ hyg, put_of_ne _ hyp]
  refine ⟨m', ?_, ⟨holds_fill.mpr ⟨?_, ?_, holds_fill.mpr ⟨?_, ?_, ?_⟩⟩, ?_, ?_⟩, ?_⟩
  · have hg' := (put_of_ne m hpg.symm (cellOf d (word (top up) c) (ptr n) g)).trans hg
    simp only [Mem.rbRotateSetParents, Mem.rbSetParentColor, hg, Option.bind_eq_bind,
      Option.bind_some, pc_cellOf, setPc_cellOf hp, setPc_cellOf hg', parentOf_word htop, h']
  · rw [hout p hpup, put_of_ne _ hpg, put_self, ptr_fill]
  · exact hn.congr fun y hy => hsame y (hrest y (by simp [hy]))
  · rw [hout g hgup, put_self]
  · exact hs.congr fun y hy => hsame y (hrest y (by simp [hy]))
  · exact hu.congr fun y hy => hsame y (hrest y (by simp [hy]))
  · rw [ptr_fill]
    exact hup'
  · refine hsound.of_count fun a => ?_
    simp only [List.count_append, List.count_cons, count_fill]
    omega
  · intro y hy
    simp only [List.mem_cons, not_or] at hy
    exact hsame y hy

end Steps

end DynBandwidth.Lib.RbHeap
