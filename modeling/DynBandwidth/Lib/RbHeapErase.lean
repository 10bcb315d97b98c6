import DynBandwidth.Lib.RbHeapInsert

/-! # Removal in memory

`rbErase` cuts a node off a tree in memory and repairs the tree. For the leftmost node of a
red-black tree it ends, meets no missing node and leaves the tree that `eraseFirst` computes
(`rbErase_spec`). That a sibling is there, and in Case 1 a child of the sibling, is what the balance
of the tree gives. -/

namespace DynBandwidth.Lib.RbHeap

open DynBandwidth.Lib.RbTree

/-! ### The loop -/

/-- The colour of a node that has to be there. -/
def Mem.rbIsRed (m : Mem) (x : Addr) : Option Bool := (m.node x).map fun c => !isBlack c.pc

/-- Case 1, a rotation at the parent; the second value is the new sibling. -/
def Mem.eraseCase1 (m : Mem) (d : Dir) (parent sibling : Addr) : Option (Mem × Addr) := do
  let s ← m.node sibling
  let tmp1 := s.child d
  let m ← m.setChild d.flip parent tmp1
  let m ← m.setChild d sibling parent
  let m ← m.rbSetParentColor tmp1 parent .black
  let m ← m.rbRotateSetParents parent sibling .red
  some (m, tmp1)

/-- Case 3, a rotation at the sibling, whose inner child `tmp2` is the new sibling. -/
def Mem.eraseCase3 (m : Mem) (d : Dir) (parent sibling tmp2 : Addr) : Option Mem := do
  let t ← m.node tmp2
  let tmp1 := t.child d.flip
  let m ← m.setChild d sibling tmp1
  let m ← m.setChild d.flip tmp2 sibling
  let m ← m.setChild d.flip parent tmp2
  m.adopt tmp1 sibling

/-- Case 4, a rotation at the parent and a change of colours; `tmp1` is the outer child of the
sibling. -/
def Mem.eraseCase4 (m : Mem) (d : Dir) (parent sibling tmp1 : Addr) : Option Mem := do
  let s ← m.node sibling
  let tmp2 := s.child d
  let m ← m.setChild d.flip parent tmp2
  let m ← m.setChild d sibling parent
  let m ← m.rbSetParentColor tmp1 sibling .black
  let m ← m.reparent tmp2 parent
  m.rbRotateSetParents parent sibling .black

/-- Cases 2 to 4. The second value says whether the loop goes on at the parent. -/
def Mem.eraseCases (m : Mem) (d : Dir) (parent sibling : Addr) : Option (Mem × Bool) := do
  let s ← m.node sibling
  let tmp1 := s.child d.flip
  if ← m.isRed tmp1 then
    let m ← m.eraseCase4 d parent sibling tmp1
    some (m, false)
  else
    let tmp2 := s.child d
    if ← m.isRed tmp2 then
      let m ← m.eraseCase3 d parent sibling tmp2
      let m ← m.eraseCase4 d parent tmp2 sibling
      some (m, false)
    else
      -- Case 2
      let m ← m.rbSetParentColor sibling parent .red
      if ← m.rbIsRed parent then
        let m ← m.rbSetBlack parent
        some (m, false)
      else some (m, true)

/-- Case 1 if the sibling is red; the second value is the sibling then. -/
def Mem.eraseSibling (m : Mem) (d : Dir) (parent sibling : Addr) : Option (Mem × Addr) :=
  (m.rbIsRed sibling).bind fun red =>
    if red then m.eraseCase1 d parent sibling else some (m, sibling)

/-- **The repair loop of a removal**, at the child `node` of `parent`. That there is a parent is
tested before a round, which is before the call and where the loop goes on. -/
def Mem.rbEraseColor : ℕ → Mem → Addr → Addr → Option Mem
  | 0, _, _, _ => none
  | n + 1, m, node, parent =>
    if parent = 0 then some m
    else do
      let p ← m.node parent
      let d := if node = p.right then Dir.right else Dir.left
      let sibling := p.child d.flip
      let (m, sibling) ← m.eraseSibling d parent sibling
      let (m, goOn) ← m.eraseCases d parent sibling
      if goOn then
        let p ← m.node parent
        m.rbEraseColor n parent (parentOf p.pc)
      else some m

/-- The leftmost node below `x` and its parent, for a node `x` with the parent `parent`. -/
def Mem.leftmost (m : Mem) : ℕ → Addr → Addr → Option (Addr × Addr)
  | 0, _, _ => none
  | n + 1, parent, x =>
    (m.node x).bind fun c => if c.left = 0 then some (parent, x) else m.leftmost n x c.left

/-- Cut off a node; the second value is the node below which the tree has to be repaired. -/
def Mem.rbEraseAugmented (m : Mem) (n : ℕ) (node : Addr) : Option (Mem × Addr) := do
  let nd ← m.node node
  let child := nd.right
  let tmp := nd.left
  let parent := parentOf nd.pc
  if tmp = 0 then
    -- Case 1: at most one child
    let m ← m.rbChangeChild node child parent
    if child = 0 then some (m, if isBlack nd.pc then parent else 0)
    else
      let m ← m.setPc child nd.pc
      some (m, 0)
  else if child = 0 then
    let m ← m.setPc tmp nd.pc
    let m ← m.rbChangeChild node tmp parent
    some (m, 0)
  else
    let c ← m.node child
    let (m, successor, above, child2) ←
      if c.left = 0 then
        -- Case 2: the successor is the right child
        some (m, child, child, c.right)
      else do
        -- Case 3: the successor is the leftmost node below the right child
        let (above, successor) ← m.leftmost n child c.left
        let s ← m.node successor
        let m ← m.setChild .left above s.right
        let m ← m.setChild .right successor child
        let m ← m.rbSetParent child successor
        some (m, successor, above, s.right)
    let m ← m.setChild .left successor tmp
    let m ← m.rbSetParent tmp successor
    let m ← m.rbChangeChild node successor parent
    if child2 = 0 then
      let s ← m.node successor
      let m ← m.setPc successor nd.pc
      some (m, if isBlack s.pc then above else 0)
    else
      let m ← m.setPc successor nd.pc
      let m ← m.rbSetParentColor child2 above .black
      some (m, 0)

def Mem.rbErase (m : Mem) (n : ℕ) (node : Addr) : Option Mem :=
  (m.rbEraseAugmented n node).bind fun (m, rebalance) => m.rbEraseColor n 0 rebalance

/-! ### Rotations -/

section Rotations
variable {m : Mem} {d : Dir} {p x : Addr} {c : Color} {n near far : RbNode Addr}
  {up : List (Frame Addr)}

theorem setParentColor_spec {t : RbNode Addr} {q : Addr} (h : Holds m.node q t)
    (hs : Sound t.toList) (ht : t ≠ .nil) (p : Addr) :
    ∃ m', m.rbSetParentColor (ptr t) p .black = some m' ∧ Holds m'.node p t.setBlack ∧
      Outside t.toList m m' ∧ m'.root = m.root := by
  obtain ⟨m', h', hrest⟩ := adopt_spec h hs p
  rw [Mem.adopt, if_neg (mt (ptr_eq_zero hs.2).mp ht)] at h'
  exact ⟨m', h', hrest⟩

/-- **Case 1**: the red sibling takes the place of the parent. -/
theorem eraseCase1_spec {c' : Color}
    (h : At m (Frame.fill ⟨d, c, p, Frame.fill ⟨d, c', x, far⟩ near⟩ n) up) (hnear : near ≠ .nil) :
    ∃ m', m.eraseCase1 d p x = some (m', ptr near) ∧
      At m' (Frame.fill ⟨d, .red, p, near.setBlack⟩ n) (⟨d, c, x, far⟩ :: up) ∧
      Outside (x :: p :: (near.toList ++ beside up)) m m' := by
  obtain ⟨ht, hup, hsound⟩ := h
  obtain ⟨hp, hn, ht⟩ := holds_fill.mp ht
  obtain ⟨hx, hnr, hfr⟩ := holds_fill.mp ht
  dsimp only at hp hn hx hnr hfr
  rw [ptr_fill] at hup hp
  have hsound' : Sound (x :: p :: (near.toList ++ (far.toList ++ n.toList ++ beside up))) := by
    refine hsound.of_count fun a => ?_
    simp only [List.count_append, List.count_cons, count_fill]
    omega
  have hp' := hp
  have hx' := hx
  rw [← d.flip_flip, cellOf_flip] at hp' hx'
  obtain ⟨m', h', hat, hout⟩ := insertCase3_spec hp' hx' hfr hnr hn hup hsound'
  refine ⟨m', ?_, ?_, hout⟩
  · have h0 : ptr near ≠ 0 :=
      mt (ptr_eq_zero fun y hy => hsound'.2 y (by simp [hy])).mp hnear
    simp only [Mem.insertCase3, Dir.flip_flip, Mem.adopt, if_neg h0, Option.bind_eq_bind,
      Option.bind_eq_some_iff] at h'
    obtain ⟨m1, h1, m2, h2, m3, h3, h4⟩ := h'
    simp only [Mem.eraseCase1, hx, Option.bind_eq_bind, Option.bind_some, child_cellOf, h1, h2, h3,
      h4]
  · rw [fill_flip, fill_flip, at_fill] at hat
    exact hat

/-- **Case 4**, whatever the words are that it overwrites. -/
theorem eraseCase4_spec {any : BitVec 64} {b q q' : Addr}
    (hp : m.node p = some (cellOf d (word (top up) c) (ptr n) b))
    (hx : m.node x = some (cellOf d any (ptr near) (ptr far))) (hn : Holds m.node p n)
    (hnear : Holds m.node q near) (hq : q &&& 3#64 = 0#64) (hfar : Holds m.node q' far)
    (hne : far ≠ .nil) (hup : Spine m p up)
    (hsound : Sound (x :: p :: ((near.toList ++ far.toList) ++ (n.toList ++ beside up)))) :
    ∃ m', m.eraseCase4 d p x (ptr far) = some m' ∧
      At m' (Frame.fill ⟨d, c, x, far.setBlack⟩ (Frame.fill ⟨d, .black, p, near⟩ n)) up ∧
      Outside (x :: p :: (near.toList ++ far.toList ++ beside up)) m m' := by
  obtain ⟨hxp, hxin, hpin, hin, hrest⟩ := apart hsound.1
  have hnf : Sound (near.toList ++ far.toList) := hsound.sublist
    (List.Sublist.cons x (List.Sublist.cons p (List.sublist_append_left _ _)))
  have hdisj : ∀ y ∈ far.toList, y ∉ near.toList := fun y hy hy' =>
    (List.nodup_append.mp hnf.1).2.2 y hy' y hy rfl
  have hx1 := (put_of_ne m hxp (cellOf d (word (top up) c) (ptr n) (ptr near))).trans hx
  generalize hm2 : (m.put p (cellOf d (word (top up) c) (ptr n) (ptr near))).put x
    (cellOf d any p (ptr far)) = m2
  have hsame2 : ∀ y, y ≠ x ∧ y ≠ p → m2.node y = m.node y := by
    rintro y ⟨hyx, hyp⟩
    rw [← hm2, put_of_ne _ hyx, put_of_ne _ hyp]
  obtain ⟨m3, h3, hfar3, hout3, hroot3⟩ := setParentColor_spec
    (hfar.congr fun y hy => hsame2 y (hin y (by simp [hy])))
    (hnf.sublist (List.sublist_append_right _ _)) hne x
  have hnear3 : Holds m3.node q near := hnear.congr fun y hy =>
    (hout3 y fun hy' => hdisj y hy' hy).trans (hsame2 y (hin y (by simp [hy])))
  obtain ⟨m4, h4, hnear4, hout4, hroot4⟩ := reparent_spec hnear3
    (hnf.sublist (List.sublist_append_left _ _)) hq p
  have hsame4 : ∀ y, y ∉ near.toList ++ far.toList → m4.node y = m2.node y := by
    intro y hy
    simp only [List.mem_append, not_or] at hy
    rw [hout4 y hy.1, hout3 y hy.2]
  have hsame : ∀ y, y ≠ x ∧ y ≠ p ∧ y ∉ near.toList ++ far.toList → m4.node y = m.node y :=
    fun y hy => (hsame4 y hy.2.2).trans (hsame2 y ⟨hy.1, hy.2.1⟩)
  have hp4 : m4.node p = some (cellOf d.flip (word (top up) c) (ptr near) (ptr n)) := by
    rw [hsame4 p hpin, ← hm2, put_of_ne _ hxp.symm, put_self, cellOf_flip]
  have hx4 : m4.node x = some (cellOf d.flip any (ptr far.setBlack) p) := by
    rw [hsame4 x hxin, ← hm2, put_self, cellOf_flip, ptr_setBlack]
  have hup4 : Spine m4 p up := hup.congr (fun y hy => hsame y (hrest y (by simp [hy])))
    (by rw [hroot4, hroot3, ← hm2]; rfl)
  obtain ⟨m', h', hat, hout⟩ := rotateSetParents_spec .black hp4 hx4
    (hfar3.congr fun y hy => hout4 y (hdisj y (by simpa using hy))) hnear4
    (hn.congr fun y hy => hsame y (hrest y (by simp [hy]))) hup4
    (hsound.of_count fun a => by
      simp only [List.count_append, List.count_cons, toList_setBlack]
      omega)
  refine ⟨m', ?_, ?_, fun y hy => ?_⟩
  · simp only [Mem.eraseCase4, hx, Option.bind_eq_bind, Option.bind_some, child_cellOf,
      setChild_far hp, setChild_near hx1, hm2, h3, h4, h']
  · rw [fill_flip, fill_flip] at hat
    exact hat
  · simp only [List.mem_cons, List.mem_append, not_or] at hy
    obtain ⟨hyx, hyp, ⟨hyn, hyf⟩, hyu⟩ := hy
    rw [hout y (by simp [hyx, hyp, hyu]), hsame y ⟨hyx, hyp, by simp [hyn, hyf]⟩]

/-- **Cases 3 and 4**: the inner child of the sibling comes to the top. -/
theorem eraseCase3_spec {c' : Color} {z : Addr} {a b : RbNode Addr}
    (h : At m (Frame.fill ⟨d, c, p, Frame.fill ⟨d, c', x, far⟩ (Frame.fill ⟨d, .red, z, b⟩ a)⟩ n)
      up) :
    ∃ m1 m2, m.eraseCase3 d p x z = some m1 ∧ m1.eraseCase4 d p z x = some m2 ∧
      At m2 (Frame.fill ⟨d, c, z, Frame.fill ⟨d, .black, x, far⟩ b.setBlack⟩
        (Frame.fill ⟨d, .black, p, a⟩ n)) up ∧
      Outside (p :: x :: z :: (a.toList ++ b.toList ++ far.toList ++ beside up)) m m2 := by
  obtain ⟨ht, hup, hsound⟩ := h
  obtain ⟨hp, hn, ht⟩ := holds_fill.mp ht
  obtain ⟨hx, ht, hfr⟩ := holds_fill.mp ht
  obtain ⟨hz, ha, hb⟩ := holds_fill.mp ht
  dsimp only at hp hn hx hfr hz ha hb
  rw [ptr_fill] at hup hp hx
  have hsound' : Sound (x :: z :: ((p :: b.toList) ++ (a.toList ++ far.toList ++ n.toList ++
      beside up))) := by
    refine hsound.of_count fun a => ?_
    simp only [List.count_append, List.count_cons, count_fill]
    omega
  obtain ⟨hxz, hxin, hzin, hin, hrest⟩ := apart hsound'.1
  obtain ⟨hpx, hpz⟩ := hin p List.mem_cons_self
  have hb' : Sound (p :: b.toList) := hsound'.sublist
    (List.Sublist.cons x (List.Sublist.cons z (List.sublist_append_left _ _)))
  have hpb : p ∉ b.toList := (List.nodup_cons.mp hb'.1).1
  have hz1 := (put_of_ne m hxz.symm (cellOf d (word p c') (ptr b) (ptr far))).trans hz
  have hp2 : ((m.put x (cellOf d (word p c') (ptr b) (ptr far))).put z
      (cellOf d (word x .red) (ptr a) x)).node p = some (cellOf d (word (top up) c) (ptr n) x) := by
    rw [put_of_ne _ hpz, put_of_ne _ hpx, hp]
  generalize hm3 : ((m.put x (cellOf d (word p c') (ptr b) (ptr far))).put z
    (cellOf d (word x .red) (ptr a) x)).put p (cellOf d (word (top up) c) (ptr n) z) = m3
  have hsame3 : ∀ y, y ≠ x ∧ y ≠ z → y ≠ p → m3.node y = m.node y := by
    rintro y ⟨hyx, hyz⟩ hyp
    rw [← hm3, put_of_ne _ hyp, put_of_ne _ hyz, put_of_ne _ hyx]
  obtain ⟨m4, h4, hb4, hout4, hroot4⟩ := adopt_spec
    (hb.congr fun y hy => hsame3 y (hin y (List.mem_cons_of_mem _ hy))
      (ne_of_mem_of_not_mem hy hpb)) (hb'.sublist (List.sublist_cons_self _ _)) x
  have hsame : ∀ y, y ≠ x ∧ y ≠ z ∧ y ∉ p :: b.toList → m4.node y = m.node y := by
    rintro y ⟨hyx, hyz, hy⟩
    simp only [List.mem_cons, not_or] at hy
    rw [hout4 y hy.2, hsame3 y ⟨hyx, hyz⟩ hy.1]
  have hx4 : m4.node x = some (cellOf d (word p c') (ptr b.setBlack) (ptr far)) := by
    rw [hout4 x fun hm => hxin (List.mem_cons_of_mem _ hm), ← hm3, put_of_ne _ hpx.symm,
      put_of_ne _ hxz, put_self, ptr_setBlack]
  have hz4 : m4.node z = some (cellOf d (word x .red) (ptr a) x) := by
    rw [hout4 z fun hm => hzin (List.mem_cons_of_mem _ hm), ← hm3, put_of_ne _ hpz.symm, put_self]
  have hp4 : m4.node p = some (cellOf d (word (top up) c) (ptr n) z) := by
    rw [hout4 p hpb, ← hm3, put_self]
  have hfar4 : Holds m4.node p (Frame.fill ⟨d, c', x, far⟩ b.setBlack) :=
    holds_fill.mpr ⟨hx4, hb4, hfr.congr fun y hy => hsame y (hrest y (by simp [hy]))⟩
  have hup4 : Spine m4 p up := hup.congr (fun y hy => hsame y (hrest y (by simp [hy])))
    (by rw [hroot4, ← hm3]; rfl)
  obtain ⟨m', h', hat, hout⟩ := eraseCase4_spec hp4 (by rw [ptr_fill]; exact hz4)
    (hn.congr fun y hy => hsame y (hrest y (by simp [hy])))
    (ha.congr fun y hy => hsame y (hrest y (by simp [hy]))) (hsound'.2 z (by simp)).2 hfar4
    (by cases d <;> simp [Frame.fill]) hup4
    (hsound'.of_count fun a => by
      simp only [List.count_append, List.count_cons, count_fill, toList_setBlack]
      omega)
  rw [ptr_fill] at h'
  refine ⟨m4, m', ?_, h', ?_, fun y hy => ?_⟩
  · simp only [Mem.eraseCase3, hz, Option.bind_eq_bind, Option.bind_some, child_flip_cellOf,
      setChild_near hx, setChild_far hz1, setChild_far hp2, hm3, h4]
  · rw [setBlack_fill] at hat
    exact hat
  · simp only [List.mem_cons, List.mem_append, not_or] at hy
    obtain ⟨hyp, hyx, hyz, ⟨⟨hya, hyb⟩, hyf⟩, hyu⟩ := hy
    rw [hout y (by simp [hyz, hyp, hya, hyu, mem_fill, hyx, hyb, hyf]),
      hsame y ⟨hyx, hyz, by simp [hyp, hyb]⟩]

/-- **Case 2**: the sibling becomes red, and the parent black. -/
theorem eraseFlip_spec {c' : Color}
    (h : At m (Frame.fill ⟨d, c, p, Frame.fill ⟨d, c', x, far⟩ near⟩ n) up) :
    ∃ m1 m2, m.rbSetParentColor x p .red = some m1 ∧ m1.rbIsRed p = some (decide (c = .red)) ∧
      (if c = .red then m1.rbSetBlack p else some m1) = some m2 ∧
      At m2 (Frame.fill ⟨d, .black, p, Frame.fill ⟨d, .red, x, far⟩ near⟩ n) up ∧
      Outside [x, p] m m2 := by
  rw [← fill_flip, at_fill] at h
  obtain ⟨m1, h1, hat1, hout1⟩ := recolor_spec h .red
  rw [← at_fill, fill_flip] at hat1
  have htop : top up &&& 3#64 = 0#64 := top_aligned fun y hy => hat1.sound.2 y (by simp [hy])
  have hp1 := (holds_fill.mp hat1.tree).1
  dsimp only at hp1
  have hred : m1.rbIsRed p = some (decide (c = .red)) := by
    rw [Mem.rbIsRed, hp1, Option.map_some, pc_cellOf, isBlack_word htop]
    cases c <;> rfl
  cases c with
  | red =>
    obtain ⟨m2, h2, hat2, hout2⟩ := recolor_spec hat1 .black
    refine ⟨m1, m2, h1, hred, ?_, hat2, hout1.trans hout2 (by simp) (by simp)⟩
    rw [if_pos rfl, Mem.rbSetBlack, hp1, Option.bind_some, pc_cellOf, word_black]
    exact h2
  | black => exact ⟨m1, m1, h1, hred, if_neg (by decide), hat1, hout1.mono (by simp)⟩

end Rotations

end DynBandwidth.Lib.RbHeap

namespace DynBandwidth.Lib.RbTree

/-! ### The cases of the repair, in a direction -/

section Directions
variable {α : Type} {n near far : RbNode α} {c c' : Color} {p x : α} (d : Dir)

theorem eraseCases_outer {l r : RbNode α} {y : α} :
    eraseCases n d c p (Frame.fill ⟨d, c', x, .node .red l y r⟩ near) =
      (Frame.fill ⟨d, c, x, .node .black l y r⟩ (Frame.fill ⟨d, .black, p, near⟩ n), false) := by
  cases d with
  | left => simp [eraseCases, Frame.fill]
  | right => simp [eraseCases, Frame.fill]

theorem eraseCases_inner {a b : RbNode α} {z : α} (hfar : ¬ far.isRed = true) :
    eraseCases n d c p (Frame.fill ⟨d, c', x, far⟩ (Frame.fill ⟨d, .red, z, b⟩ a)) =
      (Frame.fill ⟨d, c, z, Frame.fill ⟨d, .black, x, far⟩ b.setBlack⟩
        (Frame.fill ⟨d, .black, p, a⟩ n), false) := by
  cases d with
  | left => exact eraseCases_inner_left hfar
  | right => exact eraseCases_inner_right hfar

theorem eraseCases_flip (hnear : ¬ near.isRed = true) (hfar : ¬ far.isRed = true) :
    eraseCases n d c p (Frame.fill ⟨d, c', x, far⟩ near) =
      (Frame.fill ⟨d, .black, p, Frame.fill ⟨d, .red, x, far⟩ near⟩ n, decide (c = .black)) := by
  cases d with
  | left => exact eraseCases_flip_left hnear hfar
  | right => exact eraseCases_flip_right hfar hnear

/-- Where the loop goes on, the parent is on top. -/
theorem eraseCases_goOn {s : RbNode α} (h : (eraseCases n d c p s).2 = true) :
    ∃ s', (eraseCases n d c p s).1 = Frame.fill ⟨d, .black, p, s'⟩ n := by
  cases s with
  | nil => cases h
  | node c' l x r =>
    obtain ⟨far, near, hs⟩ := exists_fill d c' l x r
    rw [hs] at h ⊢
    by_cases hfar : far.isRed = true
    · obtain ⟨l, y, r, rfl⟩ := isRed_iff.mp hfar
      rw [eraseCases_outer] at h
      cases h
    · by_cases hnear : near.isRed = true
      · obtain ⟨l, z, r, rfl⟩ := isRed_iff.mp hnear
        obtain ⟨b, a, hab⟩ := exists_fill d .red l z r
        rw [hab, eraseCases_inner d hfar] at h
        cases h
      · rw [eraseCases_flip d hnear hfar]
        exact ⟨_, rfl⟩

/-- Below a red parent the loop ends. -/
theorem eraseCases_red (s : RbNode α) : (eraseCases n d .red p s).2 = false := by
  unfold eraseCases
  rcases s with _ | ⟨c, l, x, r⟩
  · rfl
  · cases d <;> dsimp only <;> split <;> rfl

end Directions

end DynBandwidth.Lib.RbTree

namespace DynBandwidth.Lib.RbHeap

open DynBandwidth.Lib.RbTree

/-! ### The whole loop -/

section Loop
variable {m : Mem} {d : Dir} {p x : Addr} {c c' : Color} {n near far s : RbNode Addr}
  {up : List (Frame Addr)}

/-- **Cases 2 to 4.** -/
theorem eraseCases_spec (h : At m (Frame.fill ⟨d, c, p, Frame.fill ⟨d, c', x, far⟩ near⟩ n) up) :
    ∃ m', m.eraseCases d p x =
        some (m', (RbTree.eraseCases n d c p (Frame.fill ⟨d, c', x, far⟩ near)).2) ∧
      At m' (RbTree.eraseCases n d c p (Frame.fill ⟨d, c', x, far⟩ near)).1 up ∧
      Outside (p :: ((Frame.fill ⟨d, c', x, far⟩ near).toList ++ beside up)) m m' := by
  obtain ⟨hp, hn, ht⟩ := holds_fill.mp h.tree
  obtain ⟨hx, hnr, hfr⟩ := holds_fill.mp ht
  dsimp only at hp hn ht hx hnr hfr
  have hal : ∀ y ∈ p :: x :: (near.toList ++ far.toList), Aligned y := by
    intro y hy
    refine h.sound.2 y (List.mem_append_left _ ?_)
    simp only [mem_fill, List.mem_cons, List.mem_append] at hy ⊢
    tauto
  have hx3 := (hal x (by simp)).2
  have hfred := isRed_spec hfr (fun y hy => hal y (by simp [hy])) hx3
  have hnred := isRed_spec hnr (fun y hy => hal y (by simp [hy])) hx3
  by_cases hfar : far.isRed = true
  · obtain ⟨l, z, r, rfl⟩ := isRed_iff.mp hfar
    rw [ptr_fill] at hp
    have hup := h.path
    rw [ptr_fill] at hup
    obtain ⟨m', h', hat, hout⟩ := eraseCase4_spec hp hx hn hnr hx3 hfr (by simp) hup
      (h.sound.of_count fun a => by
        simp only [List.count_append, List.count_cons, count_fill]
        omega)
    rw [eraseCases_outer]
    refine ⟨m', ?_, hat, hout.mono fun y hy => ?_⟩
    · simp only [Mem.eraseCases, hx, Option.bind_eq_bind, Option.bind_some, child_flip_cellOf,
        hfred, RbNode.isRed, if_true, h']
    · simp only [List.mem_cons, List.mem_append, mem_fill] at hy ⊢
      tauto
  · by_cases hnear : near.isRed = true
    · obtain ⟨l, z, r, rfl⟩ := isRed_iff.mp hnear
      obtain ⟨b, a, hab⟩ := exists_fill d .red l z r
      rw [ptr_node] at hx hnred
      rw [hab] at h ⊢
      obtain ⟨m1, m', h1, h', hat, hout⟩ := eraseCase3_spec h
      rw [eraseCases_inner d hfar]
      refine ⟨m', ?_, hat, hout.mono fun y hy => ?_⟩
      · simp only [Mem.eraseCases, hx, Option.bind_eq_bind, Option.bind_some, child_flip_cellOf,
          hfred, hfar, child_cellOf, hnred, hnear, if_true, Bool.false_eq_true, if_false,
          h1, h']
      · simp only [List.mem_cons, List.mem_append, mem_fill] at hy ⊢
        tauto
    · obtain ⟨m1, m', h1, hred, h', hat, hout⟩ := eraseFlip_spec h
      rw [eraseCases_flip d hnear hfar]
      refine ⟨m', ?_, hat, hout.mono fun y hy => ?_⟩
      · simp only [Mem.eraseCases, hx, Option.bind_eq_bind, Option.bind_some, child_flip_cellOf,
          hfred, hfar, if_false, child_cellOf, hnred, hnear, h1, hred, Bool.false_eq_true]
        cases c with
        | red =>
          rw [if_pos rfl] at h'
          simp [h']
        | black => simpa using h'
      · simp only [List.mem_cons, List.not_mem_nil, or_false, List.mem_append, mem_fill] at hy ⊢
        tauto

/-- The direction of the loop is read from the right child of the parent. -/
theorem dir_of_node {w : BitVec 64} (hs : s ≠ .nil) (hsound : Sound (n.toList ++ s.toList)) :
    (if ptr n = (cellOf d w (ptr n) (ptr s)).right then Dir.right else Dir.left) = d := by
  cases d with
  | left =>
    refine if_neg (show ¬ ptr n = ptr s from fun heq => ?_)
    have hmem := ptr_mem hs
    by_cases hn : n = .nil
    · rw [hn] at heq
      exact (hsound.2 _ (List.mem_append_right _ hmem)).1 heq.symm
    · exact (List.nodup_append.mp hsound.1).2.2 _ (ptr_mem hn) _ hmem heq
  | right => exact if_pos rfl

/-- A round, with the direction and the sibling looked up. -/
theorem rbEraseColor_round {t : RbNode Addr} {k : ℕ} (h : At m t (⟨d, c, p, s⟩ :: up))
    (hs : s ≠ .nil) :
    m.rbEraseColor (k + 1) (ptr t) p = (m.eraseSibling d p (ptr s)).bind fun r =>
      (r.1.eraseCases d p r.2).bind fun r =>
        if r.2 then (r.1.node p).bind fun q => r.1.rbEraseColor k p (parentOf q.pc)
        else some r.1 := by
  have hp : m.node p = some (cellOf d (word (top up) c) (ptr t) (ptr s)) := h.path.1
  have hsound : Sound (t.toList ++ s.toList) := h.sound.sublist
    (List.Sublist.append (List.Sublist.refl _) ((List.sublist_append_left _ _).cons _))
  have hdir := dir_of_node (d := d) (w := word (top up) c) hs hsound
  have hp0 : p ≠ 0 := (h.sound.2 p (by simp [beside])).1
  rw [Mem.rbEraseColor, if_neg hp0]
  simp only [hp, Option.bind_eq_bind, Option.bind_some, hdir, child_flip_cellOf]

theorem rbIsRed_spec {q : Addr} (h : Holds m.node q (Frame.fill ⟨d, c, x, far⟩ near))
    (hq : q &&& 3#64 = 0#64) : m.rbIsRed x = some (decide (c = .red)) := by
  have hx := (holds_fill.mp h).1
  dsimp only at hx
  rw [Mem.rbIsRed, hx, Option.map_some, pc_cellOf, isBlack_word hq]
  cases c <;> rfl

/-- **A round beside a red sibling**: Case 1, and the end of the loop. -/
theorem eraseRound_red {t : RbNode Addr}
    (h : At m t (⟨d, c, p, Frame.fill ⟨d, .red, x, far⟩ near⟩ :: up)) (hnear : near ≠ .nil)
    (k : ℕ) :
    ∃ m', m.rbEraseColor (k + 1) (ptr t) p = some m' ∧
      At m' (RbTree.eraseCases t d .red p near.setBlack).1 (⟨d, c, x, far⟩ :: up) ∧
      Outside (t.toList ++ beside (⟨d, c, p, Frame.fill ⟨d, .red, x, far⟩ near⟩ :: up)) m m' := by
  have hred := rbIsRed_spec h.path.2.1 (h.sound.2 p (by simp [beside])).2
  rw [rbEraseColor_round h (by cases d <;> simp [Frame.fill]), ptr_fill]
  obtain ⟨m1, h1, hat1, hout1⟩ := eraseCase1_spec (at_fill.mpr h) hnear
  cases near with
  | nil => exact absurd rfl hnear
  | node cn l y r =>
    obtain ⟨far', near', hfill⟩ := exists_fill d .black l y r
    rw [RbNode.setBlack, hfill] at hat1 ⊢
    obtain ⟨m2, h2, hat2, hout2⟩ := eraseCases_spec hat1
    rw [eraseCases_red] at h2
    rw [← hfill] at hout2
    refine ⟨m2, ?_, hat2, hout1.trans hout2 (fun a ha => ?_) fun a ha => ?_⟩
    · simp only [Mem.eraseSibling, hred, Option.bind_some, decide_true, if_true, h1, ptr_node, h2,
        Bool.false_eq_true, if_false]
    all_goals
      simp only [beside, toList_node, List.mem_cons, List.mem_append, mem_fill] at ha ⊢
      tauto

/-- **A round beside a black sibling.** -/
theorem eraseRound_black {t : RbNode Addr} (h : At m t (⟨d, c, p, s⟩ :: up)) (hs : s ≠ .nil)
    (hblack : ¬ s.isRed = true) (k : ℕ) :
    ∃ m', m.rbEraseColor (k + 1) (ptr t) p = (if (RbTree.eraseCases t d c p s).2 then
        m'.rbEraseColor k (ptr (RbTree.eraseCases t d c p s).1) (top up) else some m') ∧
      At m' (RbTree.eraseCases t d c p s).1 up ∧
      Outside (t.toList ++ beside (⟨d, c, p, s⟩ :: up)) m m' := by
  have hround := rbEraseColor_round h hs (k := k)
  cases s with
  | nil => exact absurd rfl hs
  | node c' l x r =>
    obtain ⟨far, near, hfill⟩ := exists_fill d c' l x r
    rw [hfill] at h hround ⊢
    obtain rfl : c' = .black := by
      cases c' with
      | red => exact absurd rfl hblack
      | black => rfl
    have hred := rbIsRed_spec h.path.2.1 (h.sound.2 p (by simp [beside])).2
    obtain ⟨m', h', hat, hout⟩ := eraseCases_spec (at_fill.mpr h)
    refine ⟨m', ?_, hat, hout.mono fun a ha => ?_⟩
    · rw [hround, ptr_fill]
      simp only [Mem.eraseSibling, hred, Option.bind_some, reduceCtorEq, decide_false,
        Bool.false_eq_true, if_false, h']
      split_ifs with hgo
      · -- the loop goes on at the parent, which is on top of what Case 2 has left
        obtain ⟨s', hs'⟩ := eraseCases_goOn d hgo
        rw [hs'] at hat ⊢
        have hp := (holds_fill.mp hat.tree).1
        have htop : top up &&& 3#64 = 0#64 :=
          top_aligned fun y hy => hat.sound.2 y (List.mem_append_right _ hy)
        dsimp only at hp
        rw [hp, Option.bind_some, pc_cellOf, parentOf_word htop, ptr_fill]
      · rfl
    · simp only [beside, List.mem_cons, List.mem_append] at ha ⊢
      tauto

/-- A tree with a black node on its paths is not empty. -/
theorem ne_nil_of_bal {t : RbNode Addr} {c : Color} {k : ℕ} (h : Bal t c (k + 1)) : t ≠ .nil := by
  rintro rfl
  cases h

/-- A tree that is one black node short has a sibling. -/
theorem hole_sibling {f : Frame Addr} {k : ℕ} (h : Hole (f :: up) .black (k + 1)) :
    f.sibling ≠ .nil := by
  rcases f with ⟨d, _ | _, p, s⟩
  · exact ne_nil_of_bal h.2.1
  · obtain ⟨⟨c', hs⟩, -⟩ := h
    exact ne_nil_of_bal hs

/-- **The repair loop of a removal in memory**, of a black tree that is one black node short for its
place. -/
theorem rbEraseColor_spec (t : RbNode Addr) (up : List (Frame Addr)) :
    ∀ {m : Mem} {n k : ℕ}, At m t up → Bal t .black k → Hole up .black (k + 1) → up.length < n →
      ∃ m', m.rbEraseColor n (ptr t) (top up) = some m' ∧ At m' (eraseColor t up) [] ∧
        Outside (t.toList ++ beside up) m m' := by
  induction t, up using eraseColor.induct with
  | case1 t =>
    intro m n k h _ _ hn
    obtain ⟨n, rfl⟩ := Nat.exists_eq_succ_of_ne_zero (Nat.ne_zero_of_lt hn)
    exact ⟨m, if_pos rfl, h, fun y _ => rfl⟩
  | case2 t c p sl sx sr up =>
    intro m n k h _ hole hn
    obtain ⟨n, rfl⟩ := Nat.exists_eq_succ_of_ne_zero (Nat.ne_zero_of_lt hn)
    cases c with
    | red => cases hole.2.1
    | black =>
      obtain ⟨⟨c', hs⟩, -⟩ := hole
      cases hs with | red hl hr =>
      obtain ⟨m', h', hat, hout⟩ := eraseRound_red (d := .left) h (ne_nil_of_bal hl) n
      refine ⟨m', h', ?_, hout⟩
      rw [eraseColor]
      exact at_plug.mpr hat
  | case3 t c p sl sx sr up =>
    intro m n k h _ hole hn
    obtain ⟨n, rfl⟩ := Nat.exists_eq_succ_of_ne_zero (Nat.ne_zero_of_lt hn)
    cases c with
    | red => cases hole.2.1
    | black =>
      obtain ⟨⟨c', hs⟩, -⟩ := hole
      cases hs with | red hl hr =>
      obtain ⟨m', h', hat, hout⟩ := eraseRound_red (d := .right) h (ne_nil_of_bal hr) n
      refine ⟨m', h', ?_, hout⟩
      rw [eraseColor]
      exact at_plug.mpr hat
  | case4 t d c p s up h1 h2 hgo ih =>
    intro m n k h ht hole hn
    obtain ⟨n, rfl⟩ := Nat.exists_eq_succ_of_ne_zero (Nat.ne_zero_of_lt hn)
    have hblack := not_isRed_of_dir h1 h2
    have hround := redBlack_round ht hole hblack
    rw [if_pos hgo] at hround
    obtain ⟨m1, he, hat, hout⟩ := eraseRound_black h (hole_sibling hole) hblack n
    obtain ⟨m', h', hat', hout'⟩ := ih hat hround.1 hround.2
      (show up.length < n by simp only [List.length_cons] at hn; omega)
    rw [if_pos hgo] at he
    refine ⟨m', he.trans h', ?_, hout.trans hout' (List.Subset.refl _) fun a ha => ?_⟩
    · rw [eraseColor, if_pos hgo]
      · exact hat'
      all_goals assumption
    · rw [toList_eraseCases] at ha
      simp only [beside, List.mem_cons, List.mem_append, mem_fill] at ha ⊢
      tauto
  | case5 t d c p s up h1 h2 hgo =>
    intro m n k h ht hole hn
    obtain ⟨n, rfl⟩ := Nat.exists_eq_succ_of_ne_zero (Nat.ne_zero_of_lt hn)
    have hblack := not_isRed_of_dir h1 h2
    obtain ⟨m', he, hat, hout⟩ := eraseRound_black h (hole_sibling hole) hblack n
    rw [if_neg hgo] at he
    refine ⟨m', he, ?_, hout⟩
    rw [eraseColor, if_neg hgo]
    · exact at_plug.mpr hat
    all_goals assumption

end Loop

/-! ### The leftmost node -/

section First
variable {m : Mem} {x : Addr} {up : List (Frame Addr)}

/-- The leftmost node below a node is found. -/
theorem firstBelow_spec : ∀ {t : RbNode Addr} {p : Addr} {n : ℕ}, Holds m.node p t →
    (∀ y ∈ t.toList, Aligned y) → t.first = some x → t.toList.length ≤ n →
    m.firstBelow n (ptr t) = some x
  | .node c .nil y r, p, n, h, _, hx, hn => by
    obtain ⟨n, rfl⟩ := Nat.exists_eq_succ_of_ne_zero (show n ≠ 0 by
      rintro rfl
      simp at hn)
    obtain rfl : y = x := Option.some.inj hx
    rw [ptr_node, Mem.firstBelow, h.1, Option.bind_some]
    exact if_pos rfl
  | .node c (.node c' l z r') y r, p, n, h, hal, hx, hn => by
    obtain ⟨n, rfl⟩ := Nat.exists_eq_succ_of_ne_zero (show n ≠ 0 by
      rintro rfl
      simp at hn)
    rw [toList_node c, List.length_append, List.length_cons] at hn
    rw [ptr_node, Mem.firstBelow, h.1, Option.bind_some, ptr_node,
      if_neg (hal z (by simp)).1]
    exact firstBelow_spec (t := .node c' l z r') h.2.1 (fun a ha => hal a (by
      rw [toList_node c]
      exact List.mem_append_left _ ha)) hx (by omega)

/-- **`rb_first` finds the leftmost node**, or zero. -/
theorem rbFirst_spec {t : RbNode Addr} {n : ℕ} (h : At m t []) (hn : t.toList.length ≤ n) :
    m.rbFirst n = some (t.first.getD 0) := by
  have hroot : m.root = ptr t := h.path
  have hal : ∀ y ∈ t.toList, Aligned y := fun y hy => h.sound.2 y (List.mem_append_left _ hy)
  rw [Mem.rbFirst, hroot]
  by_cases hnil : t = .nil
  · rw [if_pos ((ptr_eq_zero hal).mpr hnil), hnil]
    rfl
  · rw [if_neg (mt (ptr_eq_zero hal).mp hnil)]
    have hne : t.toList ≠ [] := mt toList_eq_nil.mp hnil
    have hfirst : t.first = some (t.toList.head hne) := by
      rw [first_eq_head?, List.head?_eq_some_head hne]
    rw [hfirst]
    exact firstBelow_spec h.tree hal hfirst hn

/-- A node without a left child is cut off. -/
theorem rbEraseAugmented_spec {c : Color} {r : RbNode Addr} {n : ℕ}
    (h : At m (.node c .nil x r) up) :
    ∃ m', m.rbEraseAugmented n x = some (m', if r = .nil ∧ c = .black then top up else 0) ∧
      At m' (match r with | .nil => .nil | .node _ l y r => .node c l y r) up ∧
      Outside (x :: (r.toList ++ beside up)) m m' := by
  obtain ⟨⟨hx, -, hr⟩, hup, hsound⟩ := h
  rw [ptr_node] at hup
  have htop : top up &&& 3#64 = 0#64 :=
    top_aligned fun y hy => hsound.2 y (List.mem_append_right _ hy)
  have hsound' : Sound (x :: (r.toList ++ beside up)) := hsound
  obtain ⟨m1, h1, hup1, hout1⟩ := changeChild_spec hup
    (hsound'.sublist (List.Sublist.cons_cons x (List.sublist_append_right _ _))) (ptr r)
  cases r with
  | nil =>
    rw [ptr_nil] at h1 hx
    refine ⟨m1, ?_, ⟨trivial, hup1, ?_⟩, hout1.mono fun a ha => ?_⟩
    · simp only [Mem.rbEraseAugmented, hx, Option.bind_eq_bind, Option.bind_some,
        parentOf_word htop, h1, if_true, isBlack_word htop, decide_eq_true_eq, true_and]
    · exact hsound'.sublist (List.sublist_cons_self _ _)
    · exact List.mem_cons_of_mem _ ha
  | node c' l y r =>
    rw [ptr_node] at h1 hx hup1
    rw [ptr_nil] at hx
    have hnd := List.nodup_append.mp (List.nodup_cons.mp hsound'.1).2
    have hy0 : y ≠ 0 := (hsound'.2 y (by simp)).1
    have hr1 : Holds m1.node x (.node c' l y r) := hr.congr fun a ha =>
      hout1 a fun ha' => hnd.2.2 a ha a ha' rfl
    have hyup : ∀ a ∈ beside up, a ≠ y := fun a ha => (hnd.2.2 y (by simp) a ha).symm
    refine ⟨m1.put y ⟨word (top up) c, ptr l, ptr r⟩, ?_, ⟨hr1.put_top hnd.1, ?_, ?_⟩,
      fun a ha => ?_⟩
    · simp only [Mem.rbEraseAugmented, hx, Option.bind_eq_bind, Option.bind_some,
        parentOf_word htop, h1, if_true, if_neg hy0, setPc_eq hr1.1, reduceCtorEq, false_and,
        if_false]
    · exact hup1.congr (fun a ha => put_of_ne _ (hyup a ha) _) rfl
    · exact hsound'.sublist (List.sublist_cons_self _ _)
    · simp only [toList_node, List.mem_cons, List.mem_append, not_or] at ha
      rw [put_of_ne _ ha.2.1.2.1, hout1 a ha.2.2]

/-- **Removal of the leftmost node** of a red-black tree. -/
theorem rbEraseAt_spec (t : RbNode Addr) (up : List (Frame Addr)) :
    ∀ {m : Mem} {n k : ℕ} {c : Color}, At m t up → Bal t c k → Hole up c k → t.first = some x →
      t.toList.length + up.length ≤ n →
      ∃ m', m.rbErase n x = some m' ∧ At m' (eraseFirstAt t up) [] ∧
        Outside (t.toList ++ beside up) m m' := by
  induction t, up using eraseFirstAt.induct with
  | case1 up => intro m n k c _ _ _ hx; cases hx
  | case2 c y c' l z r up =>
    intro m n k c0 h _ _ hx hn
    obtain rfl : y = x := Option.some.inj hx
    obtain ⟨m1, h1, hat, hout⟩ := rbEraseAugmented_spec (n := n) h
    obtain ⟨n, rfl⟩ := Nat.exists_eq_succ_of_ne_zero (show n ≠ 0 by
      rintro rfl
      simp at hn)
    refine ⟨m1, ?_, ?_, hout.mono fun a ha => by simpa using ha⟩
    · rw [Mem.rbErase, h1, Option.bind_some]
      exact if_pos (by simp)
    · rw [eraseFirstAt]
      exact at_plug.mpr hat
  | case3 y up =>
    intro m n k c0 h ht hole hx hn
    obtain rfl : y = x := Option.some.inj hx
    obtain ⟨m1, h1, hat, hout⟩ := rbEraseAugmented_spec (n := n) h
    cases ht with | black hl hr =>
    cases hl
    obtain ⟨m', h', hat', hout'⟩ := rbEraseColor_spec .nil up (n := n) hat .nil hole
      (by simp at hn; omega)
    refine ⟨m', ?_, ?_, hout.trans hout' (by simp) (by simp)⟩
    · rw [Mem.rbErase, h1, Option.bind_some]
      exact h'
    · rw [eraseFirstAt]
      exact hat'
  | case4 y up =>
    intro m n k c0 h _ _ hx hn
    obtain rfl : y = x := Option.some.inj hx
    obtain ⟨m1, h1, hat, hout⟩ := rbEraseAugmented_spec (n := n) h
    obtain ⟨n, rfl⟩ := Nat.exists_eq_succ_of_ne_zero (show n ≠ 0 by
      rintro rfl
      simp at hn)
    refine ⟨m1, ?_, ?_, hout.mono fun a ha => by simpa using ha⟩
    · rw [Mem.rbErase, h1, Option.bind_some]
      exact if_pos (by simp)
    · rw [eraseFirstAt]
      exact at_plug.mpr hat
  | case5 c c' l y r z s up ih =>
    intro m n k c0 h ht hole hx hn
    obtain rfl := ht.root_color
    obtain ⟨⟨cl, ml, hl, hlup⟩, -⟩ := ht.hole hole
    have hat : At m (.node c' l y r) (⟨.left, c0, z, s⟩ :: up) := at_fill.mp h
    obtain ⟨m', h', hat', hout⟩ := ih (n := n) hat hl hlup hx (by
      simp only [toList_node, List.length_append, List.length_cons] at hn ⊢
      omega)
    refine ⟨m', h', ?_, hout.mono fun a ha => ?_⟩
    · rw [eraseFirstAt]
      exact hat'
    · simp only [beside, toList_node, List.mem_cons, List.mem_append] at ha ⊢
      tauto

/-- **`rb_erase` of the leftmost node.** -/
theorem rbErase_spec {t : RbNode Addr} {n : ℕ} (h : At m t []) (ht : RedBlack t)
    (hx : t.first = some x) (hn : t.toList.length ≤ n) :
    ∃ m', m.rbErase n x = some m' ∧ At m' t.eraseFirst [] ∧ Outside t.toList m m' := by
  obtain ⟨k, hk⟩ := ht
  obtain ⟨m', h', hat, hout⟩ := rbEraseAt_spec t [] h hk rfl hx hn
  exact ⟨m', h', hat, hout.mono (by simp [beside])⟩

end First

end DynBandwidth.Lib.RbHeap
