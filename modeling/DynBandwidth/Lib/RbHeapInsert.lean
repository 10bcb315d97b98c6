import DynBandwidth.Lib.RbHeap

/-! # Insertion in memory

`rbInsert` is the repair loop after a red node was linked to a tree in memory. Below a red-black
tree it ends, meets no missing node, and leaves the tree that `insertColor` computes
(`insert_spec`). -/

namespace DynBandwidth.Lib.RbHeap

open DynBandwidth.Lib.RbTree

/-! ### The loop -/

/-- Case 3, a rotation at the grandparent. -/
def Mem.insertCase3 (m : Mem) (d : Dir) (parent gparent tmp : Addr) : Option Mem := do
  let m ← m.setChild d gparent tmp
  let m ← m.setChild d.flip parent gparent
  let m ← m.adopt tmp gparent
  m.rbRotateSetParents gparent parent .red

/-- Case 2, a rotation at the parent, if the node is an inner one, and Case 3. -/
def Mem.insertRotate (m : Mem) (d : Dir) (node parent gparent : Addr) : Option Mem := do
  let p ← m.node parent
  if node = p.child d.flip then
    let n ← m.node node
    let tmp := n.child d
    let m ← m.setChild d.flip parent tmp
    let m ← m.setChild d node parent
    let m ← m.adopt tmp parent
    let m ← m.rbSetParentColor parent node .red
    let n ← m.node node
    m.insertCase3 d node gparent (n.child d.flip)
  else m.insertCase3 d parent gparent (p.child d.flip)

/-- **The repair loop of an insertion**, at a red node below `parent`. The direction is that from
the grandparent to the parent. -/
def Mem.rbInsert : ℕ → Mem → Addr → Addr → Option Mem
  | 0, _, _, _ => none
  | n + 1, m, node, parent =>
    if parent = 0 then m.rbSetParentColor node 0 .black
    else do
      let p ← m.node parent
      if isBlack p.pc then some m
      else
        -- the word of a red node is the address of its parent
        let gparent := p.pc
        let g ← m.node gparent
        let d := if parent = g.right then Dir.right else Dir.left
        let tmp := g.child d.flip
        if ← m.isRed tmp then
          -- Case 1
          let m ← m.rbSetParentColor tmp gparent .black
          let m ← m.rbSetParentColor parent gparent .black
          let g ← m.node gparent
          let m ← m.rbSetParentColor gparent (parentOf g.pc) .red
          m.rbInsert n gparent (parentOf g.pc)
        else m.insertRotate d node parent gparent

def Mem.rbInsertColor (m : Mem) (n : ℕ) (node : Addr) : Option Mem :=
  (m.node node).bind fun c => m.rbInsert n node c.pc

/-- Where a search in memory ends: at an empty child of `parent`, or at a node. -/
inductive Place
  | leaf (parent : Addr) (d : Dir)
  | hit (x : Addr)
  deriving DecidableEq, Repr

/-- **The search**, which is at the `d` child `x` of `parent`. -/
def Mem.search (m : Mem) (lt gt : Addr → Option Bool) : ℕ → Addr → Dir → Addr → Option Place
  | 0, _, _, _ => none
  | n + 1, parent, d, x =>
    if x = 0 then some (.leaf parent d)
    else do
      let c ← m.node x
      if ← lt x then m.search lt gt n x .left c.left
      else if ← gt x then m.search lt gt n x .right c.right
      else some (.hit x)

/-! ### Rotations -/

section Rotations
variable {m : Mem} {d : Dir} {g p x : Addr} {c : Color} {n s u near far : RbNode Addr}
  {up : List (Frame Addr)}

/-- **Case 3**, whatever the words are that it overwrites. -/
theorem insertCase3_spec {any : BitVec 64} {a b q : Addr}
    (hg : m.node g = some (cellOf d (word (top up) c) a (ptr u)))
    (hp : m.node p = some (cellOf d any (ptr n) b)) (hn : Holds m.node p n)
    (hs : Holds m.node q s) (hu : Holds m.node g u) (hup : Spine m g up)
    (hsound : Sound (p :: g :: (s.toList ++ (n.toList ++ u.toList ++ beside up)))) :
    ∃ m', m.insertCase3 d p g (ptr s) = some m' ∧
      At m' (Frame.fill ⟨d, c, p, Frame.fill ⟨d, .red, g, u⟩ s.setBlack⟩ n) up ∧
      Outside (p :: g :: (s.toList ++ beside up)) m m' := by
  obtain ⟨hpg, hps, hgs, hinS, hrest⟩ := apart hsound.1
  have hp1 := (put_of_ne m hpg (cellOf d (word (top up) c) (ptr s) (ptr u))).trans hp
  generalize hm2 : (m.put g (cellOf d (word (top up) c) (ptr s) (ptr u))).put p
    (cellOf d any (ptr n) g) = m2
  have hsame2 : ∀ y, y ≠ p ∧ y ≠ g → m2.node y = m.node y := by
    rintro y ⟨hyp, hyg⟩
    rw [← hm2, put_of_ne _ hyp, put_of_ne _ hyg]
  obtain ⟨m3, h3, hs3, hout3, hroot3⟩ := adopt_spec
    (hs.congr fun y hy => hsame2 y (hinS y hy))
    (hsound.sublist (List.Sublist.cons p (List.Sublist.cons g (List.sublist_append_left _ _)))) g
  have hsame3 : ∀ y, y ≠ p ∧ y ≠ g ∧ y ∉ s.toList → m3.node y = m.node y :=
    fun y hy => (hout3 y hy.2.2).trans (hsame2 y ⟨hy.1, hy.2.1⟩)
  have hg3 : m3.node g = some (cellOf d (word (top up) c) (ptr s.setBlack) (ptr u)) := by
    rw [hout3 g hgs, ← hm2, put_of_ne _ hpg.symm, put_self, ptr_setBlack]
  have hp3 : m3.node p = some (cellOf d any (ptr n) g) := by
    rw [hout3 p hps, ← hm2, put_self]
  have hup3 : Spine m3 g up := hup.congr (fun y hy => hsame3 y (hrest y (by simp [hy])))
    (by rw [hroot3, ← hm2]; rfl)
  obtain ⟨m', h', hat, hout⟩ := rotateSetParents_spec .red hg3 hp3
    (hn.congr fun y hy => hsame3 y (hrest y (by simp [hy]))) hs3
    (hu.congr fun y hy => hsame3 y (hrest y (by simp [hy]))) hup3
    (hsound.of_count fun a => by
      simp only [List.count_append, List.count_cons, toList_setBlack]
      omega)
  refine ⟨m', ?_, hat, fun y hy => ?_⟩
  · simp only [Mem.insertCase3, setChild_near hg, Option.bind_eq_bind, Option.bind_some,
      setChild_far hp1, hm2, h3, h']
  · simp only [List.mem_cons, List.mem_append, not_or] at hy
    obtain ⟨hyp, hyg, hys, hyu⟩ := hy
    rw [hout y (by simp [hyp, hyg, hyu]), hsame3 y ⟨hyp, hyg, hys⟩]

/-- An address of a node is not that of another tree. -/
theorem ne_ptr {t : RbNode Addr} (hx : x ≠ 0) (ht : x ∉ t.toList) : x ≠ ptr t := by
  rintro rfl
  by_cases hnil : t = .nil
  · rw [hnil] at hx
    exact hx rfl
  · exact ht (ptr_mem hnil)

/-- An outer node: Case 3 alone. -/
theorem insertRotate_outer
    (h : At m (Frame.fill ⟨d, c, g, u⟩ (Frame.fill ⟨d, .red, p, s⟩ n)) up) (hn : n ≠ .nil) :
    ∃ m', m.insertRotate d (ptr n) p g = some m' ∧
      At m' (Frame.fill ⟨d, c, p, Frame.fill ⟨d, .red, g, u⟩ s.setBlack⟩ n) up ∧
      Outside (p :: g :: (s.toList ++ beside up)) m m' := by
  obtain ⟨ht, hup, hsound⟩ := h
  obtain ⟨hg, ht, hu⟩ := holds_fill.mp ht
  obtain ⟨hp, hnode, hs⟩ := holds_fill.mp ht
  rw [ptr_fill] at hup
  have hsound' : Sound (p :: g :: (s.toList ++ (n.toList ++ u.toList ++ beside up))) := by
    refine hsound.of_count fun a => ?_
    simp only [List.count_append, List.count_cons, count_fill]
    omega
  have hmem := ptr_mem hn
  have hne : ptr n ≠ ptr s := ne_ptr (hsound'.2 _ (by simp [hmem])).1
    ((apart hsound'.1).2.2.2.2 _ (by simp [hmem])).2.2
  obtain ⟨m', h', hat, hout⟩ := insertCase3_spec hg hp hnode hs hu hup hsound'
  refine ⟨m', ?_, hat, hout⟩
  simp only [Mem.insertRotate, hp, Option.bind_eq_bind, Option.bind_some, child_flip_cellOf,
    if_neg hne, h']

/-- An inner node: Case 2, and Case 3 with the node as the parent. -/
theorem insertRotate_inner
    (h : At m (Frame.fill ⟨d, c, g, u⟩ (Frame.fill ⟨d.flip, .red, p, s⟩
      (Frame.fill ⟨d, .red, x, far⟩ near))) up) :
    ∃ m', m.insertRotate d x p g = some m' ∧
      At m' (Frame.fill ⟨d, c, x, Frame.fill ⟨d, .red, g, u⟩ far.setBlack⟩
        (Frame.fill ⟨d.flip, .red, p, s⟩ near.setBlack)) up ∧
      Outside (x :: p :: g :: (near.toList ++ far.toList ++ beside up)) m m' := by
  obtain ⟨ht, hup, hsound⟩ := h
  obtain ⟨hg, ht, hu⟩ := holds_fill.mp ht
  obtain ⟨hp, ht, hs⟩ := holds_fill.mp ht
  obtain ⟨hx, hnear, hfar⟩ := holds_fill.mp ht
  dsimp only at hg hp hs hu hx hnear hfar
  rw [ptr_fill] at hup hg
  rw [ptr_fill, cellOf_flip] at hp
  have hsound' : Sound (x :: p :: (near.toList ++
      (g :: (far.toList ++ s.toList ++ u.toList ++ beside up)))) := by
    refine hsound.of_count fun a => ?_
    simp only [List.count_append, List.count_cons, count_fill]
    omega
  obtain ⟨hxp, hxn, hpn, hinN, hrest⟩ := apart hsound'.1
  have hx1 := (put_of_ne m hxp (cellOf d (word g .red) (ptr s) (ptr near))).trans hx
  generalize hm2 : (m.put p (cellOf d (word g .red) (ptr s) (ptr near))).put x
    (cellOf d (word p .red) p (ptr far)) = m2
  have hsame2 : ∀ y, y ≠ x ∧ y ≠ p → m2.node y = m.node y := by
    rintro y ⟨hyx, hyp⟩
    rw [← hm2, put_of_ne _ hyx, put_of_ne _ hyp]
  obtain ⟨m3, h3, hnear3, hout3, hroot3⟩ := adopt_spec
    (hnear.congr fun y hy => hsame2 y (hinN y hy))
    (hsound'.sublist (List.Sublist.cons x (List.Sublist.cons p (List.sublist_append_left _ _)))) p
  have hp3 : m3.node p = some (cellOf d (word g .red) (ptr s) (ptr near)) := by
    rw [hout3 p hpn, ← hm2, put_of_ne _ hxp.symm, put_self]
  generalize hm4 : m3.put p (cellOf d (word x .red) (ptr s) (ptr near)) = m4
  have hsame4 : ∀ y, y ≠ x ∧ y ≠ p ∧ y ∉ near.toList → m4.node y = m.node y := by
    rintro y ⟨hyx, hyp, hyn⟩
    rw [← hm4, put_of_ne _ hyp, hout3 y hyn, hsame2 y ⟨hyx, hyp⟩]
  have hx4 : m4.node x = some (cellOf d (word p .red) p (ptr far)) := by
    rw [← hm4, put_of_ne _ hxp, hout3 x hxn, ← hm2, put_self]
  have hinner : Holds m4.node x (Frame.fill ⟨d.flip, .red, p, s⟩ near.setBlack) := by
    refine holds_fill.mpr ⟨?_, hnear3.congr fun y hy => ?_, hs.congr fun y hy => ?_⟩
    · rw [← hm4, put_self, cellOf_flip, ptr_setBlack]
    · rw [toList_setBlack] at hy
      rw [← hm4, put_of_ne _ (hinN y hy).2]
    · exact hsame4 y (hrest y (by simp [hy]))
  have hg4 : m4.node g = some (cellOf d (word (top up) c) p (ptr u)) :=
    (hsame4 g (hrest g (by simp))).trans hg
  have hup4 : Spine m4 g up := hup.congr (fun y hy => hsame4 y (hrest y (by simp [hy])))
    (by rw [← hm4, root_put, hroot3, ← hm2]; rfl)
  obtain ⟨m', h', hat, hout⟩ := insertCase3_spec hg4 (by rw [ptr_fill]; exact hx4) hinner
    (hfar.congr fun y hy => hsame4 y (hrest y (by simp [hy])))
    (hu.congr fun y hy => hsame4 y (hrest y (by simp [hy]))) hup4
    (hsound'.of_count fun a => by
      simp only [List.count_append, List.count_cons, count_fill, toList_setBlack]
      omega)
  refine ⟨m', ?_, hat, fun y hy => ?_⟩
  · simp only [Mem.insertRotate, hp, hx, Option.bind_eq_bind, Option.bind_some, child_flip_cellOf,
      child_cellOf, if_true, setChild_far hp, setChild_near hx1, hm2, h3, Mem.rbSetParentColor,
      setPc_cellOf hp3, hm4, hx4, h']
  · simp only [List.mem_cons, List.mem_append, not_or] at hy
    obtain ⟨hyx, hyp, hyg, ⟨hyn, hyf⟩, hyu⟩ := hy
    rw [hout y (by simp [hyx, hyg, hyf, hyu]), hsame4 y ⟨hyx, hyp, hyn⟩]

/-- **Cases 2 and 3.** -/
theorem insertRotate_spec {d' : Dir} {l r : RbNode Addr}
    (h : At m (Frame.fill ⟨d', c, g, u⟩ (Frame.fill ⟨d, .red, p, s⟩ (.node .red l x r))) up) :
    ∃ m', m.insertRotate d' x p g = some m' ∧
      At m' (RbTree.insertRotate d' d l x r p s c g u) up ∧
      Outside (x :: p :: g :: (l.toList ++ r.toList ++ s.toList ++ beside up)) m m' := by
  have houter : d = d' → ∃ m', m.insertRotate d' x p g = some m' ∧
      At m' (RbTree.insertRotate d' d l x r p s c g u) up ∧
      Outside (x :: p :: g :: (l.toList ++ r.toList ++ s.toList ++ beside up)) m m' := by
    rintro rfl
    obtain ⟨m', h', hat, hout⟩ := insertRotate_outer h (by simp)
    refine ⟨m', h', ?_, fun y hy => hout y fun hm => hy ?_⟩
    · cases d <;> exact hat
    · simp only [List.mem_cons, List.mem_append] at hm ⊢
      tauto
  have hinner : ∀ {near far : RbNode Addr} {m' : Mem}, (near = l ∧ far = r ∨ near = r ∧ far = l) →
      Outside (x :: p :: g :: (near.toList ++ far.toList ++ beside up)) m m' →
      Outside (x :: p :: g :: (l.toList ++ r.toList ++ s.toList ++ beside up)) m m' := by
    rintro near far m' hor hout y hy
    refine hout y fun hm => hy ?_
    simp only [List.mem_cons, List.mem_append] at hm ⊢
    rcases hor with ⟨rfl, rfl⟩ | ⟨rfl, rfl⟩ <;> tauto
  cases d' <;> cases d
  · exact houter rfl
  · obtain ⟨m', h', hat, hout⟩ := insertRotate_inner (d := .left) h
    exact ⟨m', h', hat, hinner (Or.inl ⟨rfl, rfl⟩) hout⟩
  · obtain ⟨m', h', hat, hout⟩ := insertRotate_inner (d := .right) h
    exact ⟨m', h', hat, hinner (Or.inr ⟨rfl, rfl⟩) hout⟩
  · exact houter rfl

end Rotations

/-! ### The whole loop -/

section Loop
variable {m : Mem} {d : Dir} {c : Color} {x : Addr} {s t u : RbNode Addr} {up : List (Frame Addr)}

/-- **A node gets another colour.** -/
theorem recolor_spec (h : At m (Frame.fill ⟨d, c, x, s⟩ t) up) (c' : Color) :
    ∃ m', m.rbSetParentColor x (top up) c' = some m' ∧ At m' (Frame.fill ⟨d, c', x, s⟩ t) up ∧
      Outside [x] m m' := by
  obtain ⟨ht, hup, hsound⟩ := h
  obtain ⟨hx, ht, hs⟩ := holds_fill.mp ht
  rw [ptr_fill] at hup
  have hsound' : Sound (x :: (t.toList ++ s.toList ++ beside up)) := by
    refine hsound.of_count fun a => ?_
    simp only [List.count_append, List.count_cons, count_fill]
    omega
  have hne : ∀ y ∈ t.toList ++ s.toList ++ beside up, y ≠ x :=
    fun y hy => ne_of_mem_of_not_mem hy (List.nodup_cons.mp hsound'.1).1
  refine ⟨_, setPc_cellOf hx _, ⟨holds_fill.mpr ⟨put_self _ _ _, ?_, ?_⟩, ?_, ?_⟩,
    outside_put _ _ _⟩
  · exact ht.congr fun y hy => put_of_ne _ (hne y (by simp [hy])) _
  · exact hs.congr fun y hy => put_of_ne _ (hne y (by simp [hy])) _
  · rw [ptr_fill]
    exact hup.congr (fun y hy => put_of_ne _ (hne y (by simp [hy])) _) rfl
  · refine hsound'.of_count fun a => ?_
    simp only [List.count_append, List.count_cons, count_fill]
    omega

/-- The colour of the top node is read. -/
theorem isRed_spec {q : Addr} (h : Holds m.node q t) (hs : ∀ y ∈ t.toList, Aligned y)
    (hq : q &&& 3#64 = 0#64) : m.isRed (ptr t) = some t.isRed := by
  rcases t with _ | ⟨c, l, y, r⟩
  · rfl
  · rw [ptr, Mem.isRed, if_neg (hs y (by simp)).1, h.1, Option.map_some, isBlack_word hq]
    cases c <;> rfl

/-- The direction in which a path goes through a node is read from its right child. -/
theorem dir_of_right {w : BitVec 64} (hx : x ≠ 0) (hu : x ∉ u.toList) :
    (if x = (cellOf d w x (ptr u)).right then Dir.right else Dir.left) = d := by
  cases d with
  | left => exact if_neg (ne_ptr hx hu)
  | right => exact if_pos rfl

/-- The node at the other end of a path is black. -/
def BlackRoot (up : List (Frame Addr)) : Prop := ∀ f ∈ up.getLast?, f.color = .black

theorem BlackRoot.of_hole : ∀ {up : List (Frame Addr)} {c : Color} {n : ℕ}, Hole up c n →
    BlackRoot up
  | [], _, _, _ => by simp [BlackRoot]
  | [⟨_, .red, _, _⟩], _, _, h => by cases h.2.2
  | [⟨_, .black, _, _⟩], _, _, _ => by simp [BlackRoot]
  | ⟨_, .red, _, _⟩ :: f :: up, _, _, h => by
    have ih : BlackRoot (f :: up) := of_hole h.2.2
    exact ih
  | ⟨_, .black, _, _⟩ :: f :: up, _, _, h => by
    have ih : BlackRoot (f :: up) := of_hole h.2
    exact ih

/-- One round of the loop below a red parent, with the grandparent looked up. -/
theorem rbInsert_red {d' : Dir} {p g : Addr} {n : ℕ} {t : RbNode Addr}
    (h : At m t (⟨d, .red, p, s⟩ :: ⟨d', c, g, u⟩ :: up)) :
    m.rbInsert (n + 1) x p = if u.isRed then do
        let m ← m.rbSetParentColor (ptr u) g .black
        let m ← m.rbSetParentColor p g .black
        let g' ← m.node g
        let m ← m.rbSetParentColor g (parentOf g'.pc) .red
        m.rbInsert n g (parentOf g'.pc)
      else m.insertRotate d' x p g := by
  have hp : m.node p = some (cellOf d (word g .red) (ptr t) (ptr s)) := h.path.1
  have hg : m.node g = some (cellOf d' (word (top up) c) p (ptr u)) := h.path.2.2.1
  have hu : Holds m.node g u := h.path.2.2.2.1
  have hsound : Sound (p :: g :: (u.toList ++ (t.toList ++ s.toList ++ beside up))) := by
    refine h.sound.of_count fun a => ?_
    simp only [beside, List.count_append, List.count_cons]
    omega
  obtain ⟨hp0, -⟩ := hsound.2 p (by simp)
  have hg3 := (hsound.2 g (by simp)).2
  have hred := isRed_spec hu (fun y hy => hsound.2 y (by simp [hy])) hg3
  have hdir := dir_of_right (d := d') (w := word (top up) c) hp0 (apart hsound.1).2.1
  have hblack : isBlack g = false := by
    rw [← word_red g, isBlack_word hg3]
    rfl
  simp only [Mem.rbInsert, if_neg hp0, hp, Option.bind_eq_bind, Option.bind_some, pc_cellOf, hblack,
    word_red, hg, hdir, child_flip_cellOf, hred, Bool.false_eq_true, if_false]

/-- **Case 1**: a red uncle. The colours flip, and the loop goes on at the grandparent. -/
theorem insertFlip_spec {d' : Dir} {p g ux : Addr} {ul ur : RbNode Addr}
    (h : At m t (⟨d, .red, p, s⟩ :: ⟨d', c, g, .node .red ul ux ur⟩ :: up)) (n : ℕ) :
    ∃ m', m.rbInsert (n + 1) x p = m'.rbInsert n g (top up) ∧
      At m' (Frame.fill ⟨d', .red, g, .node .black ul ux ur⟩ (Frame.fill ⟨d, .black, p, s⟩ t)) up ∧
      Outside [ux, p, g] m m' := by
  have hat := at_fill.mpr (at_fill.mpr h)
  rw [← fill_flip, at_fill] at hat
  obtain ⟨m1, h1, hat1, hout1⟩ := recolor_spec (d := .left) (x := ux) (s := ur) (t := ul) hat .black
  rw [← at_fill, fill_flip, at_fill] at hat1
  obtain ⟨m2, h2, hat2, hout2⟩ := recolor_spec hat1 .black
  rw [← at_fill] at hat2
  obtain ⟨m3, h3, hat3, hout3⟩ := recolor_spec hat2 .red
  have hg2 := (holds_fill.mp hat2.tree).1
  have htop : parentOf (word (top up) c) = top up :=
    parentOf_word (top_aligned fun y hy => hat2.sound.2 y (by simp [hy])) c
  dsimp only [top] at h1 h2
  dsimp only at hg2
  have hout : Outside [ux, p, g] m m2 := hout1.trans hout2 (by simp) (by simp)
  refine ⟨m3, ?_, hat3, hout.trans hout3 (by simp) (by simp)⟩
  rw [rbInsert_red h, if_pos (show (RbNode.node .red ul ux ur).isRed = true from rfl)]
  simp only [ptr, h1, h2, hg2, pc_cellOf, htop, h3, Option.bind_eq_bind, Option.bind_some]

theorem BlackRoot.tail {f : Frame Addr} (h : BlackRoot (f :: up)) : BlackRoot up := by
  cases up with
  | nil => simp [BlackRoot]
  | cons f' up => exact h

/-- **The repair loop of an insertion in memory.** -/
theorem rbInsert_spec (l : RbNode Addr) (x : Addr) (r : RbNode Addr) (up : List (Frame Addr)) :
    ∀ {m : Mem} {n : ℕ}, At m (.node .red l x r) up → BlackRoot up → up.length < n →
      ∃ m', m.rbInsert n x (top up) = some m' ∧ At m' (insertColor l x r up) [] ∧
        Outside ((RbNode.node .red l x r).toList ++ beside up) m m' := by
  induction l, x, r, up using insertColor.induct with
  | case1 l x r =>
    intro m n h _ hn
    obtain ⟨n, rfl⟩ := Nat.exists_eq_succ_of_ne_zero (Nat.ne_zero_of_lt hn)
    obtain ⟨m', h', hat, hout⟩ := recolor_spec (d := .left) (x := x) (s := r) (t := l) h .black
    refine ⟨m', (if_pos rfl).trans h', hat, fun y hy => hout y fun hm => hy ?_⟩
    simp only [List.mem_singleton] at hm
    simp [hm]
  | case2 l x r d p s up =>
    intro m n h _ hn
    obtain ⟨n, rfl⟩ := Nat.exists_eq_succ_of_ne_zero (Nat.ne_zero_of_lt hn)
    have hp : m.node p = some (cellOf d (word (top up) .black) x (ptr s)) := h.path.1
    have hp0 := (h.sound.2 p (by simp [beside])).1
    have hblack : isBlack (word (top up) .black) = true := isBlack_word
      (top_aligned fun y hy => h.sound.2 y (by simp [beside, hy])) .black
    refine ⟨m, ?_, ?_, fun y _ => rfl⟩
    · rw [top, Mem.rbInsert, if_neg hp0]
      simp only [hp, Option.bind_eq_bind, Option.bind_some, pc_cellOf, hblack, if_true]
    · rw [insertColor]
      exact at_plug.mpr h
  | case3 l x r d p s =>
    intro m n _ hroot _
    cases hroot ⟨d, .red, p, s⟩ rfl
  | case4 l x r d p s c g u up hu ih =>
    intro m n h hroot hn
    obtain ⟨n, rfl⟩ := Nat.exists_eq_succ_of_ne_zero (Nat.ne_zero_of_lt hn)
    obtain ⟨ul, ux, ur, rfl⟩ := isRed_iff.mp hu
    obtain ⟨m1, h1, hat1, hout1⟩ := insertFlip_spec h n
    obtain ⟨m', h', hat', hout'⟩ := ih hat1 hroot.tail.tail
      (show up.length < n by simp only [List.length_cons] at hn; omega)
    refine ⟨m', h1.trans h', ?_, hout1.trans hout' (by simp [beside]) fun y hy => ?_⟩
    · rw [insertColor, if_pos hu]
      exact hat'
    · simp only [beside, toList_node, toList_setBlack, List.mem_cons, List.mem_append,
        mem_fill] at hy ⊢
      tauto
  | case5 l x r d p s c g u up hu ih =>
    intro m n h hroot hn
    obtain ⟨n, rfl⟩ := Nat.exists_eq_succ_of_ne_zero (Nat.ne_zero_of_lt hn)
    obtain ⟨ul, ux, ur, rfl⟩ := isRed_iff.mp hu
    obtain ⟨m1, h1, hat1, hout1⟩ := insertFlip_spec h n
    obtain ⟨m', h', hat', hout'⟩ := ih hat1 hroot.tail.tail
      (show up.length < n by simp only [List.length_cons] at hn; omega)
    refine ⟨m', h1.trans h', ?_, hout1.trans hout' (by simp [beside]) fun y hy => ?_⟩
    · rw [insertColor, if_pos hu]
      exact hat'
    · simp only [beside, toList_node, toList_setBlack, List.mem_cons, List.mem_append,
        mem_fill] at hy ⊢
      tauto
  | case6 l x r d p s d' c g u up hu =>
    intro m n h hroot hn
    obtain ⟨n, rfl⟩ := Nat.exists_eq_succ_of_ne_zero (Nat.ne_zero_of_lt hn)
    obtain ⟨m', h', hat, hout⟩ := insertRotate_spec (at_fill.mpr (at_fill.mpr h))
    refine ⟨m', ?_, ?_, fun y hy => hout y fun hm => hy ?_⟩
    · rw [top, rbInsert_red h, if_neg hu]
      exact h'
    · have heq : insertColor l x r (⟨d, .red, p, s⟩ :: ⟨d', c, g, u⟩ :: up) =
          plug (RbTree.insertRotate d' d l x r p s c g u) up := by
        cases d' <;> rw [insertColor, if_neg hu]
      rw [heq]
      exact at_plug.mpr hat
    · simp only [beside, toList_node, List.mem_cons, List.mem_append] at hm ⊢
      tauto

end Loop

/-! ### A new node -/

/-- The child of the last node of a path that the path ends at. -/
def side : List (Frame Addr) → Dir
  | [] => .left
  | f :: _ => f.dir

section New
variable {m : Mem} {x : Addr} {up : List (Frame Addr)}

/-- **A new node is linked at the end of a path.** -/
theorem rbLinkNode_spec (h : At m .nil up) (hx : Aligned x) (hnew : x ∉ beside up)
    {fresh : Cell} (hc : m.node x = some fresh) :
    ∃ m', m.rbLinkNode x (top up) (side up) = some m' ∧ At m' (.node .red .nil x .nil) up ∧
      Outside (x :: beside up) m m' := by
  obtain ⟨-, hup, hsound⟩ := h
  have hsound' : Sound ((RbNode.node .red .nil x .nil).toList ++ beside up) := by
    refine ⟨List.nodup_cons.mpr ⟨hnew, hsound.1⟩, fun y hy => ?_⟩
    rcases List.mem_cons.mp hy with rfl | hy
    · exact hx
    · exact hsound.2 y hy
  cases up with
  | nil =>
    have hlink : m.rbLinkNode x 0 .left = some { m.put x ⟨0, 0, 0⟩ with root := x } := by
      rw [Mem.rbLinkNode, hc, Option.bind_some, if_pos rfl]
    refine ⟨_, hlink, ⟨⟨?_, trivial, trivial⟩, rfl, hsound'⟩, fun y hy => ?_⟩
    · rw [word_red]
      exact put_self _ _ _
    · exact put_of_ne m (by simpa [beside] using hy) _
  | cons f up =>
    have hfx : f.data ≠ x := ne_of_mem_of_not_mem List.mem_cons_self hnew
    have hf := (put_of_ne m hfx ⟨f.data, 0, 0⟩).trans hup.1
    have hsib : ∀ y ∈ f.sibling.toList ++ beside up, y ≠ f.data ∧ y ≠ x := fun y hy =>
      ⟨ne_of_mem_of_not_mem hy (List.nodup_cons.mp hsound.1).1,
        ne_of_mem_of_not_mem (List.mem_cons_of_mem _ hy) hnew⟩
    have hsame : ∀ y, y ≠ f.data ∧ y ≠ x → (((m.put x ⟨f.data, 0, 0⟩).put f.data
        (cellOf f.dir (word (top up) f.color) x (ptr f.sibling))).node y) = m.node y := by
      rintro y ⟨hyf, hyx⟩
      rw [put_of_ne _ hyf, put_of_ne _ hyx]
    have hlink : m.rbLinkNode x f.data f.dir = some ((m.put x ⟨f.data, 0, 0⟩).put f.data
        (cellOf f.dir (word (top up) f.color) x (ptr f.sibling))) := by
      rw [Mem.rbLinkNode, hc, Option.bind_some, if_neg (hsound.2 f.data List.mem_cons_self).1]
      exact setChild_near hf x
    refine ⟨_, hlink, ⟨⟨?_, trivial, trivial⟩, ⟨put_self _ _ _, ?_, ?_⟩, hsound'⟩, fun y hy => ?_⟩
    · rw [put_of_ne _ hfx.symm, put_self, top, word_red]
      rfl
    · exact hup.2.1.congr fun y hy => hsame y (hsib y (by simp [hy]))
    · exact hup.2.2.congr (fun y hy => hsame y (hsib y (by simp [hy]))) rfl
    · simp only [beside, List.mem_cons, not_or] at hy
      exact hsame y ⟨hy.2.1, hy.1⟩

/-- **Insertion**: a node is linked at the end of a path, and the tree is repaired. -/
theorem insert_spec {n : ℕ} (h : At m .nil up) (hx : Aligned x) (hnew : x ∉ beside up)
    {fresh : Cell} (hc : m.node x = some fresh) (hroot : BlackRoot up) (hn : up.length < n) :
    ∃ m₁ m₂, m.rbLinkNode x (top up) (side up) = some m₁ ∧ m₁.rbInsertColor n x = some m₂ ∧
      At m₂ (insertColor .nil x .nil up) [] ∧ Outside (x :: beside up) m m₂ := by
  obtain ⟨m₁, h₁, hat, hout⟩ := rbLinkNode_spec h hx hnew hc
  obtain ⟨m₂, h₂, hat', hout'⟩ := rbInsert_spec .nil x .nil up hat hroot hn
  refine ⟨m₁, m₂, h₁, ?_, hat', hout.trans hout' (List.Subset.refl _) (List.Subset.refl _)⟩
  rw [Mem.rbInsertColor, hat.tree.1, Option.bind_some, word_red]
  exact h₂

end New

/-! ### The search -/

def Place.of : Spot Addr → Place
  | .leaf up => .leaf (top up) (side up)
  | .hit _ _ x _ _ => .hit x

section Search
variable {m : Mem} {lt gt : Addr → Option Bool} {lt' gt' : Addr → Bool}

/-- **The search in memory.** -/
theorem search_spec : ∀ {t : RbNode Addr} {up : List (Frame Addr)} {n : ℕ}, At m t up →
    (∀ x ∈ t.toList, lt x = some (lt' x) ∧ gt x = some (gt' x)) → t.toList.length < n →
    m.search lt gt n (top up) (side up) (ptr t) = some (Place.of (descend lt' gt' t up))
  | .nil, up, n + 1, _, _, _ => rfl
  | .node c l x r, up, n + 1, h, htest, hn => by
    have hx0 : x ≠ 0 := (h.sound.2 x (by simp)).1
    obtain ⟨hlt, hgt⟩ := htest x (by simp)
    simp only [toList_node, List.length_append, List.length_cons] at hn
    rw [ptr_node, Mem.search, if_neg hx0, h.tree.1]
    simp only [Option.bind_eq_bind, Option.bind_some, hlt, hgt]
    rw [descend]
    split_ifs
    · have hat : At m l (⟨.left, c, x, r⟩ :: up) := at_fill.mp h
      exact search_spec hat (fun y hy => htest y (by simp [hy])) (by omega)
    · have hat : At m r (⟨.right, c, x, l⟩ :: up) := at_fill.mp h
      exact search_spec hat (fun y hy => htest y (by simp [hy])) (by omega)
    · rfl

variable (lt' gt') in
/-- The search does not change what the memory has. -/
theorem at_descend : ∀ (t : RbNode Addr) (up : List (Frame Addr)), At m t up →
    match descend lt' gt' t up with
    | .leaf up' => At m .nil up' ∧ (beside up').Perm (t.toList ++ beside up)
    | .hit c l x r up' => At m (.node c l x r) up' ∧
        ((RbNode.node c l x r).toList ++ beside up').Perm (t.toList ++ beside up)
  | .nil, up, h => ⟨h, List.Perm.refl _⟩
  | .node c l x r, up, h => by
    rw [descend]
    split_ifs
    · have hat : At m l (⟨.left, c, x, r⟩ :: up) := at_fill.mp h
      have hperm : (l.toList ++ beside (⟨.left, c, x, r⟩ :: up)).Perm
          ((RbNode.node c l x r).toList ++ beside up) := (perm_beside ⟨.left, c, x, r⟩).symm
      have ih := at_descend l _ hat
      generalize descend lt' gt' l (⟨.left, c, x, r⟩ :: up) = s at ih ⊢
      cases s with
      | leaf up' => exact ⟨ih.1, ih.2.trans hperm⟩
      | hit c' l' y r' up' => exact ⟨ih.1, ih.2.trans hperm⟩
    · have hat : At m r (⟨.right, c, x, l⟩ :: up) := at_fill.mp h
      have hperm : (r.toList ++ beside (⟨.right, c, x, l⟩ :: up)).Perm
          ((RbNode.node c l x r).toList ++ beside up) := (perm_beside ⟨.right, c, x, l⟩).symm
      have ih := at_descend r _ hat
      generalize descend lt' gt' r (⟨.right, c, x, l⟩ :: up) = s at ih ⊢
      cases s with
      | leaf up' => exact ⟨ih.1, ih.2.trans hperm⟩
      | hit c' l' y r' up' => exact ⟨ih.1, ih.2.trans hperm⟩
    · exact ⟨h, List.Perm.refl _⟩

theorem length_le_beside : ∀ up : List (Frame Addr), up.length ≤ (beside up).length
  | [] => le_rfl
  | f :: up => by
    have ih := length_le_beside up
    simp only [beside, List.length_cons, List.length_append]
    omega

end Search

end DynBandwidth.Lib.RbHeap
