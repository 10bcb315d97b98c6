import DynBandwidth.Lib.RbBalance

/-! # Trees of other data

`t.map f` is the tree with the data of `t` under `f`. The repair loops, the search and the removal
of the leftmost node look at colours and at the tests of the search only, so they commute with
`map`. -/

namespace DynBandwidth.Lib.RbTree

variable {α β : Type} (f : α → β)

def RbNode.map : RbNode α → RbNode β
  | .nil => .nil
  | .node c l x r => .node c l.map (f x) r.map

def Frame.map (g : Frame α) : Frame β := ⟨g.dir, g.color, f g.data, g.sibling.map f⟩

@[simp] theorem map_nil : (RbNode.nil : RbNode α).map f = .nil := rfl

@[simp] theorem map_node (c : Color) (l : RbNode α) (x : α) (r : RbNode α) :
    (RbNode.node c l x r).map f = .node c (l.map f) (f x) (r.map f) := rfl

@[simp] theorem toList_map : ∀ t : RbNode α, (t.map f).toList = t.toList.map f
  | .nil => rfl
  | .node c l x r => by simp [toList_map l, toList_map r]

@[simp] theorem isRed_map (t : RbNode α) : (t.map f).isRed = t.isRed := by
  rcases t with _ | ⟨_ | _, l, x, r⟩ <;> rfl

theorem setBlack_map (t : RbNode α) : t.setBlack.map f = (t.map f).setBlack := by
  cases t <;> rfl

theorem fill_map (g : Frame α) (t : RbNode α) : (g.fill t).map f = (g.map f).fill (t.map f) := by
  rcases g with ⟨_ | _, c, x, s⟩ <;> rfl

theorem plug_map : ∀ (up : List (Frame α)) (t : RbNode α),
    (plug t up).map f = plug (t.map f) (up.map (Frame.map f))
  | [], _ => rfl
  | g :: up, t => by rw [plug, plug_map up, fill_map, List.map_cons, plug]

theorem first_map : ∀ t : RbNode α, (t.map f).first = t.first.map f := by
  intro t
  rw [first_eq_head?, first_eq_head?, toList_map, List.head?_map]

/-- The data of the nodes matter only. -/
theorem map_congr {f g : α → β} : ∀ {t : RbNode α}, (∀ x ∈ t.toList, f x = g x) → t.map f = t.map g
  | .nil, _ => rfl
  | .node c l x r, h => by
    rw [map_node, map_node, map_congr fun y hy => h y (by simp [hy]),
      map_congr fun y hy => h y (by simp [hy]), h x (by simp)]

/-! ### Insertion -/

theorem insertRotate_map (d' d : Dir) (l : RbNode α) (x : α) (r : RbNode α) (p : α)
    (s : RbNode α) (c : Color) (g : α) (u : RbNode α) :
    (insertRotate d' d l x r p s c g u).map f =
      insertRotate d' d (l.map f) (f x) (r.map f) (f p) (s.map f) c (f g) (u.map f) := by
  cases d' <;> cases d <;> simp [insertRotate, setBlack_map]

theorem insertColor_map (l : RbNode α) (x : α) (r : RbNode α) (up : List (Frame α)) :
    (insertColor l x r up).map f =
      insertColor (l.map f) (f x) (r.map f) (up.map (Frame.map f)) := by
  induction l, x, r, up using insertColor.induct with
  | case1 l x r => rfl
  | case2 l x r d p s up =>
    rw [insertColor, plug_map]
    rfl
  | case3 l x r d p s =>
    rw [insertColor, plug_map]
    rfl
  | case4 l x r d p s c g u up hu ih =>
    have hu' : (u.map f).isRed = true := by rw [isRed_map, hu]
    rw [insertColor, if_pos hu, ih, fill_map, setBlack_map]
    simp [Frame.map, insertColor, hu']
  | case5 l x r d p s c g u up hu ih =>
    have hu' : (u.map f).isRed = true := by rw [isRed_map, hu]
    rw [insertColor, if_pos hu, ih, fill_map, setBlack_map]
    simp [Frame.map, insertColor, hu']
  | case6 l x r d p s d' c g u up hu =>
    have hu' : ¬ (u.map f).isRed = true := by rwa [isRed_map]
    have hl : insertColor l x r (⟨d, .red, p, s⟩ :: ⟨d', c, g, u⟩ :: up) =
        plug (insertRotate d' d l x r p s c g u) up := by
      cases d' <;> rw [insertColor, if_neg hu]
    rw [hl, plug_map, insertRotate_map]
    cases d' <;> simp [Frame.map, insertColor, hu']

/-- Where a search ends, under a map. -/
def Spot.map : Spot α → Spot β
  | .leaf up => .leaf (up.map (Frame.map f))
  | .hit c l x r up => .hit c (l.map f) (f x) (r.map f) (up.map (Frame.map f))

theorem descend_map (lt gt : β → Bool) : ∀ (t : RbNode α) (up : List (Frame α)),
    descend lt gt (t.map f) (up.map (Frame.map f)) =
      (descend (fun x => lt (f x)) (fun x => gt (f x)) t up).map f
  | .nil, up => rfl
  | .node c l x r, up => by
    rw [map_node, descend, descend]
    split_ifs
    · exact descend_map lt gt l (⟨.left, c, x, r⟩ :: up)
    · exact descend_map lt gt r (⟨.right, c, x, l⟩ :: up)
    · rfl

/-! ### Removal of the leftmost node -/

theorem eraseCases_map (n : RbNode α) (d : Dir) (c : Color) (p : α) (s : RbNode α) :
    eraseCases (n.map f) d c (f p) (s.map f) =
      ((eraseCases n d c p s).1.map f, (eraseCases n d c p s).2) := by
  rcases s with _ | ⟨c', _ | ⟨_ | _, l, y, r⟩, x, _ | ⟨_ | _, l', y', r'⟩⟩ <;> cases d <;>
    simp [eraseCases, Frame.fill, setBlack_map]

theorem eraseColor_black {s : RbNode α} (h : ¬ s.isRed = true) (n : RbNode α) (d : Dir) (c : Color)
    (p : α) (up : List (Frame α)) : eraseColor n (⟨d, c, p, s⟩ :: up) =
      if (eraseCases n d c p s).2 then eraseColor (eraseCases n d c p s).1 up
      else plug (eraseCases n d c p s).1 up := by
  rw [eraseColor]
  · rintro sl sx sr - rfl
    exact h rfl
  · rintro sl sx sr - rfl
    exact h rfl

theorem eraseColor_map (n : RbNode α) (up : List (Frame α)) :
    (eraseColor n up).map f = eraseColor (n.map f) (up.map (Frame.map f)) := by
  induction n, up using eraseColor.induct with
  | case1 n => rfl
  | case2 n c p sl sx sr up =>
    rw [eraseColor, plug_map, List.map_cons, List.map_cons, Frame.map, Frame.map, map_node,
      eraseColor, ← setBlack_map, eraseCases_map]
  | case3 n c p sl sx sr up =>
    rw [eraseColor, plug_map, List.map_cons, List.map_cons, Frame.map, Frame.map, map_node,
      eraseColor, ← setBlack_map, eraseCases_map]
  | case4 n d c p s up h1 h2 hgo ih =>
    have hs := not_isRed_of_dir h1 h2
    rw [eraseColor_black hs, if_pos hgo, ih, List.map_cons, Frame.map,
      eraseColor_black (by rwa [isRed_map]), eraseCases_map, if_pos hgo]
  | case5 n d c p s up h1 h2 hgo =>
    have hs := not_isRed_of_dir h1 h2
    rw [eraseColor_black hs, if_neg hgo, plug_map, List.map_cons, Frame.map,
      eraseColor_black (by rwa [isRed_map]), eraseCases_map, if_neg hgo]

theorem eraseFirstAt_map (t : RbNode α) (up : List (Frame α)) :
    (eraseFirstAt t up).map f = eraseFirstAt (t.map f) (up.map (Frame.map f)) := by
  induction t, up using eraseFirstAt.induct with
  | case1 up => exact plug_map f up _
  | case2 c x c' l y r up => exact plug_map f up _
  | case3 x up => exact eraseColor_map f .nil up
  | case4 x up => exact plug_map f up _
  | case5 c c' l y r x s up ih => exact ih

theorem eraseFirst_map (t : RbNode α) : t.eraseFirst.map f = (t.map f).eraseFirst :=
  eraseFirstAt_map f t []

end DynBandwidth.Lib.RbTree
