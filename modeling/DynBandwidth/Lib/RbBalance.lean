import DynBandwidth.Lib.RbTree
import Mathlib.Algebra.Ring.Nat

/-! # The balance of red-black trees

`Bal t c n` says that the root of `t` has the colour `c`, that no red node has a red child and that
every path from the root to an empty place has `n` black nodes. `Hole up c n` says that the tree
around a path is one with a tree `Bal _ c n` at its end, and a black root.

The repair loops restore what linking or cutting off a node breaks: `RbNode.upsert` and
`RbNode.eraseFirst` keep `RedBlack` trees (`RedBlack.upsert`, `RedBlack.eraseFirst`). So the cases
of the loops that no red-black tree leads to, a red root and a missing sibling, are never taken. A
red-black tree is at most twice as deep as a full tree (`RedBlack.depth_le`). -/

namespace DynBandwidth.Lib.RbTree

variable {α : Type}

/-- Colour of the root, and number of black nodes on every path. A red node has black children. -/
inductive Bal : RbNode α → Color → ℕ → Prop
  | nil : Bal .nil .black 0
  | red {l r : RbNode α} {x : α} {n : ℕ} : Bal l .black n → Bal r .black n →
      Bal (.node .red l x r) .red n
  | black {l r : RbNode α} {x : α} {c c' : Color} {n : ℕ} : Bal l c n → Bal r c' n →
      Bal (.node .black l x r) .black (n + 1)

/-- A red-black tree. -/
def RedBlack (t : RbNode α) : Prop := ∃ n, Bal t .black n

/-- The tree around the path has a place for a tree of colour `c` with `n` black nodes on its
paths. -/
def Hole : List (Frame α) → Color → ℕ → Prop
  | [], c, _ => c = .black
  | ⟨_, .red, _, s⟩ :: up, c, n => c = .black ∧ Bal s .black n ∧ Hole up .red n
  | ⟨_, .black, _, s⟩ :: up, _, n => (∃ c', Bal s c' n) ∧ Hole up .black (n + 1)

theorem redBlack_nil : RedBlack (.nil : RbNode α) := ⟨0, .nil⟩

/-! ### Paths -/

/-- Where a red tree fits, any tree does. -/
theorem Hole.of_red {n : ℕ} {c : Color} : ∀ {up : List (Frame α)}, Hole up .red n → Hole up c n
  | [], h => by cases h
  | ⟨_, .red, _, _⟩ :: _, ⟨h, _⟩ => by cases h
  | ⟨_, .black, _, _⟩ :: _, h => h

theorem Bal.fill_red {t s : RbNode α} {n : ℕ} (ht : Bal t .black n) (hs : Bal s .black n) (d : Dir)
    (x : α) : Bal (Frame.fill ⟨d, .red, x, s⟩ t) .red n := by
  cases d with
  | left => exact .red ht hs
  | right => exact .red hs ht

theorem Bal.fill_black {t s : RbNode α} {c c' : Color} {n : ℕ} (ht : Bal t c n) (hs : Bal s c' n)
    (d : Dir) (x : α) : Bal (Frame.fill ⟨d, .black, x, s⟩ t) .black (n + 1) := by
  cases d with
  | left => exact .black ht hs
  | right => exact .black hs ht

/-- **Filling a hole.** -/
theorem redBlack_plug : ∀ {up : List (Frame α)} {t : RbNode α} {c : Color} {n : ℕ},
    Bal t c n → Hole up c n → RedBlack (plug t up)
  | [], t, c, n, ht, h => ⟨n, h ▸ ht⟩
  | ⟨d, .red, x, s⟩ :: up, t, c, n, ht, h => by
    obtain ⟨rfl, hs, hup⟩ := h
    rw [plug]
    exact redBlack_plug (ht.fill_red hs d x) hup
  | ⟨d, .black, x, s⟩ :: up, t, c, n, ht, h => by
    obtain ⟨⟨c', hs⟩, hup⟩ := h
    rw [plug]
    exact redBlack_plug (ht.fill_black hs d x) hup

/-- Going down to a child makes a hole. -/
theorem Bal.hole {l r : RbNode α} {x : α} {c : Color} {n : ℕ} {up : List (Frame α)}
    (h : Bal (.node c l x r) c n) (hup : Hole up c n) :
    (∃ c' m, Bal l c' m ∧ Hole (⟨.left, c, x, r⟩ :: up) c' m) ∧
      ∃ c' m, Bal r c' m ∧ Hole (⟨.right, c, x, l⟩ :: up) c' m := by
  cases h with
  | red hl hr => exact ⟨⟨_, _, hl, rfl, hr, hup⟩, ⟨_, _, hr, rfl, hl, hup⟩⟩
  | black hl hr => exact ⟨⟨_, _, hl, ⟨_, hr⟩, hup⟩, ⟨_, _, hr, ⟨_, hl⟩, hup⟩⟩

/-! ### Colours -/

theorem Bal.root_color {l r : RbNode α} {x : α} {c c' : Color} {n : ℕ}
    (h : Bal (.node c l x r) c' n) : c' = c := by
  cases h <;> rfl

/-- A tree without a black node on its paths. -/
theorem Bal.eq_nil {t : RbNode α} (h : Bal t .black 0) : t = .nil := by
  cases h
  rfl

theorem Bal.black_of_not_isRed {t : RbNode α} {c : Color} {n : ℕ} (h : Bal t c n)
    (hred : ¬ t.isRed = true) : Bal t .black n := by
  cases h with
  | nil => exact .nil
  | red _ _ => exact absurd rfl hred
  | black hl hr => exact .black hl hr

theorem Bal.setBlack_eq {t : RbNode α} {n : ℕ} (h : Bal t .black n) : t.setBlack = t := by
  cases h <;> rfl

/-- Colouring a red root black adds a black node to every path. -/
theorem Bal.setBlack_red {t : RbNode α} {c : Color} {n : ℕ} (h : Bal t c n)
    (hred : t.isRed = true) : Bal t.setBlack .black (n + 1) := by
  cases h with
  | nil => cases hred
  | red hl hr => exact .black hl hr
  | black _ _ => cases hred

theorem isRed_iff {t : RbNode α} : t.isRed = true ↔ ∃ l x r, t = .node .red l x r := by
  rcases t with _ | ⟨_ | _, l, x, r⟩ <;> simp [RbNode.isRed]

/-! ### Insertion -/

/-- The rotations of an insertion, below a black grandparent with a black uncle. -/
theorem bal_insertRotate {l r s u : RbNode α} {n : ℕ} (d' d : Dir) (x p g : α)
    (hl : Bal l .black n) (hr : Bal r .black n) (hs : Bal s .black n) (hu : Bal u .black n) :
    Bal (insertRotate d' d l x r p s .black g u) .black (n + 1) := by
  unfold insertRotate
  rw [hl.setBlack_eq, hr.setBlack_eq, hs.setBlack_eq]
  cases d' <;> cases d
  · exact .black (.red hl hr) (.red hs hu)
  · exact .black (.red hs hl) (.red hr hu)
  · exact .black (.red hu hl) (.red hr hs)
  · exact .black (.red hu hs) (.red hl hr)

/-- **The repair after an insertion**: a red node in the place of a black tree. -/
theorem redBlack_insertColor (l : RbNode α) (x : α) (r : RbNode α) (up : List (Frame α)) :
    ∀ {n : ℕ}, Bal l .black n → Bal r .black n → Hole up .black n →
      RedBlack (insertColor l x r up) := by
  induction l, x, r, up using insertColor.induct with
  | case1 l x r =>
    intro n hl hr _
    exact ⟨n + 1, .black hl hr⟩
  | case2 l x r d p s up =>
    intro n hl hr h
    rw [insertColor]
    exact redBlack_plug (.red hl hr) (c := .red) h
  | case3 l x r d p s =>
    intro n _ _ h
    cases h.2.2
  | case4 l x r d p s c g u up hu ih =>
    intro n hl hr h
    obtain ⟨-, hs, hgp⟩ := h
    -- the grandparent is black, since its child is red
    cases c with
    | red => cases hgp.1
    | black =>
      obtain ⟨⟨c', hu'⟩, hup⟩ := hgp
      rw [insertColor, if_pos hu]
      exact ih ((Bal.red hl hr).fill_black hs d p) (hu'.setBlack_red hu) hup
  | case5 l x r d p s c g u up hu ih =>
    intro n hl hr h
    obtain ⟨-, hs, hgp⟩ := h
    cases c with
    | red => cases hgp.1
    | black =>
      obtain ⟨⟨c', hu'⟩, hup⟩ := hgp
      rw [insertColor, if_pos hu]
      exact ih (hu'.setBlack_red hu) ((Bal.red hl hr).fill_black hs d p) hup
  | case6 l x r d p s d' c g u up hu =>
    intro n hl hr h
    obtain ⟨-, hs, hgp⟩ := h
    cases c with
    | red => cases hgp.1
    | black =>
      obtain ⟨⟨c', hu'⟩, hup⟩ := hgp
      have heq : insertColor l x r (⟨d, .red, p, s⟩ :: ⟨d', .black, g, u⟩ :: up) =
          plug (insertRotate d' d l x r p s .black g u) up := by
        cases d' <;> rw [insertColor, if_neg hu]
      rw [heq]
      exact redBlack_plug (bal_insertRotate d' d x p g hl hr hs (hu'.black_of_not_isRed hu)) hup

/-- What the search finds is a hole for an empty tree, or a node in its place. -/
theorem bal_descend (lt gt : α → Bool) : ∀ (t : RbNode α) (up : List (Frame α)) {c : Color} {n : ℕ},
    Bal t c n → Hole up c n →
    match descend lt gt t up with
    | .leaf up' => Hole up' .black 0
    | .hit c' l x r up' => ∃ m, Bal (.node c' l x r) c' m ∧ Hole up' c' m
  | .nil, up, c, n, ht, hup => by
    cases ht
    exact hup
  | .node c0 l x r, up, c, n, ht, hup => by
    obtain rfl := ht.root_color
    obtain ⟨⟨cl, ml, hl, hlup⟩, ⟨cr, mr, hr, hrup⟩⟩ := ht.hole hup
    rw [descend]
    split_ifs
    · exact bal_descend lt gt l _ hl hlup
    · exact bal_descend lt gt r _ hr hrup
    · exact ⟨n, ht, hup⟩

/-- The datum of a node does not matter. -/
theorem Bal.change {l r : RbNode α} {x : α} {c : Color} {n : ℕ} (h : Bal (.node c l x r) c n)
    (y : α) : Bal (.node c l y r) c n := by
  cases h with
  | red hl hr => exact .red hl hr
  | black hl hr => exact .black hl hr

/-- **Search and insertion keep red-black trees.** -/
theorem RedBlack.upsert {t : RbNode α} (h : RedBlack t) (lt gt : α → Bool) (new : α)
    (merge : α → α) : RedBlack (t.upsert lt gt new merge).1 := by
  obtain ⟨n, hn⟩ := h
  have hd := bal_descend lt gt t [] hn rfl
  unfold RbNode.upsert
  split
  · next up heq =>
    rw [heq] at hd
    exact redBlack_insertColor .nil new .nil up .nil .nil hd
  · next c l x r up heq =>
    rw [heq] at hd
    obtain ⟨m, hm, hup⟩ := hd
    exact redBlack_plug (hm.change (merge x)) hup

/-! ### Removal of the leftmost node -/

section Cases
variable {t sl sr : RbNode α} {sx p : α} {c c' : Color}

theorem eraseCases_flip_left (hl : ¬ sl.isRed = true) (hr : ¬ sr.isRed = true) :
    eraseCases t .left c p (.node c' sl sx sr) =
      (.node .black t p (.node .red sl sx sr), decide (c = .black)) := by
  rcases sl with _ | ⟨_ | _, _, _, _⟩ <;> rcases sr with _ | ⟨_ | _, _, _, _⟩ <;>
    simp_all [eraseCases, RbNode.isRed]

theorem eraseCases_flip_right (hl : ¬ sl.isRed = true) (hr : ¬ sr.isRed = true) :
    eraseCases t .right c p (.node c' sl sx sr) =
      (.node .black (.node .red sl sx sr) p t, decide (c = .black)) := by
  rcases sl with _ | ⟨_ | _, _, _, _⟩ <;> rcases sr with _ | ⟨_ | _, _, _, _⟩ <;>
    simp_all [eraseCases, RbNode.isRed]

theorem eraseCases_inner_left {l r : RbNode α} {x : α} (hr : ¬ sr.isRed = true) :
    eraseCases t .left c p (.node c' (.node .red l x r) sx sr) =
      (.node c (.node .black t p l) x (.node .black r.setBlack sx sr), false) := by
  rcases sr with _ | ⟨_ | _, _, _, _⟩ <;> simp_all [eraseCases, RbNode.isRed]

theorem eraseCases_inner_right {l r : RbNode α} {x : α} (hl : ¬ sl.isRed = true) :
    eraseCases t .right c p (.node c' sl sx (.node .red l x r)) =
      (.node c (.node .black sl sx l.setBlack) x (.node .black r p t), false) := by
  rcases sl with _ | ⟨_ | _, _, _, _⟩ <;> simp_all [eraseCases, RbNode.isRed]

end Cases

/-- **Cases 2 to 4**: a tree that is one black node short, beside a black sibling. Cases 3 and 4
end the loop with a node of the parent's colour over two black trees. Case 2 leaves a black tree
that is short if the parent was black. -/
theorem bal_eraseCases {t s : RbNode α} {m : ℕ} (ht : Bal t .black m) (hs : Bal s .black (m + 1))
    (d : Dir) (c : Color) (p : α) :
    (∃ l x r, eraseCases t d c p s = (.node c l x r, false) ∧ Bal l .black (m + 1) ∧
      Bal r .black (m + 1)) ∨
    ∃ t', eraseCases t d c p s = (t', decide (c = .black)) ∧ Bal t' .black (m + 1) := by
  cases hs with
  | @black sl sr sx cl cr _ hl hr =>
    by_cases hrl : sl.isRed = true <;> by_cases hrr : sr.isRed = true
    · obtain ⟨l, x, r, rfl⟩ := isRed_iff.mp hrl
      obtain ⟨l', x', r', rfl⟩ := isRed_iff.mp hrr
      cases hl with | red h1 h2 =>
      cases hr with | red h3 h4 =>
      left
      cases d with
      | left => exact ⟨_, _, _, rfl, .black ht (.red h1 h2), .black h3 h4⟩
      | right => exact ⟨_, _, _, rfl, .black h1 h2, .black (.red h3 h4) ht⟩
    · obtain ⟨l, x, r, rfl⟩ := isRed_iff.mp hrl
      cases hl with | red h1 h2 =>
      left
      cases d with
      | left =>
        refine ⟨_, _, _, eraseCases_inner_left hrr, .black ht h1, ?_⟩
        rw [h2.setBlack_eq]
        exact .black h2 hr
      | right => exact ⟨_, _, _, rfl, .black h1 h2, .black hr ht⟩
    · obtain ⟨l, x, r, rfl⟩ := isRed_iff.mp hrr
      cases hr with | red h1 h2 =>
      left
      cases d with
      | left => exact ⟨.node .black t p sl, sx, .node .black l x r, by simp [eraseCases],
          .black ht hl, .black h1 h2⟩
      | right =>
        refine ⟨_, _, _, eraseCases_inner_right hrl, ?_, .black h2 ht⟩
        rw [h1.setBlack_eq]
        exact .black hl h1
    · right
      have hl' := hl.black_of_not_isRed hrl
      have hr' := hr.black_of_not_isRed hrr
      cases d with
      | left => exact ⟨_, eraseCases_flip_left hrl hrr, .black ht (.red hl' hr')⟩
      | right => exact ⟨_, eraseCases_flip_right hrl hrr, .black (.red hl' hr') ht⟩

/-- Cases 2 to 4 under a red parent, as after Case 1: the loop ends. -/
theorem bal_eraseCases_red {t s : RbNode α} {m : ℕ} (ht : Bal t .black m)
    (hs : Bal s .black (m + 1)) (d : Dir) (p : α) :
    (∃ c, Bal (eraseCases t d .red p s).1 c (m + 1)) ∧ (eraseCases t d .red p s).2 = false := by
  rcases bal_eraseCases ht hs d .red p with ⟨l, x, r, e, hl, hr⟩ | ⟨t', e, ht'⟩
  · rw [e]
    exact ⟨⟨_, .red hl hr⟩, rfl⟩
  · rw [e]
    exact ⟨⟨_, ht'⟩, rfl⟩

theorem not_isRed_of_dir {s : RbNode α} {d : Dir}
    (h1 : ∀ sl sx sr, d = .left → s = .node .red sl sx sr → False)
    (h2 : ∀ sl sx sr, d = .right → s = .node .red sl sx sr → False) : ¬ s.isRed = true := by
  intro hred
  obtain ⟨l, x, r, rfl⟩ := isRed_iff.mp hred
  cases d with
  | left => exact h1 l x r rfl rfl
  | right => exact h2 l x r rfl rfl

/-- One round beside a sibling that is not red. -/
theorem redBlack_round {t s : RbNode α} {up : List (Frame α)} {d : Dir} {c : Color} {p : α} {m : ℕ}
    (ht : Bal t .black m) (h : Hole (⟨d, c, p, s⟩ :: up) .black (m + 1))
    (hs : ¬ s.isRed = true) :
    if (eraseCases t d c p s).2 then
      Bal (eraseCases t d c p s).1 .black (m + 1) ∧ Hole up .black (m + 1 + 1)
    else RedBlack (plug (eraseCases t d c p s).1 up) := by
  cases c with
  | red =>
    obtain ⟨-, hs', hup⟩ := h
    obtain ⟨⟨c', hc⟩, hend⟩ := bal_eraseCases_red ht hs' d p
    rw [hend, if_neg (by simp)]
    exact redBlack_plug hc hup.of_red
  | black =>
    obtain ⟨⟨c', hs'⟩, hup⟩ := h
    rcases bal_eraseCases ht (hs'.black_of_not_isRed hs) d .black p with
      ⟨l, x, r, e, hl, hr⟩ | ⟨t', e, ht'⟩
    · rw [e, if_neg (by simp)]
      exact redBlack_plug (.black hl hr) hup
    · rw [e, if_pos (by simp)]
      exact ⟨ht', hup⟩

/-- **The repair after a removal**: a black tree that is one black node short for its place. -/
theorem redBlack_eraseColor (t : RbNode α) (up : List (Frame α)) :
    ∀ {m : ℕ}, Bal t .black m → Hole up .black (m + 1) → RedBlack (eraseColor t up) := by
  induction t, up using eraseColor.induct with
  | case1 t =>
    intro m ht _
    exact ⟨m, ht⟩
  | case2 t c p sl sx sr up =>
    intro m ht h
    -- the parent of a red sibling is black
    cases c with
    | red => cases h.2.1
    | black =>
      obtain ⟨⟨c', hs⟩, hup⟩ := h
      cases hs with | red hl hr =>
      rw [eraseColor, hl.setBlack_eq]
      obtain ⟨⟨c', hc⟩, -⟩ := bal_eraseCases_red ht hl .left p
      exact redBlack_plug hc ⟨⟨_, hr⟩, hup⟩
  | case3 t c p sl sx sr up =>
    intro m ht h
    cases c with
    | red => cases h.2.1
    | black =>
      obtain ⟨⟨c', hs⟩, hup⟩ := h
      cases hs with | red hl hr =>
      rw [eraseColor, hr.setBlack_eq]
      obtain ⟨⟨c', hc⟩, -⟩ := bal_eraseCases_red ht hr .right p
      exact redBlack_plug hc ⟨⟨_, hl⟩, hup⟩
  | case4 t d c p s up h1 h2 hgo ih =>
    intro m ht h
    have hround := redBlack_round ht h (not_isRed_of_dir h1 h2)
    rw [if_pos hgo] at hround
    rw [eraseColor, if_pos hgo]
    · exact ih hround.1 hround.2
    all_goals assumption
  | case5 t d c p s up h1 h2 hgo =>
    intro m ht h
    have hround := redBlack_round ht h (not_isRed_of_dir h1 h2)
    rw [if_neg hgo] at hround
    rw [eraseColor, if_neg hgo]
    · exact hround
    all_goals assumption

/-- **Removing the leftmost node below a path.** -/
theorem redBlack_eraseFirstAt (t : RbNode α) (up : List (Frame α)) :
    ∀ {c : Color} {n : ℕ}, Bal t c n → Hole up c n → RedBlack (eraseFirstAt t up) := by
  induction t, up using eraseFirstAt.induct with
  | case1 up =>
    intro c n ht h
    rw [eraseFirstAt]
    exact redBlack_plug ht h
  | case2 c x c' l y r up =>
    intro c0 n ht h
    rw [eraseFirstAt]
    -- an only child is red and its parent is black
    cases ht with
    | red hl hr =>
      cases hl
      cases hr.eq_nil
    | black hl hr =>
      cases hl
      cases hr with | red h1 h2 =>
      exact redBlack_plug (.black h1 h2) h
  | case3 x up =>
    intro c n ht h
    rw [eraseFirstAt]
    cases ht with | black hl hr =>
    cases hl
    exact redBlack_eraseColor .nil up .nil h
  | case4 x up =>
    intro c n ht h
    rw [eraseFirstAt]
    cases ht with | red hl hr =>
    cases hl
    exact redBlack_plug .nil h.of_red
  | case5 c c' l y r x s up ih =>
    intro c0 n ht h
    obtain rfl := ht.root_color
    obtain ⟨⟨cl, ml, hl, hlup⟩, -⟩ := ht.hole h
    rw [eraseFirstAt]
    exact ih hl hlup

/-- **Removing the leftmost node keeps red-black trees.** -/
theorem RedBlack.eraseFirst {t : RbNode α} (h : RedBlack t) : RedBlack t.eraseFirst := by
  obtain ⟨n, hn⟩ := h
  exact redBlack_eraseFirstAt t [] hn rfl

/-! ### Depth -/

/-- The length of the longest path. -/
def RbNode.depth : RbNode α → ℕ
  | .nil => 0
  | .node _ l _ r => max l.depth r.depth + 1

/-- At most every second node of a path is red, and there are enough black nodes for a full tree. -/
theorem Bal.depth_le {t : RbNode α} {c : Color} {n : ℕ} (h : Bal t c n) :
    t.depth ≤ 2 * n + (if c = .red then 1 else 0) ∧ 2 ^ n ≤ t.toList.length + 1 := by
  induction h with
  | nil => simp [RbNode.depth]
  | @red l r x n hl hr ihl ihr =>
    simp only [RbNode.depth, toList_node, List.length_append, List.length_cons, reduceCtorEq,
      if_false, if_true, Nat.add_zero] at ihl ihr ⊢
    omega
  | @black l r x c c' n hl hr ihl ihr =>
    have h1 : (if c = Color.red then 1 else 0) ≤ 1 := by split_ifs <;> omega
    have h2 : (if c' = Color.red then 1 else 0) ≤ 1 := by split_ifs <;> omega
    simp only [RbNode.depth, toList_node, List.length_append, List.length_cons, reduceCtorEq,
      if_false, Nat.add_zero, Nat.pow_succ] at ihl ihr ⊢
    omega

/-- **A red-black tree is at most twice as deep as a full tree of its size.** -/
theorem RedBlack.depth_le {t : RbNode α} (h : RedBlack t) {k : ℕ}
    (hk : t.toList.length + 1 < 2 ^ (k + 1)) : t.depth ≤ 2 * k := by
  obtain ⟨n, hn⟩ := h
  obtain ⟨hdepth, hsize⟩ := hn.depth_le
  have hlt : n < k + 1 := (Nat.pow_lt_pow_iff_right (by omega)).mp (lt_of_le_of_lt hsize hk)
  simp only [reduceCtorEq, if_false, Nat.add_zero] at hdepth
  omega

end DynBandwidth.Lib.RbTree
