import Mathlib.Data.List.Sort
import Mathlib.Order.Lattice

/-! # Queues in the order of time

A queue whose entries have a key, mostly a time, and leave in the order of the keys; among entries
with the same key the one that came first leaves first. `insertLast` is how an entry arrives.

Such a queue can be kept in two lanes. An entry that is not before the last one of the first lane is
put at its end; only the other ones go to the second lane, which is sorted at some cost. The front
is the front of one of the lanes. If the last entry of the first lane is after all entries of the
second one (`Lanes`), the two lanes are one queue (`Lanes.concat`, `Lanes.insert`,
`inOrder_cons_left`, `inOrder_cons_right`). -/

namespace DynBandwidth.Lib.TimeQueue

variable {α γ : Type} [LinearOrder γ] (key : α → γ)

/-! ### One lane -/

/-- An entry is put behind those that are not after it. -/
def insertLast (x : α) : List α → List α
  | [] => [x]
  | y :: l => if key x < key y then x :: y :: l else y :: insertLast x l

/-- The keys do not decrease. -/
def Sorted (l : List α) : Prop := l.Pairwise fun a b => key a ≤ key b

variable {key} {x y : α} {l l' : List α}

theorem insertLast_perm (x : α) : ∀ l : List α, (insertLast key x l).Perm (x :: l)
  | [] => List.Perm.refl _
  | y :: l => by
    rw [insertLast]
    split_ifs
    · exact List.Perm.refl _
    · exact ((insertLast_perm x l).cons y).trans (List.Perm.swap x y l)

@[simp] theorem mem_insertLast : y ∈ insertLast key x l ↔ y = x ∨ y ∈ l := by
  rw [(insertLast_perm x l).mem_iff, List.mem_cons]

/-- The entry goes behind a part that is not after it. -/
theorem insertLast_behind : ∀ {l : List α}, (∀ y ∈ l, key y ≤ key x) →
    insertLast key x (l ++ l') = l ++ insertLast key x l'
  | [], _ => rfl
  | y :: l, h => by
    have hy : ¬ key x < key y := not_lt.mpr (h y List.mem_cons_self)
    rw [List.cons_append, insertLast, if_neg hy,
      insertLast_behind fun z hz => h z (List.mem_cons_of_mem _ hz), List.cons_append]

/-- Where the entry goes: behind a part that is not after it, and before a part that is. -/
theorem insertLast_append (h : ∀ y ∈ l, key y ≤ key x) (h' : ∀ y ∈ l'.head?, key x < key y) :
    insertLast key x (l ++ l') = l ++ x :: l' := by
  rw [insertLast_behind h]
  cases l' with
  | nil => rfl
  | cons y l' => rw [insertLast, if_pos (h' y rfl)]

/-- An entry that is not before any other goes to the end. -/
theorem insertLast_of_le (h : ∀ y ∈ l, key y ≤ key x) : insertLast key x l = l ++ [x] := by
  rw [← List.append_nil l, insertLast_append h (by simp), List.append_nil]

/-- A sorted list falls apart at every key. -/
theorem Sorted.split (x : α) : ∀ {l : List α}, Sorted key l →
    ∃ a b, l = a ++ b ∧ (∀ y ∈ a, key y ≤ key x) ∧ ∀ y ∈ b, key x < key y
  | [], _ => ⟨[], [], rfl, by simp, by simp⟩
  | y :: l, h => by
    obtain ⟨hy, hl⟩ := List.pairwise_cons.mp h
    rcases le_or_gt (key y) (key x) with hle | hlt
    · obtain ⟨a, b, rfl, ha, hb⟩ := Sorted.split x hl
      refine ⟨y :: a, b, rfl, fun z hz => ?_, hb⟩
      rcases List.mem_cons.mp hz with rfl | hz
      · exact hle
      · exact ha z hz
    · refine ⟨[], y :: l, rfl, by simp, fun z hz => ?_⟩
      rcases List.mem_cons.mp hz with rfl | hz
      · exact hlt
      · exact lt_of_lt_of_le hlt (hy z hz)

theorem Sorted.insertLast (h : Sorted key l) (x : α) : Sorted key (insertLast key x l) := by
  obtain ⟨a, b, rfl, ha, hb⟩ := h.split x
  rw [insertLast_append ha fun y hy => hb y (List.mem_of_mem_head? hy)]
  obtain ⟨hsa, hsb, hab⟩ := List.pairwise_append.mp h
  have hxb : Sorted key (x :: b) := List.pairwise_cons.mpr ⟨fun y hy => le_of_lt (hb y hy), hsb⟩
  refine List.pairwise_append.mpr ⟨hsa, hxb, fun y hy z hz => ?_⟩
  rcases List.mem_cons.mp hz with rfl | hz
  · exact ha y hy
  · exact hab y hy z hz

theorem Sorted.concat (h : Sorted key l) (hx : ∀ y ∈ l, key y ≤ key x) : Sorted key (l ++ [x]) := by
  rw [← insertLast_of_le hx]
  exact h.insertLast x

/-! ### Two lanes -/

/-- The entries of two lanes in one order; of two with the same key the one in the first lane comes
first. -/
def inOrder (key : α → γ) (queue tree : List α) : List α :=
  queue.merge tree fun a b => decide (key a ≤ key b)

variable {queue tree : List α}

@[simp] theorem inOrder_nil_left : inOrder key [] tree = tree := List.nil_merge _

@[simp] theorem inOrder_nil_right : inOrder key queue [] = queue := List.merge_right _

/-- The front of the first lane leaves if the front of the second one is not before it. -/
theorem inOrder_cons_left (h : ∀ y ∈ tree.head?, key x ≤ key y) :
    inOrder key (x :: queue) tree = x :: inOrder key queue tree := by
  cases tree with
  | nil => rw [inOrder_nil_right, inOrder_nil_right]
  | cons y tree =>
    unfold inOrder
    rw [List.cons_merge_cons, if_pos (by simpa using h)]

/-- The front of the second lane leaves if it is before the front of the first one. -/
theorem inOrder_cons_right (h : ∀ y ∈ queue.head?, key x < key y) :
    inOrder key queue (x :: tree) = x :: inOrder key queue tree := by
  cases queue with
  | nil => rw [inOrder_nil_left, inOrder_nil_left]
  | cons y queue =>
    unfold inOrder
    rw [List.cons_merge_cons, if_neg (by simpa using h)]

theorem inOrder_perm (queue tree : List α) : (inOrder key queue tree).Perm (queue ++ tree) :=
  List.merge_perm_append _

@[simp] theorem mem_inOrder : x ∈ inOrder key queue tree ↔ x ∈ queue ∨ x ∈ tree := by
  rw [(inOrder_perm queue tree).mem_iff, List.mem_append]

theorem sorted_inOrder (hq : Sorted key queue) (ht : Sorted key tree) :
    Sorted key (inOrder key queue tree) := by
  have hle : ∀ a b : α, key a ≤ key b → decide (key a ≤ key b) = true := fun _ _ h =>
    decide_eq_true h
  have htrans : ∀ a b c : α, decide (key a ≤ key b) = true → decide (key b ≤ key c) = true →
      decide (key a ≤ key c) = true := fun a b c hab hbc =>
    hle a c (le_trans (of_decide_eq_true hab) (of_decide_eq_true hbc))
  have h := List.pairwise_merge htrans (fun a b => by simp [le_total]) queue tree
    (List.Pairwise.imp (hle _ _) hq) (List.Pairwise.imp (hle _ _) ht)
  exact List.Pairwise.imp of_decide_eq_true h

/-- Lanes that are cut so that nothing before the cuts has to wait for anything behind them. -/
theorem inOrder_append {qb tb : List α} : ∀ (qa ta : List α),
    (∀ y ∈ qa, ∀ z ∈ tb, key y ≤ key z) → (∀ y ∈ ta, ∀ z ∈ qb, key y < key z) →
    inOrder key (qa ++ qb) (ta ++ tb) = inOrder key qa ta ++ inOrder key qb tb := by
  intro qa
  induction qa with
  | nil =>
    intro ta _ hta
    induction ta with
    | nil => simp
    | cons y ta ih =>
      have hy : ∀ z ∈ qb.head?, key y < key z := fun z hz =>
        hta y List.mem_cons_self z (List.mem_of_mem_head? hz)
      have ih' := ih fun z hz => hta z (List.mem_cons_of_mem _ hz)
      rw [List.nil_append, inOrder_nil_left] at ih'
      rw [List.nil_append, List.cons_append, inOrder_cons_right hy, ih', inOrder_nil_left,
        List.cons_append]
  | cons q qa ihq =>
    intro ta hqa hta
    have hqa' : ∀ y ∈ qa, ∀ z ∈ tb, key y ≤ key z := fun y hy => hqa y (List.mem_cons_of_mem _ hy)
    induction ta with
    | nil =>
      have hq : ∀ z ∈ ([] ++ tb).head?, key q ≤ key z := fun z hz =>
        hqa q List.mem_cons_self z (List.mem_of_mem_head? hz)
      rw [List.cons_append, inOrder_cons_left hq, ihq [] hqa' hta, inOrder_nil_right,
        inOrder_nil_right, List.cons_append]
    | cons y ta iht =>
      have hta' : ∀ y ∈ ta, ∀ z ∈ qb, key y < key z := fun y hy => hta y (List.mem_cons_of_mem _ hy)
      rcases lt_or_ge (key y) (key q) with hlt | hge
      · have hfront : ∀ z ∈ (q :: qa ++ qb).head?, key y < key z := by simpa using hlt
        have hq : inOrder key (q :: qa) (y :: ta) = y :: inOrder key (q :: qa) ta :=
          inOrder_cons_right (by simpa using hlt)
        calc inOrder key (q :: qa ++ qb) (y :: ta ++ tb)
            = y :: inOrder key (q :: qa ++ qb) (ta ++ tb) := inOrder_cons_right hfront
          _ = y :: (inOrder key (q :: qa) ta ++ inOrder key qb tb) := by rw [iht hta']
          _ = inOrder key (q :: qa) (y :: ta) ++ inOrder key qb tb := by rw [hq, List.cons_append]
      · have hfront : ∀ z ∈ (y :: ta ++ tb).head?, key q ≤ key z := by simpa using hge
        have hq : inOrder key (q :: qa) (y :: ta) = q :: inOrder key qa (y :: ta) :=
          inOrder_cons_left (by simpa using hge)
        calc inOrder key (q :: qa ++ qb) (y :: ta ++ tb)
            = q :: inOrder key (qa ++ qb) (y :: ta ++ tb) := inOrder_cons_left hfront
          _ = q :: (inOrder key qa (y :: ta) ++ inOrder key qb tb) := by rw [ihq _ hqa' hta]
          _ = inOrder key (q :: qa) (y :: ta) ++ inOrder key qb tb := by rw [hq, List.cons_append]

/-- The lanes of one queue: both are sorted, and the last entry of the first one is after all
entries of the second one. -/
structure Lanes (key : α → γ) (queue tree : List α) : Prop where
  sorted : Sorted key queue
  sortedTree : Sorted key tree
  below : ∀ x ∈ tree, ∃ t ∈ queue.getLast?, key x < key t

theorem lanes_nil : Lanes key ([] : List α) [] := ⟨List.Pairwise.nil, List.Pairwise.nil, by simp⟩

theorem Sorted.le_getLast (h : Sorted key l) {t : α} (ht : t ∈ l.getLast?) :
    ∀ y ∈ l, key y ≤ key t := by
  intro y hy
  obtain ⟨l', rfl⟩ := List.getLast?_eq_some_iff.mp ht
  rcases List.mem_append.mp hy with hy | hy
  · exact (List.pairwise_append.mp h).2.2 y hy t (by simp)
  · rw [List.mem_singleton.mp hy]

section Lanes
variable (h : Lanes key queue tree)
include h

/-- **An entry that is not before the last one** of the first lane goes to its end. -/
theorem Lanes.concat (hx : ∀ t ∈ queue.getLast?, key t ≤ key x) :
    inOrder key (queue ++ [x]) tree = insertLast key x (inOrder key queue tree) ∧
      Lanes key (queue ++ [x]) tree := by
  have hqueue : ∀ y ∈ queue, key y ≤ key x := by
    intro y hy
    obtain ⟨t, ht⟩ : ∃ t, queue.getLast? = some t :=
      ⟨_, List.getLast?_eq_some_getLast (List.ne_nil_of_mem hy)⟩
    exact (h.sorted.le_getLast ht y hy).trans (hx t ht)
  have htree : ∀ y ∈ tree, key y < key x := by
    intro y hy
    obtain ⟨t, ht, hlt⟩ := h.below y hy
    exact hlt.trans_le (hx t ht)
  have happ : inOrder key (queue ++ [x]) (tree ++ []) =
      inOrder key queue tree ++ inOrder key [x] [] :=
    inOrder_append queue tree (by simp) (by simpa using htree)
  rw [List.append_nil, inOrder_nil_right] at happ
  refine ⟨?_, h.sorted.concat hqueue, h.sortedTree, fun y hy => ⟨x, by simp, htree y hy⟩⟩
  rw [happ, insertLast_of_le]
  intro y hy
  rcases mem_inOrder.mp hy with hy | hy
  · exact hqueue y hy
  · exact le_of_lt (htree y hy)

/-- **An entry that is before the last one** of the first lane goes to the second one. -/
theorem Lanes.insert {t : α} (ht : t ∈ queue.getLast?) (hx : key x < key t) :
    inOrder key queue (insertLast key x tree) = insertLast key x (inOrder key queue tree) ∧
      Lanes key queue (insertLast key x tree) := by
  refine ⟨?_, h.sorted, h.sortedTree.insertLast x, ?_⟩
  · obtain ⟨qa, qb, hq, hqa, hqb⟩ := h.sorted.split x
    obtain ⟨ta, tb, htr, hta, htb⟩ := h.sortedTree.split x
    -- both lanes are cut at the key of the entry, which is put between the parts
    have hcut : inOrder key queue tree = inOrder key qa ta ++ inOrder key qb tb := by
      rw [hq, htr]
      exact inOrder_append qa ta (fun y hy z hz => (hqa y hy).trans (le_of_lt (htb z hz)))
        fun y hy z hz => (hta y hy).trans_lt (hqb z hz)
    have hfront : inOrder key qa (ta ++ [x]) = inOrder key qa ta ++ [x] := by
      have happ : inOrder key (qa ++ []) (ta ++ [x]) = inOrder key qa ta ++ inOrder key [] [x] :=
        inOrder_append qa ta (by simpa using hqa) (by simp)
      rwa [List.append_nil, inOrder_nil_left] at happ
    have hwith : inOrder key queue (insertLast key x tree) =
        inOrder key qa (ta ++ [x]) ++ inOrder key qb tb := by
      have hins : insertLast key x tree = (ta ++ [x]) ++ tb := by
        rw [htr, insertLast_append hta fun y hy => htb y (List.mem_of_mem_head? hy)]
        simp
      rw [hq, hins]
      refine inOrder_append qa (ta ++ [x]) (fun y hy z hz => (hqa y hy).trans (le_of_lt (htb z hz)))
        fun y hy z hz => ?_
      rcases List.mem_append.mp hy with hy | hy
      · exact (hta y hy).trans_lt (hqb z hz)
      · rw [List.mem_singleton.mp hy]
        exact hqb z hz
    rw [hwith, hfront, hcut, insertLast_append, List.append_assoc, List.singleton_append]
    · intro y hy
      rcases mem_inOrder.mp hy with hy | hy
      · exact hqa y hy
      · exact hta y hy
    · intro y hy
      rcases mem_inOrder.mp (List.mem_of_mem_head? hy) with hy | hy
      · exact hqb y hy
      · exact htb y hy
  · intro y hy
    rcases mem_insertLast.mp hy with rfl | hy
    · exact ⟨t, ht, hx⟩
    · exact h.below y hy

end Lanes

/-- The front of the first lane leaves. -/
theorem Lanes.pop_queue (h : Lanes key (x :: queue) tree) (hx : ∀ y ∈ tree.head?, key x ≤ key y) :
    Lanes key queue tree := by
  refine ⟨(List.pairwise_cons.mp h.sorted).2, h.sortedTree, fun y hy => ?_⟩
  obtain ⟨t, ht, hlt⟩ := h.below y hy
  cases queue with
  | nil =>
    -- the last entry of the first lane leaves, so that nothing can be before it
    obtain rfl : x = t := by simpa using ht
    obtain ⟨z, hz⟩ : ∃ z, tree.head? = some z :=
      ⟨_, List.head?_eq_some_head (List.ne_nil_of_mem hy)⟩
    obtain ⟨tree', rfl⟩ := List.head?_eq_some_iff.mp hz
    have hzy : key z ≤ key y := by
      rcases List.mem_cons.mp hy with rfl | hy
      · exact le_rfl
      · exact (List.pairwise_cons.mp h.sortedTree).1 y hy
    exact absurd ((hx z hz).trans hzy) (not_le.mpr hlt)
  | cons q queue => exact ⟨t, by simpa using ht, hlt⟩

/-- The front of the second lane leaves. -/
theorem Lanes.pop_tree (h : Lanes key queue (x :: tree)) : Lanes key queue tree :=
  ⟨h.sorted, (List.pairwise_cons.mp h.sortedTree).2,
    fun y hy => h.below y (List.mem_cons_of_mem _ hy)⟩

end DynBandwidth.Lib.TimeQueue
