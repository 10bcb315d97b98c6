import DynBandwidth.Lib.RbTree
import DynBandwidth.Reorder.Header
import Mathlib.Data.List.Chain

/-! # The tree of held segments

The insertion code that `reorder_counter.c` and `nfqueue.c` share: a search by `before` and `after`
in a red-black tree of segments, generic in the record of a segment (`seqOf` is its sequence
number).

`before` is not an order on the whole circle. Whatever the tree holds, an insertion adds the new
segment at some place or meets a segment with the same number (`insertSeq_cases`). If the numbers of
the tree are in the order of their distances from the new one, the place is the right one
(`insertSeq_relative`); this is so in particular for an `Ascending` tree, whose numbers are in order
and at most `2 ^ 30` apart, and a new number near all of them (`ascending_insertSeq`). What every
insertion keeps, near or not, is that neighbours are in order (`stepwise_insertSeq`). -/

namespace DynBandwidth.Reorder.SeqTree

open DynBandwidth.Lib.Serial DynBandwidth.Lib.RbTree DynBandwidth.Reorder.Header

variable {α : Type} (seqOf : α → U32)

/-- **The insertion**: search for the place of `seq`, link `new` there, or `merge` into the segment
met that has this number. -/
def insertSeq (seq : U32) (new : α) (merge : α → α) (t : RbNode α) : RbNode α × Option α :=
  t.upsert (fun curr => before seq (seqOf curr)) (fun curr => after seq (seqOf curr)) new merge

/-- Numbers in order, any two at most `2 ^ 30` apart. -/
def Ascending (xs : List α) : Prop :=
  xs.Pairwise fun a b => 0 < sdist (seqOf b) (seqOf a) ∧ sdist (seqOf b) (seqOf a) ≤ 1073741824

/-- Strictly increasing under `before`, for every pair. -/
def Increasing (xs : List α) : Prop := xs.Pairwise fun a b =>
  before (seqOf a) (seqOf b) = true ∧ before (seqOf b) (seqOf a) = false

/-- The tree is a sorted set: it lists its numbers in increasing order, each of them once, and
`rb_first` yields the serial-least one. -/
structure SortedSet (t : RbNode α) : Prop where
  increasing : Increasing seqOf t.toList
  nodup : (t.toList.map seqOf).Nodup
  first : ∀ x, t.first = some x →
    x ∈ t.toList ∧ ∀ y ∈ t.toList, y = x ∨ before (seqOf x) (seqOf y) = true

variable {seqOf} {seq : U32} {new : α} {merge : α → α} {t : RbNode α}

/-! ### Any tree -/

theorem insertSeq_cases (seqOf : α → U32) (seq : U32) (new : α) (merge : α → α) (t : RbNode α) :
    (∃ l r, t.toList = l ++ r ∧ (insertSeq seqOf seq new merge t).1.toList = l ++ new :: r ∧
      (insertSeq seqOf seq new merge t).2 = none) ∨
    (∃ l x r, t.toList = l ++ x :: r ∧
      (insertSeq seqOf seq new merge t).1.toList = l ++ merge x :: r ∧
      (insertSeq seqOf seq new merge t).2 = some x ∧ seqOf x = seq) := by
  rcases upsert_cases (fun curr => before seq (seqOf curr)) (fun curr => after seq (seqOf curr))
    new merge t with ⟨l, r, h1, h2, h3, -⟩ | ⟨l, x, r, h1, h2, h3, h4, h5⟩
  · exact Or.inl ⟨l, r, h1, h2, h3⟩
  · exact Or.inr ⟨l, x, r, h1, h2, h3, (eq_of_not_before h4 h5).symm⟩

/-- The numbers held after an insertion. -/
theorem forall_insertSeq (hnew : seqOf new = seq) (hmerge : ∀ x, seqOf (merge x) = seqOf x)
    (P : U32 → Prop) : (∀ x ∈ (insertSeq seqOf seq new merge t).1.toList, P (seqOf x)) ↔
      P seq ∧ ∀ x ∈ t.toList, P (seqOf x) := by
  rcases insertSeq_cases seqOf seq new merge t with ⟨l, r, h1, h2, -⟩ | ⟨l, x, r, h1, h2, -, hx⟩
  · rw [h1, h2]
    simp only [List.mem_append, List.mem_cons, or_imp, forall_and, forall_eq, hnew]
    tauto
  · rw [h1, h2]
    simp only [List.mem_append, List.mem_cons, or_imp, forall_and, forall_eq, hmerge, hx]
    tauto

/-- The number of segments grows by one unless a segment was met. -/
theorem length_insertSeq (seqOf : α → U32) (seq : U32) (new : α) (merge : α → α) (t : RbNode α) :
    (insertSeq seqOf seq new merge t).1.toList.length =
      t.toList.length + if (insertSeq seqOf seq new merge t).2 = none then 1 else 0 := by
  rcases insertSeq_cases seqOf seq new merge t with ⟨l, r, h1, h2, h3⟩ | ⟨l, x, r, h1, h2, h3, -⟩
  · rw [h1, h2, h3]; simp; omega
  · rw [h1, h2, h3]; simp

/-- Each number is before the next one. -/
def Stepwise (seqOf : α → U32) (xs : List α) : Prop :=
  xs.IsChain fun a b => before (seqOf a) (seqOf b) = true

/-- **Neighbours stay in order**, whatever is inserted: the search has compared the new number with
those of its neighbours. -/
theorem stepwise_insertSeq (h : Stepwise seqOf t.toList) (hnew : seqOf new = seq)
    (hmerge : ∀ x, seqOf (merge x) = seqOf x) :
    Stepwise seqOf (insertSeq seqOf seq new merge t).1.toList := by
  unfold Stepwise at h ⊢
  unfold insertSeq
  rcases upsert_cases (fun curr => before seq (seqOf curr)) (fun curr => after seq (seqOf curr))
    new merge t with ⟨l, r, h1, h2, -, hl, hr⟩ | ⟨l, x, r, h1, h2, -⟩
  · rw [h1, List.isChain_append] at h
    rw [h2, List.isChain_append, List.isChain_cons]
    refine ⟨h.1, ⟨fun y hy => ?_, h.2.1⟩, fun x hx y hy => ?_⟩
    · rw [hnew]
      exact hr y hy
    · rw [List.head?_cons, Option.mem_some_iff] at hy
      rw [← hy, hnew]
      exact hl x hx
  · rw [h1] at h
    rw [h2]
    rw [List.isChain_append, List.isChain_cons] at h ⊢
    simp only [List.head?_cons, Option.mem_some_iff, forall_eq', hmerge] at h ⊢
    exact h

/-- **The first number is the least**: seen from a number near all of them, neighbours that are in
order are so by their distances, unless one is `2 ^ 30` ahead and the next one `2 ^ 30` behind. -/
theorem Stepwise.first_least : ∀ {m : α} {xs : List α}, Stepwise seqOf (m :: xs) →
    (∀ x ∈ m :: xs, Near (seqOf x) seq) →
    (∀ x ∈ m :: xs, ∀ y ∈ m :: xs, sdist (seqOf x) seq = 1073741824 →
      sdist (seqOf y) seq ≠ -1073741824) →
    ∀ x ∈ m :: xs, sdist (seqOf m) seq ≤ sdist (seqOf x) seq
  | m, [], _, _, _, x, hx => by
    rw [List.mem_singleton.mp hx]
  | m, y :: xs, h, hn, hapart, x, hx => by
    obtain ⟨hmy, hxs⟩ := List.isChain_cons_cons.mp h
    rcases List.mem_cons.mp hx with rfl | hx
    · exact le_rfl
    · have ih := Stepwise.first_least hxs (fun z hz => hn z (List.mem_cons_of_mem _ hz))
        (fun z hz w hw => hapart z (List.mem_cons_of_mem _ hz) w (List.mem_cons_of_mem _ hw)) x hx
      have hm := hn m (by simp)
      have hy := hn y (by simp)
      have hap := hapart m (by simp) y (by simp)
      have e1 := sdist_add (seqOf m) (seqOf y) seq
      have e2 := sdist_range (seqOf m) (seqOf y)
      rw [before_iff] at hmy
      unfold Near at hm hy
      omega

/-! ### Trees in order -/

/-- **Insertion into a tree in order**: if the numbers are listed in the order of their distances
from the new one, all less than half a turn, the new segment goes between those before and those
after it, or there is a segment with its number. -/
theorem insertSeq_relative (hpos : ∀ x ∈ t.toList, -2147483648 < sdist (seqOf x) seq)
    (hs : t.toList.Pairwise fun a b => sdist (seqOf a) seq < sdist (seqOf b) seq) (new : α)
    (merge : α → α) :
    (∃ l r, t.toList = l ++ r ∧ (insertSeq seqOf seq new merge t).1.toList = l ++ new :: r ∧
      (insertSeq seqOf seq new merge t).2 = none ∧ (∀ x ∈ l, sdist (seqOf x) seq < 0) ∧
      ∀ x ∈ r, 0 < sdist (seqOf x) seq) ∨
    (∃ l x r, t.toList = l ++ x :: r ∧
      (insertSeq seqOf seq new merge t).1.toList = l ++ merge x :: r ∧
      (insertSeq seqOf seq new merge t).2 = some x ∧ seqOf x = seq) := by
  have hagree : ∀ x ∈ t.toList, (before seq (seqOf x) = true ↔ 0 < sdist (seqOf x) seq) ∧
      (after seq (seqOf x) = true ↔ sdist (seqOf x) seq < 0) := fun x hx => by
    have e := sdist_swap (hpos x hx)
    rw [before_iff, after, before_iff]
    omega
  rcases upsert_sorted hagree hs new merge with h | ⟨l, x, r, h1, h2, h3, h4⟩
  · exact Or.inl h
  · exact Or.inr ⟨l, x, r, h1, h2, h3, sdist_eq_zero.mp h4⟩

/-! ### Ascending trees -/

/-- The positions of an ascending tree around a number near all of its numbers. -/
theorem Ascending.positions {xs : List α} (h : Ascending seqOf xs)
    (hn : ∀ x ∈ xs, Near seq (seqOf x)) :
    xs.Pairwise fun a b => sdist (seqOf a) seq < sdist (seqOf b) seq := by
  refine h.imp_of_mem fun {a b} ha hb hab => ?_
  have h1 := hn a ha
  have h2 := hn b hb
  have e1 := sdist_swap (a := seq) (b := seqOf a) (by have := h1.1; omega)
  have e2 := sdist_swap (a := seq) (b := seqOf b) (by have := h2.1; omega)
  have e3 := sdist_add (seqOf b) (seqOf a) seq
  unfold Near at h1 h2
  omega

theorem Ascending.tail {x : α} {xs : List α} (h : Ascending seqOf (x :: xs)) :
    Ascending seqOf xs := (List.pairwise_cons.mp h).2

/-- **Neighbours in order, all near each other**: then every pair is in order. -/
theorem Stepwise.ascending : ∀ {xs : List α}, Stepwise seqOf xs →
    (∀ x ∈ xs, ∀ y ∈ xs, Near (seqOf x) (seqOf y)) → Ascending seqOf xs
  | [], _, _ => List.Pairwise.nil
  | [_], _, _ => List.pairwise_singleton _ _
  | x :: y :: xs, h, hn => by
    obtain ⟨hxy, hxs⟩ := List.isChain_cons_cons.mp h
    have ih := Stepwise.ascending hxs fun a ha b hb =>
      hn a (List.mem_cons_of_mem _ ha) b (List.mem_cons_of_mem _ hb)
    refine List.pairwise_cons.mpr ⟨fun z hz => ?_, ih⟩
    have hzx := hn z (List.mem_cons_of_mem _ hz) x (by simp)
    have hyx := hn y (by simp) x (by simp)
    have e1 := sdist_swap (a := seqOf y) (b := seqOf x) (by have := hyx.1; omega)
    rw [before_iff] at hxy
    unfold Near at hzx hyx
    rcases List.mem_cons.mp hz with rfl | hz
    · omega
    · have hzy := (List.pairwise_cons.mp ih).1 z hz
      have e2 := sdist_add (seqOf z) (seqOf y) (seqOf x)
      omega

theorem Ascending.append_left {l r : List α} (h : Ascending seqOf (l ++ r)) : Ascending seqOf l :=
  (List.pairwise_append.mp h).1

theorem Ascending.append_right {l r : List α} (h : Ascending seqOf (l ++ r)) : Ascending seqOf r :=
  (List.pairwise_append.mp h).2.1

theorem Ascending.increasing {xs : List α} (h : Ascending seqOf xs) : Increasing seqOf xs :=
  h.imp fun hab => ⟨before_of_pos hab.1, not_before_iff.mpr hab.1.le⟩

theorem Ascending.nodup {xs : List α} (h : Ascending seqOf xs) : (xs.map seqOf).Nodup := by
  rw [List.Nodup, List.pairwise_map]
  refine h.imp fun hab heq => ?_
  rw [heq, sdist_self] at hab
  omega

theorem Ascending.eq_of_seq {xs : List α} (h : Ascending seqOf xs) {x y : α} (hx : x ∈ xs)
    (hy : y ∈ xs) (heq : seqOf x = seqOf y) : x = y :=
  List.inj_on_of_nodup_map h.nodup hx hy heq

/-- **An ascending tree is a sorted set.** -/
theorem Ascending.sortedSet (h : Ascending seqOf t.toList) : SortedSet seqOf t where
  increasing := h.increasing
  nodup := h.nodup
  first x hx := by
    rw [first_eq_head?, List.head?_eq_some_iff] at hx
    obtain ⟨xs, hxs⟩ := hx
    have hinc := h.increasing
    rw [hxs] at hinc ⊢
    refine ⟨by simp, fun y hy => ?_⟩
    rcases List.mem_cons.mp hy with rfl | hy
    · exact Or.inl rfl
    · exact Or.inr ((List.pairwise_cons.mp hinc).1 y hy).1

/-- **Insertion into an ascending tree**, at a number near all of its numbers. -/
theorem insertSeq_ascending (h : Ascending seqOf t.toList)
    (hn : ∀ x ∈ t.toList, Near seq (seqOf x)) (new : α) (merge : α → α) :
    (∃ l r, t.toList = l ++ r ∧ (insertSeq seqOf seq new merge t).1.toList = l ++ new :: r ∧
      (insertSeq seqOf seq new merge t).2 = none ∧ (∀ x ∈ l, sdist (seqOf x) seq < 0) ∧
      ∀ x ∈ r, 0 < sdist (seqOf x) seq) ∨
    (∃ l x r, t.toList = l ++ x :: r ∧
      (insertSeq seqOf seq new merge t).1.toList = l ++ merge x :: r ∧
      (insertSeq seqOf seq new merge t).2 = some x ∧ seqOf x = seq) := by
  refine insertSeq_relative (fun x hx => ?_) (h.positions hn) new merge
  have h1 := hn x hx
  have e1 := sdist_swap (a := seq) (b := seqOf x) (by have := h1.1; omega)
  unfold Near at h1
  omega

/-- **The search meets a segment exactly if the number is held.** -/
theorem isSome_insertSeq_iff (h : Ascending seqOf t.toList)
    (hn : ∀ x ∈ t.toList, Near seq (seqOf x)) (new : α) (merge : α → α) :
    (insertSeq seqOf seq new merge t).2.isSome = true ↔ seq ∈ t.toList.map seqOf := by
  rcases insertSeq_ascending h hn new merge with ⟨l, r, h1, -, h3, hl, hr⟩ |
    ⟨l, x, r, h1, -, h3, hx⟩
  · rw [h3, h1]
    refine iff_of_false (by simp) fun hmem => ?_
    obtain ⟨y, hy, hseq⟩ := List.mem_map.mp hmem
    rcases List.mem_append.mp hy with hy | hy
    · have := hl y hy
      rw [hseq, sdist_self] at this
      omega
    · have := hr y hy
      rw [hseq, sdist_self] at this
      omega
  · rw [h3, h1]
    exact iff_of_true rfl (List.mem_map.mpr ⟨x, by simp, hx⟩)

/-- **An ascending tree stays ascending.** -/
theorem ascending_insertSeq (h : Ascending seqOf t.toList)
    (hn : ∀ x ∈ t.toList, Near seq (seqOf x)) (hnew : seqOf new = seq)
    (hmerge : ∀ x, seqOf (merge x) = seqOf x) :
    Ascending seqOf (insertSeq seqOf seq new merge t).1.toList := by
  rcases insertSeq_ascending h hn new merge with ⟨l, r, h1, h2, -, hl, hr⟩ | ⟨l, x, r, h1, h2, -, -⟩
  · have hn' : ∀ x ∈ l ++ r, Near seq (seqOf x) := by rw [← h1]; exact hn
    unfold Ascending at h ⊢
    rw [h1, List.pairwise_append] at h
    rw [h2, List.pairwise_append, List.pairwise_cons]
    refine ⟨h.1, ⟨fun x hx => ?_, h.2.1⟩, fun x hx y hy => ?_⟩
    · have e := hn' x (by simp [hx])
      have e1 := sdist_swap (a := seq) (b := seqOf x) (by have := e.1; omega)
      have := hr x hx
      unfold Near at e
      rw [hnew]; omega
    · rcases List.mem_cons.mp hy with rfl | hy
      · have e := hn' x (by simp [hx])
        have e1 := sdist_swap (a := seq) (b := seqOf x) (by have := e.1; omega)
        have := hl x hx
        unfold Near at e
        rw [hnew]; omega
      · exact h.2.2 x hx y hy
  · unfold Ascending at h ⊢
    rw [h1, List.pairwise_append, List.pairwise_cons] at h
    rw [h2, List.pairwise_append, List.pairwise_cons]
    simp only [List.mem_cons, forall_eq_or_imp, hmerge] at h ⊢
    exact h

end DynBandwidth.Reorder.SeqTree
