import DynBandwidth.Lib.Resequence
import DynBandwidth.Reorder.SeqTree
import Mathlib.Algebra.Order.BigOperators.Group.List
import Mathlib.Data.List.GetD

/-! # Streams of contiguous segments

A `Stream` is a list of segments of one flow, each starting where the one before ends, anywhere on
the circle of sequence numbers. Its points `point i` (the number of the `i`-th segment, and the end
of the stream for `i = n`) compare as their offsets do (`sdist_point`), so that in the tree of held
segments an arriving one goes to the place of its index (`insertSeq_stream`). -/

namespace DynBandwidth.Reorder.Segments

open DynBandwidth.Lib.Serial DynBandwidth.Lib.RbTree
open DynBandwidth.Reorder.Header DynBandwidth.Reorder.SeqTree

/-- Contiguous segments of one flow, each with payload and without SYN. -/
structure Stream (s d : U16) where
  segs : List Packet
  flow : ∀ p ∈ segs, p.sport = s ∧ p.dport = d
  noSyn : ∀ p ∈ segs, p.syn = false
  payload : ∀ p ∈ segs, 1 ≤ p.psize.toNat
  contiguous : segs.IsChain fun p q => q.seq = seqEnd p.seq p.psize
  total : (segs.map fun p => p.psize.toNat).sum < 2 ^ 31

variable {s d : U16} (st : Stream s d)

namespace Stream

/-- The number of segments. -/
def length : ℕ := st.segs.length

def seg (i : ℕ) : Packet := st.segs.getD i default

/-- The number of payload bytes before the `i`-th segment. -/
def off (i : ℕ) : ℕ := ((st.segs.take i).map fun p => p.psize.toNat).sum

/-- The sequence number at which the `i`-th segment starts. -/
def point (i : ℕ) : U32 := (st.seg 0).seq + BitVec.ofNat 32 (st.off i)

/-! ### Points -/

variable {st} {i j : ℕ}

theorem seg_mem (h : i < st.length) : st.seg i ∈ st.segs := by
  rw [seg, List.getD_eq_getElem _ _ h]
  exact List.getElem_mem h

theorem off_succ (h : i < st.length) : st.off (i + 1) = st.off i + (st.seg i).psize.toNat := by
  have h' : i < st.segs.length := h
  rw [off, off, seg, List.getD_eq_getElem _ _ h', List.take_add_one, List.getElem?_eq_getElem h',
    Option.toList_some, List.map_append, List.sum_append, List.map_singleton, List.sum_singleton]

theorem point_succ (h : i < st.length) :
    st.point (i + 1) = seqEnd (st.point i) (st.seg i).psize := by
  rw [point, point, seqEnd, off_succ h, BitVec.ofNat_add, BitVec.ofNat_toNat, add_assoc]

theorem seg_seq : ∀ {i : ℕ}, i < st.length → (st.seg i).seq = st.point i
  | 0, _ => by simp [point, off]
  | i + 1, h => by
    have h' : i < st.length := by omega
    have hchain := List.isChain_iff_getElem.mp st.contiguous i h
    rw [point_succ h', ← seg_seq h', seg, seg, List.getD_eq_getElem _ _ h,
      List.getD_eq_getElem _ _ h']
    exact hchain

theorem off_lt : ∀ {j : ℕ}, i < j → j ≤ st.length → st.off i < st.off j
  | j + 1, hij, hj => by
    have hpos := st.payload _ (seg_mem (i := j) (by omega))
    rw [off_succ (by omega)]
    rcases Nat.lt_succ_iff_lt_or_eq.mp hij with hlt | rfl
    · have := off_lt hlt (by omega)
      omega
    · omega

theorem off_total (st : Stream s d) (i : ℕ) : st.off i < 2147483648 := by
  refine lt_of_le_of_lt ?_ st.total
  exact ((List.take_sublist i st.segs).map _).sum_le_sum (by simp)

/-- **Points of the stream compare as their offsets.** -/
theorem sdist_point (st : Stream s d) (i j : ℕ) :
    sdist (st.point i) (st.point j) = st.off i - st.off j :=
  sdist_offset _ (off_total st i) (off_total st j)

theorem point_length {last : Packet} (h : st.segs.getLast? = some last) :
    st.point st.length = seqEnd last.seq last.psize := by
  obtain ⟨l, hl⟩ := List.getLast?_eq_some_iff.mp h
  have hlen : st.length = l.length + 1 := by rw [length, hl]; simp
  have hseg : st.seg l.length = last := by rw [seg, hl]; simp
  rw [hlen, point_succ (by omega), ← seg_seq (by omega), hseg]

/-! ### The tree -/

theorem orderedInsert_append : ∀ {l r : List ℕ}, (∀ x ∈ l, x < i) → (∀ x ∈ r, i < x) →
    (l ++ r).orderedInsert (· ≤ ·) i = l ++ i :: r
  | [], [], _, _ => rfl
  | [], x :: r, _, hr => by
    rw [List.nil_append, List.orderedInsert, if_pos (hr x (by simp)).le]; rfl
  | x :: l, r, hl, hr => by
    have hx := hl x (by simp)
    rw [List.cons_append, List.orderedInsert, if_neg (by omega),
      orderedInsert_append (fun y hy => hl y (by simp [hy])) hr]
    rfl

/-- **A segment of the stream goes to its place** among held segments of the stream. -/
theorem insertSeq_stream {α : Type} (seqOf : α → U32) (node : ℕ → α) {B : List ℕ} {t : RbNode α}
    (hnode : ∀ j < st.length, seqOf (node j) = st.point j) (ht : t.toList = B.map node)
    (hB : ∀ j ∈ B, j < st.length) (hs : B.Pairwise (· < ·)) (hi : i < st.length) (hiB : i ∉ B)
    (merge : α → α) :
    (insertSeq seqOf (st.point i) (node i) merge t).1.toList =
      (B.orderedInsert (· ≤ ·) i).map node ∧
    (insertSeq seqOf (st.point i) (node i) merge t).2 = none := by
  have hd : ∀ j ∈ B, sdist (seqOf (node j)) (st.point i) = st.off j - st.off i := fun j hj => by
    rw [hnode j (hB j hj), sdist_point]
  have hpos : ∀ x ∈ t.toList, -2147483648 < sdist (seqOf x) (st.point i) := by
    rw [ht]
    intro x hx
    obtain ⟨j, hj, rfl⟩ := List.mem_map.mp hx
    have := off_total st i
    rw [hd j hj]; omega
  have hsort : t.toList.Pairwise fun a b =>
      sdist (seqOf a) (st.point i) < sdist (seqOf b) (st.point i) := by
    rw [ht, List.pairwise_map]
    refine hs.imp_of_mem fun {a b} ha hb hab => ?_
    have := off_lt hab (hB b hb).le
    rw [hd a ha, hd b hb]; omega
  -- compare indices instead of offsets
  have hlt : ∀ j ∈ B, (sdist (seqOf (node j)) (st.point i) < 0 → j < i) ∧
      (0 < sdist (seqOf (node j)) (st.point i) → i < j) := fun j hj => by
    rw [hd j hj]
    rcases lt_trichotomy i j with h | rfl | h
    · have := off_lt h (hB j hj).le; omega
    · exact absurd hj hiB
    · have := off_lt h hi.le; omega
  rcases insertSeq_relative hpos hsort (node i) merge with
    ⟨l, r, h1, h2, h3, hl, hr⟩ | ⟨l, x, r, h1, -, -, hx⟩
  · rw [ht] at h1
    obtain ⟨l, r, rfl, rfl, rfl⟩ := List.map_eq_append_iff.mp h1
    refine ⟨?_, h3⟩
    rw [h2, orderedInsert_append]
    · simp
    · exact fun j hj => (hlt j (by simp [hj])).1 (hl _ (List.mem_map_of_mem hj))
    · exact fun j hj => (hlt j (by simp [hj])).2 (hr _ (List.mem_map_of_mem hj))
  · rw [ht] at h1
    have hmem : x ∈ B.map node := by rw [h1]; simp
    obtain ⟨j, hj, rfl⟩ := List.mem_map.mp hmem
    have h0 := hd j hj
    rw [hx, sdist_self] at h0
    rcases lt_trichotomy i j with h | rfl | h
    · have := off_lt h (hB j hj).le; omega
    · exact absurd hj hiB
    · have := off_lt h hi.le; omega

end Stream

/-- Three segments across the end of the sequence space. -/
def wrapStream : Stream 7 9 where
  segs := [⟨7, 9, 10, 4294967280, 16, 0⟩, ⟨7, 9, 10, 4294967290, 16, 0⟩, ⟨7, 9, 20, 4, 16, 0⟩]
  flow := by decide
  noSyn := by decide
  payload := by decide
  contiguous := by decide
  total := by decide

end DynBandwidth.Reorder.Segments
