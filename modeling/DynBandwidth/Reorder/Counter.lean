import DynBandwidth.Reorder.Flows
import DynBandwidth.Reorder.SeqTree

/-! # `reorder_counter.c`

The counter that resequences: segments behind `expected_next` are held in the tree of the flow and
counted, and are sent when the segments before them have come. When the tree is full, the lowest
segment is sent to make room.

`lowestFirst` is `rc_handle_packet` on the flow buffer of the packet. Its branches are those of
`lowestFirst_cases`; the loop that sends what has become contiguous is described on the list of held
segments by `chain` (`release_spec`). The number of nodes is the stored size and never exceeds
`FBUF_SIZ`, so that the branch for a full buffer does not read a node of an empty tree
(`keeps_sized`). -/

namespace DynBandwidth.Reorder.Counter

open DynBandwidth.Lib.Serial DynBandwidth.Lib.RbTree DynBandwidth.Lib.Runs
open DynBandwidth.Reorder.Header DynBandwidth.Reorder.SeqTree DynBandwidth.Reorder.Flows

def fbufSiz : U32 := 1024

/-! ### The functions of the file -/

/-- A retransmission keeps the larger size. -/
def retransmit (segSize : U16) (curr : RcFlowdata) : RcFlowdata :=
  if curr.segSize > segSize then curr else { curr with segSize := segSize }

/-- `insert_or_send_packet`; the second value is what it adds to `rc.reorder_count`. -/
def insertOrSendPacket (fbuf : RcFlowbuf) (seq : U32) (segSize : U16) : RcFlowbuf × U64 :=
  match insertSeq RcFlowdata.seq seq ⟨seq, segSize⟩ (retransmit segSize) fbuf.root with
  | (root, some _) => ({ fbuf with root := root }, 0)
  | (root, none) => ({ fbuf with size := fbuf.size + 1, root := root }, 1)

/-- `send_packet_at`, at the first node of the tree. -/
def sendPacketAt (fbuf : RcFlowbuf) (fdata : RcFlowdata) : RcFlowbuf :=
  { expectedNext := seqEnd fdata.seq fdata.segSize
    root := fbuf.root.eraseFirst
    size := fbuf.size - 1 }

/-- The loop that sends the first segment as long as its number is not behind `expected_next`, and
the segments it sends. The number bounds the rounds. -/
def release : ℕ → RcFlowbuf → RcFlowbuf × List RcFlowdata
  | 0, fbuf => (fbuf, [])
  | n + 1, fbuf =>
    match fbuf.root.first with
    | none => (fbuf, [])
    | some d =>
      if before d.seq fbuf.expectedNext || d.seq == fbuf.expectedNext then
        ((release n (sendPacketAt fbuf d)).1, d :: (release n (sendPacketAt fbuf d)).2)
      else (fbuf, [])

/-- **`rc_handle_packet` on the flow buffer of the packet**: the lowest first resequencing
algorithm. Every round of the loop removes a node, so the number of nodes bounds its rounds. -/
def lowestFirst (fbuf : RcFlowbuf) (p : Packet) : Option (RcFlowbuf × Effect) :=
  if before p.seq fbuf.expectedNext || p.seq == fbuf.expectedNext then
    let r := release fbuf.held.length { fbuf with expectedNext := nextAfter p }
    some (r.1, ⟨0, r.2⟩)
  else if fbuf.size < fbufSiz then
    let r := insertOrSendPacket fbuf p.seq p.psize
    some (r.1, ⟨r.2, []⟩)
  else
    match fbuf.root.first with
    | none => none
    | some first =>
      if first.seq ≤ p.seq then
        let r := insertOrSendPacket (sendPacketAt fbuf first) p.seq p.psize
        some (r.1, ⟨r.2, [first]⟩)
      else some (fbuf, ⟨0, []⟩)

def handler : Handler := ⟨fun p => ⟨0, p.seq, .nil⟩, lowestFirst⟩

/-- **`rc_handle_packet`.** -/
def rcHandlePacket : Rc → Packet → Option Rc := handler.rcHandlePacket

/-! ### Insertion -/

section Insert
variable (f : RcFlowbuf) (seq : U32) (segSize : U16)

theorem retransmit_seq (curr : RcFlowdata) : (retransmit segSize curr).seq = curr.seq := by
  unfold retransmit; split_ifs <;> rfl

@[simp] theorem insertOrSendPacket_expectedNext :
    (insertOrSendPacket f seq segSize).1.expectedNext = f.expectedNext := by
  unfold insertOrSendPacket; split <;> rfl

theorem insertOrSendPacket_held : (insertOrSendPacket f seq segSize).1.held =
    (insertSeq RcFlowdata.seq seq ⟨seq, segSize⟩ (retransmit segSize) f.root).1.toList := by
  unfold insertOrSendPacket RcFlowbuf.held; split <;> simp_all

/-- What an insertion adds to the size of the buffer and to the counter. -/
theorem insertOrSendPacket_size : ∃ n ≤ 1,
    (insertOrSendPacket f seq segSize).1.held.length = f.held.length + n ∧
    (insertOrSendPacket f seq segSize).1.size = f.size + BitVec.ofNat 32 n ∧
    (insertOrSendPacket f seq segSize).2 = BitVec.ofNat 64 n := by
  have hlen := length_insertSeq RcFlowdata.seq seq ⟨seq, segSize⟩ (retransmit segSize) f.root
  rw [insertOrSendPacket_held]
  unfold insertOrSendPacket RcFlowbuf.held
  split
  · next root x hx =>
    rw [hx] at hlen ⊢
    exact ⟨0, by omega, by simpa using hlen, by simp, by simp⟩
  · next root hx =>
    rw [hx] at hlen ⊢
    exact ⟨1, le_rfl, by simpa using hlen, by simp, by simp⟩

theorem insertOrSendPacket_counted_of_none (h : (insertSeq RcFlowdata.seq seq ⟨seq, segSize⟩
    (retransmit segSize) f.root).2 = none) : (insertOrSendPacket f seq segSize).2 = 1 := by
  unfold insertOrSendPacket; split <;> simp_all

/-- The numbers held after an insertion. -/
theorem forall_insertOrSendPacket (P : U32 → Prop) :
    (∀ x ∈ (insertOrSendPacket f seq segSize).1.held, P x.seq) ↔
      P seq ∧ ∀ x ∈ f.held, P x.seq := by
  rw [insertOrSendPacket_held]
  have hnew : RcFlowdata.seq ⟨seq, segSize⟩ = seq := rfl
  exact forall_insertSeq hnew (retransmit_seq segSize) P

end Insert

/-! ### The loop -/

/-- The segments at the front of a list that continue data up to `e`, each starting not behind the
end of the one before, and the segments behind them. -/
def chain : U32 → List RcFlowdata → List RcFlowdata × List RcFlowdata
  | _, [] => ([], [])
  | e, d :: ds =>
    if before d.seq e || d.seq == e then
      (d :: (chain (seqEnd d.seq d.segSize) ds).1, (chain (seqEnd d.seq d.segSize) ds).2)
    else ([], d :: ds)

/-- The end of the last segment of a list, `e` if there is none. -/
def lastEnd : U32 → List RcFlowdata → U32
  | e, [] => e
  | _, d :: ds => lastEnd (seqEnd d.seq d.segSize) ds

theorem chain_append : ∀ (e : U32) (ds : List RcFlowdata), (chain e ds).1 ++ (chain e ds).2 = ds
  | _, [] => rfl
  | e, d :: ds => by
    rw [chain]
    split_ifs
    · simp [chain_append]
    · rfl

/-- The first segment that is not sent lies behind the end of the last one that is. -/
theorem chain_rest : ∀ (e : U32) (ds : List RcFlowdata) {d : RcFlowdata} {r : List RcFlowdata},
    (chain e ds).2 = d :: r → 0 < sdist d.seq (lastEnd e (chain e ds).1)
  | _, [], d, r, h => by simp [chain] at h
  | e, x :: ds, d, r, h => by
    rw [chain] at h ⊢
    split_ifs at h ⊢ with hx
    · exact chain_rest _ ds h
    · simp only [List.cons.injEq] at h
      rw [lastEnd, ← h.1]
      exact sdist_pos_of_not_le hx

@[simp] theorem sendPacketAt_held (f : RcFlowbuf) (d : RcFlowdata) :
    (sendPacketAt f d).held = f.held.tail := by simp [sendPacketAt, RcFlowbuf.held]

/-- **What the loop does**: it sends the chain from `expected_next`. -/
theorem release_spec : ∀ (n : ℕ) (f : RcFlowbuf), f.held.length ≤ n →
    (release n f).2 = (chain f.expectedNext f.held).1 ∧
    (release n f).1.held = (chain f.expectedNext f.held).2 ∧
    (release n f).1.expectedNext = lastEnd f.expectedNext (chain f.expectedNext f.held).1 ∧
    (release n f).1.size = f.size - BitVec.ofNat 32 (chain f.expectedNext f.held).1.length
  | 0, f, hn => by
    have hnil : f.held = [] := List.eq_nil_of_length_eq_zero (by omega)
    simp [release, hnil, chain, lastEnd]
  | n + 1, f, hn => by
    have hfirst : f.root.first = f.held.head? := first_eq_head? f.root
    rw [release, hfirst]
    rcases hheld : f.held with _ | ⟨d, ds⟩
    · simp [chain, lastEnd, hheld]
    · simp only [List.head?_cons, chain]
      split_ifs with hd
      · have htail : (sendPacketAt f d).held = ds := by simp [hheld]
        have ih := release_spec n (sendPacketAt f d)
          (by rw [htail]; rw [hheld] at hn; simpa using hn)
        rw [htail, show (sendPacketAt f d).expectedNext = seqEnd d.seq d.segSize from rfl] at ih
        obtain ⟨h1, h2, h3, h4⟩ := ih
        refine ⟨by rw [h1], h2, h3, ?_⟩
        rw [h4, List.length_cons, show (sendPacketAt f d).size = f.size - 1 from rfl]
        rw [show BitVec.ofNat 32 ((chain (seqEnd d.seq d.segSize) ds).1.length + 1) =
          BitVec.ofNat 32 (chain (seqEnd d.seq d.segSize) ds).1.length + 1 from BitVec.ofNat_add ..]
        ring
      · simp [lastEnd, hheld]

/-! ### The branches -/

/-- **The branches of `rc_handle_packet`** on a flow buffer. -/
theorem lowestFirst_cases {f f' : RcFlowbuf} {p : Packet} {e : Effect}
    (h : lowestFirst f p = some (f', e)) :
    (sdist p.seq f.expectedNext ≤ 0 ∧ e = ⟨0, (chain (nextAfter p) f.held).1⟩ ∧
      f'.held = (chain (nextAfter p) f.held).2 ∧
      f'.expectedNext = lastEnd (nextAfter p) (chain (nextAfter p) f.held).1 ∧
      f'.size = f.size - BitVec.ofNat 32 (chain (nextAfter p) f.held).1.length) ∨
    (0 < sdist p.seq f.expectedNext ∧ f.size < fbufSiz ∧
      f' = (insertOrSendPacket f p.seq p.psize).1 ∧
      e = ⟨(insertOrSendPacket f p.seq p.psize).2, []⟩) ∨
    (0 < sdist p.seq f.expectedNext ∧ ¬ f.size < fbufSiz ∧ ∃ d ds, f.held = d :: ds ∧
      d.seq ≤ p.seq ∧ f' = (insertOrSendPacket (sendPacketAt f d) p.seq p.psize).1 ∧
      e = ⟨(insertOrSendPacket (sendPacketAt f d) p.seq p.psize).2, [d]⟩) ∨
    (0 < sdist p.seq f.expectedNext ∧ ¬ f.size < fbufSiz ∧ (∃ d ds, f.held = d :: ds ∧
      ¬ d.seq ≤ p.seq) ∧ f' = f ∧ e = ⟨0, []⟩) := by
  unfold lowestFirst at h
  split_ifs at h with h1 h2
  · left
    obtain ⟨r1, r2, r3, r4⟩ := release_spec f.held.length
      { f with expectedNext := nextAfter p } le_rfl
    simp only [Option.some.injEq, Prod.mk.injEq] at h
    obtain ⟨rfl, rfl⟩ := h
    exact ⟨le_iff_sdist.mp h1, by rw [r1]; rfl, r2, r3, r4⟩
  · right; left
    simp only [Option.some.injEq, Prod.mk.injEq] at h
    exact ⟨sdist_pos_of_not_le h1, h2, h.1.symm, h.2.symm⟩
  · right; right
    have hgt := sdist_pos_of_not_le h1
    rw [show f.root.first = f.held.head? from first_eq_head? f.root] at h
    rcases hheld : f.held with _ | ⟨d, ds⟩
    · rw [hheld] at h; simp at h
    · rw [hheld] at h
      simp only [List.head?_cons] at h
      split_ifs at h with h3
      · left
        simp only [Option.some.injEq, Prod.mk.injEq] at h
        exact ⟨hgt, h2, d, ds, rfl, h3, h.1.symm, h.2.symm⟩
      · right
        simp only [Option.some.injEq, Prod.mk.injEq] at h
        exact ⟨hgt, h2, ⟨d, ds, rfl, h3⟩, h.1.symm, h.2.symm⟩

/-- The buffer on which `rc_handle_packet` calls `insert_or_send_packet`, if it does. -/
def insertion (fbuf : RcFlowbuf) (p : Packet) : Option RcFlowbuf :=
  if before p.seq fbuf.expectedNext || p.seq == fbuf.expectedNext then none
  else if fbuf.size < fbufSiz then some fbuf
  else
    match fbuf.root.first with
    | none => none
    | some first => if first.seq ≤ p.seq then some (sendPacketAt fbuf first) else none

/-- **Sending, then inserting**: the segments sent are the first of those held, and the packet is
inserted behind them or not at all. -/
theorem lowestFirst_split {f f' : RcFlowbuf} {p : Packet} {e : Effect}
    (h : lowestFirst f p = some (f', e)) : ∃ kept, f.held = e.sent ++ kept ∧
      ((insertion f p = none ∧ f'.held = kept ∧ e.counted = 0) ∨
        ∃ g, insertion f p = some g ∧ g.held = kept ∧
          f' = (insertOrSendPacket g p.seq p.psize).1 ∧
          e.counted = (insertOrSendPacket g p.seq p.psize).2) := by
  unfold insertion
  rcases lowestFirst_cases h with ⟨hle, rfl, hheld, -, -⟩ | ⟨hgt, hlt, rfl, rfl⟩ |
    ⟨hgt, hnlt, d, ds, hheld, hlow, rfl, rfl⟩ | ⟨hgt, hnlt, ⟨d, ds, hheld, hlow⟩, rfl, rfl⟩
  · rw [if_pos (le_iff_sdist.mpr hle)]
    exact ⟨_, (chain_append (nextAfter p) f.held).symm, Or.inl ⟨rfl, hheld, rfl⟩⟩
  · rw [if_neg (mt le_iff_sdist.mp (not_le.mpr hgt)), if_pos hlt]
    exact ⟨f.held, rfl, Or.inr ⟨f, rfl, rfl, rfl, rfl⟩⟩
  · rw [if_neg (mt le_iff_sdist.mp (not_le.mpr hgt)), if_neg hnlt,
      show f.root.first = f.held.head? from first_eq_head? f.root, hheld]
    refine ⟨ds, rfl, Or.inr ⟨sendPacketAt f d, if_pos hlow, ?_, rfl, rfl⟩⟩
    rw [sendPacketAt_held, hheld, List.tail_cons]
  · rw [if_neg (mt le_iff_sdist.mp (not_le.mpr hgt)), if_neg hnlt,
      show f'.root.first = f'.held.head? from first_eq_head? f'.root, hheld]
    exact ⟨d :: ds, rfl, Or.inl ⟨if_neg hlow, rfl, rfl⟩⟩

/-- **The tree stays ascending** if the packet, should it be inserted, is near all numbers held at
that moment. -/
theorem ascending_step {f f' : RcFlowbuf} {p : Packet} {e : Effect}
    (ha : Ascending RcFlowdata.seq f.held)
    (hn : ∀ g, insertion f p = some g → ∀ x ∈ g.held, Near p.seq x.seq)
    (h : lowestFirst f p = some (f', e)) : Ascending RcFlowdata.seq f'.held := by
  obtain ⟨kept, hheld, hcase⟩ := lowestFirst_split h
  rw [hheld] at ha
  rcases hcase with ⟨-, hkept, -⟩ | ⟨g, hg, hkept, rfl, -⟩
  · rw [hkept]
    exact ha.append_right
  · rw [insertOrSendPacket_held]
    refine ascending_insertSeq ?_ (hn g hg) rfl (retransmit_seq _)
    rw [← RcFlowbuf.held, hkept]
    exact ha.append_right

/-- What is held at an insertion was held before. -/
theorem mem_of_insertion {f g : RcFlowbuf} {p : Packet} (h : insertion f p = some g)
    {x : RcFlowdata} (hx : x ∈ g.held) : x ∈ f.held := by
  unfold insertion at h
  split_ifs at h with h1 h2
  · cases h
    exact hx
  · split at h
    · cases h
    · split_ifs at h
      cases h
      rw [sendPacketAt_held] at hx
      exact List.mem_of_mem_tail hx

/-! ### The size of the buffer -/

/-- The stored size is the number of nodes, at most `FBUF_SIZ`. -/
def Sized (f : RcFlowbuf) : Prop := f.size = BitVec.ofNat 32 f.held.length ∧ f.held.length ≤ 1024

theorem Sized.lt_iff {f : RcFlowbuf} (h : Sized f) : f.size < fbufSiz ↔ f.held.length < 1024 := by
  have hlen := h.2
  rw [h.1, fbufSiz, BitVec.lt_def, BitVec.toNat_ofNat, Nat.mod_eq_of_lt (by omega)]
  rfl

theorem Sized.eq_iff {f : RcFlowbuf} (h : Sized f) : f.size = fbufSiz ↔ ¬ f.size < fbufSiz := by
  have hlen := h.2
  constructor
  · intro heq
    rw [heq]
    exact BitVec.lt_irrefl _
  · intro hlt
    rw [h.lt_iff] at hlt
    rw [h.1, show f.held.length = 1024 by omega]
    rfl

theorem Sized.insert {f : RcFlowbuf} (h : Sized f) (hlt : f.held.length < 1024) (seq : U32)
    (segSize : U16) : Sized (insertOrSendPacket f seq segSize).1 := by
  obtain ⟨n, hn, hlen, hsize, -⟩ := insertOrSendPacket_size f seq segSize
  refine ⟨?_, by omega⟩
  rw [hsize, hlen, h.1, BitVec.ofNat_add]

theorem Sized.send {f : RcFlowbuf} (h : Sized f) {d : RcFlowdata} {ds : List RcFlowdata}
    (hheld : f.held = d :: ds) : Sized (sendPacketAt f d) := by
  have hlen := h.2
  refine ⟨?_, ?_⟩
  · rw [sendPacketAt_held, hheld, List.tail_cons,
      show (sendPacketAt f d).size = f.size - 1 from rfl,
      h.1, hheld, List.length_cons, BitVec.ofNat_add]
    exact add_sub_cancel_right _ _
  · rw [sendPacketAt_held, hheld, List.tail_cons]
    rw [hheld, List.length_cons] at hlen
    omega

/-- **A full buffer is not empty**: on a sized buffer no packet faults, and the buffer stays sized.
-/
theorem keeps_sized : handler.Keeps Sized where
  fresh p := ⟨rfl, Nat.zero_le _⟩
  step f p hf := by
    show ∃ f' e, lowestFirst f p = some (f', e) ∧ Sized f'
    have hdef : ∃ f' e, lowestFirst f p = some (f', e) := by
      unfold lowestFirst
      split_ifs with h1 h2
      · exact ⟨_, _, rfl⟩
      · exact ⟨_, _, rfl⟩
      · rw [show f.root.first = f.held.head? from first_eq_head? f.root]
        rcases hheld : f.held with _ | ⟨d, ds⟩
        · exact absurd (hf.lt_iff.mpr (by rw [hheld]; decide)) h2
        · simp only [List.head?_cons]
          split_ifs <;> exact ⟨_, _, rfl⟩
    obtain ⟨f', e, h⟩ := hdef
    refine ⟨f', e, h, ?_⟩
    rcases lowestFirst_cases h with ⟨-, -, hheld, -, hsize⟩ | ⟨-, hlt, rfl, -⟩ |
      ⟨-, -, d, ds, hheld, -, rfl, -⟩ | ⟨-, -, -, rfl, -⟩
    · have happ := congrArg List.length (chain_append (nextAfter p) f.held)
      rw [List.length_append] at happ
      have hlen := hf.2
      refine ⟨?_, by rw [hheld]; omega⟩
      rw [hsize, hheld, hf.1, ← happ, Nat.add_comm, BitVec.ofNat_add]
      exact add_sub_cancel_right _ _
    · exact hf.insert (hf.lt_iff.mp hlt) _ _
    · have hs := hf.send hheld
      refine hs.insert ?_ _ _
      have hlen := hf.2
      rw [sendPacketAt_held, hheld, List.tail_cons]
      rw [hheld, List.length_cons] at hlen
      omega
    · exact hf

end DynBandwidth.Reorder.Counter
