import DynBandwidth.Lib.Serial

/-! # Packets and sequence numbers

What the programs of `reordering_buffer/` read from the headers of a packet, and the comparison of
sequence numbers they share (`before` and `after` of `reorder_counter.h` and `nfqueue.h`).

`before` is a comparison of signed distances (`before_iff`), so that facts about sequence numbers
reduce to linear arithmetic once the distances are related by `sdist_add` and bounded by
`sdist_range`. `Near` is the serial distance of at most `2 ^ 30` that the window of a connection
guarantees. -/

namespace DynBandwidth.Reorder.Header

open DynBandwidth.Lib.Serial

abbrev U8 := BitVec 8
abbrev U16 := BitVec 16
abbrev U32 := BitVec 32
abbrev U64 := BitVec 64

def before (seq1 seq2 : U32) : Bool := (seq1 - seq2).toInt < 0

def after (seq2 seq1 : U32) : Bool := before seq1 seq2

/-- Flags of the TCP header. -/
def thFin : U8 := 0x01
def thSyn : U8 := 0x02

/-- The local variables the handlers read from the headers: ports, payload size, sequence number,
TCP flags and IP identification. -/
structure Packet where
  sport : U16
  dport : U16
  psize : U16
  seq : U32
  flags : U8
  ipid : U16
  deriving DecidableEq, Repr, Inhabited

/-- `tcp->th_flags & TH_SYN`. -/
def Packet.syn (p : Packet) : Bool := p.flags &&& thSyn ≠ 0

/-- `tcp->th_flags & TH_FIN`; no program of the directory tests it. -/
def Packet.fin (p : Packet) : Bool := p.flags &&& thFin ≠ 0

/-- `seq + size`, with the 16-bit size widened as C does. -/
def seqEnd (seq : U32) (size : U16) : U32 := seq + size.setWidth 32

/-- `expected_next` after a packet, as the counters compute it: FIN takes no number. -/
def nextAfter (p : Packet) : U32 := if p.syn then p.seq + 1 else seqEnd p.seq p.psize

/-! ### Distances -/

theorem before_iff {a b : U32} : before a b = true ↔ sdist a b < 0 := by
  simp [before, sdist]

theorem not_before_iff {a b : U32} : before a b = false ↔ 0 ≤ sdist a b := by
  rw [← Bool.not_eq_true, before_iff, not_lt]

theorem sdist_range (a b : U32) : -2147483648 ≤ sdist a b ∧ sdist a b < 2147483648 := by
  have h1 := two_mul_sdist_lt a b
  have h2 := le_two_mul_sdist a b
  norm_num at h1 h2
  omega

/-- Distances add up, or are off by one turn. -/
theorem sdist_add (a b c : U32) : sdist a c = sdist a b + sdist b c ∨
    sdist a c = sdist a b + sdist b c + 4294967296 ∨
    sdist a c = sdist a b + sdist b c - 4294967296 := by
  obtain ⟨k, hk⟩ := sdist_triangle a b c
  have h1 := sdist_range a b
  have h2 := sdist_range b c
  have h3 := sdist_range a c
  norm_num at hk
  have hk1 : -2 < k := by omega
  have hk2 : k < 2 := by omega
  obtain rfl | rfl | rfl : k = 0 ∨ k = 1 ∨ k = -1 := by omega
  · left; omega
  · right; left; omega
  · right; right; omega

theorem sdist_swap {a b : U32} (h : -2147483648 < sdist a b) : sdist b a = -sdist a b :=
  sdist_comm (by norm_num; omega)

/-- **Two distances from one base** give the distance between the numbers, up to half a turn. -/
theorem sdist_of_base {a c : U32} (b : U32) (hlo : -2147483648 ≤ sdist a b - sdist c b)
    (hhi : sdist a b - sdist c b < 2147483648) : sdist a c = sdist a b - sdist c b := by
  have h := sdist_add a c b
  have r := sdist_range a c
  omega

theorem before_of_pos {a b : U32} (h : 0 < sdist a b) : before b a = true := by
  rw [before_iff, sdist_swap (by omega)]; omega

/-- **Offsets from one number compare as they are**, up to half a turn. -/
theorem sdist_offset (a : U32) {i j : ℕ} (hi : i < 2147483648) (hj : j < 2147483648) :
    sdist (a + BitVec.ofNat 32 i) (a + BitVec.ofNat 32 j) = i - j := by
  have h : ∀ k : ℕ, a + BitVec.ofNat 32 k = BitVec.ofInt 32 (a.toNat + k) := fun k => by
    rw [BitVec.ofInt_add]
    simp
  rw [h, h, sdist_ofInt (by norm_num; omega) (by norm_num; omega)]
  ring

/-- In the lower half of the circle the distance is the difference of the numbers. -/
theorem sdist_eq_sub {a b : U32} (ha : a.toNat < 2147483648) (hb : b.toNat < 2147483648) :
    sdist a b = a.toNat - b.toNat := by
  have h := sdist_offset 0 ha hb
  rwa [zero_add, zero_add, BitVec.ofNat_toNat, BitVec.ofNat_toNat, BitVec.setWidth_eq,
    BitVec.setWidth_eq] at h

/-- A segment ends its size behind its sequence number. -/
theorem sdist_seqEnd (seq : U32) (size : U16) : sdist (seqEnd seq size) seq = size.toNat := by
  have hlt := size.isLt
  unfold sdist seqEnd
  rw [add_sub_cancel_left, BitVec.toInt_eq_toNat_of_lt] <;> simp <;> omega

theorem nextAfter_eq {p : Packet} (h : p.syn = false) : nextAfter p = seqEnd p.seq p.psize := by
  rw [nextAfter, h, if_neg (by simp)]

theorem sdist_nextAfter (p : Packet) :
    0 ≤ sdist (nextAfter p) p.seq ∧ sdist (nextAfter p) p.seq ≤ 65535 := by
  unfold nextAfter
  split_ifs
  · have : sdist (p.seq + 1) p.seq = 1 := by unfold sdist; rw [add_sub_cancel_left]; decide
    omega
  · have := sdist_seqEnd p.seq p.psize
    have := p.psize.isLt
    omega

/-- **Neither before nor after means equal.** -/
theorem eq_of_not_before {a b : U32} (h1 : before a b = false) (h2 : before b a = false) :
    a = b := by
  rw [not_before_iff] at h1 h2
  have h := sdist_swap (a := a) (b := b) (by omega)
  exact sdist_eq_zero.mp (by omega)

/-- Behind and not equal is strictly after. -/
theorem sdist_pos_of_not_le {a b : U32} (h : ¬ (before a b || a == b) = true) : 0 < sdist a b := by
  simp only [Bool.or_eq_true, before_iff, beq_iff_eq, not_or, not_lt] at h
  have h0 : sdist a b ≠ 0 := fun h0 => h.2 (sdist_eq_zero.mp h0)
  omega

theorem le_iff_sdist {a b : U32} : (before a b || a == b) = true ↔ sdist a b ≤ 0 := by
  rw [Bool.or_eq_true, before_iff, beq_iff_eq, ← sdist_eq_zero]
  omega

/-- Serial distance at most `2 ^ 30`. -/
def Near (a b : U32) : Prop := -1073741824 ≤ sdist a b ∧ sdist a b ≤ 1073741824

instance (a b : U32) : Decidable (Near a b) := by unfold Near; infer_instance

theorem near_self (a : U32) : Near a a := by
  rw [Near, sdist_self]; omega

theorem Near.symm {a b : U32} (h : Near a b) : Near b a := by
  have e := sdist_swap (a := a) (b := b) (by have := h.1; omega)
  unfold Near at h ⊢
  omega

/-- **Behind `e`, in order**: for numbers near a base that `e` follows by less than a segment, what
is after a number strictly after `e` is strictly after `e` as well. -/
theorem sdist_pos_trans {e b x y : U32} (h0 : 0 ≤ sdist e b) (h1 : sdist e b ≤ 65535)
    (hx : Near x b) (hy : Near y b) (hxy : 0 < sdist y x) (h : 0 < sdist x e) : 0 < sdist y e := by
  have e1 := sdist_add y b e
  have e2 := sdist_add x b e
  have e3 := sdist_add y x b
  have r1 := sdist_range y e
  have r2 := sdist_range x e
  have r3 := sdist_range y x
  have e4 := sdist_swap (a := e) (b := b) (by omega)
  unfold Near at hx hy
  omega

end DynBandwidth.Reorder.Header
