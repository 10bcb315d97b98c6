import DynBandwidth.Tbf.Kernel

/-! # Queueing disciplines

What the schedulers of the kernel share: packets, the results of an enqueue, and the operations by
which one discipline uses another inside it. These follow the review at the top of `sch_api.c`:
enqueue "returns 0, if packet was enqueued successfully", peek is "like dequeue but without removing
a packet from the queue", and reset will "purge all buffers, clear all timers, counters (except for
statistics)". The helpers that `sch_fifo.c` calls to move a packet into its queue and out of it are
in a header of the kernel that the repository does not have; they are written here from their names
and from this review.

The byte queue of `sch_fifo.c` is the discipline that a token bucket starts with. It is a queue
(`bfifoOps_isQueue`), and a packet that was shown stays at its front (`bfifoOps_holds`). What the
theorems about a token bucket need of the discipline inside is a named hypothesis: that it yields
what it showed (`QdiscOps.Faithful`), that what it showed stays at the front (`QdiscOps.Holds`), or
that it is a queue (`QdiscOps.IsQueue`). -/

namespace DynBandwidth.Sched.Qdisc

open DynBandwidth.Lib.Bytes
open DynBandwidth.Reorder.Header (U32 U64)

/-- A packet; `len` is `qdisc_pkt_len`. -/
structure Skb where
  id : ℕ
  len : U32
  deriving DecidableEq, Repr, Inhabited

/-- `NET_XMIT_SUCCESS`, `NET_XMIT_DROP` ("this packet dropped"), `NET_XMIT_CN` ("probably this
packet enqueued, but another one dropped"), and `NET_XMIT_SUCCESS | __NET_XMIT_BYPASS`. All but the
first count as a drop (`net_xmit_drop_count`). -/
inductive Xmit
  | success
  | drop
  | cn
  | bypass
  deriving DecidableEq, Repr

/-- What the schedulers ask about packets that stand for several segments. A packet that cannot be
segmented has no segments. -/
structure Gso where
  isGso : Skb → Bool
  validateMacLen : Skb → U32 → Bool
  segment : Skb → List Skb

/-- The operations of a discipline inside another one, at a time. `peek` may take the packet out of
its queue and put it aside, which is where `dequeuePeeked` finds it. -/
structure QdiscOps (σ : Type) where
  enqueue : U64 → σ → Skb → σ × Xmit
  peek : U64 → σ → σ × Option Skb
  dequeuePeeked : U64 → σ → σ × Option Skb
  reset : σ → σ
  fifoSetLimit : σ → U32 → Except ℤ σ
  fifoCreateDflt : U32 → Except ℤ σ

/-- What is put aside by `peek` is what `dequeuePeeked` yields. -/
def QdiscOps.Faithful {σ : Type} (ops : QdiscOps σ) : Prop := ∀ now c skb,
  (ops.peek now c).2 = some skb → (ops.dequeuePeeked now (ops.peek now c).1).2 = some skb

/-- A packet that was shown is at the front, whatever arrives, until it is taken. -/
structure QdiscOps.Holds {σ : Type} (ops : QdiscOps σ) (front : σ → Option Skb) : Prop where
  peek : ∀ {now c skb}, (ops.peek now c).2 = some skb → front (ops.peek now c).1 = some skb
  again : ∀ {now c skb}, front c = some skb → ops.peek now c = (c, some skb)
  enqueue : ∀ {now c skb skb'}, front c = some skb → front (ops.enqueue now c skb').1 = some skb
  dequeue : ∀ {now c skb}, front c = some skb → (ops.dequeuePeeked now c).2 = some skb

theorem QdiscOps.Holds.faithful {σ : Type} {ops : QdiscOps σ} {front : σ → Option Skb}
    (h : ops.Holds front) : ops.Faithful := fun _ _ _ hp => h.dequeue (h.peek hp)

/-- A discipline that is a queue: what it takes goes to the end, what it yields is its front, and
nothing is lost but by a reset. -/
structure QdiscOps.IsQueue {σ : Type} (ops : QdiscOps σ) (held : σ → List Skb) : Prop where
  enqueue : ∀ now c skb, held (ops.enqueue now c skb).1 =
    held c ++ if (ops.enqueue now c skb).2 = .success then [skb] else []
  peek : ∀ now c, held (ops.peek now c).1 = held c ∧ (ops.peek now c).2 = (held c).head?
  dequeue : ∀ now c, held (ops.dequeuePeeked now c).1 = (held c).tail ∧
    (ops.dequeuePeeked now c).2 = (held c).head?
  reset : ∀ c, held (ops.reset c) = []
  fifoSetLimit : ∀ {c limit c'}, ops.fifoSetLimit c limit = .ok c' → held c' = held c
  fifoCreateDflt : ∀ {limit c}, ops.fifoCreateDflt limit = .ok c → held c = []

theorem QdiscOps.IsQueue.faithful {σ : Type} {ops : QdiscOps σ} {held : σ → List Skb}
    (h : ops.IsQueue held) : ops.Faithful := fun now c skb hp => by
  rw [(h.dequeue now _).2, (h.peek now c).1, ← (h.peek now c).2]
  exact hp

/-- A discipline of one kind or another; what is created is of the second kind. -/
def QdiscOps.sum {σ τ : Type} (ops : QdiscOps σ) (ops' : QdiscOps τ) : QdiscOps (σ ⊕ τ) where
  enqueue now
    | .inl c, skb => (.inl (ops.enqueue now c skb).1, (ops.enqueue now c skb).2)
    | .inr c, skb => (.inr (ops'.enqueue now c skb).1, (ops'.enqueue now c skb).2)
  peek now
    | .inl c => (.inl (ops.peek now c).1, (ops.peek now c).2)
    | .inr c => (.inr (ops'.peek now c).1, (ops'.peek now c).2)
  dequeuePeeked now
    | .inl c => (.inl (ops.dequeuePeeked now c).1, (ops.dequeuePeeked now c).2)
    | .inr c => (.inr (ops'.dequeuePeeked now c).1, (ops'.dequeuePeeked now c).2)
  reset
    | .inl c => .inl (ops.reset c)
    | .inr c => .inr (ops'.reset c)
  fifoSetLimit
    | .inl c, limit => (ops.fifoSetLimit c limit).map .inl
    | .inr c, limit => (ops'.fifoSetLimit c limit).map .inr
  fifoCreateDflt limit := (ops'.fifoCreateDflt limit).map .inr

theorem QdiscOps.Faithful.sum {σ τ : Type} {ops : QdiscOps σ} {ops' : QdiscOps τ}
    (h : ops.Faithful) (h' : ops'.Faithful) : (ops.sum ops').Faithful := by
  rintro now (c | c) skb hp
  · exact h now c skb hp
  · exact h' now c skb hp

/-- The discipline inside, `none` for `noop_qdisc`, which takes nothing. -/
def qdiscEnqueue {σ : Type} (ops : QdiscOps σ) (now : U64) (q : Option σ) (skb : Skb) :
    Option σ × Xmit :=
  match q with
  | none => (none, .cn)
  | some c => (some (ops.enqueue now c skb).1, (ops.enqueue now c skb).2)

def qdiscPeek {σ : Type} (ops : QdiscOps σ) (now : U64) : Option σ → Option σ × Option Skb
  | none => (none, none)
  | some c => (some (ops.peek now c).1, (ops.peek now c).2)

def qdiscDequeuePeeked {σ : Type} (ops : QdiscOps σ) (now : U64) : Option σ → Option σ × Option Skb
  | none => (none, none)
  | some c => (some (ops.dequeuePeeked now c).1, (ops.dequeuePeeked now c).2)

/-! ### Events -/

/-- What happens to a discipline, with the time of the event. -/
inductive Event
  | enqueue (now : U64) (skb : Skb)
  | dequeue (now : U64)
  | change (now : U64) (opt : List Byte)
  | reset (now : U64)

def Event.now : Event → U64
  | .enqueue now _ => now
  | .dequeue now => now
  | .change now _ => now
  | .reset now => now

/-! ### `sch_fifo.c` -/

/-- A first-in first-out queue with its statistics. -/
structure Fifo where
  q : List Skb
  qlen : U32
  backlog : U32
  limit : U32
  drops : U32
  deriving DecidableEq, Repr

/-- `qdisc_enqueue_tail`: the packet goes to the end, and is counted. -/
def qdiscEnqueueTail (f : Fifo) (skb : Skb) : Fifo :=
  { f with q := f.q ++ [skb], qlen := f.qlen + 1, backlog := f.backlog + skb.len }

/-- `bfifo_enqueue`. -/
def bfifoEnqueue (f : Fifo) (skb : Skb) : Fifo × Xmit :=
  if f.backlog + skb.len ≤ f.limit then (qdiscEnqueueTail f skb, .success)
  else ({ f with drops := f.drops + 1 }, .drop)

/-- `qdisc_dequeue_head`: the packet at the front is taken, and no longer counted. -/
def qdiscDequeueHead (f : Fifo) : Fifo × Option Skb :=
  match f.q with
  | [] => (f, none)
  | skb :: q => ({ f with q := q, qlen := f.qlen - 1, backlog := f.backlog - skb.len }, some skb)

/-- `qdisc_reset_queue`: all buffers are purged. -/
def qdiscResetQueue (f : Fifo) : Fifo := { f with q := [], qlen := 0, backlog := 0 }

/-- `bfifo_qdisc_ops`; nothing is put aside by `qdisc_peek_head`. -/
def bfifoOps : QdiscOps Fifo where
  enqueue _ := bfifoEnqueue
  peek _ f := (f, f.q.head?)
  dequeuePeeked _ := qdiscDequeueHead
  reset := qdiscResetQueue
  fifoSetLimit f limit := .ok { f with limit := limit }
  fifoCreateDflt limit := .ok ⟨[], 0, 0, limit, 0⟩

theorem bfifoOps_holds : bfifoOps.Holds fun f => f.q.head? where
  peek h := h
  again h := Prod.ext rfl h
  enqueue {_ f skb skb'} h := by
    obtain ⟨q, hq⟩ := List.head?_eq_some_iff.mp h
    simp only [bfifoOps, bfifoEnqueue]
    split_ifs <;> simp [qdiscEnqueueTail, hq]
  dequeue {_ f skb} h := by
    obtain ⟨q, hq⟩ := List.head?_eq_some_iff.mp h
    simp [bfifoOps, qdiscDequeueHead, hq]

theorem bfifoOps_isQueue : bfifoOps.IsQueue Fifo.q where
  enqueue _ f skb := by
    simp only [bfifoOps, bfifoEnqueue]
    split_ifs <;> simp_all [qdiscEnqueueTail]
  peek _ _ := ⟨rfl, rfl⟩
  dequeue _ f := by
    obtain ⟨q, qlen, backlog, limit, drops⟩ := f
    cases q <;> exact ⟨rfl, rfl⟩
  reset _ := rfl
  fifoSetLimit h := by cases h; rfl
  fifoCreateDflt h := by cases h; rfl

/-- The bytes of a list of packets. -/
def bytesOf (l : List Skb) : ℕ := (l.map fun skb => skb.len.toNat).sum

@[simp] theorem bytesOf_nil : bytesOf [] = 0 := rfl

@[simp] theorem bytesOf_cons (skb : Skb) (l : List Skb) :
    bytesOf (skb :: l) = skb.len.toNat + bytesOf l := List.sum_cons

@[simp] theorem bytesOf_append (l l' : List Skb) : bytesOf (l ++ l') = bytesOf l + bytesOf l' := by
  simp [bytesOf]

/-- The counters of a queue say what it holds, in 32 bits. -/
structure Counted (held : List Skb) (qlen backlog : U32) : Prop where
  qlen : qlen = BitVec.ofNat 32 held.length
  backlog : backlog = BitVec.ofNat 32 (bytesOf held)

theorem counted_nil : Counted [] 0 0 := ⟨rfl, rfl⟩

section Counted
variable {held : List Skb} {qlen backlog : U32}

theorem Counted.snoc (h : Counted held qlen backlog) (skb : Skb) :
    Counted (held ++ [skb]) (qlen + 1) (backlog + skb.len) := by
  refine ⟨?_, ?_⟩
  · rw [h.qlen, List.length_append, List.length_singleton, BitVec.ofNat_add]
    rfl
  · rw [h.backlog, bytesOf_append, bytesOf_cons, bytesOf_nil, BitVec.ofNat_add, Nat.add_zero,
      BitVec.ofNat_toNat, BitVec.setWidth_eq]

theorem Counted.tail {skb : Skb} (h : Counted (skb :: held) qlen backlog) :
    Counted held (qlen - 1) (backlog - skb.len) := by
  refine ⟨?_, ?_⟩
  · rw [h.qlen, List.length_cons, BitVec.ofNat_add]
    exact add_sub_cancel_right _ _
  · rw [h.backlog, bytesOf_cons, BitVec.ofNat_add, BitVec.ofNat_toNat, BitVec.setWidth_eq]
    exact add_sub_cancel_left _ _

end Counted

end DynBandwidth.Sched.Qdisc
