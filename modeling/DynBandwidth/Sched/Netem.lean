import DynBandwidth.Lib.RbTree
import DynBandwidth.Lib.Signed
import DynBandwidth.Sched.Qdisc

/-! # The network emulator of the kernel

`sch_netem.c`: packets are lost, duplicated, corrupted, delayed and put into a queue that is sorted
by the time at which they may leave. The queue is a linear list and, for packets that would have to
be inserted before its end, a red-black tree.

Random numbers are the elements of a sequence; the state counts how many have been drawn. What makes
the kernel stop is `none`: a division by zero, in `tabledist` or by the length of an empty head of a
packet that is corrupted. The discipline that could be grafted inside the emulator is `NULL`, as it
is after `netem_init`, and the branches of `netem_dequeue` and `netem_reset` for it are left out. -/

namespace DynBandwidth.Sched.Netem

open DynBandwidth.Lib.Bytes DynBandwidth.Lib.Attributes DynBandwidth.Lib.RbTree
open DynBandwidth.Lib.Signed
open DynBandwidth.Tbf.Uapi DynBandwidth.Tbf.Kernel
open DynBandwidth.Sched.Qdisc
open DynBandwidth.Reorder.Header (U8 U16 U32 U64)

/-! ### State -/

/-- `struct crndstate`. -/
structure Crndstate where
  last : U32
  rho : U32
  deriving DecidableEq, Repr

inductive LossModel
  | random
  | fourStates
  | gilbEll
  deriving DecidableEq, Repr

/-- `struct clgstate`; the state is one of the four, or of the two, of the model. -/
structure Clgstate where
  state : U8
  a1 : U32
  a2 : U32
  a3 : U32
  a4 : U32
  a5 : U32
  deriving DecidableEq, Repr

def txInGapPeriod : U8 := 1
def txInBurstPeriod : U8 := 2
def lostInGapPeriod : U8 := 3
def lostInBurstPeriod : U8 := 4

def goodState : U8 := 1
def badState : U8 := 2

/-- `struct tc_netem_slot`. -/
structure TcNetemSlot where
  minDelay : U64
  maxDelay : U64
  maxPackets : U32
  maxBytes : U32
  distDelay : U64
  distJitter : U64
  deriving DecidableEq, Repr

/-- `struct slotstate`. -/
structure Slotstate where
  slotNext : U64
  packetsLeft : U32
  bytesLeft : U32
  deriving DecidableEq, Repr

/-- What `NetemSchedData` leaves open, and the number of random numbers drawn so far. -/
structure Rest where
  delayCor : Crndstate
  lossCor : Crndstate
  dupCor : Crndstate
  reorderCor : Crndstate
  corruptCor : Crndstate
  delayDist : Option (List U16)
  slotDist : Option (List U16)
  lossModel : LossModel
  clg : Clgstate
  slotConfig : TcNetemSlot
  slot : Slotstate
  draws : ℕ
  deriving DecidableEq, Repr

/-- The parameters of the emulator. -/
abbrev Data := NetemSchedData Rest

/-- A packet with its time to send. -/
structure Stamped where
  skb : Skb
  timeToSend : U64
  deriving DecidableEq, Repr

/-- An emulator: its parameters, the time-ordered queue (the tree and the list), the packets that
are to leave at once (`sch->q`), the packet that was shown to the discipline above, and its
counters. -/
structure NetemSched where
  data : Data
  tRoot : RbNode Stamped
  tQueue : List Stamped
  q : List Stamped
  gsoSkb : Option Skb
  watchdog : Option U64
  qlen : U32
  backlog : U32
  drops : U32
  requeues : U32

/-- The rest of the kernel: random numbers, the clock of the schedulers, the bytes at the head of a
packet (`skb_headlen`), and what may go wrong with a packet. -/
structure Env where
  prandom : ℕ → U32
  ticks2ns : U32 → U64
  gso : Gso
  headlen : Skb → U32
  ecnSetCe : Skb → Bool
  cloneOk : Skb → Bool
  unshareOk : Skb → Bool
  checksumOk : Skb → Bool

/-- A kernel whose tick is 64 nanoseconds, in which nothing goes wrong. -/
def Env.plain : Env where
  prandom _ := 0
  ticks2ns ticks := ticks.setWidth 64 <<< 6
  gso := ⟨fun _ => false, fun _ _ => false, fun _ => []⟩
  headlen _ := 14
  ecnSetCe _ := false
  cloneOk _ := true
  unshareOk _ := true
  checksumOk _ := true

section Model
variable (e : Env)

/-! ### Random numbers -/

/-- `init_crandom`, with the random number it draws. -/
def initCrandom (rho rnd : U32) : Crndstate := ⟨rnd, rho⟩

/-- `get_crandom`, with the random number it draws. -/
def getCrandom (state : Crndstate) (rnd : U32) : U32 × Crndstate :=
  if state.rho = 0 then (rnd, state)
  else
    let rho : U64 := state.rho.setWidth 64 + 1
    let answer : U64 :=
      (rnd.setWidth 64 * (4294967296 - rho) + state.last.setWidth 64 * rho) >>> 32
    (answer.setWidth 32, { state with last := answer.setWidth 32 })

/-- The number a generator of the emulator gives next. -/
def Rest.rnd (r : Rest) : U32 := e.prandom r.draws

/-- `loss_4state`. -/
def loss4state (clg : Clgstate) (rnd : U32) : Bool × Clgstate :=
  if clg.state = txInGapPeriod then
    if rnd < clg.a4 then (true, { clg with state := lostInBurstPeriod })
    else if clg.a4 < rnd ∧ rnd < clg.a1 + clg.a4 then (true, { clg with state := lostInGapPeriod })
    else if clg.a1 + clg.a4 < rnd then (false, { clg with state := txInGapPeriod })
    else (false, clg)
  else if clg.state = txInBurstPeriod then
    if rnd < clg.a5 then (true, { clg with state := lostInGapPeriod })
    else (false, { clg with state := txInBurstPeriod })
  else if clg.state = lostInGapPeriod then
    if rnd < clg.a3 then (false, { clg with state := txInBurstPeriod })
    else if clg.a3 < rnd ∧ rnd < clg.a2 + clg.a3 then (false, { clg with state := txInGapPeriod })
    else if clg.a2 + clg.a3 < rnd then (true, { clg with state := lostInGapPeriod })
    else (false, clg)
  else if clg.state = lostInBurstPeriod then (false, { clg with state := txInGapPeriod })
  else (false, clg)

/-- `loss_gilb_ell`, with the two random numbers it draws. -/
def lossGilbEll (clg : Clgstate) (rnd rnd' : U32) : Bool × Clgstate :=
  if clg.state = goodState then
    (rnd' < clg.a4, if rnd < clg.a1 then { clg with state := badState } else clg)
  else if clg.state = badState then
    (clg.a3 < rnd', if rnd < clg.a2 then { clg with state := goodState } else clg)
  else (false, clg)

/-- `loss_event`. -/
def lossEvent (q : Data) : Bool × Data :=
  match q.rest.lossModel with
  | .random =>
    if q.loss = 0 then (false, q)
    else
      let r := getCrandom q.rest.lossCor (q.rest.rnd e)
      (r.1 ≤ q.loss, { q with rest := { q.rest with lossCor := r.2, draws := q.rest.draws + 1 } })
  | .fourStates =>
    let r := loss4state q.rest.clg (q.rest.rnd e)
    (r.1, { q with rest := { q.rest with clg := r.2, draws := q.rest.draws + 1 } })
  | .gilbEll =>
    let r := lossGilbEll q.rest.clg (q.rest.rnd e) (e.prandom (q.rest.draws + 1))
    let draws :=
      if q.rest.clg.state = goodState ∨ q.rest.clg.state = badState then q.rest.draws + 2
      else q.rest.draws
    (r.1, { q with rest := { q.rest with clg := r.2, draws := draws } })

/-- The packet is to be duplicated. -/
def dupEvent (q : Data) : Bool × Data :=
  if q.duplicate = 0 then (false, q)
  else
    let r := getCrandom q.rest.dupCor (q.rest.rnd e)
    (r.1 ≤ q.duplicate, { q with rest := { q.rest with dupCor := r.2, draws := q.rest.draws + 1 } })

/-- The packet is to be corrupted. -/
def corruptEvent (q : Data) : Bool × Data :=
  if q.corrupt = 0 then (false, q)
  else
    let r := getCrandom q.rest.corruptCor (q.rest.rnd e)
    (r.1 ≤ q.corrupt,
      { q with rest := { q.rest with corruptCor := r.2, draws := q.rest.draws + 1 } })

/-- The packet is to be put at the front: one out of `gap` packets, with some probability. -/
def reorderEvent (q : Data) : Bool × Data :=
  if q.gap = 0 ∨ q.counter < q.gap - 1 then (false, q)
  else
    let r := getCrandom q.rest.reorderCor (q.rest.rnd e)
    (¬ q.reorder < r.1,
      { q with rest := { q.rest with reorderCor := r.2, draws := q.rest.draws + 1 } })

/-! ### Delays -/

/-- `NETEM_DIST_SCALE`. -/
def netemDistScale : U64 := 8192

/-- `tabledist` for a `sigma` that is not zero, with the random number it draws. It divides by zero
if twice the `sigma` has no bit left, or if the table is empty. -/
def tabledist (mu : U64) (sigma rnd : U32) : Option (List U16) → Option U64
  | none =>
    if 2 * sigma = 0 then none
    else some ((rnd % (2 * sigma)).setWidth 64 + mu - sigma.signExtend 64)
  | some table => do
    let t ← table[rnd.toNat % table.length]?
    let t : U64 := t.signExtend 64
    let sigma : U64 := sigma.signExtend 64
    let x := sigma.srem netemDistScale * t
    let x := if (0 : U64).sle x then x + 4096 else x - 4096
    return x.sdiv netemDistScale + sigma.sdiv netemDistScale * t + mu

/-- The delay of a packet; the jitter is cut to 32 bits. -/
def delayOf (q : Data) : Option (U64 × Data) :=
  if q.jitter.setWidth 32 = 0 then some (q.latency, q)
  else do
    let r := getCrandom q.rest.delayCor (q.rest.rnd e)
    let delay ← tabledist q.latency (q.jitter.setWidth 32) r.1 q.rest.delayDist
    return (delay, { q with rest := { q.rest with delayCor := r.2, draws := q.rest.draws + 1 } })

/-- `packet_time_ns`. -/
def packetTimeNs (len : U64) (q : Data) : U64 :=
  let len := len + q.packetOverhead.signExtend 64
  let len :=
    if q.cellSize = 0 then len
    else
      let cells := len.setWidth 32 / q.cellSize
      let cells := if (cells * q.cellSize).setWidth 64 < len then cells + 1 else cells
      (cells * (q.cellSize + q.cellOverhead)).setWidth 64
  len * 1000000000 / q.rate

/-- The later one of a time and the time of a packet, if there are any. -/
def later (last : Option U64) (x : Option Stamped) : Option U64 :=
  match x with
  | none => last
  | some x =>
    match last with
    | none => some x.timeToSend
    | some t => if t < x.timeToSend then some x.timeToSend else some t

/-- The time of the last packet. -/
def NetemSched.lastTime (s : NetemSched) : Option U64 :=
  later (later (later none s.q.getLast?) s.tRoot.last) s.tQueue.getLast?

/-- `cb->time_to_send`: with a rate, a packet is sent after the last one. -/
def NetemSched.timeToSend (s : NetemSched) (now delay : U64) (len : U32) : U64 :=
  if s.data.rate = 0 then now + delay
  else
    let r :=
      match s.lastTime with
      | none => (now, delay)
      | some last => (last, maxS64 0 (delay - (last - now)))
    r.1 + (r.2 + packetTimeNs (len.setWidth 64) s.data)

/-! ### Enqueue -/

/-- `qdisc_qstats_drop`. -/
def NetemSched.drop (s : NetemSched) : NetemSched := { s with drops := s.drops + 1 }

/-- `tfifo_enqueue`. -/
def tfifoEnqueue (s : NetemSched) (x : Stamped) : NetemSched :=
  let s := { s with qlen := s.qlen + 1 }
  match s.tQueue.getLast? with
  | none => { s with tQueue := [x] }
  | some tail =>
    if tail.timeToSend ≤ x.timeToSend then { s with tQueue := s.tQueue ++ [x] }
    else
      { s with
        tRoot := (s.tRoot.upsert (fun y => x.timeToSend < y.timeToSend)
          (fun y => y.timeToSend ≤ x.timeToSend) x id).1 }

/-- The part of `netem_enqueue` that puts the packet into a queue. -/
def netemPlace (now : U64) (s : NetemSched) (skb : Skb) : Option NetemSched :=
  let s := { s with backlog := s.backlog + skb.len }
  let (first, data) := reorderEvent e s.data
  if first then
    some { s with
      data := { data with counter := 0 }
      q := ⟨skb, now⟩ :: s.q
      qlen := s.qlen + 1
      requeues := s.requeues + 1 }
  else do
    let (delay, data) ← delayOf e data
    let s := { s with data := { data with counter := data.counter + 1 } }
    return tfifoEnqueue s ⟨skb, s.timeToSend now delay skb.len⟩

/-- The packets of which the first one is corrupted: the segments, or the packet itself. -/
def segmentsOf (skb : Skb) : List Skb := if e.gso.isGso skb then e.gso.segment skb else [skb]

/-- The part of `netem_enqueue` that corrupts a packet: what is left of it, and the segments behind
it, or nothing if it could not be segmented. The first segment keeps the length of the whole packet.
The byte that is flipped is a random number modulo the length of the head, and `none` is a division
by zero. -/
def netemCorrupt (s : NetemSched) (skb : Skb) :
    Option (NetemSched × Option (Option Skb × List Skb)) :=
  let (hit, data) := corruptEvent e s.data
  let s := { s with data := data }
  if hit then
    match segmentsOf e skb with
    | [] => some (s.drop, none)
    | seg :: segs =>
      let seg := { seg with len := skb.len }
      if e.unshareOk seg && e.checksumOk seg then
        if e.headlen seg = 0 then none
        else
          -- the byte and the bit
          let rest := { s.data.rest with draws := s.data.rest.draws + 2 }
          some ({ s with data := { s.data with rest := rest } }, some (some seg, segs))
      else some (s.drop, some (none, segs))
  else some (s, some (some skb, []))

/-- The loop over the segments behind a packet that was corrupted. -/
def netemSegments (enqueue : NetemSched → Skb → Option (NetemSched × Xmit)) :
    List Skb → NetemSched → U32 → Option (NetemSched × U32)
  | [], s, nb => some (s, nb)
  | seg :: segs, s, nb => do
    let (s, rc) ← enqueue s seg
    if rc = .success then netemSegments enqueue segs s (nb + 1)
    else netemSegments enqueue segs s.drop nb

/-- The end of `netem_enqueue`: the segments are enqueued, and counted once more. -/
def finishSegs (enqueue : NetemSched → Skb → Option (NetemSched × Xmit)) (s : NetemSched)
    (segs : List Skb) : Option (NetemSched × Xmit) := do
  let (s, nb) ← netemSegments enqueue segs s 0
  return ({ s with qlen := s.qlen + nb }, .success)

/-- The beginning of `netem_enqueue`: whether the packet is duplicated, and whether it is lost. A
packet that can be marked is not lost. -/
def netemCount (s : NetemSched) (skb : Skb) : NetemSched × Bool × Bool :=
  let (dup, data) := dupEvent e s.data
  let (lost, data) := lossEvent e data
  let s := { s with data := data }
  if lost && (data.ecn ≠ 0 && e.ecnSetCe skb) then (s.drop, dup, false) else (s, dup, lost)

/-- A duplicate goes in at the top, with duplication switched off. -/
def netemClone (enqueue : NetemSched → Skb → Option (NetemSched × Xmit)) (clones : Bool)
    (s : NetemSched) (skb : Skb) : Option NetemSched :=
  if clones then
    (enqueue { s with data := { s.data with duplicate := 0 } } skb).map fun r =>
      { r.1 with data := { r.1.data with duplicate := s.data.duplicate } }
  else some s

/-- `netem_enqueue`. It calls itself for a duplicate, and for the segments of a packet, which have
no segments; the number bounds the depth, and four suffices. -/
def netemEnqueue (now : U64) : ℕ → NetemSched → Skb → Option (NetemSched × Xmit)
  | 0, _, _ => none
  | n + 1, s, skb =>
    match netemCount e s skb with
    | (s, dup, lost) =>
      if lost && !dup then some (s.drop, .bypass)
      else do
        let clones := dup && (!lost && e.cloneOk skb)
        let s ← netemClone (netemEnqueue now n) clones s skb
        let rcDrop := if clones then Xmit.success else Xmit.drop
        let r ← netemCorrupt e s skb
        match r with
        | (s, none) => some (s, rcDrop)
        | (s, some (none, segs)) => finishSegs (netemEnqueue now n) s segs
        | (s, some (some skb, segs)) =>
          if s.data.limit ≤ s.qlen then some (s.drop, rcDrop)
          else do
            let s ← netemPlace e now s skb
            finishSegs (netemEnqueue now n) s segs

/-! ### Dequeue -/

/-- `next_delay` of `get_slot_next`, and the number of random numbers drawn. -/
def nextDelay (q : Data) : Option (U64 × ℕ) :=
  let c := q.rest.slotConfig
  match q.rest.slotDist with
  | none =>
    let wide : U64 := (q.rest.rnd e).setWidth 64 * (c.maxDelay - c.minDelay)
    some (c.minDelay + wide.sshiftRight 32, q.rest.draws + 1)
  | some dist =>
    if c.distJitter.setWidth 32 = 0 then some (c.distDelay, q.rest.draws)
    else
      (tabledist c.distDelay (c.distJitter.setWidth 32) (q.rest.rnd e) (some dist)).map
        fun delay => (delay, q.rest.draws + 1)

/-- `get_slot_next`. -/
def getSlotNext (now : U64) (q : Data) : Option Data :=
  (nextDelay e q).map fun r =>
    let c := q.rest.slotConfig
    { q with
      rest := { q.rest with draws := r.2, slot := ⟨now + r.1, c.maxPackets, c.maxBytes⟩ } }

/-- Where the next packet is. -/
inductive Lane
  | tree
  | queue
  deriving DecidableEq, Repr

/-- `netem_peek`. -/
def netemPeek (s : NetemSched) : Option (Lane × Stamped) :=
  match s.tRoot.first, s.tQueue.head? with
  | none, none => none
  | none, some y => some (.queue, y)
  | some x, none => some (.tree, x)
  | some x, some y => if x.timeToSend < y.timeToSend then some (.tree, x) else some (.queue, y)

/-- `netem_erase_head`. -/
def netemEraseHead (s : NetemSched) : Lane → NetemSched
  | .tree => { s with tRoot := s.tRoot.eraseFirst }
  | .queue => { s with tQueue := s.tQueue.tail }

/-- The slot when a packet is next: a new one begins if it ends before the time of the packet. -/
def slotBefore (now : U64) (q : Data) (timeToSend : U64) : Option Data :=
  if q.rest.slot.slotNext ≠ 0 ∧ q.rest.slot.slotNext < timeToSend then getSlotNext e now q
  else some q

/-- The slot after a packet has left: a new one begins if it was the last packet or byte. -/
def slotAfter (now : U64) (q : Data) (len : U32) : Option Data :=
  if q.rest.slot.slotNext = 0 then some q
  else
    let packetsLeft := q.rest.slot.packetsLeft - 1
    let bytesLeft := q.rest.slot.bytesLeft - len
    let q := { q with
      rest := { q.rest with slot := ⟨q.rest.slot.slotNext, packetsLeft, bytesLeft⟩ } }
    if packetsLeft.sle 0 || bytesLeft.sle 0 then getSlotNext e now q else some q

/-- `netem_dequeue`. -/
def netemDequeue (now : U64) (s : NetemSched) : Option (NetemSched × Option Skb) :=
  match s.q with
  | x :: q =>
    some ({ s with q := q, qlen := s.qlen - 1, backlog := s.backlog - x.skb.len }, some x.skb)
  | [] =>
    match netemPeek s with
    | none => some (s, none)
    | some (lane, x) => do
      let data ← slotBefore e now s.data x.timeToSend
      if x.timeToSend ≤ now ∧ data.rest.slot.slotNext ≤ now then
        let data ← slotAfter e now data x.skb.len
        return ({ netemEraseHead s lane with
          data := data
          qlen := s.qlen - 1
          backlog := s.backlog - x.skb.len }, some x.skb)
      else
        return ({ s with
          data := data
          watchdog := some (maxU64 x.timeToSend data.rest.slot.slotNext) }, none)

/-- `qdisc_reset` of an emulator, with `netem_reset` and `tfifo_reset`. -/
def netemReset (s : NetemSched) : NetemSched :=
  { s with
    tRoot := .nil
    tQueue := []
    q := []
    gsoSkb := none
    watchdog := none
    qlen := 0
    backlog := 0 }

/-! ### Configuration -/

/-- `NETEM_LOSS_GI`, `NETEM_LOSS_GE`. -/
def netemLossGi : ℕ := 1
def netemLossGe : ℕ := 2

/-- A field of a record of numbers of 32 bits. -/
def word (bs : List Byte) (i : ℕ) : U32 := nlaGetU32 (bs.drop (4 * i))

/-- The loop of `get_loss_clg`, with the error it stops with. -/
def lossClg : List Attr → Rest → Rest × Option ℤ
  | [], r => (r, none)
  | la :: as, r =>
    let d := la.payload
    if nlaType la = netemLossGi then
      if d.length < 20 then (r, some (-einval))
      else
        lossClg as { r with
          lossModel := .fourStates
          clg := ⟨txInGapPeriod, word d 0, word d 1, word d 2, word d 3, word d 4⟩ }
    else if nlaType la = netemLossGe then
      if d.length < 16 then (r, some (-einval))
      else
        lossClg as { r with
          lossModel := .gilbEll
          clg := ⟨goodState, word d 0, word d 1, word d 2, word d 3, r.clg.a5⟩ }
    else (r, some (-einval))

/-- `get_loss_clg`. -/
def getLossClg (bs : List Byte) (r : Rest) : Except ℤ Rest :=
  match lossClg (attrs bs) r with
  | (r, none) => .ok r
  | (_, some err) => .error err

/-- `NETEM_DIST_MAX`. -/
def netemDistMax : ℕ := 16384

/-- `get_dist_table`: numbers of 16 bits. -/
def getDistTable (bs : List Byte) : Except ℤ (List U16) :=
  let n := bs.length / 2
  if netemDistMax < n then .error (-einval)
  else .ok ((List.range n).map fun i => BitVec.ofNat 16 (value ((bs.drop (2 * i)).take 2)))

/-- `get_correlation`. -/
def getCorrelation (bs : List Byte) (r : Rest) : Rest :=
  { r with
    delayCor := initCrandom (word bs 0) (e.prandom r.draws)
    lossCor := initCrandom (word bs 1) (e.prandom (r.draws + 1))
    dupCor := initCrandom (word bs 2) (e.prandom (r.draws + 2))
    draws := r.draws + 3 }

/-- `INT_MAX`. -/
def intMax : U32 := 0x7FFFFFFF

/-- `get_slot`. -/
def getSlot (now : U64) (bs : List Byte) (r : Rest) : Rest :=
  let maxPackets := nlaGetU32 (bs.drop 16)
  let maxBytes := nlaGetU32 (bs.drop 20)
  let c : TcNetemSlot :=
    ⟨nlaGetU64 bs, nlaGetU64 (bs.drop 8), if maxPackets = 0 then intMax else maxPackets,
      if maxBytes = 0 then intMax else maxBytes, nlaGetU64 (bs.drop 24), nlaGetU64 (bs.drop 32)⟩
  let slotNext := if c.minDelay ||| c.maxDelay ||| c.distJitter = 0 then 0 else now
  { r with slotConfig := c, slot := ⟨slotNext, c.maxPackets, c.maxBytes⟩ }

/-- What `netem_change` reads its options with. -/
def Env.kernel (now : U64) : NetemKernel Rest where
  ticks2ns := e.ticks2ns
  randomLoss r := { r with lossModel := .random }
  getLossClg := getLossClg
  getDelayDist bs r := (getDistTable bs).map fun d => { r with delayDist := some d }
  getSlotDist bs r := (getDistTable bs).map fun d => { r with slotDist := some d }
  getCorrelation := getCorrelation e
  initReorderCor rho r :=
    { r with reorderCor := initCrandom rho (r.rnd e), draws := r.draws + 1 }
  initCorruptCor rho r :=
    { r with corruptCor := initCrandom rho (r.rnd e), draws := r.draws + 1 }
  getSlot := getSlot now

/-- What a `netem_change` that fails has done: the loss model is put back, but not the numbers of
the model if it was the model that could not be read, nor the table of the delay. -/
def netemFailed (q : Data) (opt : List Byte) : Data :=
  match netemDecode opt with
  | .error _ => q
  | .ok (_, tb) =>
    match (tb tcaNetemLoss).map fun bs => lossClg (attrs bs) q.rest with
    | some (r, some _) => { q with rest := { q.rest with clg := r.clg } }
    | _ =>
      match (tb tcaNetemDelayDist).map getDistTable with
      | some (.ok d) => { q with rest := { q.rest with delayDist := some d } }
      | _ => q

/-- `netem_change`, with the state it leaves if it fails. -/
def netemConfigure (now : U64) (s : NetemSched) (opt : List Byte) : NetemSched × Option ℤ :=
  match netemChange (e.kernel now) s.data opt with
  | .ok data => ({ s with data := data }, none)
  | .error err => ({ s with data := netemFailed s.data opt }, some err)

/-- A new emulator; the memory is zero. `netem_init` calls `netem_change`, which is the first event
of a run. -/
def netemZero : NetemSched where
  data := ⟨0, 0, 0, 0, 0, 0, 0, 0, 0, 0, 0, 0, 0, 0,
    ⟨⟨0, 0⟩, ⟨0, 0⟩, ⟨0, 0⟩, ⟨0, 0⟩, ⟨0, 0⟩, none, none, .random, ⟨0, 0, 0, 0, 0, 0⟩,
      ⟨0, 0, 0, 0, 0, 0⟩, ⟨0, 0, 0⟩, 0⟩⟩
  tRoot := .nil
  tQueue := []
  q := []
  gsoSkb := none
  watchdog := none
  qlen := 0
  backlog := 0
  drops := 0
  requeues := 0

end Model

end DynBandwidth.Sched.Netem
