import DynBandwidth.Sched.Child
import DynBandwidth.Sched.TbfBooks

/-! # A link with a rate and a delay

The device that the driver `tbfnetem.c` controls has a token bucket at its root and an emulator
inside it. The two can be changed on their own, at any time.

Such a link delays: packets, or the segments into which the token bucket cuts them, leave in the
order of the times at which they arrived plus the latency at that time, and none of them earlier
(`link_delays`). And it shapes: what leaves obeys the rate of the moment, across changes of the rate
and of the latency (`link_conforms`).

An emulator hands a duplicate to the discipline at the root, and tells the disciplines above it
about the segments of a packet that it corrupts. Both would change the token bucket while it waits
for the emulator, and are excluded in these results. -/

namespace DynBandwidth.Sched.Link

open DynBandwidth.Lib.Bytes DynBandwidth.Lib.Runs DynBandwidth.Lib.TimeQueue
open DynBandwidth.Lib.TokenBucket
open DynBandwidth.Tbf.Uapi (TcNetemQopt TcRatespec)
open DynBandwidth.Sched.Parms (plainOptions)
open DynBandwidth.Sched.Qdisc DynBandwidth.Sched.Netem DynBandwidth.Sched.NetemQueue
open DynBandwidth.Sched.NetemRuns (Plain Departed)
open DynBandwidth.Sched.Child DynBandwidth.Sched.Tbf
open DynBandwidth.Reorder.Header (U32 U64)

/-! ### The device -/

/-- What is inside the token bucket: an emulator, or the byte queue. -/
abbrev Inner := Option NetemSched ⊕ Fifo

/-- The rest of the kernel, whose ticks are not so long that tokens would overflow. -/
structure Env where
  netem : Netem.Env
  ticks2ns_lt : ∀ ticks, (netem.ticks2ns ticks).toNat < 2 ^ 62
  ticks2ns_zero : netem.ticks2ns 0 = 0
  rtabListed : TcRatespec → List Byte → Bool

/-- The rest of the kernel, as the token bucket sees it. -/
def Env.tbf (e : Env) : Tbf.Env Inner where
  ticks2ns := e.netem.ticks2ns
  ticks2ns_lt := e.ticks2ns_lt
  rtabListed := e.rtabListed
  gso := e.netem.gso
  ops := (netemOps e.netem).sum bfifoOps

/-- The emulator, unless the kernel has stopped. -/
def emulator : Option Inner → Option NetemSched
  | some (.inl (some s)) => some s
  | _ => none

/-- `netem_change` of the emulator. -/
def configure (e : Env) (now : U64) (opt : List Byte) : Option Inner → Option Inner
  | some (.inl (some s)) => some (.inl (some (netemConfigure e.netem now s opt).1))
  | q => q

/-- What happens to the device: an event of the token bucket, or a change of the emulator. -/
inductive Input
  | event (ev : Event)
  | child (now : U64) (opt : List Byte)

def Input.now : Input → U64
  | .event ev => ev.now
  | .child now _ => now

/-- A device; the packets that were taken in the order in which they are due, and those that left.
-/
structure World where
  dev : TbfShape.World Inner
  line : List Stamped
  left : List (Skb × U64)

/-- A device with a new token bucket and a new emulator. -/
def World.start (now : U64) : World :=
  ⟨TbfShape.World.start now (some (.inl (some netemZero))), [], []⟩

/-- The line when packets enter it, one after the other. -/
def enterAll (now latency : U64) (skbs : List Skb) (line : List Stamped) : List Stamped :=
  skbs.foldl (fun line skb => insertLast tts ⟨skb, now + latency⟩ line) line

/-- The line when the emulator takes packets. -/
def enter (now : U64) (skbs : List Skb) (line : List Stamped) : Option NetemSched → List Stamped
  | none => line
  | some s => enterAll now s.data.latency skbs line

/-- What an event of the token bucket adds to the books. -/
def post (e : Env) (w : World) (dev : TbfShape.World Inner) : Event → World
  | .enqueue now skb =>
    ⟨dev, enter now (TbfBooks.takes e.tbf now w.dev.q skb) w.line (emulator w.dev.q.qdisc), w.left⟩
  | .dequeue now =>
    ⟨dev, w.line, w.left ++ NetemRuns.leaves now (tbfDequeue e.tbf now w.dev.q).2⟩
  | .change _ _ => ⟨dev, w.line, w.left⟩
  | .reset _ => ⟨dev, w.line.take w.left.length, w.left⟩

/-- An input, with the `tbf_change` of this repository. -/
def step (e : Env) (w : World) : Input → Option World
  | .event ev => (TbfShape.step e.tbf false w.dev ev).map fun dev => post e w dev ev
  | .child now opt =>
    some { w with
      dev := { w.dev with
        q := { w.dev.q with qdisc := configure e now opt w.dev.q.qdisc }
        clock := now } }

/-- The clock does not go back, and has 62 bits. -/
def Clocked (w : World) (i : Input) : Prop := w.dev.clock ≤ i.now ∧ i.now.toNat < 2 ^ 62

instance (w : World) (i : Input) : Decidable (Clocked w i) := inferInstanceAs (Decidable (_ ∧ _))

theorem ops_faithful (e : Env) : e.tbf.ops.Faithful :=
  (netemOps_faithful e.netem).sum bfifoOps_isQueue.faithful

/-! ### The rate -/

section Rate
variable {e : Env} {w w' : World} {start : U64}

theorem inv_step (h : TbfShape.Inv start w.dev) {i : Input} (hc : Clocked w i)
    (hs : step e w i = some w') : TbfShape.Inv start w'.dev := by
  cases i with
  | event ev =>
    obtain ⟨dev, hdev, rfl⟩ := Option.map_eq_some_iff.mp hs
    obtain ⟨dev', hdev', hinv⟩ : ∃ dev', TbfShape.step e.tbf false w.dev ev = some dev' ∧
        TbfShape.Inv start dev' := h.step (ops_faithful e) hc
    rw [hdev] at hdev'
    cases hdev'
    cases ev <;> exact hinv
  | child now opt =>
    cases hs
    refine h.quiet ?_ hc.1 hc.2
    exact ⟨rfl, rfl, rfl, rfl, rfl, rfl, rfl, rfl⟩

/-- The input is not a reset of the token bucket. -/
def NoReset : Input → Prop
  | .event (.reset _) => False
  | _ => True

instance : DecidablePred NoReset
  | .event (.enqueue _ _) => isTrue trivial
  | .event (.dequeue _) => isTrue trivial
  | .event (.change _ _) => isTrue trivial
  | .event (.reset _) => isFalse id
  | .child _ _ => isTrue trivial

theorem onlySent_step (h : TbfShape.OnlySent w.dev.log) {i : Input} (hno : NoReset i)
    (hs : step e w i = some w') : TbfShape.OnlySent w'.dev.log := by
  cases i with
  | event ev =>
    obtain ⟨dev, hdev, rfl⟩ := Option.map_eq_some_iff.mp hs
    have hno : TbfShape.NoReset ev := by
      cases ev with
      | reset now => exact hno
      | _ => trivial
    obtain ⟨dev', hdev', honly⟩ := TbfShape.step_onlySent (e := e.tbf) hno h
    rw [hdev] at hdev'
    cases hdev'
    cases ev <;> exact honly
  | child now opt =>
    cases hs
    exact h

/-- When a packet arrives, the emulator makes no other packets of it: it does not duplicate, and has
nothing to segment if it corrupts. -/
def Single (e : Env) (w : World) : Input → Prop
  | .event (.enqueue _ skb) => ∀ s ∈ emulator w.dev.q.qdisc, s.data.duplicate = 0 ∧
      (s.data.corrupt = 0 ∨ ∀ x ∈ offered e.tbf w.dev.q skb, e.netem.gso.isGso x = false)
  | _ => True

instance (e : Env) (w : World) : DecidablePred (Single e w)
  | .event (.enqueue _ skb) => inferInstanceAs (Decidable (∀ s ∈ emulator w.dev.q.qdisc,
      s.data.duplicate = 0 ∧
        (s.data.corrupt = 0 ∨ ∀ x ∈ offered e.tbf w.dev.q skb, e.netem.gso.isGso x = false)))
  | .event (.dequeue _) => isTrue trivial
  | .event (.change _ _) => isTrue trivial
  | .event (.reset _) => isTrue trivial
  | .child _ _ => isTrue trivial

/-- **The link obeys its rate**, across changes of the rate, of the burst and of the parameters of
the emulator, as long as this makes no packets of its own: the prices of the packets from one to
another, each at the rate of its moment, are at most one depth of the bucket and the time between
them. -/
theorem link_conforms (hstart : start.toNat < 2 ^ 62) {inputs : List Input}
    (hclock : AllSteps (step e) (fun w i => Clocked w i ∧ NoReset i ∧ Single e w i)
      (World.start start) inputs)
    (hrun : run (step e) (World.start start) inputs = some w) {pre mid post : List TbfShape.Entry}
    {x y : TbfShape.Sent} (hlog : w.dev.log = pre ++ .sent x :: mid ++ .sent y :: post) :
    x.price + paid (mid.map TbfShape.Entry.move) + y.price ≤
        x.buffer.toNat + ((y.now.toNat : ℤ) - x.now.toNat) ∧
      x.pprice + paid (mid.map TbfShape.Entry.pmove) + y.pprice ≤
        x.mtu.toNat + ((y.now.toNat : ℤ) - x.now.toNat) := by
  obtain ⟨hinv, honly⟩ := run_keeps_of_allSteps
    (I := fun w => TbfShape.Inv start w.dev ∧ TbfShape.OnlySent w.dev.log)
    (fun _ _ _ h hi hs => ⟨inv_step h.1 hi.1 hs, onlySent_step h.2 hi.2.1 hs⟩)
    ⟨TbfShape.inv_start hstart, by simp [TbfShape.OnlySent, World.start, TbfShape.World.start]⟩
    hclock hrun
  exact hinv.conforms_of_onlySent honly hlog

end Rate

/-- A kernel as `Netem.Env.plain`. -/
def Env.plain : Env := ⟨Netem.Env.plain, Tbf.Env.plain.ticks2ns_lt, rfl, fun _ _ => false⟩

/-- Two packets on a link of a megabyte per second, the second one of which arrives when the latency
is lower. -/
def overtaking : List Input :=
  [.event (.change 5 (plainOptions 1000000 2500)),
    .child 6 (TcNetemQopt.toBytes ⟨1000, 100, 0, 0, 0, 0⟩), .event (.enqueue 10 ⟨1, 1500⟩),
    .child 20 (TcNetemQopt.toBytes ⟨100, 100, 0, 0, 0, 0⟩), .event (.enqueue 30 ⟨2, 1000⟩),
    .event (.dequeue 2500000), .event (.dequeue 3500000)]

theorem overtaking_returns : (run (step Env.plain) (World.start 0) overtaking).isSome := by
  decide +kernel

theorem link_conforms_overtaking :
    ∃ w, run (step Env.plain) (World.start 0) overtaking = some w ∧
      (TbfShape.packetAt 2500000 ⟨2, 1000⟩ 1500000).price +
        (TbfShape.packetAt 3500000 ⟨1, 1500⟩ 1000000).price ≤ 3500000 := by
  have hrun := (Option.some_get overtaking_returns).symm
  have hlog : ((run (step Env.plain) (World.start 0) overtaking).get overtaking_returns).dev.log =
      [] ++ .sent (TbfShape.packetAt 2500000 ⟨2, 1000⟩ 1500000) :: [] ++
        .sent (TbfShape.packetAt 3500000 ⟨1, 1500⟩ 1000000) :: [] := by decide +kernel
  refine ⟨_, hrun, ?_⟩
  have h := (link_conforms (by decide) (by decide +kernel) hrun hlog).1
  simpa [TbfShape.packetAt] using h

/-! ### The delay -/

/-- **The emulator of a link**: the packets that left, the one that is kept aside, and those in the
queue are the line. -/
structure OnLine (clock : U64) (line : List Stamped) (left : List (Skb × U64)) (s : NetemSched) :
    Prop where
  lanes : InLanes s
  front : s.q = []
  line : ∃ out shown, line = out ++ (shown ++ timed s) ∧ Aside s shown ∧
    (∀ x ∈ shown, x.timeToSend ≤ clock) ∧ List.Forall₂ Departed out left

/-- As long as the kernel runs, the emulator of the link is on the line. -/
structure OnLink (w : World) : Prop where
  clock : ∀ y ∈ w.left, y.2 ≤ w.dev.clock
  sorted : Sorted tts w.line
  line : ∀ s, emulator w.dev.q.qdisc = some s → OnLine w.dev.clock w.line w.left s

/-- The clock does not go back; when a packet arrives, the emulator does nothing but delay, and the
time at which the packet is due has 64 bits. -/
def Steady (w : World) (i : Input) : Prop :=
  w.dev.clock ≤ i.now ∧
    match i with
    | .event (.enqueue now _) => ∀ s, emulator w.dev.q.qdisc = some s →
        Plain s.data ∧ now.toNat + s.data.latency.toNat < 2 ^ 64
    | _ => True

instance (w : World) : DecidablePred (Steady w)
  | .event (.enqueue now _) =>
    decidable_of_iff (w.dev.clock ≤ now ∧ ∀ s ∈ emulator w.dev.q.qdisc, Plain s.data ∧
      now.toNat + s.data.latency.toNat < 2 ^ 64) Iff.rfl
  | .event (.dequeue now) => inferInstanceAs (Decidable (w.dev.clock ≤ now ∧ True))
  | .event (.change now _) => inferInstanceAs (Decidable (w.dev.clock ≤ now ∧ True))
  | .event (.reset now) => inferInstanceAs (Decidable (w.dev.clock ≤ now ∧ True))
  | .child now _ => inferInstanceAs (Decidable (w.dev.clock ≤ now ∧ True))

section Delay
variable {e : Env} {w w' : World}

/-- The emulator after a call was there before. -/
theorem emulator_call {α : Type} {f : NetemSched → Option (NetemSched × α)} {stopped : α}
    {c : Option NetemSched} {s' : NetemSched}
    (h : emulator (some (.inl (call f stopped c).1)) = some s') :
    ∃ s, emulator (some (.inl c)) = some s ∧ f s = some (s', (call f stopped c).2) := by
  rcases call_cases f stopped c with hc | ⟨s, s1, r, rfl, hf, hc⟩
  · rw [hc] at h
    cases h
  · rw [hc] at h ⊢
    cases h
    exact ⟨s, rfl, hf⟩

theorem emulator_enqueue {now : U64} {q : Option Inner} {skb : Skb} {s' : NetemSched}
    (h : emulator (qdiscEnqueue e.tbf.ops now q skb).1 = some s') : ∃ s, emulator q = some s ∧
      netemEnqueue e.netem now 4 s skb = some (s', (qdiscEnqueue e.tbf.ops now q skb).2) := by
  rcases q with _ | c | f
  · cases h
  · exact emulator_call h
  · cases h

theorem emulator_peek {now : U64} {q : Option Inner} {s' : NetemSched}
    (h : emulator (qdiscPeek e.tbf.ops now q).1 = some s') : ∃ s, emulator q = some s ∧
      netemPeekDequeued e.netem now s = some (s', (qdiscPeek e.tbf.ops now q).2) := by
  rcases q with _ | c | f
  · cases h
  · exact emulator_call h
  · cases h

theorem emulator_dequeuePeeked {now : U64} {q : Option Inner} {s' : NetemSched}
    (h : emulator (qdiscDequeuePeeked e.tbf.ops now q).1 = some s') : ∃ s, emulator q = some s ∧
      netemDequeuePeeked e.netem now s =
        some (s', (qdiscDequeuePeeked e.tbf.ops now q).2) := by
  rcases q with _ | c | f
  · cases h
  · exact emulator_call h
  · cases h

theorem emulator_configure {now : U64} {opt : List Byte} {q : Option Inner} {s' : NetemSched}
    (h : emulator (configure e now opt q) = some s') :
    ∃ s data, emulator q = some s ∧ s' = { s with data := data } := by
  rcases q with _ | (_ | s) | f
  · cases h
  · cases h
  · cases h
    obtain ⟨data, hdata⟩ := NetemRuns.netemConfigure_frame e.netem now s opt
    exact ⟨s, data, rfl, hdata⟩
  · cases h

theorem emulator_inner {limit : U32} {q q' : Option Inner} {s' : NetemSched}
    (hq : tbfInner e.tbf limit q = .ok q') (h : emulator q' = some s') : emulator q = some s' := by
  rcases q with _ | c | f
  · rw [tbfInner] at hq
    split_ifs at hq <;> cases hq <;> cases h
  · cases hq
    exact h
  · cases hq
    cases h

theorem emulator_reset {q : Option Inner} {s' : NetemSched}
    (h : emulator (q.map e.tbf.ops.reset) = some s') :
    ∃ s, emulator q = some s ∧ s' = netemReset s := by
  rcases q with _ | (_ | s) | f
  · cases h
  · cases h
  · cases h
    exact ⟨s, rfl, rfl⟩
  · cases h

theorem OnLine.wait {clock now : U64} {line : List Stamped} {left : List (Skb × U64)}
    {s : NetemSched} (h : OnLine clock line left s) (hc : clock ≤ now) :
    OnLine now line left s := by
  obtain ⟨out, shown, hline, haside, hshown, hout⟩ := h.line
  exact ⟨h.lanes, h.front, out, shown, hline, haside,
    fun x hx => BitVec.le_trans (hshown x hx) hc, hout⟩

/-- **An arrival** in the emulator. -/
theorem OnLine.enqueue {clock now : U64} {line : List Stamped} {left : List (Skb × U64)}
    {s s' : NetemSched} {skb : Skb} {ret : Xmit} (h : OnLine clock line left s)
    (hclock : ∀ y ∈ left, y.2 ≤ clock) (hc : clock ≤ now) (hp : Plain s.data)
    (hlt : now.toNat + s.data.latency.toNat < 2 ^ 64)
    (he : netemEnqueue e.netem now 4 s skb = some (s', ret)) :
    OnLine now (NetemRuns.enterLine now s.data.latency skb ret line) left s' := by
  obtain ⟨out, shown, hline, haside, hshown, hout⟩ := h.line
  obtain ⟨hq, ht⟩ := NetemRuns.plain_enqueue h.lanes h.front hp he
  have hl := netemEnqueue_keeps (NetemRuns.kept_inLanes e.netem now) 4 trivial h.lanes he
  have hg : s'.gsoSkb = s.gsoSkb :=
    netemEnqueue_keeps (kept_gsoSkb e.netem now s.gsoSkb) 4 trivial rfl he
  have hdue : ∀ x ∈ out ++ shown, x.timeToSend ≤ now := by
    intro x hx
    rcases List.mem_append.mp hx with hx | hx
    · exact BitVec.le_trans (NetemRuns.le_of_departed hout hclock x hx) hc
    · exact BitVec.le_trans (hshown x hx) hc
  refine ⟨hl, hq, out, shown, ?_, ?_, fun x hx => BitVec.le_trans (hshown x hx) hc, hout⟩
  · rw [ht, hline, ← List.append_assoc, NetemRuns.enterLine_behind hdue hlt, List.append_assoc]
  · rw [Aside, hg]
    exact haside

theorem enterLine_eq (now latency : U64) (skb : Skb) (ret : Xmit) (line : List Stamped) :
    NetemRuns.enterLine now latency skb ret line =
      enterAll now latency (if ret = .success then [skb] else []) line := by
  unfold NetemRuns.enterLine
  split_ifs <;> rfl

theorem sorted_enterAll {now latency : U64} (skbs : List Skb) {line : List Stamped}
    (h : Sorted tts line) : Sorted tts (enterAll now latency skbs line) :=
  List.foldlRecOn skbs _ h fun _ hl _ _ => hl.insertLast _

/-- The emulator after several arrivals was there before. -/
theorem emulator_enqueueAll {now : U64} : ∀ (skbs : List Skb) {q : Option Inner} {s' : NetemSched},
    emulator (skbs.foldl (fun q x => (qdiscEnqueue e.tbf.ops now q x).1) q) = some s' →
      ∃ s, emulator q = some s
  | [], _, s', h => ⟨s', h⟩
  | _ :: skbs, _, _, h => by
    obtain ⟨s1, hs1⟩ := emulator_enqueueAll skbs h
    obtain ⟨s, hs, -⟩ := emulator_enqueue hs1
    exact ⟨s, hs⟩

/-- **Several arrivals** in the emulator, one after the other. -/
theorem OnLine.enqueueAll {now latency : U64} {left : List (Skb × U64)}
    (hclock : ∀ y ∈ left, y.2 ≤ now) (hlt : now.toNat + latency.toNat < 2 ^ 64) :
    ∀ (skbs : List Skb) {q : Option Inner} {line : List Stamped} {s s' : NetemSched},
      emulator q = some s → OnLine now line left s → Plain s.data → s.data.latency = latency →
      emulator (skbs.foldl (fun q x => (qdiscEnqueue e.tbf.ops now q x).1) q) = some s' →
      OnLine now (enterAll now latency (TbfBooks.qdiscTakes e.tbf.ops now q skbs) line) left s'
  | [], _, _, _, _, hs, h, _, _, hs' => by
    cases hs.symm.trans hs'
    exact h
  | x :: skbs, q, line, s, s', hs, h, hp, hl, hs' => by
    obtain ⟨s1, hs1⟩ := emulator_enqueueAll skbs hs'
    obtain ⟨s2, hs2, he⟩ := emulator_enqueue hs1
    cases hs.symm.trans hs2
    have hone := h.enqueue hclock (BitVec.le_refl now) hp (by rw [hl]; exact hlt) he
    rw [hl, enterLine_eq] at hone
    obtain ⟨hp1, hl1⟩ := hp.enqueue he
    have hall := OnLine.enqueueAll hclock hlt skbs hs1 hone hp1 (hl1.trans hl) hs'
    rw [TbfBooks.qdiscTakes, enterAll, List.foldl_append]
    exact hall

/-- **The next packet is shown**; it is kept aside. -/
theorem OnLine.peek {clock now : U64} {line : List Stamped} {left : List (Skb × U64)}
    {s s' : NetemSched} {r : Option Skb} (h : OnLine clock line left s) (hc : clock ≤ now)
    (hp : netemPeekDequeued e.netem now s = some (s', r)) :
    OnLine now line left s' ∧ s'.gsoSkb = r := by
  obtain ⟨out, shown, hline, haside, hshown, hout⟩ := h.line
  obtain ⟨hl, hq, hg, shown', ht, haside', hshown'⟩ := peek_shows h.lanes h.front hp haside
  refine ⟨⟨hl, hq, out, shown', by rw [hline, ht], haside', fun x hx => ?_, hout⟩, hg⟩
  rcases hshown' x hx with hx | hx
  · exact BitVec.le_trans (hshown x hx) hc
  · exact hx

/-- **The packet that was shown is taken.** -/
theorem OnLine.take {now : U64} {line : List Stamped} {left : List (Skb × U64)}
    {s s' : NetemSched} {r : Option Skb} {skb : Skb} (h : OnLine now line left s)
    (hg : s.gsoSkb = some skb) (hd : netemDequeuePeeked e.netem now s = some (s', r)) :
    OnLine now line (left ++ NetemRuns.leaves now (some skb)) s' := by
  obtain ⟨out, shown, hline, haside, hshown, hout⟩ := h.line
  rw [netemDequeuePeeked, hg] at hd
  cases hd
  rw [Aside, hg] at haside
  obtain ⟨x, rfl, hx⟩ := List.map_eq_singleton_iff.mp haside
  refine ⟨h.lanes, h.front, out ++ [x], [], ?_, rfl, by simp, ?_⟩
  · rw [hline, List.append_assoc]
    rfl
  · refine List.rel_append hout (List.Forall₂.cons ⟨hx, hshown x ?_⟩ List.Forall₂.nil)
    exact List.mem_singleton_self x

theorem onLink_start (start : U64) : OnLink (World.start start) where
  clock := by rintro y ⟨⟩
  sorted := List.Pairwise.nil
  line := by
    rintro s ⟨⟩
    obtain ⟨hl, ht⟩ := NetemRuns.inLanes_empty (s := netemZero) rfl rfl
    exact ⟨hl, rfl, [], [], by rw [ht]; rfl, rfl, by simp, List.Forall₂.nil⟩

theorem OnLink.enqueue (h : OnLink w) {now : U64} {skb : Skb} {dev : TbfShape.World Inner}
    (hst : Steady w (.event (.enqueue now skb)))
    (hdev : TbfShape.step e.tbf false w.dev (.enqueue now skb) = some dev) :
    OnLink (post e w dev (.enqueue now skb)) := by
  obtain ⟨hc, hplain⟩ := hst
  cases hdev
  have hclock : ∀ y ∈ w.left, y.2 ≤ now := fun y hy => BitVec.le_trans (h.clock y hy) hc
  refine ⟨hclock, ?_, fun s' hs' => ?_⟩
  · unfold post enter
    dsimp only
    split
    · exact h.sorted
    · exact sorted_enterAll _ h.sorted
  · dsimp only [post] at hs' ⊢
    rw [tbfEnqueue_qdisc] at hs'
    obtain ⟨s, hs⟩ := emulator_enqueueAll _ hs'
    obtain ⟨hp, hlt⟩ := hplain s hs
    rw [hs]
    exact OnLine.enqueueAll hclock hlt _ hs ((h.line s hs).wait hc) hp rfl hs'

theorem OnLink.dequeue (h : OnLink w) {now : U64} {dev : TbfShape.World Inner}
    (hc : w.dev.clock ≤ now)
    (hdev : TbfShape.step e.tbf false w.dev (.dequeue now) = some dev) :
    OnLink (post e w dev (.dequeue now)) := by
  cases hdev
  refine ⟨NetemRuns.clock_leaves hc h.clock, h.sorted, fun s' hs' => ?_⟩
  dsimp only [post] at hs' ⊢
  rcases tbfDequeue_cases (ops_faithful e) now w.dev.q with ⟨-, he⟩ | ⟨skb, hskb, -, he⟩ |
    ⟨skb, -, -, he⟩
  · rw [he] at hs' ⊢
    obtain ⟨s, hs, hp⟩ := emulator_peek hs'
    exact (List.append_nil w.left).symm ▸ ((h.line s hs).peek hc hp).1
  · rw [he] at hs' ⊢
    obtain ⟨s1, hs1, hd⟩ := emulator_dequeuePeeked hs'
    obtain ⟨s, hs, hp⟩ := emulator_peek hs1
    obtain ⟨hline, hg⟩ := (h.line s hs).peek hc hp
    exact hline.take (hg.trans hskb) hd
  · rw [he] at hs' ⊢
    obtain ⟨s, hs, hp⟩ := emulator_peek hs'
    exact (List.append_nil w.left).symm ▸ ((h.line s hs).peek hc hp).1

theorem OnLink.step {i : Input} (h : OnLink w) (hst : Steady w i)
    (hs : step e w i = some w') : OnLink w' := by
  cases i with
  | child now opt =>
    cases hs
    refine ⟨fun y hy => BitVec.le_trans (h.clock y hy) hst.1, h.sorted, fun s' hs' => ?_⟩
    obtain ⟨s, data, hs, rfl⟩ := emulator_configure hs'
    have hline := (h.line s hs).wait hst.1
    exact ⟨hline.lanes, hline.front, hline.line⟩
  | event ev =>
    obtain ⟨dev, hdev, rfl⟩ := Option.map_eq_some_iff.mp hs
    cases ev with
    | enqueue now skb => exact h.enqueue hst hdev
    | dequeue now => exact h.dequeue hst.1 hdev
    | change now opt =>
      rw [TbfShape.step] at hdev
      split at hdev
      · cases hdev
        exact ⟨fun y hy => BitVec.le_trans (h.clock y hy) hst.1, h.sorted,
          fun s' hs' => (h.line s' hs').wait hst.1⟩
      · rename_i q hq
        cases hdev
        obtain ⟨p, qdisc, -, hin, rfl⟩ := tbfChange_ok hq
        exact ⟨fun y hy => BitVec.le_trans (h.clock y hy) hst.1, h.sorted,
          fun s' hs' => (h.line s' (emulator_inner hin hs')).wait hst.1⟩
    | reset now =>
      cases hdev
      refine ⟨fun y hy => BitVec.le_trans (h.clock y hy) hst.1,
        h.sorted.sublist (List.take_sublist _ _), fun s' hs' => ?_⟩
      obtain ⟨s, hs, rfl⟩ := emulator_reset hs'
      obtain ⟨out, shown, hline, -, -, hout⟩ := (h.line s hs).line
      obtain ⟨hl, ht⟩ := NetemRuns.inLanes_empty (s := netemReset s) rfl rfl
      refine ⟨hl, rfl, out, [], ?_, rfl, by simp, hout⟩
      dsimp only [post]
      rw [hline, ← hout.length_eq, List.take_left, ht, List.append_nil, List.append_nil]

/-- **The link delays**: in every run in which the emulator does nothing but delay, however the rate
and the latency are changed and as long as the kernel runs, the packets and segments that were
taken, in the order of the times at which they are due, are those that left, in this order and none
before its time, then one that is to be paid for, and then those in the emulator. A reset drops what
has not left. -/
theorem link_delays {start : U64} {inputs : List Input} {s : NetemSched}
    (hsteady : AllSteps (Link.step e) Steady (World.start start) inputs)
    (hrun : run (Link.step e) (World.start start) inputs = some w)
    (hs : emulator w.dev.q.qdisc = some s) :
    Sorted tts w.line ∧ ∃ out shown, w.line = out ++ (shown ++ timed s) ∧ Aside s shown ∧
      List.Forall₂ Departed out w.left := by
  have h := run_keeps_of_allSteps (fun _ _ _ h hst hs => OnLink.step h hst hs)
    (onLink_start start) hsteady hrun
  obtain ⟨out, shown, hline, haside, -, hout⟩ := (h.line s hs).line
  exact ⟨h.sorted, out, shown, hline, haside, hout⟩

end Delay

theorem link_delays_overtaking :
    ∃ w s, run (step Env.plain) (World.start 0) overtaking = some w ∧
      w.left = [(⟨2, 1000⟩, 2500000), (⟨1, 1500⟩, 3500000)] ∧ emulator w.dev.q.qdisc = some s ∧
      Sorted tts w.line ∧ ∃ out shown, w.line = out ++ (shown ++ timed s) ∧ Aside s shown ∧
        List.Forall₂ Departed out w.left := by
  have hrun := (Option.some_get overtaking_returns).symm
  have hs : (emulator ((run (step Env.plain) (World.start 0) overtaking).get
      overtaking_returns).dev.q.qdisc).isSome := by decide +kernel
  have hs' := (Option.some_get hs).symm
  exact ⟨_, _, hrun, by decide +kernel, hs', link_delays (by decide +kernel) hrun hs'⟩

end DynBandwidth.Sched.Link
