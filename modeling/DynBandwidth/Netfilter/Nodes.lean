import DynBandwidth.Lib.RbHeapErase
import DynBandwidth.Lib.RbMap
import DynBandwidth.Netfilter.Queue

/-! # The stage of `nfqueue.c` in memory

The functions of `Netfilter.Stage` with the nodes of the trees in memory: a `struct nfq_flowdata`
has an address, the links of the tree and the packet; `calloc` and `free` give and take addresses. A
step on an address that has no node is a fault (`none`), as is a loop that does not end within the
given rounds. -/

namespace DynBandwidth.Netfilter.Nodes

open DynBandwidth.Lib.RbTree DynBandwidth.Lib.RbHeap
open DynBandwidth.Reorder.Header DynBandwidth.Reorder.SeqTree DynBandwidth.Netfilter.Stage

/-- The nodes in memory: the links and the packet of each. -/
structure Heap where
  node : Addr → Option Cell
  data : Addr → Option NfqFlowdata

/-- A flow buffer, with the address of the root. -/
structure Flowbuf where
  size : U32
  expectedNext : U32
  root : Addr
  timeout : ℚ
  lastActivity : ℚ
  timer : Option ℚ
  deriving DecidableEq, Repr

/-! ### The functions of the file -/

def Heap.calloc (h : Heap) (x : Addr) : Heap :=
  ⟨Function.update h.node x (some ⟨0, 0, 0⟩), Function.update h.data x (some ⟨0, 0, 0⟩)⟩

def Heap.free (h : Heap) (x : Addr) : Heap :=
  ⟨Function.update h.node x none, Function.update h.data x none⟩

def Heap.write (h : Heap) (x : Addr) (d : NfqFlowdata) : Heap :=
  { h with data := Function.update h.data x (some d) }

section Functions
variable (rounds : ℕ) (now : ℚ) (queue : QHandle)

/-- `insert_or_send_packet`; `new` is the address that `calloc` gives. -/
def insertOrSendPacket (h : Heap) (f : Flowbuf) (seq packetId : U32) (segSize : U16) (new : Addr) :
    Option (Heap × Flowbuf × List Call) := do
  match ← Mem.search ⟨h.node, f.root⟩ (fun x => (h.data x).map fun curr => before seq curr.seq)
    (fun x => (h.data x).map fun curr => after seq curr.seq) rounds 0 .left f.root with
  | .hit x =>
    let curr ← h.data x
    some (h.write x (retransmit packetId segSize curr), { f with lastActivity := now },
      [⟨queue, dropped packetId segSize curr, .drop⟩])
  | .leaf parent d =>
    let h := (h.calloc new).write new ⟨seq, packetId, segSize⟩
    let _currfirst ← Mem.rbFirst ⟨h.node, f.root⟩ rounds
    let m ← Mem.rbLinkNode ⟨h.node, f.root⟩ new parent d
    let m ← m.rbInsertColor rounds new
    some ({ h with node := m.node },
      { f with size := f.size + 1, root := m.root, lastActivity := now }, [])

/-- `send_packet_at`. -/
def sendPacketAt (h : Heap) (f : Flowbuf) (rbNode : Addr) : Option (Heap × Flowbuf × Call) := do
  let fdata ← h.data rbNode
  let m ← Mem.rbErase ⟨h.node, f.root⟩ rounds rbNode
  some (Heap.free { h with node := m.node } rbNode,
    { f with
      expectedNext := raise f.expectedNext fdata.seq fdata.segSize
      root := m.root
      lastActivity := now
      size := f.size - 1 },
    ⟨queue, fdata.packetId, .accept⟩)

/-- The two loops that send the first packet again and again: as long as there is one for which
`go` holds, with its packet and `expected_next`. -/
def sendWhile (go : NfqFlowdata → U32 → Bool) :
    ℕ → Heap → Flowbuf → Option (Heap × Flowbuf × List Call)
  | 0, _, _ => none
  | k + 1, h, f => do
    let node ← Mem.rbFirst ⟨h.node, f.root⟩ rounds
    if node = 0 then some (h, f, [])
    else
      let d ← h.data node
      if go d f.expectedNext then
        let (h, f, call) ← sendPacketAt rounds now queue h f node
        let (h, f, calls) ← sendWhile go k h f
        some (h, f, call :: calls)
      else some (h, f, [])

/-- The loop of the in-order branch. -/
def release (h : Heap) (f : Flowbuf) : Option (Heap × Flowbuf × List Call) :=
  sendWhile rounds now queue (fun d expectedNext => d.seq == expectedNext) rounds h f

/-- The loop of `empty_and_destroy_buf`. -/
def flush (h : Heap) (f : Flowbuf) : Option (Heap × Flowbuf × List Call) :=
  sendWhile rounds now queue (fun _ _ => true) rounds h f

/-- **The resequencing stage** on the flow buffer of a packet. -/
def resequence (h : Heap) (f : Flowbuf) (id : U32) (p : Packet) (new : Addr) :
    Option (Heap × Flowbuf × List Call) :=
  if before p.seq f.expectedNext || p.seq == f.expectedNext then do
    let (h, f, calls) ← release rounds now queue h
      { f with expectedNext := nextOnArrival f.expectedNext p, lastActivity := now }
    some (h, f, ⟨queue, id, .accept⟩ :: calls)
  else if f.size < fbufSiz then insertOrSendPacket rounds now queue h f p.seq id p.psize new
  else do
    let firstNode ← Mem.rbFirst ⟨h.node, f.root⟩ rounds
    let first ← h.data firstNode
    if first.seq ≤ p.seq then
      let (h, f, call) ← sendPacketAt rounds now queue h f firstNode
      let (h, f, calls) ← insertOrSendPacket rounds now queue h f p.seq id p.psize new
      some (h, f, call :: calls)
    else some (h, { f with lastActivity := now }, [⟨queue, id, .accept⟩])

end Functions

/-! ### What the memory has -/

/-- The packet at an address. -/
def Heap.packet (h : Heap) (x : Addr) : NfqFlowdata := (h.data x).getD ⟨0, 0, 0⟩

/-- The flow buffer whose tree is at the addresses of `t`. -/
def Flowbuf.read (f : Flowbuf) (h : Heap) (t : RbNode Addr) : NfqFlowbuf :=
  ⟨f.size, f.expectedNext, t.map h.packet, f.timeout, f.lastActivity, f.timer⟩

/-- **The memory has the tree of a flow**: the links are those of the red-black tree `t`, and each
node has a packet. -/
structure Owns (h : Heap) (f : Flowbuf) (t : RbNode Addr) : Prop where
  tree : At ⟨h.node, f.root⟩ t []
  balanced : RedBlack t
  packets : ∀ x ∈ t.toList, h.data x = some (h.packet x)

/-- A free address, as `calloc` gives it. -/
structure Fresh (h : Heap) (x : Addr) : Prop where
  aligned : Aligned x
  node : h.node x = none
  data : h.data x = none

instance (h : Heap) (x : Addr) : Decidable (Fresh h x) :=
  decidable_of_iff (Aligned x ∧ (h.node x).isNone ∧ (h.data x).isNone)
    ⟨fun ⟨ha, hn, hd⟩ => ⟨ha, by simpa using hn, by simpa using hd⟩,
      fun ⟨ha, hn, hd⟩ => ⟨ha, by simp [hn], by simp [hd]⟩⟩

/-- **What a step does to the memory**: it works at the nodes of its tree and at the new address,
and what is no node of the new tree is free. -/
structure Moves (new : List Addr) (t t' : RbNode Addr) (h h' : Heap) : Prop where
  same : ∀ y, y ∉ t.toList ++ new → h'.node y = h.node y ∧ h'.data y = h.data y
  freed : ∀ y ∈ t.toList ++ new, y ∉ t'.toList → h'.node y = none ∧ h'.data y = none
  within : ∀ y ∈ t'.toList, y ∈ t.toList ++ new

section Updates
variable {h h' : Heap} {x y : Addr}

theorem packet_congr (hsame : h'.data y = h.data y) : h'.packet y = h.packet y := by
  rw [Heap.packet, hsame, Heap.packet]

theorem free_of_ne (h : Heap) (hy : y ≠ x) :
    (h.free x).node y = h.node y ∧ (h.free x).data y = h.data y :=
  ⟨Function.update_of_ne hy _ _, Function.update_of_ne hy _ _⟩

theorem free_self (h : Heap) (x : Addr) : (h.free x).node x = none ∧ (h.free x).data x = none :=
  ⟨Function.update_self _ _ _, Function.update_self _ _ _⟩

theorem calloc_of_ne (h : Heap) (hy : y ≠ x) :
    (h.calloc x).node y = h.node y ∧ (h.calloc x).data y = h.data y :=
  ⟨Function.update_of_ne hy _ _, Function.update_of_ne hy _ _⟩

theorem write_of_ne (h : Heap) (hy : y ≠ x) (d : NfqFlowdata) :
    (h.write x d).data y = h.data y := Function.update_of_ne hy _ _

theorem write_self (h : Heap) (x : Addr) (d : NfqFlowdata) :
    (h.write x d).data x = some d ∧ (h.write x d).packet x = d := by
  have hself : (h.write x d).data x = some d := Function.update_self _ _ _
  exact ⟨hself, by rw [Heap.packet, hself, Option.getD_some]⟩

end Updates

section Owns
variable {h h' : Heap} {f : Flowbuf} {t : RbNode Addr} {x : Addr} {new : List Addr}

theorem Moves.refl (hnew : ∀ x ∈ new, Fresh h x) : Moves new t t h h where
  same _ _ := ⟨rfl, rfl⟩
  freed y hy hno := by
    rcases List.mem_append.mp hy with hy | hy
    · exact absurd hy hno
    · exact ⟨(hnew y hy).node, (hnew y hy).data⟩
  within y hy := List.mem_append_left _ hy

theorem Moves.trans {h'' : Heap} {t' t'' : RbNode Addr} (hm : Moves [] t t' h h')
    (hm' : Moves new t' t'' h' h'') : Moves new t t'' h h'' := by
  have hsub : ∀ y ∈ t'.toList, y ∈ t.toList := fun y hy => by simpa using hm.within y hy
  refine ⟨fun y hy => ?_, fun y hy hno => ?_, fun y hy => ?_⟩
  · simp only [List.mem_append, not_or] at hy
    have h1 := hm.same y (by simpa using hy.1)
    have h2 := hm'.same y (by simpa using ⟨fun hy' => hy.1 (hsub y hy'), hy.2⟩)
    exact ⟨h2.1.trans h1.1, h2.2.trans h1.2⟩
  · by_cases hmid : y ∈ t'.toList ++ new
    · exact hm'.freed y hmid hno
    · have h2 := hm'.same y hmid
      simp only [List.mem_append, not_or] at hy hmid
      have h1 := hm.freed y (by simpa using hy.resolve_right hmid.2) hmid.1
      exact ⟨h2.1.trans h1.1, h2.2.trans h1.2⟩
  · have hy' := hm'.within y hy
    simp only [List.mem_append] at hy' ⊢
    exact hy'.imp_left (hsub y)

/-- An address stays free until it is given. -/
theorem Moves.fresh {t' : RbNode Addr} (hm : Moves [] t t' h h') (hx : Fresh h x)
    (hno : x ∉ t.toList) : Fresh h' x := by
  have hsame := hm.same x (by simpa using hno)
  exact ⟨hx.aligned, hsame.1.trans hx.node, hsame.2.trans hx.data⟩

theorem Owns.nodup (o : Owns h f t) : t.toList.Nodup :=
  o.tree.sound.1.sublist (List.sublist_append_left _ _)

theorem Owns.aligned (o : Owns h f t) (hx : x ∈ t.toList) : Aligned x :=
  o.tree.sound.2 x (List.mem_append_left _ hx)

theorem Owns.not_mem_of_fresh (o : Owns h f t) (hx : Fresh h x) : x ∉ t.toList := by
  intro hm
  have := o.packets x hm
  rw [hx.data] at this
  cases this

/-- What happens elsewhere does not matter. -/
theorem Owns.congr (o : Owns h f t) (hsame : ∀ y ∈ t.toList, h'.node y = h.node y ∧
    h'.data y = h.data y) : Owns h' f t ∧ f.read h' t = f.read h t := by
  have hpacket : ∀ y ∈ t.toList, h'.packet y = h.packet y := fun y hy => by
    rw [Heap.packet, (hsame y hy).2]
    rfl
  refine ⟨⟨o.tree.congr (fun y hy => (hsame y (by simpa [beside] using hy)).1) rfl, o.balanced,
    fun y hy => ?_⟩, ?_⟩
  · rw [hpacket y hy, (hsame y hy).2]
    exact o.packets y hy
  · rw [Flowbuf.read, Flowbuf.read, map_congr hpacket]

end Owns

/-! ### Sending -/

section Send
variable {h : Heap} {f : Flowbuf} {t : RbNode Addr} {x : Addr} {rounds : ℕ} (now : ℚ)
  (queue : QHandle)

/-- **`send_packet_at` at the first node**: the packet is accepted, and its node is freed. -/
theorem sendPacketAt_spec (o : Owns h f t) (hx : t.first = some x)
    (hn : t.toList.length ≤ rounds) :
    ∃ h' f', sendPacketAt rounds now queue h f x =
        some (h', f', (Stage.sendPacketAt now queue (f.read h t) (h.packet x)).2) ∧
      Owns h' f' t.eraseFirst ∧
      f'.read h' t.eraseFirst = (Stage.sendPacketAt now queue (f.read h t) (h.packet x)).1 ∧
      Moves [] t t.eraseFirst h h' := by
  obtain ⟨m, hm, hat, hout⟩ := rbErase_spec o.tree o.balanced hx hn
  obtain ⟨ds, hds⟩ : ∃ ds, t.toList = x :: ds := by
    rw [first_eq_head?] at hx
    exact List.head?_eq_some_iff.mp hx
  have hnd := o.nodup
  rw [hds, List.nodup_cons] at hnd
  have htail : t.eraseFirst.toList = ds := by rw [toList_eraseFirst, hds, List.tail_cons]
  have hne : ∀ y ∈ t.eraseFirst.toList, y ≠ x := by
    rw [htail]
    exact fun y hy => ne_of_mem_of_not_mem hy hnd.1
  have hmem : ∀ y ∈ t.eraseFirst.toList, y ∈ t.toList := by
    rw [htail, hds]
    exact fun y hy => List.mem_cons_of_mem x hy
  have hfree := fun y (hy : y ≠ x) => free_of_ne { h with node := m.node } hy
  have hpacket : ∀ y ∈ t.eraseFirst.toList,
      (Heap.free { h with node := m.node } x).packet y = h.packet y :=
    fun y hy => packet_congr (hfree y (hne y hy)).2
  have hsend : sendPacketAt rounds now queue h f x = some (Heap.free { h with node := m.node } x,
      { f with
        expectedNext := raise f.expectedNext (h.packet x).seq (h.packet x).segSize
        root := m.root
        lastActivity := now
        size := f.size - 1 }, ⟨queue, (h.packet x).packetId, .accept⟩) := by
    simp only [sendPacketAt, o.packets x (by rw [hds]; simp), Option.bind_eq_bind,
      Option.bind_some, hm]
  refine ⟨_, _, hsend, ⟨?_, o.balanced.eraseFirst, fun y hy => ?_⟩, ?_, ⟨fun y hy => ?_,
    fun y hy hno => ?_, fun y hy => ?_⟩⟩
  · exact hat.congr (fun y hy => (hfree y (hne y (by simpa [beside] using hy))).1) rfl
  · rw [hpacket y hy, (hfree y (hne y hy)).2]
    exact o.packets y (hmem y hy)
  · rw [Flowbuf.read, map_congr hpacket, eraseFirst_map]
    rfl
  · rw [List.append_nil] at hy
    have hyx : y ≠ x := by
      rintro rfl
      exact hy (by rw [hds]; simp)
    exact ⟨(hfree y hyx).1.trans (hout y hy), (hfree y hyx).2⟩
  · obtain rfl : y = x := by
      rw [List.append_nil, hds, List.mem_cons] at hy
      rw [htail] at hno
      tauto
    exact free_self _ y
  · rw [List.append_nil]
    exact hmem y hy

end Send

/-! ### The loops -/

section Loops
variable (now : ℚ) (queue : QHandle)

/-- The two loops on a flow buffer. -/
def walk (go : NfqFlowdata → U32 → Bool) : ℕ → NfqFlowbuf → NfqFlowbuf × List Call
  | 0, fbuf => (fbuf, [])
  | n + 1, fbuf =>
    match fbuf.root.first with
    | none => (fbuf, [])
    | some d =>
      if go d fbuf.expectedNext then
        ((walk go n (Stage.sendPacketAt now queue fbuf d).1).1,
          (Stage.sendPacketAt now queue fbuf d).2 ::
            (walk go n (Stage.sendPacketAt now queue fbuf d).1).2)
      else (fbuf, [])

theorem release_eq_walk : ∀ (n : ℕ) (fbuf : NfqFlowbuf), Stage.release now queue n fbuf =
    walk now queue (fun d expectedNext => d.seq == expectedNext) n fbuf
  | 0, _ => rfl
  | n + 1, fbuf => by
    rw [Stage.release, walk]
    cases fbuf.root.first with
    | none => rfl
    | some d => simp only [release_eq_walk n]

theorem flush_eq_walk : ∀ (n : ℕ) (fbuf : NfqFlowbuf), Stage.flush now queue n fbuf =
    walk now queue (fun _ _ => true) n fbuf
  | 0, _ => rfl
  | n + 1, fbuf => by
    rw [Stage.flush, walk]
    cases fbuf.root.first with
    | none => rfl
    | some d => simp only [flush_eq_walk n, if_true]

/-- **The loops in memory** end, and do what they do on the flow buffer. -/
theorem sendWhile_spec (rounds : ℕ) (go : NfqFlowdata → U32 → Bool) :
    ∀ (k : ℕ) {h : Heap} {f : Flowbuf} {t : RbNode Addr}, Owns h f t → t.toList.length < k →
      t.toList.length ≤ rounds → ∃ h' f' t', sendWhile rounds now queue go k h f = some (h', f',
          (walk now queue go t.toList.length (f.read h t)).2) ∧ Owns h' f' t' ∧
        f'.read h' t' = (walk now queue go t.toList.length (f.read h t)).1 ∧ Moves [] t t' h h'
  | 0, _, _, _, _, hk, _ => absurd hk (Nat.not_lt_zero _)
  | k + 1, h, f, t, o, hk, hn => by
    have hfirst := rbFirst_spec o.tree hn
    have hstop : sendWhile rounds now queue go (k + 1) h f = some (h, f, []) →
        walk now queue go t.toList.length (f.read h t) = (f.read h t, []) →
        ∃ h' f' t', sendWhile rounds now queue go (k + 1) h f = some (h', f',
          (walk now queue go t.toList.length (f.read h t)).2) ∧ Owns h' f' t' ∧
        f'.read h' t' = (walk now queue go t.toList.length (f.read h t)).1 ∧
        Moves [] t t' h h' := by
      intro hs hw
      rw [hs, hw]
      exact ⟨h, f, t, rfl, o, rfl, .refl (by simp)⟩
    rcases hlist : t.toList with _ | ⟨x, ds⟩
    · rw [hlist] at hstop
      have hx : t.first = none := by rw [first_eq_head?, hlist, List.head?_nil]
      rw [hx] at hfirst
      refine hstop ?_ rfl
      simp only [sendWhile, hfirst, Option.bind_eq_bind, Option.bind_some, Option.getD_none,
        if_true]
    · rw [hlist, List.length_cons] at hstop
      have hmem : x ∈ t.toList := by rw [hlist]; simp
      have hx : t.first = some x := by rw [first_eq_head?, hlist, List.head?_cons]
      have hroot : (f.read h t).root.first = some (h.packet x) := by
        rw [Flowbuf.read, first_map, hx, Option.map_some]
      rw [hx, Option.getD_some] at hfirst
      have hx0 : x ≠ 0 := (o.aligned hmem).1
      rw [List.length_cons]
      by_cases hgo : go (h.packet x) f.expectedNext = true
      · obtain ⟨h1, f1, hsend, o1, hread1, hmoves1⟩ := sendPacketAt_spec now queue o hx hn
        have hlen : t.eraseFirst.toList.length = ds.length := by
          rw [toList_eraseFirst, hlist, List.tail_cons]
        obtain ⟨h', f', t', hloop, o', hread', hmoves'⟩ := sendWhile_spec rounds go k o1
          (by rw [hlen]; rw [hlist] at hk; simpa using hk)
          (by rw [hlen]; rw [hlist, List.length_cons] at hn; omega)
        rw [hlen, hread1] at hloop hread'
        have hwalk : walk now queue go (ds.length + 1) (f.read h t) =
            ((walk now queue go ds.length
                (Stage.sendPacketAt now queue (f.read h t) (h.packet x)).1).1,
              (Stage.sendPacketAt now queue (f.read h t) (h.packet x)).2 :: (walk now queue go
                ds.length (Stage.sendPacketAt now queue (f.read h t) (h.packet x)).1).2) := by
          rw [walk, hroot]
          exact if_pos hgo
        rw [hwalk]
        refine ⟨h', f', t', ?_, o', hread', hmoves1.trans hmoves'⟩
        simp only [sendWhile, hfirst, Option.bind_eq_bind, Option.bind_some, if_neg hx0,
          o.packets x hmem, hgo, if_true, hsend, hloop]
      · refine hstop ?_ ?_
        · simp only [sendWhile, hfirst, Option.bind_eq_bind, Option.bind_some, if_neg hx0,
            o.packets x hmem, hgo, Bool.false_eq_true, if_false]
        · rw [walk, hroot]
          exact if_neg hgo

end Loops

/-! ### Insertion -/

theorem frames_map_congr {β : Type} {f g : Addr → β} : ∀ {up : List (Frame Addr)},
    (∀ y ∈ beside up, f y = g y) → up.map (Frame.map f) = up.map (Frame.map g)
  | [], _ => rfl
  | k :: up, h => by
    rw [List.map_cons, List.map_cons, frames_map_congr fun y hy => h y (by simp [beside, hy]),
      Frame.map, Frame.map, h k.data (by simp [beside]),
      map_congr fun y hy => h y (by simp [beside, hy])]

section Insert
variable {h : Heap} {f : Flowbuf} {t : RbNode Addr} {new : Addr} {rounds : ℕ} (now : ℚ)
  (queue : QHandle) {seq : U32} (packetId : U32) (segSize : U16)

/-- The search in memory follows the search in the tree that is read from it. -/
theorem search_read (o : Owns h f t) (seq : U32) (hn : t.toList.length < rounds) :
    Mem.search ⟨h.node, f.root⟩ (fun x => (h.data x).map fun curr => before seq curr.seq)
      (fun x => (h.data x).map fun curr => after seq curr.seq) rounds 0 .left f.root =
    some (Place.of (descend (fun x => before seq (h.packet x).seq)
      (fun x => after seq (h.packet x).seq) t [])) := by
  have hroot : f.root = ptr t := o.tree.path
  rw [← search_spec o.tree (fun x hx => ?_) hn, ← hroot]
  · rfl
  · rw [o.packets x hx]
    exact ⟨rfl, rfl⟩

/-- The memory with a new node, before it is linked. -/
theorem newNode_spec {h1 : Heap} {d : NfqFlowdata} (hh1 : (h.calloc new).write new d = h1) :
    h1.node new = some ⟨0, 0, 0⟩ ∧ h1.data new = some d ∧ h1.packet new = d ∧
      ∀ y, y ≠ new → h1.node y = h.node y ∧ h1.data y = h.data y := by
  subst hh1
  obtain ⟨hdata, hpacket⟩ := write_self (h.calloc new) new d
  refine ⟨Function.update_self new _ h.node, hdata, hpacket, fun y hy => ?_⟩
  rw [write_of_ne _ hy]
  exact calloc_of_ne h hy

/-- **A packet with a new number** gets a node at the new address. -/
theorem insert_leaf (o : Owns h f t) (hnew : Fresh h new) {up : List (Frame Addr)}
    (hup : descend (fun x => before seq (h.packet x).seq) (fun x => after seq (h.packet x).seq) t []
      = .leaf up) (hn : t.toList.length < rounds) :
    ∃ h' f', insertOrSendPacket rounds now queue h f seq packetId segSize new = some (h', f', []) ∧
      Owns h' f' (insertColor .nil new .nil up) ∧
      f'.read h' (insertColor .nil new .nil up) =
        { f.read h t with
          size := f.size + 1
          root := insertColor .nil ⟨seq, packetId, segSize⟩ .nil (up.map (Frame.map h.packet))
          lastActivity := now } ∧
      Moves [new] t (insertColor .nil new .nil up) h h' := by
  have hnot := o.not_mem_of_fresh hnew
  have hdesc := at_descend (fun x => before seq (h.packet x).seq)
    (fun x => after seq (h.packet x).seq) t [] o.tree
  obtain ⟨k, hk⟩ := o.balanced
  have hbal := bal_descend (fun x => before seq (h.packet x).seq)
    (fun x => after seq (h.packet x).seq) t [] hk rfl
  rw [hup] at hdesc hbal
  obtain ⟨hat, hperm⟩ := hdesc
  rw [beside, List.append_nil] at hperm
  have hlen := hperm.length_eq
  have hle := length_le_beside up
  -- the memory with the new node, before it is linked
  generalize hh1 : (h.calloc new).write new ⟨seq, packetId, segSize⟩ = h1
  obtain ⟨hcell, hdata, hself, hsame⟩ := newNode_spec hh1
  have hne : ∀ y ∈ t.toList, y ≠ new := fun y hy => ne_of_mem_of_not_mem hy hnot
  have hpacket : ∀ y ∈ t.toList, h1.packet y = h.packet y := fun y hy =>
    packet_congr (hsame y (hne y hy)).2
  have hat1 : At ⟨h1.node, f.root⟩ .nil up := hat.congr
    (fun y hy => (hsame y (hne y (hperm.mem_iff.mp (by simpa using hy)))).1) rfl
  have hfirst := rbFirst_spec (o.tree.congr
    (fun y hy => (hsame y (hne y (by simpa [beside] using hy))).1)
    (show Mem.root ⟨h1.node, f.root⟩ = f.root from rfl)) hn.le
  obtain ⟨m1, m2, hm1, hm2, hat2, hout⟩ := insert_spec hat1 hnew.aligned
    (fun hm => hnot (hperm.mem_iff.mp hm)) hcell (.of_hole hbal)
    (show up.length < rounds by omega)
  have hmem : ∀ y, y ∈ (insertColor .nil new .nil up).toList ↔ y = new ∨ y ∈ t.toList := by
    intro y
    rw [toList_insertColor, perm_plug.mem_iff, List.mem_append, hperm.mem_iff]
    simp
  have hins : insertOrSendPacket rounds now queue h f seq packetId segSize new =
      some ({ h1 with node := m2.node },
        { f with size := f.size + 1, root := m2.root, lastActivity := now }, []) := by
    simp only [insertOrSendPacket, search_read o seq hn, hup, Place.of, Option.bind_eq_bind,
      Option.bind_some, hh1, hfirst, hm1, hm2]
  refine ⟨_, _, hins, ⟨hat2, redBlack_insertColor .nil new .nil up .nil .nil hbal, fun y hy => ?_⟩,
    ?_, ⟨fun y hy => ?_, fun y hy hno => ?_, fun y hy => ?_⟩⟩
  · rcases (hmem y).mp hy with rfl | hy
    · exact hdata.trans (congrArg some hself.symm)
    · exact ((hsame y (hne y hy)).2.trans (o.packets y hy)).trans
        (congrArg some (hpacket y hy).symm)
  · have hnew1 : Heap.packet { h1 with node := m2.node } new = ⟨seq, packetId, segSize⟩ := hself
    have hframes : up.map (Frame.map (Heap.packet { h1 with node := m2.node })) =
        up.map (Frame.map h.packet) :=
      frames_map_congr fun y hy => hpacket y (hperm.mem_iff.mp hy)
    rw [Flowbuf.read, insertColor_map, hnew1, hframes]
    rfl
  · rw [List.mem_append, List.mem_singleton, not_or] at hy
    refine ⟨(hout y ?_).trans (hsame y hy.2).1, (hsame y hy.2).2⟩
    rw [List.mem_cons, not_or, hperm.mem_iff]
    exact ⟨hy.2, hy.1⟩
  · rw [List.mem_append, List.mem_singleton] at hy
    exact absurd ((hmem y).mpr hy.symm) hno
  · rw [List.mem_append, List.mem_singleton]
    exact ((hmem y).mp hy).symm

variable (new) in
/-- **A packet with a number that is held** is dropped, or takes the place of the held one. -/
theorem insert_hit (o : Owns h f t) {up : List (Frame Addr)} {c : Color} {l r : RbNode Addr}
    {x : Addr} (hup : descend (fun x => before seq (h.packet x).seq)
      (fun x => after seq (h.packet x).seq) t [] = .hit c l x r up)
    (hn : t.toList.length < rounds) :
    ∃ h' f', insertOrSendPacket rounds now queue h f seq packetId segSize new =
        some (h', f', [⟨queue, dropped packetId segSize (h.packet x), .drop⟩]) ∧ Owns h' f' t ∧
      f'.read h' t =
        { f.read h t with
          root := plug (.node c (l.map h.packet) (retransmit packetId segSize (h.packet x))
            (r.map h.packet)) (up.map (Frame.map h.packet))
          lastActivity := now } ∧
      Moves [] t t h h' := by
  have hat := at_descend (fun x => before seq (h.packet x).seq)
    (fun x => after seq (h.packet x).seq) t [] o.tree
  have hplug := descend_spec (fun x => before seq (h.packet x).seq)
    (fun x => after seq (h.packet x).seq) t []
  rw [hup] at hat hplug
  obtain ⟨hat, hperm⟩ := hat
  have hplug : plug (.node c l x r) up = t := hplug.1
  have hx : x ∈ t.toList := by
    rw [← hplug, toList_plug]
    simp
  have hne : ∀ y ∈ l.toList ++ r.toList ++ beside up, y ≠ x := by
    have hnd : (x :: (l.toList ++ r.toList ++ beside up)).Nodup := by
      refine (hat.sound.of_count fun a => ?_).1
      simp only [toList_node, List.count_append, List.count_cons]
      omega
    exact fun y hy => ne_of_mem_of_not_mem hy (List.nodup_cons.mp hnd).1
  generalize hd : retransmit packetId segSize (h.packet x) = d
  have hpacket : ∀ y, y ≠ x → (h.write x d).packet y = h.packet y :=
    fun y hy => packet_congr (write_of_ne h hy d)
  have hins : insertOrSendPacket rounds now queue h f seq packetId segSize new =
      some (h.write x d, { f with lastActivity := now },
        [⟨queue, dropped packetId segSize (h.packet x), .drop⟩]) := by
    simp only [insertOrSendPacket, search_read o seq hn, hup, Place.of, Option.bind_eq_bind,
      Option.bind_some, o.packets x hx, hd]
  refine ⟨_, _, hins, ⟨o.tree, o.balanced, fun y hy => ?_⟩, ?_, ⟨fun y hy => ?_,
    fun y hy hno => absurd (by simpa using hy) hno, fun y hy => by simpa using hy⟩⟩
  · by_cases hyx : y = x
    · rw [hyx, (write_self h x d).1, (write_self h x d).2]
    · rw [write_of_ne h hyx, hpacket y hyx]
      exact o.packets y hy
  · have hl : l.map (h.write x d).packet = l.map h.packet :=
      map_congr fun y hy => hpacket y (hne y (by simp [hy]))
    have hr : r.map (h.write x d).packet = r.map h.packet :=
      map_congr fun y hy => hpacket y (hne y (by simp [hy]))
    rw [Flowbuf.read, ← hplug, plug_map, map_node, hl, hr, (write_self h x d).2,
      frames_map_congr fun y hy => hpacket y (hne y (by simp [hy]))]
    rfl
  · rw [List.append_nil] at hy
    refine ⟨rfl, write_of_ne h ?_ d⟩
    rintro rfl
    exact hy hx

/-- **`insert_or_send_packet`** in memory. -/
theorem insertOrSendPacket_spec (o : Owns h f t) (hnew : Fresh h new)
    (hn : t.toList.length < rounds) (seq packetId : U32) (segSize : U16) :
    ∃ h' f' t', insertOrSendPacket rounds now queue h f seq packetId segSize new = some (h', f',
        (Stage.insertOrSendPacket now queue (f.read h t) seq packetId segSize).2) ∧
      Owns h' f' t' ∧
      f'.read h' t' = (Stage.insertOrSendPacket now queue (f.read h t) seq packetId segSize).1 ∧
      Moves [new] t t' h h' := by
  have hmap := descend_map h.packet (fun curr => before seq curr.seq)
    (fun curr => after seq curr.seq) t []
  rw [List.map_nil] at hmap
  cases hup : descend (fun x => before seq (h.packet x).seq)
    (fun x => after seq (h.packet x).seq) t [] with
  | leaf up =>
    obtain ⟨h', f', hins, o', hread, hmoves⟩ := insert_leaf now queue packetId segSize
      o hnew hup hn
    refine ⟨h', f', _, hins.trans ?_, o', hread.trans ?_, hmoves⟩
    all_goals
      rw [hup] at hmap
      simp only [Stage.insertOrSendPacket, insertSeq, RbNode.upsert, Flowbuf.read, hmap, Spot.map]
  | hit c l x r up =>
    obtain ⟨h', f', hins, o', hread, hmoves⟩ := insert_hit new now queue packetId
      segSize o hup hn
    refine ⟨h', f', t, hins.trans ?_, o', hread.trans ?_, ?_⟩
    · rw [hup] at hmap
      simp only [Stage.insertOrSendPacket, insertSeq, RbNode.upsert, Flowbuf.read, hmap, Spot.map]
    · rw [hup] at hmap
      simp only [Stage.insertOrSendPacket, insertSeq, RbNode.upsert, Flowbuf.read, hmap, Spot.map]
    · exact hmoves.trans (.refl (by simpa using hmoves.fresh hnew (o.not_mem_of_fresh hnew)))

end Insert

/-! ### The stage -/

section Stage
variable {h : Heap} {f : Flowbuf} {t : RbNode Addr} {new : Addr} {rounds : ℕ} (now : ℚ)
  (queue : QHandle)

theorem length_held (f : Flowbuf) (h : Heap) (t : RbNode Addr) :
    (f.read h t).held.length = t.toList.length := by
  rw [NfqFlowbuf.held, Flowbuf.read, toList_map, List.length_map]

/-- The stage in memory does not fault, its loops end, and it does what it does on the flow
buffer. -/
def Resequences (rounds : ℕ) (now : ℚ) (queue : QHandle) (h : Heap) (f : Flowbuf)
    (t : RbNode Addr) (new : Addr) (id : U32) (p : Packet) : Prop :=
  ∃ h' f' t' calls, resequence rounds now queue h f id p new = some (h', f', calls) ∧
    Stage.resequence now queue (f.read h t) id p = some (f'.read h' t', calls) ∧
    Owns h' f' t' ∧ Moves [new] t t' h h'

variable (o : Owns h f t) (hnew : Fresh h new) (id : U32) {p : Packet}
include o hnew

/-- The packet is due, and those that follow it are sent. -/
theorem resequences_due (hn : t.toList.length < rounds)
    (hle : (before p.seq f.expectedNext || p.seq == f.expectedNext) = true) :
    Resequences rounds now queue h f t new id p := by
  have o1 : Owns h ⟨f.size, nextOnArrival f.expectedNext p, f.root, f.timeout, now, f.timer⟩ t :=
    ⟨o.tree, o.balanced, o.packets⟩
  obtain ⟨h', f', t', hloop, o', hread, hmoves⟩ := sendWhile_spec now queue rounds
    (fun d expectedNext => d.seq == expectedNext) rounds o1 (by omega) (by omega)
  generalize hw : walk now queue (fun d expectedNext => d.seq == expectedNext) t.toList.length
    (Flowbuf.read ⟨f.size, nextOnArrival f.expectedNext p, f.root, f.timeout, now, f.timer⟩ h t)
    = w at hloop hread
  refine ⟨h', f', t', ⟨queue, id, .accept⟩ :: w.2, ?_, ?_, o', hmoves.trans
    (.refl (by simpa using hmoves.fresh hnew (o.not_mem_of_fresh hnew)))⟩
  · rw [resequence, if_pos hle]
    simp only [release, hloop, Option.bind_eq_bind, Option.bind_some]
  · have hloop' : Stage.release now queue (f.read h t).held.length ⟨f.size,
        nextOnArrival f.expectedNext p, t.map h.packet, f.timeout, now, f.timer⟩ = w := by
      rw [release_eq_walk, length_held]
      exact hw
    rw [Stage.resequence, if_pos (show (before p.seq (f.read h t).expectedNext ||
      p.seq == (f.read h t).expectedNext) = true from hle)]
    show some ((Stage.release now queue (f.read h t).held.length ⟨f.size,
      nextOnArrival f.expectedNext p, t.map h.packet, f.timeout, now, f.timer⟩).1, _ :: _) = _
    rw [hread, ← hloop']
    rfl

/-- The packet is early, and there is room. -/
theorem resequences_room (hn : t.toList.length < rounds)
    (hle : ¬ (before p.seq f.expectedNext || p.seq == f.expectedNext) = true)
    (hlt : f.size < fbufSiz) : Resequences rounds now queue h f t new id p := by
  obtain ⟨h', f', t', hins, o', hread, hmoves⟩ := insertOrSendPacket_spec now queue o hnew hn p.seq
    id p.psize
  have hstage : resequence rounds now queue h f id p new =
      insertOrSendPacket rounds now queue h f p.seq id p.psize new := by
    rw [resequence, if_neg hle, if_pos hlt]
  refine ⟨h', f', t', _, hstage.trans hins, ?_, o', hmoves⟩
  rw [Stage.resequence, if_neg (show ¬ (before p.seq (f.read h t).expectedNext ||
    p.seq == (f.read h t).expectedNext) = true from hle),
    if_pos (show (f.read h t).size < fbufSiz from hlt), hread]

/-- The packet is early, and the buffer is full: the first packet `x` makes room, unless the new one
is before it. -/
theorem resequences_full (hn : t.toList.length < rounds)
    (hle : ¬ (before p.seq f.expectedNext || p.seq == f.expectedNext) = true)
    (hlt : ¬ f.size < fbufSiz) {x : Addr} (hx : t.first = some x) :
    Resequences rounds now queue h f t new id p := by
  have hmem : x ∈ t.toList := by
    rw [first_eq_head?] at hx
    exact List.mem_of_head? hx
  have hpacket := o.packets x hmem
  have hfirst := rbFirst_spec o.tree hn.le
  rw [hx, Option.getD_some] at hfirst
  have hroot : (f.read h t).root.first = some (h.packet x) := by
    rw [Flowbuf.read, first_map, hx, Option.map_some]
  have hstage : Stage.resequence now queue (f.read h t) id p =
      if (h.packet x).seq ≤ p.seq then
        some ((Stage.insertOrSendPacket now queue
          (Stage.sendPacketAt now queue (f.read h t) (h.packet x)).1 p.seq id p.psize).1,
          (Stage.sendPacketAt now queue (f.read h t) (h.packet x)).2 ::
            (Stage.insertOrSendPacket now queue
              (Stage.sendPacketAt now queue (f.read h t) (h.packet x)).1 p.seq id p.psize).2)
      else some ({ f.read h t with lastActivity := now }, [⟨queue, id, .accept⟩]) := by
    rw [Stage.resequence, if_neg (show ¬ (before p.seq (f.read h t).expectedNext ||
      p.seq == (f.read h t).expectedNext) = true from hle),
      if_neg (show ¬ (f.read h t).size < fbufSiz from hlt), hroot]
  unfold Resequences
  rw [hstage]
  by_cases hlow : (h.packet x).seq ≤ p.seq
  · obtain ⟨h1, f1, hsend, o1, hread1, hmoves1⟩ := sendPacketAt_spec now queue o hx hn.le
    have hlen1 : t.eraseFirst.toList.length < rounds := by
      rw [toList_eraseFirst, List.length_tail]
      omega
    obtain ⟨h', f', t', hins, o', hread', hmoves'⟩ := insertOrSendPacket_spec now queue o1
      (hmoves1.fresh hnew (o.not_mem_of_fresh hnew)) hlen1 p.seq id p.psize
    rw [hread1] at hins hread'
    refine ⟨h', f', t', _, ?_, (if_pos hlow).trans (by rw [hread']), o', hmoves1.trans hmoves'⟩
    rw [resequence, if_neg hle, if_neg hlt]
    simp only [hfirst, hpacket, Option.bind_eq_bind, Option.bind_some, hlow, if_true, hsend, hins]
  · refine ⟨h, { f with lastActivity := now }, t, _, ?_, (if_neg hlow).trans rfl,
      ⟨o.tree, o.balanced, o.packets⟩, .refl (by simpa using hnew)⟩
    rw [resequence, if_neg hle, if_neg hlt]
    simp only [hfirst, hpacket, Option.bind_eq_bind, Option.bind_some, hlow, if_false]

/-- **The stage in memory.** -/
theorem resequence_spec (hsized : Sized (f.read h t)) (hn : 256 < rounds) :
    Resequences rounds now queue h f t new id p := by
  have hheld := length_held f h t
  have hle256 : (f.read h t).held.length ≤ 256 := hsized.2
  have hlen : t.toList.length < rounds := by omega
  by_cases hle : (before p.seq f.expectedNext || p.seq == f.expectedNext) = true
  · exact resequences_due now queue o hnew id hlen hle
  by_cases hlt : f.size < fbufSiz
  · exact resequences_room now queue o hnew id hlen hle hlt
  -- the buffer is full, so there is a first packet
  cases hx : t.first with
  | none =>
    rw [first_eq_head?, List.head?_eq_none_iff] at hx
    rw [hx, List.length_nil] at hheld
    exact absurd (hsized.lt_iff.mpr (by omega)) hlt
  | some x => exact resequences_full now queue o hnew id hlen hle hlt hx

end Stage

end DynBandwidth.Netfilter.Nodes
