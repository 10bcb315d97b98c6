import DynBandwidth.Lib.RbBalance
import DynBandwidth.Netfilter.Queue
import DynBandwidth.Reorder.Counter

/-! # The trees of the flows are red-black trees

`reorder_counter.c` and `nfqueue.c` change the tree of a flow with `rb_link_node` and
`rb_insert_color`, and with `rb_erase` at `rb_first`. In every state that a run reaches, each flow
has a red-black tree of at most `FBUF_SIZ` nodes (`Counter.rc_balanced`,
`Queue.nfq_balanced`). A search in a flow of the counter meets at most 20 nodes, in a flow of the
queue at most 16. -/

namespace DynBandwidth.Trees

open DynBandwidth.Lib.RbTree DynBandwidth.Lib.Runs
open DynBandwidth.Reorder.Header DynBandwidth.Reorder.SeqTree

theorem redBlack_insertSeq {α : Type} {t : RbNode α} (h : RedBlack t) (seqOf : α → U32) (seq : U32)
    (new : α) (merge : α → α) : RedBlack (insertSeq seqOf seq new merge t).1 :=
  h.upsert _ _ new merge

/-! ### `reorder_counter.c` -/

namespace Counter

open DynBandwidth.Reorder.Flows DynBandwidth.Reorder.Counter

/-- A red-black tree with the stored number of nodes. -/
def Balanced (f : RcFlowbuf) : Prop := Sized f ∧ RedBlack f.root

theorem redBlack_insertOrSendPacket {f : RcFlowbuf} (h : RedBlack f.root) (seq : U32)
    (segSize : U16) : RedBlack (insertOrSendPacket f seq segSize).1.root := by
  have hroot := redBlack_insertSeq h RcFlowdata.seq seq ⟨seq, segSize⟩ (retransmit segSize)
  unfold insertOrSendPacket
  split <;> simp_all

theorem redBlack_sendPacketAt {f : RcFlowbuf} (h : RedBlack f.root) (d : RcFlowdata) :
    RedBlack (sendPacketAt f d).root := h.eraseFirst

theorem redBlack_release : ∀ (n : ℕ) {f : RcFlowbuf}, RedBlack f.root →
    RedBlack (release n f).1.root
  | 0, _, h => h
  | n + 1, f, h => by
    rw [release]
    split
    · exact h
    · split_ifs
      · exact redBlack_release n (redBlack_sendPacketAt h _)
      · exact h

theorem redBlack_lowestFirst {f f' : RcFlowbuf} {p : Packet} {e : Effect} (h : RedBlack f.root)
    (hr : lowestFirst f p = some (f', e)) : RedBlack f'.root := by
  unfold lowestFirst at hr
  split_ifs at hr
  · cases hr
    exact redBlack_release _ h
  · cases hr
    exact redBlack_insertOrSendPacket h _ _
  · split at hr
    · cases hr
    · split_ifs at hr
      · cases hr
        exact redBlack_insertOrSendPacket (redBlack_sendPacketAt h _) _ _
      · cases hr
        exact h

theorem keeps_balanced : handler.Keeps Balanced where
  fresh p := ⟨keeps_sized.fresh p, redBlack_nil⟩
  step f p hf := by
    obtain ⟨f', e, h, hsized⟩ := keeps_sized.step f p hf.1
    exact ⟨f', e, h, hsized, redBlack_lowestFirst hf.2 h⟩

/-- **The trees of the counter**: in every state of a run each flow has a red-black tree, in which
no search meets more than 20 nodes. -/
theorem rc_balanced {tr : List Packet} {rc : Rc} (h : run rcHandlePacket Rc.init tr = some rc)
    {s d : U16} {f : RcFlowbuf} (hf : rc.flow s d = some f) :
    RedBlack f.root ∧ f.root.depth ≤ 20 := by
  obtain ⟨hsized, hrb⟩ := (keeps_balanced.of_run h).2 s d f hf
  have hlen : f.root.toList.length ≤ 1024 := hsized.2
  exact ⟨hrb, hrb.depth_le (k := 10) (by omega)⟩

end Counter

/-! ### `nfqueue.c` -/

namespace Queue

open DynBandwidth.Netfilter.Queue DynBandwidth.Netfilter.Stage

/-- A red-black tree with the stored number of nodes. -/
def Balanced (f : NfqFlowbuf) : Prop := Sized f ∧ RedBlack f.root

section Functions
variable (now : ℚ) (queue : QHandle) {f : NfqFlowbuf} (h : RedBlack f.root)
include h

theorem redBlack_insertOrSendPacket (seq packetId : U32) (segSize : U16) :
    RedBlack (insertOrSendPacket now queue f seq packetId segSize).1.root := by
  have hroot := redBlack_insertSeq h NfqFlowdata.seq seq ⟨seq, packetId, segSize⟩
    (retransmit packetId segSize)
  unfold insertOrSendPacket
  split <;> simp_all

theorem redBlack_sendPacketAt (d : NfqFlowdata) :
    RedBlack (sendPacketAt now queue f d).1.root := h.eraseFirst

omit h in
theorem redBlack_release : ∀ (n : ℕ) {f : NfqFlowbuf}, RedBlack f.root →
    RedBlack (release now queue n f).1.root
  | 0, _, h => h
  | n + 1, f, h => by
    rw [release]
    split
    · exact h
    · split_ifs
      · exact redBlack_release n (redBlack_sendPacketAt now queue h _)
      · exact h

theorem redBlack_resequence {f' : NfqFlowbuf} {id : U32} {p : Packet} {calls : List Call}
    (hr : resequence now queue f id p = some (f', calls)) : RedBlack f'.root := by
  unfold resequence at hr
  split_ifs at hr
  · cases hr
    exact redBlack_release now queue _ h
  · have hins := redBlack_insertOrSendPacket now queue h p.seq id p.psize
    rw [Option.some.inj hr] at hins
    exact hins
  · split at hr
    · cases hr
    · split_ifs at hr
      · cases hr
        exact redBlack_insertOrSendPacket now queue (redBlack_sendPacketAt now queue h _) _ _ _
      · cases hr
        exact h

end Functions

theorem keeps_balanced : Keeps Balanced where
  start now seq := ⟨keeps_sized.start now seq, redBlack_nil⟩
  resequence f hf now queue id p := by
    obtain ⟨f', calls, hr, hsized⟩ := hf.1.resequence now queue id p
    exact ⟨f', calls, hr, hsized, redBlack_resequence now queue hf.2 hr⟩
  timer _ _ hf := hf

/-- **The trees of the queue**: in every state of a run each flow has a red-black tree, in which no
search meets more than 16 nodes. -/
theorem nfq_balanced {evs : List Event} {nfq : Nfq} (h : run step Nfq.init evs = some nfq)
    {s d : U16} {f : NfqFlowbuf} (hf : nfq.flow s d = some f) :
    RedBlack f.root ∧ f.root.depth ≤ 16 := by
  obtain ⟨hsized, hrb⟩ := (keeps_balanced.of_run h).2 s d f hf
  have hlen : f.root.toList.length ≤ 256 := hsized.2
  exact ⟨hrb, hrb.depth_le (k := 8) (by omega)⟩

end Queue

end DynBandwidth.Trees
