import DynBandwidth.Lib.BucketMap
import DynBandwidth.Netfilter.Nodes

/-! # The memory of `nfqueue.c`

The whole program of `Netfilter.Queue` with the nodes of all flows in one memory. The packets bring
the address that `calloc` would give. -/

namespace DynBandwidth.Netfilter.Memory

open DynBandwidth.Lib.Buckets DynBandwidth.Lib.RbTree DynBandwidth.Lib.Runs
open DynBandwidth.Lib.RbHeap hiding Cell
open DynBandwidth.Reorder.Header DynBandwidth.Netfilter.Stage DynBandwidth.Netfilter.Queue
open DynBandwidth.Netfilter.Nodes

/-- The state `nfq` with the nodes of its trees. -/
structure State where
  queue : QHandle
  reorderBuf : Table U16 U16 Flowbuf
  heap : Heap
  calls : List Call

def State.init : State := ⟨none, empty, ⟨fun _ => none, fun _ => none⟩, []⟩

/-! ### The functions of the file -/

section Functions
variable (rounds : ℕ)

/-- `empty_and_destroy_buf`. -/
def emptyAndDestroyBuf (now : ℚ) (queue : QHandle) (fbuf : ℕ) (s : State) : Option State := do
  let c ← s.reorderBuf.cells[fbuf]?
  let (h, f, calls) ← Nodes.flush rounds now queue s.heap c.val
  let t ← setVal s.reorderBuf fbuf f
  let t ← unlink t fbuf
  some { s with reorderBuf := t, heap := h, calls := s.calls ++ calls }

/-- `timer_cb`. -/
def timerCb (now : ℚ) (fbuf : ℕ) (s : State) : Option State := do
  let c ← s.reorderBuf.cells[fbuf]?
  let after := c.val.lastActivity - now + c.val.timeout
  if after < 0 then emptyAndDestroyBuf rounds now s.queue fbuf s
  else
    let t ← setVal s.reorderBuf fbuf { c.val with timer := some (now + after) }
    some { s with reorderBuf := t }

def newFlowbuf (now : ℚ) (seq : U32) : Flowbuf := ⟨0, seq, 0, 0, now, none⟩

/-- The second half of the stage, on the flow buffer of the packet. -/
def handleAt (a : Arrival) (new : Addr) (fbuf : ℕ) (s : State) : Option State := do
  let c ← s.reorderBuf.cells[fbuf]?
  let (h, buf, calls) ← Nodes.resequence rounds a.now a.queue s.heap c.val a.id a.pkt new
  let t ← setVal s.reorderBuf fbuf buf
  some { s with reorderBuf := t, heap := h, calls := s.calls ++ calls }

/-- **The resequencing stage of `nfq_cb`**: find or create the flow buffer, start the timer of a new
one, and resequence the packet there. -/
def stage (a : Arrival) (new : Addr) (s : State) : Option State := do
  let (t, fbuf) ← lookupOrCreate s.reorderBuf a.pkt.sport a.pkt.dport (newFlowbuf a.now a.pkt.seq)
  if fbuf = s.reorderBuf.cells.length then
    let s' ← timerCb rounds a.now fbuf { s with reorderBuf := t }
    handleAt rounds a new fbuf s'
  else handleAt rounds a new fbuf { s with reorderBuf := t }

/-- The event loop calls `timer_cb` for a pending timer. -/
def fire (now : ℚ) (fbuf : ℕ) (s : State) : Option State :=
  match s.reorderBuf.cells[fbuf]? with
  | none => some s
  | some c =>
    if c.val.timer.isSome then do
      let t ← setVal s.reorderBuf fbuf { c.val with timer := none }
      timerCb rounds now fbuf { s with reorderBuf := t }
    else some s

/-- An event; a packet comes with the address that `calloc` gives. -/
inductive Input
  | packet (a : Arrival) (new : Addr)
  | timer (now : ℚ) (fbuf : ℕ)

def Input.event : Input → Event
  | .packet a _ => .packet a
  | .timer now fbuf => .timer now fbuf

def step (s : State) : Input → Option State
  | .packet a new => stage rounds a new s
  | .timer now fbuf => fire rounds now fbuf s

/-- `calloc` gives an address that is free. -/
def Input.Allocates (s : State) : Input → Prop
  | .packet _ new => Fresh s.heap new
  | .timer _ _ => True

instance (s : State) : ∀ i : Input, Decidable (i.Allocates s)
  | .packet _ new => inferInstanceAs (Decidable (Fresh s.heap new))
  | .timer _ _ => inferInstanceAs (Decidable True)

end Functions

/-! ### What the memory has -/

/-- The state that is read from memory, with the trees of all flow buffers. -/
def State.read (s : State) (ts : ℕ → RbNode Addr) : Nfq :=
  ⟨s.queue, s.reorderBuf.mapIdx fun i f => f.read s.heap (ts i), s.calls⟩

/-- **The memory is that of the flow buffers**: each has its tree there, no two share a node, and
there is no other node. -/
structure Inv (s : State) (ts : ℕ → RbNode Addr) : Prop where
  owns : ∀ i f, s.reorderBuf.vals[i]? = some f →
    Owns s.heap f (ts i) ∧ Sized (f.read s.heap (ts i))
  beyond : ∀ i, s.reorderBuf.vals[i]? = none → ts i = .nil
  apart : ∀ i j, i ≠ j → ∀ x ∈ (ts i).toList, x ∉ (ts j).toList
  nodes : ∀ x, (s.heap.node x ≠ none ∨ s.heap.data x ≠ none) → ∃ i, x ∈ (ts i).toList

theorem inv_init : Inv State.init fun _ => .nil where
  owns i f h := by simp [State.init, empty, Table.vals] at h
  beyond _ _ := rfl
  apart _ _ _ x hx := by simp at hx
  nodes x h := by simp [State.init] at h

section Put
variable {s : State} {ts : ℕ → RbNode Addr} {p : ℕ} {f f' : Flowbuf} {h' : Heap}
  {t' : RbNode Addr} {new : List Addr} {T : Table U16 U16 Flowbuf}

/-- A fresh address is not in a tree. -/
theorem Inv.fresh_not_mem (hinv : Inv s ts) {x : Addr} (hx : Fresh s.heap x) (i : ℕ) :
    x ∉ (ts i).toList := by
  cases hi : s.reorderBuf.vals[i]? with
  | none =>
    rw [hinv.beyond i hi]
    simp
  | some f => exact (hinv.owns i f hi).1.not_mem_of_fresh hx

/-- What a step at one flow leaves of the others. -/
theorem Inv.other (hinv : Inv s ts) (hnew : ∀ x ∈ new, Fresh s.heap x)
    (hm : Moves new (ts p) t' s.heap h') {i : ℕ} (hi : i ≠ p) {y : Addr} (hy : y ∈ (ts i).toList) :
    h'.node y = s.heap.node y ∧ h'.data y = s.heap.data y := by
  refine hm.same y fun hmem => ?_
  rcases List.mem_append.mp hmem with hmem | hmem
  · exact hinv.apart i p hi y hy hmem
  · exact hinv.fresh_not_mem (hnew y hmem) i hy

/-- **A step at one flow** leaves the other flows as they are. -/
theorem Inv.put (hinv : Inv s ts) (hnew : ∀ x ∈ new, Fresh s.heap x) (o : Owns h' f' t')
    (hs : Sized (f'.read h' t')) (hm : Moves new (ts p) t' s.heap h')
    (hp : s.reorderBuf.vals[p]? = some f) (hT : T.vals = s.reorderBuf.vals.set p f')
    (calls : List Call) : Inv ⟨s.queue, T, h', calls⟩ (Function.update ts p t') where
  owns i g hg := by
    rw [hT, List.getElem?_set] at hg
    by_cases hi : p = i
    · subst hi
      rw [if_pos rfl] at hg
      split_ifs at hg
      cases hg
      rw [Function.update_self]
      exact ⟨o, hs⟩
    · rw [if_neg hi] at hg
      obtain ⟨o1, hs1⟩ := hinv.owns i g hg
      obtain ⟨o2, hread⟩ := o1.congr fun y hy => hinv.other hnew hm (Ne.symm hi) hy
      rw [Function.update_of_ne (Ne.symm hi)]
      exact ⟨o2, hread ▸ hs1⟩
  beyond i hi := by
    rw [hT, List.getElem?_set] at hi
    by_cases hip : p = i
    · subst hip
      have hlt := (List.getElem?_eq_some_iff.mp hp).1
      simp [hlt] at hi
    · rw [if_neg hip] at hi
      rw [Function.update_of_ne (Ne.symm hip)]
      exact hinv.beyond i hi
  apart i j hij x hx := by
    have hout : ∀ k, k ≠ p → ∀ y ∈ t'.toList, y ∉ (ts k).toList := by
      intro k hk y hy hyk
      rcases List.mem_append.mp (hm.within y hy) with hy' | hy'
      · exact hinv.apart p k (Ne.symm hk) y hy' hyk
      · exact hinv.fresh_not_mem (hnew y hy') k hyk
    by_cases hi : i = p
    · subst hi
      rw [Function.update_self] at hx
      rw [Function.update_of_ne (Ne.symm hij)]
      exact hout j (Ne.symm hij) x hx
    · rw [Function.update_of_ne hi] at hx
      by_cases hj : j = p
      · subst hj
        rw [Function.update_self]
        exact fun hx' => hout i hi x hx' hx
      · rw [Function.update_of_ne hj]
        exact hinv.apart i j hij x hx
  nodes x hx := by
    by_cases hin : x ∈ t'.toList
    · exact ⟨p, by rw [Function.update_self]; exact hin⟩
    · have hmem : x ∉ (ts p).toList ++ new := by
        intro hmem
        have hfree := hm.freed x hmem hin
        exact hx.elim (fun hno => hno hfree.1) fun hno => hno hfree.2
      have hsame := hm.same x hmem
      obtain ⟨i, hi⟩ := hinv.nodes x (by rw [← hsame.1, ← hsame.2]; exact hx)
      refine ⟨i, ?_⟩
      rw [Function.update_of_ne]
      · exact hi
      · rintro rfl
        exact hmem (List.mem_append_left _ hi)

variable (f') in
/-- The state that is read after a step at one flow. -/
theorem Inv.setVal_read (hinv : Inv s ts) (hnew : ∀ x ∈ new, Fresh s.heap x)
    (hm : Moves new (ts p) t' s.heap h') :
    setVal (s.reorderBuf.mapIdx fun i f => f.read s.heap (ts i)) p (f'.read h' t') =
      (setVal s.reorderBuf p f').map fun T =>
        T.mapIdx fun i f => f.read h' (Function.update ts p t' i) := by
  have hself : f'.read h' t' = f'.read h' (Function.update ts p t' p) := by
    rw [Function.update_self]
  rw [hself]
  refine setVal_mapIdx (fun i (f : Flowbuf) => f.read s.heap (ts i))
    (fun i (f : Flowbuf) => f.read h' (Function.update ts p t' i)) fun i d hi hd => ?_
  obtain ⟨o, -⟩ := hinv.owns i d.val (get_vals hd)
  rw [Function.update_of_ne hi]
  exact (o.congr fun y hy => hinv.other hnew hm hi hy).2

end Put

/-! ### Simulation -/

section Simulation
variable {rounds : ℕ} {s : State} {ts : ℕ → RbNode Addr} {nfq' : Nfq}

theorem sized_walk (now : ℚ) (queue : QHandle) (go : NfqFlowdata → U32 → Bool) :
    ∀ (n : ℕ) {f : NfqFlowbuf}, Sized f → Sized (walk now queue go n f).1
  | 0, _, h => h
  | n + 1, f, h => by
    rw [walk]
    cases hfirst : f.root.first with
    | none => exact h
    | some d =>
      have hheld : f.held = d :: f.held.tail := by
        rw [first_eq_head?] at hfirst
        obtain ⟨ds, hds⟩ := List.head?_eq_some_iff.mp hfirst
        rw [NfqFlowbuf.held, hds, List.tail_cons]
      dsimp only
      split_ifs
      · exact sized_walk now queue go n (h.send now queue hheld)
      · exact h

/-- The cell of a flow buffer, as it is read. -/
theorem get_read (s : State) (ts : ℕ → RbNode Addr) (p : ℕ) : (s.read ts).reorderBuf.cells[p]? =
    (s.reorderBuf.cells[p]?).map fun c => c.withVal (c.val.read s.heap (ts p)) :=
  get_mapIdx _ _ p

/-- A timer is set, which leaves the memory as it is. -/
theorem Inv.setTimer (hinv : Inv s ts) {p : ℕ} {f : Flowbuf}
    (hp : s.reorderBuf.vals[p]? = some f) (timer : Option ℚ) {T' : Table U16 U16 NfqFlowbuf}
    (hT : setVal (s.read ts).reorderBuf p { f.read s.heap (ts p) with timer := timer } = some T') :
    ∃ T, setVal s.reorderBuf p { f with timer := timer } = some T ∧
      Inv { s with reorderBuf := T } ts ∧
      State.read { s with reorderBuf := T } ts = { s.read ts with reorderBuf := T' } := by
  obtain ⟨o, hs⟩ := hinv.owns p f hp
  have hm : Moves [] (ts p) (ts p) s.heap s.heap := .refl (by simp)
  have hread := (hinv.setVal_read { f with timer := timer } (by simp) hm).symm.trans hT
  rw [Function.update_eq_self] at hread
  obtain ⟨T, hset, rfl⟩ := Option.map_eq_some_iff.mp hread
  have o' : Owns s.heap { f with timer := timer } (ts p) := ⟨o.tree, o.balanced, o.packets⟩
  have hs' : Sized (Flowbuf.read { f with timer := timer } s.heap (ts p)) := hs
  have hput := hinv.put (by simp) o' hs' hm hp (setVal_vals hset) s.calls
  rw [Function.update_eq_self] at hput
  exact ⟨T, hset, hput, rfl⟩

/-- **`empty_and_destroy_buf`** in memory. -/
theorem emptyAndDestroyBuf_sim (hinv : Inv s ts) (hn : 256 < rounds) {now : ℚ} {queue : QHandle}
    {fbuf : ℕ} (h : Queue.emptyAndDestroyBuf now queue fbuf (s.read ts) = some nfq') :
    ∃ s' ts', emptyAndDestroyBuf rounds now queue fbuf s = some s' ∧ Inv s' ts' ∧
      s'.read ts' = nfq' ∧ ∀ x, Fresh s.heap x → Fresh s'.heap x := by
  unfold Queue.emptyAndDestroyBuf at h
  rw [get_read] at h
  cases hc : s.reorderBuf.cells[fbuf]? with
  | none =>
    rw [hc] at h
    cases h
  | some c =>
    rw [hc] at h
    simp only [Option.map_some, Option.bind_eq_bind, Option.bind_some, Cell.withVal] at h
    obtain ⟨o, hs⟩ := hinv.owns fbuf c.val (get_vals hc)
    have hlen : (ts fbuf).toList.length ≤ 256 := by
      rw [← length_held c.val s.heap]
      exact hs.2
    obtain ⟨h1, f1, t1, hloop, o1, hread1, hm⟩ := sendWhile_spec now queue rounds
      (fun _ _ => true) rounds o (by omega) (by omega)
    have hs1 : Sized (f1.read h1 t1) := by
      rw [hread1]
      exact sized_walk now queue _ _ hs
    rw [flush_eq_walk, length_held, ← hread1] at h
    obtain ⟨T1', hset', h⟩ := Option.bind_eq_some_iff.mp h
    obtain ⟨T2', hun', h⟩ := Option.bind_eq_some_iff.mp h
    obtain ⟨T1, hset, rfl⟩ := Option.map_eq_some_iff.mp
      ((hinv.setVal_read f1 (by simp) hm).symm.trans hset')
    rw [unlink_mapIdx] at hun'
    obtain ⟨T2, hun, rfl⟩ := Option.map_eq_some_iff.mp hun'
    cases h
    refine ⟨_, _, ?_, hinv.put (by simp) o1 hs1 hm (get_vals hc)
      ((unlink_vals hun).trans (setVal_vals hset)) _, rfl,
      fun x hx => hm.fresh hx (hinv.fresh_not_mem hx fbuf)⟩
    simp only [emptyAndDestroyBuf, hc, Option.bind_eq_bind, Option.bind_some, Nodes.flush, hloop,
      hset, hun]
    rfl

/-- **`timer_cb`** in memory. -/
theorem timerCb_sim (hinv : Inv s ts) (hn : 256 < rounds) {now : ℚ} {fbuf : ℕ}
    (h : Queue.timerCb now fbuf (s.read ts) = some nfq') :
    ∃ s' ts', timerCb rounds now fbuf s = some s' ∧ Inv s' ts' ∧ s'.read ts' = nfq' ∧
      ∀ x, Fresh s.heap x → Fresh s'.heap x := by
  unfold Queue.timerCb at h
  rw [get_read] at h
  cases hc : s.reorderBuf.cells[fbuf]? with
  | none =>
    rw [hc] at h
    cases h
  | some c =>
    rw [hc] at h
    simp only [Option.map_some, Option.bind_eq_bind, Option.bind_some, Cell.withVal] at h
    by_cases hafter : c.val.lastActivity - now + c.val.timeout < 0
    · rw [if_pos (show (c.val.read s.heap (ts fbuf)).lastActivity - now +
        (c.val.read s.heap (ts fbuf)).timeout < 0 from hafter)] at h
      obtain ⟨s', ts', h', hrest⟩ := emptyAndDestroyBuf_sim hinv hn h
      refine ⟨s', ts', ?_, hrest⟩
      simp only [timerCb, hc, Option.bind_eq_bind, Option.bind_some, if_pos hafter]
      exact h'
    · rw [if_neg (show ¬ (c.val.read s.heap (ts fbuf)).lastActivity - now +
        (c.val.read s.heap (ts fbuf)).timeout < 0 from hafter)] at h
      obtain ⟨T', hset', h⟩ := Option.bind_eq_some_iff.mp h
      cases h
      obtain ⟨T, hset, hinv', hread⟩ := hinv.setTimer (get_vals hc)
        (some (now + (c.val.lastActivity - now + c.val.timeout))) hset'
      refine ⟨{ s with reorderBuf := T }, ts, ?_, hinv', hread, fun x hx => hx⟩
      simp only [timerCb, hc, Option.bind_eq_bind, Option.bind_some, if_neg hafter, hset]

/-- **A timer that fires.** -/
theorem fire_sim (hinv : Inv s ts) (hn : 256 < rounds) {now : ℚ} {fbuf : ℕ}
    (h : Queue.fire now fbuf (s.read ts) = some nfq') :
    ∃ s' ts', fire rounds now fbuf s = some s' ∧ Inv s' ts' ∧ s'.read ts' = nfq' := by
  unfold Queue.fire at h
  rw [get_read] at h
  unfold fire
  cases hc : s.reorderBuf.cells[fbuf]? with
  | none =>
    rw [hc] at h
    cases h
    exact ⟨s, ts, rfl, hinv, rfl⟩
  | some c =>
    rw [hc] at h
    simp only [Option.map_some, Cell.withVal] at h ⊢
    by_cases hpend : c.val.timer.isSome = true
    · rw [if_pos (show (c.val.read s.heap (ts fbuf)).timer.isSome = true from hpend)] at h
      obtain ⟨T', hset', h⟩ := Option.bind_eq_some_iff.mp h
      obtain ⟨T, hset, hinv', hread⟩ := hinv.setTimer (get_vals hc) _ hset'
      rw [← hread] at h
      obtain ⟨s', ts', h', hinv'', hread', -⟩ := timerCb_sim hinv' hn h
      refine ⟨s', ts', ?_, hinv'', hread'⟩
      rw [if_pos hpend, hset]
      exact h'
    · rw [if_neg (show ¬ (c.val.read s.heap (ts fbuf)).timer.isSome = true from hpend)] at h
      cases h
      exact ⟨s, ts, if_neg hpend, hinv, rfl⟩

/-- A new flow buffer has no nodes. -/
theorem Inv.create (hinv : Inv s ts) {T : Table U16 U16 Flowbuf} {now : ℚ} {seq : U32}
    (hT : T.vals = s.reorderBuf.vals ∨ T.vals = s.reorderBuf.vals ++ [newFlowbuf now seq]) :
    Inv { s with reorderBuf := T } ts := by
  rcases hT with hT | hT
  · exact ⟨by rw [hT]; exact hinv.owns, by rw [hT]; exact hinv.beyond, hinv.apart, hinv.nodes⟩
  · refine ⟨fun i f hf => ?_, fun i hi => ?_, hinv.apart, hinv.nodes⟩
    · rw [hT] at hf
      by_cases hlt : i < s.reorderBuf.vals.length
      · rw [List.getElem?_append_left hlt] at hf
        exact hinv.owns i f hf
      · rw [List.getElem?_append_right (by omega)] at hf
        have hi : i - s.reorderBuf.vals.length = 0 := by
          by_contra hne
          rw [List.getElem?_eq_none (by simp; omega)] at hf
          cases hf
        rw [hi] at hf
        cases hf
        rw [hinv.beyond i (List.getElem?_eq_none (by omega))]
        exact ⟨⟨⟨trivial, rfl, ⟨List.nodup_nil, by simp [beside]⟩⟩, redBlack_nil, by simp⟩, rfl,
          Nat.zero_le _⟩
    · rw [hT, List.getElem?_eq_none_iff] at hi
      refine hinv.beyond i (List.getElem?_eq_none ?_)
      simp at hi
      omega

/-- **A packet at its flow buffer.** -/
theorem handleAt_sim (hinv : Inv s ts) (hn : 256 < rounds) {a : Arrival} {new : Addr}
    (hnew : Fresh s.heap new) {fbuf : ℕ} (h : (do
      let c ← (s.read ts).reorderBuf.cells[fbuf]?
      let (buf, calls) ← Stage.resequence a.now a.queue c.val a.id a.pkt
      let t ← setVal (s.read ts).reorderBuf fbuf buf
      some { s.read ts with reorderBuf := t, calls := (s.read ts).calls ++ calls }) = some nfq') :
    ∃ s' ts', handleAt rounds a new fbuf s = some s' ∧ Inv s' ts' ∧ s'.read ts' = nfq' := by
  rw [get_read] at h
  cases hc : s.reorderBuf.cells[fbuf]? with
  | none =>
    rw [hc] at h
    cases h
  | some c =>
    rw [hc] at h
    obtain ⟨o, hs⟩ := hinv.owns fbuf c.val (get_vals hc)
    obtain ⟨h1, f1, t1, calls, hheap, hstage, o1, hm⟩ :=
      resequence_spec (p := a.pkt) a.now a.queue o hnew a.id hs hn
    have hs1 : Sized (f1.read h1 t1) := by
      obtain ⟨f2, calls2, hr, hs2⟩ := hs.resequence a.now a.queue a.id a.pkt
      rw [hstage] at hr
      cases hr
      exact hs2
    have hnew1 : ∀ x ∈ [new], Fresh s.heap x := by simpa using hnew
    simp only [Option.map_some, Option.bind_eq_bind, Option.bind_some, Cell.withVal, hstage] at h
    obtain ⟨T', hset', h⟩ := Option.bind_eq_some_iff.mp h
    obtain ⟨T, hset, rfl⟩ := Option.map_eq_some_iff.mp
      ((hinv.setVal_read f1 hnew1 hm).symm.trans hset')
    cases h
    refine ⟨_, _, ?_, hinv.put hnew1 o1 hs1 hm (get_vals hc) (setVal_vals hset)
      (s.calls ++ calls), rfl⟩
    simp only [handleAt, hc, Option.bind_eq_bind, Option.bind_some, hheap, hset]

/-- **A packet.** -/
theorem stage_sim (hinv : Inv s ts) (hn : 256 < rounds) {a : Arrival} {new : Addr}
    (hnew : Fresh s.heap new) (h : Queue.stage a (s.read ts) = some nfq') :
    ∃ s' ts', stage rounds a new s = some s' ∧ Inv s' ts' ∧ s'.read ts' = nfq' := by
  unfold Queue.stage at h
  obtain ⟨⟨T', fbuf⟩, hl', h⟩ := Option.bind_eq_some_iff.mp h
  have hnil : ts s.reorderBuf.cells.length = .nil :=
    hinv.beyond _ (List.getElem?_eq_none (by simp [Table.vals]))
  have hmap := lookupOrCreate_mapIdx (fun i (f : Flowbuf) => f.read s.heap (ts i)) s.reorderBuf
    a.pkt.sport a.pkt.dport (newFlowbuf a.now a.pkt.seq)
  rw [hnil] at hmap
  obtain ⟨⟨T, q⟩, hl, heq⟩ := Option.map_eq_some_iff.mp (hmap.symm.trans hl')
  obtain ⟨rfl, rfl⟩ : T.mapIdx (fun i (f : Flowbuf) => f.read s.heap (ts i)) = T' ∧ q = fbuf :=
    Prod.mk.inj heq
  have hinv1 := hinv.create (lookupOrCreate_vals hl)
  have hlen : (s.read ts).reorderBuf.cells.length = s.reorderBuf.cells.length := length_mapIdx _ _
  by_cases hq : q = s.reorderBuf.cells.length
  · simp only [hlen, if_pos hq] at h
    obtain ⟨nfq1, htimer, h⟩ := Option.bind_eq_some_iff.mp h
    obtain ⟨s1, ts1, h1, hinv2, rfl, hfresh⟩ := timerCb_sim hinv1 hn htimer
    obtain ⟨s', ts', h', hrest⟩ := handleAt_sim hinv2 hn (hfresh new hnew) h
    refine ⟨s', ts', ?_, hrest⟩
    simp only [stage, hl, Option.bind_eq_bind, Option.bind_some, if_pos hq, h1, h']
  · simp only [hlen, if_neg hq] at h
    obtain ⟨s', ts', h', hrest⟩ := handleAt_sim hinv1 hn hnew h
    refine ⟨s', ts', ?_, hrest⟩
    simp only [stage, hl, Option.bind_eq_bind, Option.bind_some, if_neg hq, h']

/-- **One event** in memory is that event of the program. -/
theorem step_sim (hinv : Inv s ts) (hn : 256 < rounds) {i : Input} (hi : i.Allocates s)
    (h : Queue.step (s.read ts) i.event = some nfq') :
    ∃ s' ts', step rounds s i = some s' ∧ Inv s' ts' ∧ s'.read ts' = nfq' := by
  cases i with
  | packet a new => exact stage_sim hinv hn hi h
  | timer now fbuf => exact fire_sim hinv hn h

/-- All events of a run. The program over trees does not fault, so the one in memory does not. -/
theorem run_sim (hn : 256 < rounds) : ∀ {is : List Input} {s : State} {ts : ℕ → RbNode Addr},
    Inv s ts → (s.read ts).All Sized → AllSteps (step rounds) (fun s i => i.Allocates s) s is →
    ∃ s' ts', run (step rounds) s is = some s' ∧ Inv s' ts' ∧
      run Queue.step (s.read ts) (is.map Input.event) = some (s'.read ts')
  | [], s, ts, hinv, _, _ => ⟨s, ts, rfl, hinv, rfl⟩
  | i :: is, s, ts, hinv, hall, hnew => by
    obtain ⟨nfq1, hstep, hall1⟩ := keeps_sized.event hall i.event
    obtain ⟨s1, ts1, h1, hinv1, rfl⟩ := step_sim hinv hn hnew.1 hstep
    obtain ⟨s', ts', hrun, hinv', hrun'⟩ := run_sim hn hinv1 hall1 (hnew.2 s1 h1)
    exact ⟨s', ts', run_of_step h1 hrun, hinv', run_of_step hstep hrun'⟩

end Simulation

/-- **The memory is safe, and the program over trees is what it does.** Along every run in which
`calloc` gives free addresses, no pointer to a node is followed that is null or was freed, the loops
end, and the calls of `nfq_set_verdict` and all flow buffers are those of `Netfilter.Queue`. At the
end each buffer has a tree of its own, and every node that is not freed is in one of them. -/
theorem memory_refines {rounds : ℕ} (hn : 256 < rounds) {is : List Input}
    (hnew : AllSteps (step rounds) (fun s i => i.Allocates s) State.init is) :
    ∃ s ts, run (step rounds) State.init is = some s ∧ Inv s ts ∧
      run Queue.step Nfq.init (is.map Input.event) = some (s.read ts) :=
  run_sim hn inv_init (all_init Sized) hnew

/-- Two segments wait for a third one. A later segment gets an address that they had. -/
def lateInputs : List Input :=
  [.packet ⟨0, none, 0, ⟨7, 9, 10, 1000, 16, 0⟩⟩ 64,
    .packet ⟨0, none, 1, ⟨7, 9, 10, 1020, 16, 0⟩⟩ 64,
    .packet ⟨0, none, 2, ⟨7, 9, 10, 1030, 16, 0⟩⟩ 128,
    .packet ⟨0, none, 3, ⟨7, 9, 10, 1010, 16, 0⟩⟩ 192,
    .packet ⟨0, none, 4, ⟨7, 9, 10, 1060, 16, 0⟩⟩ 64, .timer 100 0]

theorem memory_refines_lateInputs :
    AllSteps (step 257) (fun s i => i.Allocates s) State.init lateInputs ∧
    ∃ s ts, run (step 257) State.init lateInputs = some s ∧ Inv s ts ∧
      run Queue.step Nfq.init (lateInputs.map Input.event) = some (s.read ts) := by
  have hnew : AllSteps (step 257) (fun s i => i.Allocates s) State.init lateInputs := by
    decide +kernel
  exact ⟨hnew, memory_refines (by decide) hnew⟩

end DynBandwidth.Netfilter.Memory
