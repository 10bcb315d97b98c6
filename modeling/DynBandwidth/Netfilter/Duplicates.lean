import DynBandwidth.Overflow

/-! # Duplicates of one number

Packets with one number that are inserted one after another compete for one node of the tree. Each
insertion after the first one meets this node, keeps the larger packet there, and the newer one if
they are equal, and drops the other one (`apply_again`). Insertions of other numbers, and packets of
other numbers that are sent, leave the node alone (`nodes_apply_other`). So in the end the node
carries the last of the largest packets, whatever happens in between (`last_largest_survives`). -/

namespace DynBandwidth.Netfilter.Duplicates

open DynBandwidth.Lib.Serial DynBandwidth.Lib.RbTree DynBandwidth.Lib.Runs
open DynBandwidth.Reorder.Header DynBandwidth.Reorder.SeqTree
open DynBandwidth.Netfilter.Stage
open DynBandwidth.Netfilter.Queue (Nfq Event startFlowbuf)

/-- A call of `insert_or_send_packet`. -/
structure Insertion where
  now : ℚ
  queue : QHandle
  seq : U32
  packetId : U32
  segSize : U16
  deriving DecidableEq, Repr

def Insertion.apply (i : Insertion) (f : NfqFlowbuf) : NfqFlowbuf × List Call :=
  insertOrSendPacket i.now i.queue f i.seq i.packetId i.segSize

/-- What is done to a flow: a packet is inserted, or the first packet of the tree is sent. -/
inductive Op
  | insert (i : Insertion)
  | send (now : ℚ) (queue : QHandle)
  deriving DecidableEq, Repr

/-- A flow buffer, the calls so far, and what the insertions of one number contributed: their calls,
and what they added to `size`. -/
structure Watch where
  buf : NfqFlowbuf
  calls : List Call
  own : List Call
  grown : U32
  deriving DecidableEq, Repr

def Watch.start (f : NfqFlowbuf) : Watch := ⟨f, [], [], 0⟩

/-- One step of a flow, while the insertions of `seq` are watched. -/
def step (seq : U32) (w : Watch) : Op → Option Watch
  | .insert i =>
    some {
      buf := (i.apply w.buf).1
      calls := w.calls ++ (i.apply w.buf).2
      own := if i.seq = seq then w.own ++ (i.apply w.buf).2 else w.own
      grown := if i.seq = seq then w.grown + ((i.apply w.buf).1.size - w.buf.size) else w.grown }
  | .send now queue =>
    match w.buf.root.first with
    | none => some w
    | some d =>
      some { w with
        buf := (sendPacketAt now queue w.buf d).1
        calls := w.calls ++ [(sendPacketAt now queue w.buf d).2] }

/-- The step does not send a packet with the number. -/
def Stays (seq : U32) (w : Watch) : Op → Prop
  | .insert _ => True
  | .send _ _ => ∀ d, w.buf.root.first = some d → d.seq ≠ seq

/-- The insertions among the steps. -/
def insertions (ops : List Op) : List Insertion :=
  ops.filterMap fun
    | .insert i => some i
    | .send _ _ => none

/-- The insertions of one number. -/
def packetsOf (seq : U32) (ops : List Op) : List Insertion :=
  (insertions ops).filter fun i => i.seq = seq

/-- The nodes held for one number. -/
def nodes (seq : U32) (f : NfqFlowbuf) : List NfqFlowdata := f.held.filter fun x => x.seq = seq

/-- How often a packet was dropped. -/
def drops (id : U32) (calls : List Call) : ℕ := calls.countP fun c => c.id = id ∧ c.verdict = .drop

/-- `x` is the last packet of the list among those of maximal size. -/
def LastLargest (x : Insertion) (ps : List Insertion) : Prop := ∃ pre post, ps = pre ++ x :: post ∧
  (∀ y ∈ pre, y.segSize ≤ x.segSize) ∧ ∀ y ∈ post, y.segSize < x.segSize

/-- A flow of the program: a new one, or one of a state that can be reached. -/
def IsFlow (f : NfqFlowbuf) : Prop :=
  (∃ now seq, f = startFlowbuf now seq) ∨
    ∃ evs nfq sport dport, run Queue.step Nfq.init evs = some nfq ∧ nfq.flow sport dport = some f

/-- The numbers a flow holds and those that are inserted are near each other. -/
def AllNear (f : NfqFlowbuf) (ops : List Op) : Prop :=
  ∀ a ∈ f.held.map NfqFlowdata.seq ++ (insertions ops).map Insertion.seq,
    ∀ b ∈ f.held.map NfqFlowdata.seq ++ (insertions ops).map Insertion.seq, Near a b

/-! ### One insertion -/

section Insert
variable {f : NfqFlowbuf} {i : Insertion} {seq : U32}

theorem nodes_eq_nil : nodes seq f = [] ↔ ∀ x ∈ f.held, x.seq ≠ seq := by
  simp [nodes]

theorem nodes_apply_other (h : i.seq ≠ seq) : nodes seq (i.apply f).1 = nodes seq f := by
  unfold nodes Insertion.apply
  rcases insertOrSendPacket_cases i.now i.queue f i.seq i.packetId i.segSize with
    ⟨l, r, h1, h2, -⟩ | ⟨l, x, r, h1, hx, h2, -⟩
  · rw [h1, h2]
    simp [h]
  · have hx' : (retransmit i.packetId i.segSize x).seq ≠ seq := by rwa [retransmit_seq, hx]
    rw [h1, h2]
    simp [hx', hx, h]

/-- **The first packet with a number** gets a node. -/
theorem apply_first (h : nodes i.seq f = []) :
    nodes i.seq (i.apply f).1 = [⟨i.seq, i.packetId, i.segSize⟩] ∧ (i.apply f).2 = [] ∧
      (i.apply f).1.size = f.size + 1 := by
  unfold nodes Insertion.apply
  rcases insertOrSendPacket_cases i.now i.queue f i.seq i.packetId i.segSize with
    ⟨l, r, h1, h2, h3, h4⟩ | ⟨l, x, r, h1, hx, -⟩
  · rw [nodes, h1, List.filter_append, List.append_eq_nil_iff] at h
    refine ⟨?_, h3, h4⟩
    rw [h2, List.filter_append, h.1, List.filter_cons_of_pos (by simp), h.2]
    rfl
  · rw [nodes_eq_nil] at h
    exact absurd hx (h x (by rw [h1]; simp))

theorem ascending_apply (ha : Ascending NfqFlowdata.seq f.held)
    (hn : ∀ x ∈ f.held, Near i.seq x.seq) : Ascending NfqFlowdata.seq (i.apply f).1.held := by
  rw [Insertion.apply, insertOrSendPacket_held]
  exact ascending_insertSeq ha hn rfl (retransmit_seq i.packetId i.segSize)

/-- **A further packet with the number** meets the node. -/
theorem apply_again (ha : Ascending NfqFlowdata.seq f.held) (hn : ∀ x ∈ f.held, Near i.seq x.seq)
    {x : NfqFlowdata} (h : nodes i.seq f = [x]) :
    nodes i.seq (i.apply f).1 = [retransmit i.packetId i.segSize x] ∧
      (i.apply f).2 = [⟨i.queue, dropped i.packetId i.segSize x, .drop⟩] ∧
      (i.apply f).1.size = f.size := by
  have hnodup := (ascending_apply ha hn).nodup
  unfold nodes Insertion.apply at *
  rcases insertOrSendPacket_cases i.now i.queue f i.seq i.packetId i.segSize with
    ⟨l, r, h1, h2, -⟩ | ⟨l, y, r, h1, hy, h2, h3, h4⟩
  -- A second node with the number would break the order of the tree.
  · have hx : x ∈ l ++ r ∧ x.seq = i.seq := by
      have hmem : x ∈ f.held.filter fun y => y.seq = i.seq := by rw [h]; simp
      rw [← h1]
      simpa using hmem
    rw [h2, List.perm_middle.map _ |>.nodup_iff, List.map_cons, List.nodup_cons] at hnodup
    exact absurd (List.mem_map.mpr ⟨x, hx⟩) hnodup.1
  · rw [h1, List.filter_append, List.filter_cons_of_pos (by simpa using hy),
      List.append_eq_singleton_iff] at h
    obtain ⟨hl, hyr⟩ | ⟨-, hnil⟩ := h
    · obtain ⟨rfl, hr⟩ := List.cons.inj hyr
      refine ⟨?_, h3, h4⟩
      rw [h2, List.filter_append, hl, List.filter_cons_of_pos (by simp [retransmit_seq, hy]), hr]
      rfl
    · cases hnil

end Insert

/-! ### The packets of one number -/

/-- What has become of the packets `ps` of the number, while `w` was reached: `x` is held, and the
others were dropped, one call for each of them. -/
structure Survives (seq : U32) (ps : List Insertion) (x : Insertion) (w : Watch) : Prop where
  node : nodes seq w.buf = [⟨seq, x.packetId, x.segSize⟩]
  verdicts : ∀ c ∈ w.own, c.verdict = .drop
  split : ∃ pre post, ps = pre ++ x :: post ∧ (∀ y ∈ pre, y.segSize ≤ x.segSize) ∧
    (∀ y ∈ post, y.segSize < x.segSize) ∧
    (w.own.map Call.id).Perm ((pre ++ post).map Insertion.packetId)
  grown : w.grown = 1

/-- Before the first packet of the number nothing has happened to it; then one packet survives. -/
def Carried (seq : U32) (ps : List Insertion) (w : Watch) : Prop :=
  (ps = [] ∧ nodes seq w.buf = [] ∧ w.own = [] ∧ w.grown = 0) ∨ ∃ x, Survives seq ps x w

section Packets
variable {seq : U32} {ps : List Insertion} {x : Insertion} {w w' : Watch} {i : Insertion}

theorem Carried.of_eq (h : Carried seq ps w) (hnode : nodes seq w'.buf = nodes seq w.buf)
    (hown : w'.own = w.own) (hgrown : w'.grown = w.grown) : Carried seq ps w' := by
  unfold Carried at h ⊢
  rw [hnode, hown, hgrown]
  obtain h | ⟨x, h⟩ := h
  · exact Or.inl h
  · exact Or.inr ⟨x, hnode ▸ h.node, hown ▸ h.verdicts, hown ▸ h.split, hgrown ▸ h.grown⟩

/-- **A retransmission**: the survivor stays if it is larger, else the new packet survives. -/
theorem Survives.insert (h : Survives seq ps x w) (hi : i.seq = seq)
    (ha : Ascending NfqFlowdata.seq w.buf.held) (hn : ∀ y ∈ w.buf.held, Near i.seq y.seq)
    (hw : step seq w (.insert i) = some w') : ∃ x', Survives seq (ps ++ [i]) x' w' := by
  subst hi
  obtain ⟨hnode, hcalls, hsize⟩ := apply_again ha hn h.node
  obtain ⟨pre, post, rfl, hpre, hpost, hperm⟩ := h.split
  simp only [step, if_true, Option.some.injEq] at hw
  subst hw
  have hgrown : w.grown + ((i.apply w.buf).1.size - w.buf.size) = 1 := by
    rw [hsize, sub_self, add_zero, h.grown]
  have hverdicts : ∀ c ∈ w.own ++ (i.apply w.buf).2, c.verdict = .drop := by
    rw [hcalls]
    intro c hc
    rcases List.mem_append.mp hc with hc | hc
    · exact h.verdicts c hc
    · rw [List.mem_singleton.mp hc]
  by_cases hlt : i.segSize < x.segSize
  · refine ⟨x, ?_, hverdicts, ⟨pre, post ++ [i], by simp, hpre, ?_, ?_⟩, hgrown⟩
    · rw [hnode, retransmit, if_pos hlt]
    · intro y hy
      rcases List.mem_append.mp hy with hy | hy
      · exact hpost y hy
      · rwa [List.mem_singleton.mp hy]
    · rw [hcalls, dropped, if_pos hlt, ← List.append_assoc, List.map_append, List.map_append]
      exact hperm.append_right _
  · have hle : x.segSize ≤ i.segSize := BitVec.not_lt.mp hlt
    refine ⟨i, ?_, hverdicts, ⟨pre ++ x :: post, [], rfl, ?_, by simp, ?_⟩, hgrown⟩
    · rw [hnode, retransmit, if_neg hlt]
    · intro y hy
      rcases List.mem_append.mp hy with hy | hy
      · exact BitVec.le_trans (hpre y hy) hle
      · rcases List.mem_cons.mp hy with rfl | hy
        · exact hle
        · exact BitVec.le_trans (BitVec.le_of_lt (hpost y hy)) hle
    · rw [hcalls, dropped, if_neg hlt, List.append_nil, List.map_append]
      refine (hperm.append_right _).trans ?_
      rw [List.map_append, List.map_append, List.map_cons]
      exact (List.perm_append_singleton _ _).trans List.perm_middle.symm

/-- **An insertion of the number**, the first one or a further one. -/
theorem Carried.insert (h : Carried seq ps w) (hi : i.seq = seq)
    (ha : Ascending NfqFlowdata.seq w.buf.held) (hn : ∀ y ∈ w.buf.held, Near i.seq y.seq)
    (hw : step seq w (.insert i) = some w') : Carried seq (ps ++ [i]) w' := by
  obtain ⟨rfl, hnil, hown, hgrown⟩ | ⟨x, h⟩ := h
  · subst hi
    obtain ⟨hnode, hcalls, hsize⟩ := apply_first hnil
    simp only [step, if_true, Option.some.injEq] at hw
    subst hw
    refine Or.inr ⟨i, hnode, ?_, ⟨[], [], rfl, by simp, by simp, ?_⟩, ?_⟩
    · rw [hown, hcalls]; simp
    · rw [hown, hcalls]; simp
    · rw [hgrown, hsize, add_sub_cancel_left, zero_add]
  · exact Or.inr (h.insert hi ha hn hw)

end Packets

/-! ### All calls -/

/-- The ids in `I` belong to packets of the number only, and their drops are all among its own. -/
structure Separate (seq : U32) (I : U32 → Prop) (w : Watch) : Prop where
  held : ∀ x ∈ w.buf.held, x.seq ≠ seq → ¬ I x.packetId
  books : ∀ id, I id → drops id w.calls = drops id w.own

section Books
variable {seq : U32} {I : U32 → Prop} {w w' : Watch} {i : Insertion}

theorem drops_append (id : U32) (l r : List Call) : drops id (l ++ r) = drops id l + drops id r :=
  List.countP_append

/-- The packets held after an insertion. -/
theorem mem_apply {f : NfqFlowbuf} {y : NfqFlowdata} (hy : y ∈ (i.apply f).1.held) :
    y ∈ f.held ∨ (y.seq = i.seq ∧ y.packetId = i.packetId) := by
  unfold Insertion.apply at hy
  rcases insertOrSendPacket_cases i.now i.queue f i.seq i.packetId i.segSize with
    ⟨l, r, h1, h2, -⟩ | ⟨l, x, r, h1, hx, h2, -⟩
  · rw [h2, List.mem_append, List.mem_cons] at hy
    rw [h1, List.mem_append]
    rcases hy with hy | rfl | hy
    · exact Or.inl (Or.inl hy)
    · exact Or.inr ⟨rfl, rfl⟩
    · exact Or.inl (Or.inr hy)
  · rw [h2, List.mem_append, List.mem_cons] at hy
    rw [h1, List.mem_append, List.mem_cons]
    rcases hy with hy | rfl | hy
    · exact Or.inl (Or.inl hy)
    · rw [retransmit_seq, retransmit]
      split_ifs
      · exact Or.inl (Or.inr (Or.inl rfl))
      · exact Or.inr ⟨hx, rfl⟩
    · exact Or.inl (Or.inr (Or.inr hy))

/-- The packet an insertion drops has the number of the insertion. -/
theorem mem_apply_calls {f : NfqFlowbuf} {c : Call} (hc : c ∈ (i.apply f).2) :
    c.id = i.packetId ∨ ∃ x ∈ f.held, x.seq = i.seq ∧ c.id = x.packetId := by
  unfold Insertion.apply at hc
  rcases insertOrSendPacket_cases i.now i.queue f i.seq i.packetId i.segSize with
    ⟨l, r, -, -, h3, -⟩ | ⟨l, x, r, h1, hx, -, h3, -⟩
  · rw [h3] at hc
    cases hc
  · rw [h3, List.mem_singleton] at hc
    rw [hc]
    unfold dropped
    split_ifs
    · exact Or.inl rfl
    · exact Or.inr ⟨x, by rw [h1]; simp, hx, rfl⟩

theorem Separate.insert (h : Separate seq I w) (hI : i.seq ≠ seq → ¬ I i.packetId)
    (hw : step seq w (.insert i) = some w') : Separate seq I w' := by
  simp only [step, Option.some.injEq] at hw
  subst hw
  refine ⟨fun y hy hne => ?_, fun id hid => ?_⟩
  · rcases mem_apply hy with hy | ⟨hseq, hpid⟩
    · exact h.held y hy hne
    · rw [hpid]
      exact hI (hseq ▸ hne)
  · rw [drops_append, h.books id hid]
    split_ifs with hi
    · rw [drops_append]
    · have hzero : drops id (i.apply w.buf).2 = 0 := by
        refine List.countP_eq_zero.mpr fun c hc hcid => ?_
        have hcid : c.id = id := by simp at hcid; exact hcid.1
        rcases mem_apply_calls hc with hc | ⟨x, hx, hseq, hc⟩
        · exact hI hi (by rwa [← hc, hcid])
        · exact h.held x hx (hseq ▸ hi) (by rwa [← hc, hcid])
      rw [hzero, add_zero]

theorem Separate.send {now : ℚ} {queue : QHandle} (h : Separate seq I w)
    (hw : step seq w (.send now queue) = some w') : Separate seq I w' := by
  simp only [step] at hw
  split at hw
  · cases hw
    exact h
  · cases hw
    refine ⟨fun y hy => h.held y ?_, fun id hid => ?_⟩
    · rw [sendPacketAt_held] at hy
      exact List.mem_of_mem_tail hy
    · rw [drops_append, h.books id hid]
      simp [drops, sendPacketAt]

end Books

/-! ### Runs -/

/-- What every step keeps, if all numbers satisfy `S` and the ids in `I` belong to `seq`. -/
structure Inv (seq : U32) (S I : U32 → Prop) (ps : List Insertion) (w : Watch) : Prop where
  ascending : Ascending NfqFlowdata.seq w.buf.held
  inside : ∀ x ∈ w.buf.held, S x.seq
  carried : Carried seq ps w
  separate : Separate seq I w

section Runs
variable {seq : U32} {S I : U32 → Prop} {ps : List Insertion} {w : Watch}

theorem Inv.insert {i : Insertion} (h : Inv seq S I ps w) (hS : ∀ a b, S a → S b → Near a b)
    (hi : S i.seq) (hI : i.seq ≠ seq → ¬ I i.packetId) : ∃ w', step seq w (.insert i) = some w' ∧
      Inv seq S I (ps ++ if i.seq = seq then [i] else []) w' := by
  have hn : ∀ x ∈ w.buf.held, Near i.seq x.seq := fun x hx => hS _ _ hi (h.inside x hx)
  refine ⟨_, rfl, ?_, ?_, ?_, h.separate.insert hI rfl⟩
  · exact ascending_apply h.ascending hn
  · exact (forall_insertOrSendPacket _ _ _ _ _ _ S).mpr ⟨hi, h.inside⟩
  · split_ifs with hseq
    · exact h.carried.insert hseq h.ascending hn (by rw [step, if_pos hseq, if_pos hseq])
    · rw [List.append_nil]
      exact h.carried.of_eq (nodes_apply_other hseq) rfl rfl

theorem Inv.send {now : ℚ} {queue : QHandle} (h : Inv seq S I ps w)
    (hst : Stays seq w (.send now queue)) :
    ∃ w', step seq w (.send now queue) = some w' ∧ Inv seq S I ps w' := by
  rcases hheld : w.buf.held with _ | ⟨d, ds⟩
  · have hfirst : w.buf.root.first = none := by
      rw [first_eq_head?, ← NfqFlowbuf.held, hheld]; rfl
    exact ⟨w, by simp only [step, hfirst], h⟩
  · have hfirst : w.buf.root.first = some d := by
      rw [first_eq_head?, ← NfqFlowbuf.held, hheld]; rfl
    have hw : step seq w (.send now queue) = some { w with
        buf := (sendPacketAt now queue w.buf d).1
        calls := w.calls ++ [(sendPacketAt now queue w.buf d).2] } := by simp only [step, hfirst]
    have htail : (sendPacketAt now queue w.buf d).1.held = ds := by simp [hheld]
    refine ⟨_, hw, ?_, fun x hx => ?_, ?_, h.separate.send hw⟩
    · have hasc := h.ascending
      rw [hheld] at hasc
      exact htail ▸ hasc.tail
    · exact h.inside x (by rw [hheld]; exact List.mem_cons_of_mem _ (htail ▸ hx))
    · refine h.carried.of_eq ?_ rfl rfl
      rw [nodes, nodes, htail, hheld, List.filter_cons_of_neg (by simpa using hst d hfirst)]

/-- **Along a run** the packets of the number add up. -/
theorem Inv.run (hS : ∀ a b, S a → S b → Near a b) : ∀ {ops : List Op} {ps : List Insertion}
    {w : Watch}, Inv seq S I ps w → AllSteps (step seq) (Stays seq) w ops →
    (∀ i ∈ insertions ops, S i.seq ∧ (i.seq ≠ seq → ¬ I i.packetId)) →
    ∃ w', run (step seq) w ops = some w' ∧ Inv seq S I (ps ++ packetsOf seq ops) w'
  | [], ps, w, h, _, _ => ⟨w, rfl, by simpa [packetsOf, insertions] using h⟩
  | .insert i :: ops, ps, w, h, hst, hops => by
    have hi := hops i (by simp [insertions])
    obtain ⟨w1, h1, hinv⟩ := h.insert hS hi.1 hi.2
    have hrest : ∀ j ∈ insertions ops, j ∈ insertions (.insert i :: ops) := fun j hj => by
      simp only [insertions, List.filterMap_cons] at hj ⊢
      exact List.mem_cons_of_mem _ hj
    obtain ⟨w', h', hinv'⟩ := Inv.run hS hinv (hst.2 w1 h1) fun j hj => hops j (hrest j hj)
    refine ⟨w', run_of_step h1 h', ?_⟩
    have hps : packetsOf seq (.insert i :: ops) =
        (if i.seq = seq then [i] else []) ++ packetsOf seq ops := by
      by_cases hseq : i.seq = seq <;> simp [packetsOf, insertions, hseq]
    rwa [hps, ← List.append_assoc]
  | .send now queue :: ops, ps, w, h, hst, hops => by
    obtain ⟨w1, h1, hinv⟩ := h.send hst.1
    obtain ⟨w', h', hinv'⟩ := Inv.run hS hinv (hst.2 w1 h1) hops
    exact ⟨w', run_of_step h1 h', hinv'⟩

end Runs

theorem IsFlow.stepwise {f : NfqFlowbuf} (hf : IsFlow f) : Stepwise NfqFlowdata.seq f.held := by
  obtain ⟨now, seq, rfl⟩ | ⟨evs, nfq, sport, dport, hrun, hflow⟩ := hf
  · exact (Overflow.Queue.keeps_kept.start now seq).2
  · exact ((Overflow.Queue.keeps_kept.of_run hrun).2 sport dport f hflow).2

/-- **What survives was never dropped, each of the others once**, if the ids are distinct. -/
theorem Survives.drops {seq : U32} {ps : List Insertion} {x : Insertion} {w : Watch}
    (h : Survives seq ps x w) (hids : (ps.map Insertion.packetId).Nodup) :
    drops x.packetId w.own = 0 ∧ ∀ y ∈ ps, y ≠ x → drops y.packetId w.own = 1 := by
  obtain ⟨pre, post, rfl, -, -, hperm⟩ := h.split
  have hcount : ∀ id, Duplicates.drops id w.own =
      ((pre ++ post).map Insertion.packetId).count id := fun id => by
    rw [← hperm.count_eq, List.count, List.countP_map, Duplicates.drops]
    refine List.countP_congr fun c hc => ?_
    simp [h.verdicts c hc]
  have hids' : ((x :: (pre ++ post)).map Insertion.packetId).Nodup :=
    ((List.perm_middle (a := x)).map _).nodup_iff.mp hids
  rw [List.map_cons, List.nodup_cons] at hids'
  refine ⟨?_, fun y hy hne => ?_⟩
  · rw [hcount]
    exact List.count_eq_zero.mpr hids'.1
  · rw [hcount]
    refine List.count_eq_one_of_mem hids'.2 (List.mem_map_of_mem ?_)
    simpa [hne] using hy

/-- What has become of the packets of a number: one node is held for it, which carries the packet
`x`, the last of the largest ones; every other packet was dropped once by the insertions of the
number and `x` never; these insertions added one to `size`. -/
structure Outcome (seq : U32) (ps : List Insertion) (x : Insertion) (w : Watch) : Prop where
  largest : LastLargest x ps
  node : nodes seq w.buf = [⟨seq, x.packetId, x.segSize⟩]
  others : ∀ y ∈ ps, y ≠ x → drops y.packetId w.own = 1
  survivor : drops x.packetId w.own = 0
  grown : w.grown = 1

/-- The ids of the packets of the number are used for no other packet. -/
def OwnIds (seq : U32) (f : NfqFlowbuf) (ops : List Op) : Prop :=
  ∀ y ∈ packetsOf seq ops, (∀ x ∈ f.held, x.packetId ≠ y.packetId) ∧
    ∀ i ∈ insertions ops, i.seq ≠ seq → i.packetId ≠ y.packetId

/-- **The last of the largest packets survives**: packets of a number that a flow does not hold are
inserted, at least one, with different ids, among any other steps with numbers near each other that
do not send a packet of this number. If their ids are used for no other packet, the drops by the
insertions of the number are all there are. -/
theorem last_largest_survives {f : NfqFlowbuf} {seq : U32} {ops : List Op} (hf : IsFlow f)
    (hnew : ∀ x ∈ f.held, x.seq ≠ seq) (hnear : AllNear f ops)
    (hstays : AllSteps (step seq) (Stays seq) (Watch.start f) ops)
    (hne : packetsOf seq ops ≠ [])
    (hids : ((packetsOf seq ops).map Insertion.packetId).Nodup) :
    ∃ w x, run (step seq) (Watch.start f) ops = some w ∧ Outcome seq (packetsOf seq ops) x w ∧
      (OwnIds seq f ops → ∀ y ∈ packetsOf seq ops,
        drops y.packetId w.calls = drops y.packetId w.own) := by
  let S := fun a => a ∈ f.held.map NfqFlowdata.seq ++ (insertions ops).map Insertion.seq
  let I := fun id => OwnIds seq f ops ∧ ∃ y ∈ packetsOf seq ops, y.packetId = id
  have hheld : ∀ x ∈ f.held, S x.seq := fun x hx =>
    List.mem_append_left _ (List.mem_map_of_mem hx)
  have hstart : Inv seq S I [] (Watch.start f) := {
    ascending := Stepwise.ascending hf.stepwise fun x hx y hy => hnear _ (hheld x hx) _ (hheld y hy)
    inside := hheld
    carried := Or.inl ⟨rfl, nodes_eq_nil.mpr hnew, rfl, rfl⟩
    separate := {
      held := fun x hx _ ⟨hown, y, hy, hid⟩ => (hown y hy).1 x hx hid.symm
      books := fun _ _ => rfl } }
  obtain ⟨w, hrun, hinv⟩ := hstart.run (fun a b ha hb => hnear a ha b hb) hstays fun i hi =>
    ⟨List.mem_append_right _ (List.mem_map_of_mem hi),
      fun hseq ⟨hown, y, hy, hid⟩ => (hown y hy).2 i hi hseq hid.symm⟩
  rw [List.nil_append] at hinv
  obtain ⟨hnil, -⟩ | ⟨x, hx⟩ := hinv.carried
  · exact absurd hnil hne
  · obtain ⟨hsurvivor, hothers⟩ := hx.drops hids
    obtain ⟨pre, post, hps, hpre, hpost, -⟩ := hx.split
    exact ⟨w, x, hrun, ⟨⟨pre, post, hps, hpre, hpost⟩, hx.node, hothers, hsurvivor, hx.grown⟩,
      fun hown y hy => hinv.separate.books _ ⟨hown, y, hy, rfl⟩⟩

/-- Three packets of the number 5 with sizes 10, 10 and 7, among packets of two other numbers, one
of which is sent meanwhile. -/
def threePackets : List Op :=
  [.insert ⟨1, some 0, 3, 1, 2⟩, .insert ⟨2, some 0, 5, 2, 10⟩, .insert ⟨3, some 0, 9, 3, 4⟩,
    .send 4 (some 0), .insert ⟨5, some 0, 5, 4, 10⟩, .insert ⟨6, some 0, 5, 5, 7⟩]

/-- The second one survives. -/
theorem last_largest_survives_threePackets :
    ∃ w x, run (step 5) (Watch.start (startFlowbuf 0 0)) threePackets = some w ∧
      Outcome 5 (packetsOf 5 threePackets) x w ∧
      (OwnIds 5 (startFlowbuf 0 0) threePackets → ∀ y ∈ packetsOf 5 threePackets,
        drops y.packetId w.calls = drops y.packetId w.own) := by
  refine last_largest_survives (Or.inl ⟨0, 0, rfl⟩) (by decide) ?_
    ⟨trivial, fun w1 h1 => ⟨trivial, fun w2 h2 => ⟨trivial, fun w3 h3 => ⟨?_, fun w4 h4 =>
      ⟨trivial, fun w5 h5 => ⟨trivial, fun _ _ => trivial⟩⟩⟩⟩⟩⟩ (by decide) (by decide)
  · have hnumbers : (startFlowbuf 0 0).held.map NfqFlowdata.seq ++
        (insertions threePackets).map Insertion.seq = [3, 5, 9, 5, 5] := rfl
    have hsmall : ∀ a ∈ [3, 5, 9, 5, (5 : U32)], a.toNat < 10 := by simp
    unfold AllNear
    rw [hnumbers]
    intro a ha b hb
    have ha' := hsmall a ha
    have hb' := hsmall b hb
    rw [Near, sdist_eq_sub (by omega) (by omega)]
    omega
  · -- The packet that is sent is the one with the number 3.
    cases h1
    cases h2
    cases h3
    intro d hd
    have hd' : some ⟨3, 1, 2⟩ = some d := hd
    cases hd'
    decide

end DynBandwidth.Netfilter.Duplicates
