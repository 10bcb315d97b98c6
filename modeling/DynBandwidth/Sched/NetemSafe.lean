import DynBandwidth.Sched.NetemRuns

/-! # The emulator does not fault

`netem_enqueue` calls itself, and it divides: by the length of the head of a packet that it
corrupts, and in `tabledist`. A call of depth four always returns (`netemEnqueue_returns`). Where
every packet has a byte in its head, the only division by zero is that by twice a jitter of `2 ^ 31`
nanoseconds, which has no bit left, or by the size of an empty table: as long as no configuration
has one of these, no run faults (`no_fault`). A packet that is delayed with such a jitter stops the
kernel (`enqueue_faults_iff`). -/

namespace DynBandwidth.Sched.NetemSafe

open DynBandwidth.Lib.Bytes DynBandwidth.Lib.Runs
open DynBandwidth.Tbf.Uapi DynBandwidth.Tbf.Kernel
open DynBandwidth.Sched.Qdisc DynBandwidth.Sched.Netem DynBandwidth.Sched.NetemQueue
open DynBandwidth.Sched.NetemRuns
open DynBandwidth.Reorder.Header (U16 U32 U64)

/-! ### Divisions -/

/-- `tabledist` is not called, or does not divide by zero. -/
def Sound (sigma : U32) : Option (List U16) → Prop
  | none => sigma = 0 ∨ 2 * sigma ≠ 0
  | some table => sigma = 0 ∨ table ≠ []

instance (sigma : U32) (dist : Option (List U16)) : Decidable (Sound sigma dist) := by
  cases dist <;> unfold Sound <;> infer_instance

/-- The parameters with which nothing is divided by zero. -/
structure Safe (q : Data) : Prop where
  delay : Sound (q.jitter.setWidth 32) q.rest.delayDist
  slot : ∀ table, q.rest.slotDist = some table →
    Sound (q.rest.slotConfig.distJitter.setWidth 32) (some table)

theorem tabledist_isSome_iff {sigma : U32} (hs : sigma ≠ 0) (mu : U64) (rnd : U32)
    (dist : Option (List U16)) : (tabledist mu sigma rnd dist).isSome ↔ Sound sigma dist := by
  cases dist with
  | none =>
    unfold tabledist
    split_ifs with h
    · exact iff_of_false Bool.false_ne_true fun hor => hor.elim hs (absurd h)
    · exact iff_of_true rfl (Or.inr h)
  | some table =>
    rw [tabledist]
    cases table with
    | nil => exact iff_of_false Bool.false_ne_true fun hor => hor.elim hs (absurd rfl)
    | cons t table =>
      have hlt : rnd.toNat % (t :: table).length < (t :: table).length :=
        Nat.mod_lt _ (List.length_pos_of_ne_nil (List.cons_ne_nil t table))
      rw [List.getElem?_eq_getElem hlt]
      exact iff_of_true rfl (Or.inr (List.cons_ne_nil t table))

theorem delayOf_isSome_iff (e : Env) (q : Data) :
    (delayOf e q).isSome ↔ Sound (q.jitter.setWidth 32) q.rest.delayDist := by
  unfold delayOf
  split_ifs with hj
  · refine iff_of_true rfl ?_
    cases q.rest.delayDist <;> exact Or.inl hj
  · rw [← tabledist_isSome_iff hj q.latency (getCrandom q.rest.delayCor (q.rest.rnd e)).1]
    dsimp only
    generalize tabledist q.latency _ _ _ = delay
    cases delay <;> simp

theorem nextDelay_isSome (e : Env) {q : Data} (h : Safe q) : (nextDelay e q).isSome := by
  unfold nextDelay
  dsimp only
  cases hd : q.rest.slotDist with
  | none => rfl
  | some dist =>
    dsimp only
    split_ifs with hj
    · rfl
    · rw [Option.isSome_map]
      exact (tabledist_isSome_iff hj _ _ _).mpr (h.slot dist hd)

/-! ### What stays safe -/

theorem Safe.of_drew {q q' : Data} (h : Safe q) (hd : Drew q.rest q'.rest)
    (hj : q'.jitter = q.jitter) : Safe q' := by
  refine ⟨?_, fun table ht => ?_⟩
  · rw [hj, hd.delayDist]
    exact h.delay
  · rw [hd.slotDist] at ht
    rw [hd.slotConfig]
    exact h.slot table ht

theorem Safe.of_quiet {s s' : NetemSched} (h : Safe s.data) (hq : Quiet s s') : Safe s'.data := by
  obtain ⟨rest, drops, hd, rfl⟩ := hq
  exact h.of_drew hd rfl

theorem Safe.of_slotFrom {q q' : Data} (h : Safe q) (hs : SlotFrom q q') : Safe q' := by
  obtain ⟨draws, slot, rfl⟩ := hs
  exact ⟨h.delay, h.slot⟩

theorem Safe.place {e : Env} {now : U64} {s s' : NetemSched} {skb : Skb} (h : Safe s.data)
    (hp : netemPlace e now s skb = some s') : Safe s'.data := by
  rcases netemPlace_cases hp with ⟨rest, hd, -, rfl⟩ | ⟨rest, delay, hd, -, rfl⟩
  · exact h.of_drew hd rfl
  · rw [tfifoEnqueue_frame]
    exact h.of_drew hd rfl

theorem kept_safe (e : Env) (now : U64) : Kept e now (fun _ => True) fun s => Safe s.data where
  parts _ _ _ _ _ := ⟨trivial, trivial⟩
  quiet hq h := h.of_quiet hq
  duplicate _ h := ⟨h.delay, h.slot⟩
  place _ h _ hp := h.place hp
  count _ _ _ h := h

/-! ### Calls that return -/

section Returns
variable {e : Env} {now : U64}

theorem netemPlace_returns (e : Env) (now : U64) {s : NetemSched} (h : Safe s.data) (skb : Skb) :
    ∃ s', netemPlace e now s skb = some s' := by
  unfold netemPlace
  obtain ⟨rest, hd, hdata⟩ := drewFrom_reorderEvent e s.data
  dsimp only
  generalize reorderEvent e s.data = r at hdata ⊢
  obtain ⟨first, data⟩ := r
  dsimp only at hdata ⊢
  split_ifs
  · exact ⟨_, rfl⟩
  · have hsafe : Safe data := h.of_drew (by rw [hdata]; exact hd) (by rw [hdata])
    obtain ⟨⟨delay, data'⟩, hdelay⟩ := Option.isSome_iff_exists.mp
      ((delayOf_isSome_iff e data).mpr hsafe.delay)
    rw [hdelay]
    exact ⟨_, rfl⟩

/-- An enqueue returns for a packet, from every safe state that satisfies a condition. -/
def Returns (enqueue : NetemSched → Skb → Option (NetemSched × Xmit)) (cond : NetemSched → Prop)
    (skb : Skb) : Prop :=
  ∀ s, Safe s.data → cond s → ∃ s' ret, enqueue s skb = some (s', ret) ∧ Safe s'.data

theorem netemSegments_returns {enqueue : NetemSched → Skb → Option (NetemSched × Xmit)} :
    ∀ {segs : List Skb} {s : NetemSched} {nb : U32},
      (∀ seg ∈ segs, Returns enqueue (fun _ => True) seg) → Safe s.data →
        ∃ r, netemSegments enqueue segs s nb = some r
  | [], _, _, _, _ => ⟨_, rfl⟩
  | seg :: segs, s, nb, hret, hs => by
    obtain ⟨s', ret, he, hs'⟩ := hret seg List.mem_cons_self s hs trivial
    have hrest : ∀ seg ∈ segs, Returns enqueue (fun _ => True) seg := fun x hx =>
      hret x (List.mem_cons_of_mem _ hx)
    rw [netemSegments, he]
    dsimp only [Option.bind_eq_bind, Option.bind_some]
    split_ifs
    · exact netemSegments_returns hrest hs'
    · exact netemSegments_returns hrest hs'

theorem finishSegs_returns {enqueue : NetemSched → Skb → Option (NetemSched × Xmit)}
    {segs : List Skb} {s : NetemSched} (hret : ∀ seg ∈ segs, Returns enqueue (fun _ => True) seg)
    (hs : Safe s.data) : ∃ r, finishSegs enqueue s segs = some r := by
  obtain ⟨⟨s', nb⟩, h⟩ : ∃ r, netemSegments enqueue segs s 0 = some r :=
    netemSegments_returns hret hs
  unfold finishSegs
  rw [h]
  exact ⟨_, rfl⟩

/-- Every packet has a byte in its head. -/
def Headed (e : Env) : Prop := ∀ skb, e.headlen skb ≠ 0

/-- A packet is corrupted without a fault, if it is not corrupted at all or if its head is not
empty; the segments behind it satisfy what all its segments do. -/
theorem netemCorrupt_returns {ok : Skb → Prop} {s : NetemSched} {skb : Skb}
    (h : s.data.corrupt = 0 ∨ Headed e ∧ ∀ seg, Segment e skb seg → ok seg) :
    ∃ s' r, netemCorrupt e s skb = some (s', r) ∧ Quiet s s' ∧
      ∀ left segs, r = some (left, segs) → ∀ seg ∈ segs, ok seg := by
  rcases h with hcor | ⟨hhead, hok⟩
  · refine ⟨s, _, netemCorrupt_zero e hcor skb, Quiet.refl s, ?_⟩
    rintro left segs ⟨⟩
    simp
  · have hsome : ∃ r, netemCorrupt e s skb = some r := by
      unfold netemCorrupt
      dsimp only
      split_ifs
      · split
        · exact ⟨_, rfl⟩
        · split_ifs with hshare hzero
          · exact absurd hzero (hhead _)
          · exact ⟨_, rfl⟩
          · exact ⟨_, rfl⟩
      · exact ⟨_, rfl⟩
    obtain ⟨⟨s', r⟩, hr⟩ := hsome
    obtain ⟨hq, hparts⟩ := netemCorrupt_spec (kept_safe e 0).parts trivial hr
    exact ⟨s', r, hr, hq, fun left segs heq seg hseg => hok seg ((hparts left segs heq).2 seg hseg)⟩

/-- **One level of calls**: a packet returns if its duplicate does, with duplication switched off,
and if its segments do; a packet that is neither duplicated nor corrupted always does. -/
theorem netemEnqueue_returns_succ {n : ℕ} {skb : Skb} {cond : NetemSched → Prop}
    (hclone : (∀ s, cond s → s.data.duplicate = 0) ∨
      Returns (netemEnqueue e now n) (fun s => s.data.duplicate = 0) skb)
    (hcorrupt : (∀ s, cond s → s.data.duplicate = 0 ∧ s.data.corrupt = 0) ∨
      Headed e ∧ ∀ seg, Segment e skb seg → Returns (netemEnqueue e now n) (fun _ => True) seg) :
    Returns (netemEnqueue e now (n + 1)) cond skb := by
  intro s hs hcond
  suffices h : ∃ r, netemEnqueue e now (n + 1) s skb = some r by
    obtain ⟨⟨s', ret⟩, h⟩ := h
    exact ⟨s', ret, h, netemEnqueue_keeps (kept_safe e now) (n + 1) trivial hs h⟩
  rw [netemEnqueue]
  have hquiet := quiet_netemCount e s skb
  have hdup : (netemCount e s skb).2.1 = true → s.data.duplicate ≠ 0 := by
    intro hd hzero
    rw [dup_netemCount e hzero skb] at hd
    cases hd
  generalize netemCount e s skb = r at hquiet hdup ⊢
  obtain ⟨s1, dup, lost⟩ := r
  have hs1 := hs.of_quiet hquiet
  dsimp only at hs1 hquiet hdup ⊢
  by_cases hlost : (lost && !dup) = true
  · rw [if_pos hlost]
    exact ⟨_, rfl⟩
  rw [if_neg hlost]
  obtain ⟨s2, h2, hs2, hcor2⟩ : ∃ s2, netemClone (netemEnqueue e now n)
      (dup && (!lost && e.cloneOk skb)) s1 skb = some s2 ∧ Safe s2.data ∧
      (s2.data.corrupt = 0 ∨ Headed e ∧
        ∀ seg, Segment e skb seg → Returns (netemEnqueue e now n) (fun _ => True) seg) := by
    unfold netemClone
    split_ifs with hc
    · have hs1' : Safe { s1.data with duplicate := 0 } := ⟨hs1.delay, hs1.slot⟩
      have hne := hdup (Bool.and_eq_true_iff.mp hc).1
      obtain ⟨s2, ret, h2, hs2⟩ := hclone.resolve_left (fun hno => hne (hno s hcond))
        { s1 with data := { s1.data with duplicate := 0 } } hs1' rfl
      rw [h2]
      exact ⟨_, rfl, ⟨hs2.delay, hs2.slot⟩,
        Or.inr (hcorrupt.resolve_left fun hno => hne (hno s hcond).1)⟩
    · refine ⟨s1, rfl, hs1, hcorrupt.imp_left fun hno => ?_⟩
      obtain ⟨rest, drops, -, rfl⟩ := hquiet
      exact (hno s hcond).2
  obtain ⟨s3, r, h3, hq, hparts⟩ := netemCorrupt_returns hcor2
  have hs3 := hs2.of_quiet hq
  dsimp only [Option.bind_eq_bind]
  rw [h2, Option.bind_some, h3, Option.bind_some]
  rcases r with _ | ⟨_ | skb', segs⟩
  · exact ⟨_, rfl⟩
  · exact finishSegs_returns (hparts none segs rfl) hs3
  · dsimp only
    by_cases hlimit : s3.data.limit ≤ s3.qlen
    · rw [if_pos hlimit]
      exact ⟨_, rfl⟩
    · rw [if_neg hlimit]
      obtain ⟨s4, h4⟩ := netemPlace_returns e now hs3 skb'
      rw [h4, Option.bind_some]
      exact finishSegs_returns (hparts (some skb') segs rfl) (hs3.place h4)

/-- **One level is enough** for an emulator that neither duplicates nor corrupts. -/
theorem netemEnqueue_returns_once (n : ℕ) (skb : Skb) : Returns (netemEnqueue e now (n + 1))
    (fun s => s.data.duplicate = 0 ∧ s.data.corrupt = 0) skb :=
  netemEnqueue_returns_succ (Or.inl fun _ h => h.1) (Or.inl fun _ h => h)

/-- Segments have no segments. -/
def Flat (e : Env) : Prop := ∀ skb seg, Segment e skb seg → e.gso.isGso seg = false

/-- **Four levels are enough**: a packet is duplicated once, and segmented once, and so are its
duplicate and its segments. -/
theorem netemEnqueue_returns (hhead : Headed e) (hflat : Flat e) (n : ℕ) (skb : Skb) :
    Returns (netemEnqueue e now (n + 4)) (fun _ => True) skb := by
  have hnone : ∀ {m : ℕ} {x : Skb}, e.gso.isGso x = false → Headed e ∧ ∀ seg, Segment e x seg →
      Returns (netemEnqueue e now m) (fun _ => True) seg := by
    intro m x hx
    refine ⟨hhead, fun seg hseg => ?_⟩
    rw [hseg.1] at hx
    cases hx
  have hone : ∀ x, e.gso.isGso x = false →
      Returns (netemEnqueue e now (n + 1)) (fun s => s.data.duplicate = 0) x := fun x hx =>
    netemEnqueue_returns_succ (Or.inl fun _ h => h) (Or.inr (hnone hx))
  have htwo : ∀ x, e.gso.isGso x = false →
      Returns (netemEnqueue e now (n + 2)) (fun _ => True) x := fun x hx =>
    netemEnqueue_returns_succ (Or.inr (hone x hx)) (Or.inr (hnone hx))
  have hthree : Returns (netemEnqueue e now (n + 3)) (fun s => s.data.duplicate = 0) skb :=
    netemEnqueue_returns_succ (Or.inl fun _ h => h)
      (Or.inr ⟨hhead, fun seg hseg => htwo seg (hflat skb seg hseg)⟩)
  refine netemEnqueue_returns_succ (Or.inr hthree) (Or.inr ⟨hhead, fun seg hseg => ?_⟩)
  have hseg := hflat skb seg hseg
  exact netemEnqueue_returns_succ (Or.inr fun s hs _ => htwo seg hseg s hs trivial)
    (Or.inr (hnone hseg))

theorem netemDequeue_returns {s : NetemSched} (h : Safe s.data) :
    ∃ s' r, netemDequeue e now s = some (s', r) ∧ Safe s'.data := by
  have hnext : ∀ {q : Data}, Safe q → ∃ q', getSlotNext e now q = some q' := fun {q} hq => by
    obtain ⟨r, hr⟩ := Option.isSome_iff_exists.mp (nextDelay_isSome e hq)
    rw [getSlotNext, hr]
    exact ⟨_, rfl⟩
  have hbefore : ∀ t, ∃ q', slotBefore e now s.data t = some q' := fun t => by
    unfold slotBefore
    split_ifs
    · exact hnext h
    · exact ⟨_, rfl⟩
  have hafter : ∀ {q : Data} len, Safe q → ∃ q', slotAfter e now q len = some q' :=
    fun {q} len hq => by
    unfold slotAfter
    dsimp only
    split_ifs
    · exact ⟨_, rfl⟩
    · exact hnext ⟨hq.delay, hq.slot⟩
    · exact ⟨_, rfl⟩
  unfold netemDequeue
  cases s.q with
  | cons x q => exact ⟨_, _, rfl, h⟩
  | nil =>
    dsimp only
    cases netemPeek s with
    | none => exact ⟨_, _, rfl, h⟩
    | some r =>
      obtain ⟨lane, x⟩ := r
      obtain ⟨data, hdata⟩ := hbefore x.timeToSend
      have hsafe := h.of_slotFrom (slotFrom_slotBefore hdata)
      dsimp only [Option.bind_eq_bind]
      rw [hdata, Option.bind_some]
      split_ifs
      · obtain ⟨data', hdata'⟩ := hafter x.skb.len hsafe
        rw [hdata', Option.bind_some]
        exact ⟨_, _, rfl, hsafe.of_slotFrom (slotFrom_slotAfter hdata')⟩
      · exact ⟨_, _, rfl, hsafe⟩

end Returns

/-! ### Runs -/

/-- A configuration leaves safe parameters. -/
def Configures (e : Env) (w : World) : Event → Prop
  | .change now opt => Safe (netemConfigure e now w.s opt).1.data
  | _ => True

theorem safe_step {e : Env} (hhead : Headed e) (hflat : Flat e) {w : World} (h : Safe w.s.data)
    {ev : Event} (hev : Configures e w ev) : ∃ w', step e w ev = some w' ∧ Safe w'.s.data := by
  cases ev with
  | enqueue now skb =>
    obtain ⟨s', ret, he, hs'⟩ := netemEnqueue_returns hhead hflat 0 skb w.s h trivial
    rw [step, he]
    exact ⟨_, rfl, hs'⟩
  | dequeue now =>
    obtain ⟨s', r, hd, hs'⟩ := netemDequeue_returns h
    rw [step, hd]
    exact ⟨_, rfl, hs'⟩
  | change now opt => exact ⟨_, rfl, hev⟩
  | reset now => exact ⟨_, rfl, h.delay, h.slot⟩

/-- A jitter of two seconds, and a packet. -/
def safeJitter : List Event :=
  [.change 0 (TcNetemQopt.toBytes ⟨1000, 100, 0, 0, 0, 31250000⟩), .enqueue 0 ⟨1, 1500⟩]

/-- **The packet that stops the kernel**: without duplicates, corruption, reordering and loss, and
with room in the queue, an arrival faults if and only if the jitter cannot be doubled, or the table
is empty. -/
theorem enqueue_faults_iff {e : Env} {now : U64} (n : ℕ) {s : NetemSched}
    (hdup : s.data.duplicate = 0) (hcor : s.data.corrupt = 0) (hgap : s.data.gap = 0)
    (hmodel : s.data.rest.lossModel = .random) (hloss : s.data.loss = 0)
    (hroom : ¬ s.data.limit ≤ s.qlen) (skb : Skb) :
    netemEnqueue e now (n + 1) s skb = none ↔
      ¬ Sound (s.data.jitter.setWidth 32) s.data.rest.delayDist := by
  have hcount : netemCount e s skb = (s, false, false) := by
    have hde : dupEvent e s.data = (false, s.data) := if_pos hdup
    have hle : lossEvent e s.data = (false, s.data) := by
      rw [lossEvent, hmodel]
      exact if_pos hloss
    unfold netemCount
    dsimp only
    rw [hde, hle]
    rfl
  have hnocor := netemCorrupt_zero e hcor skb
  have hplace : netemPlace e now s skb = none ↔ delayOf e s.data = none := by
    have hre : reorderEvent e s.data = (false, s.data) := if_pos (Or.inl hgap)
    unfold netemPlace
    dsimp only
    rw [hre]
    dsimp only
    rw [if_neg Bool.false_ne_true]
    cases delayOf e s.data <;> simp
  rw [← delayOf_isSome_iff e s.data, Bool.not_eq_true, Option.isSome_eq_false_iff,
    Option.isNone_iff_eq_none, ← hplace, netemEnqueue, hcount]
  simp only [Bool.not_false, Bool.and_true, Bool.false_eq_true, if_false, netemClone,
    Bool.false_and, Option.bind_eq_bind, Option.bind_some, hnocor, hroom]
  cases netemPlace e now s skb with
  | none => simp
  | some s1 => exact iff_of_false (by simp [finishSegs, netemSegments]) (by simp)

/-- An emulator with a jitter of `2 ^ 31` nanoseconds. -/
def twoSeconds : NetemSched :=
  (netemConfigure Env.plain 0 netemZero (TcNetemQopt.toBytes ⟨1000, 100, 0, 0, 0, 2 ^ 25⟩)).1

theorem enqueue_faults_iff_twoSeconds :
    twoSeconds.data.jitter = 2 ^ 31 ∧ netemEnqueue Env.plain 0 4 twoSeconds ⟨1, 1500⟩ = none := by
  refine ⟨by decide +kernel, ?_⟩
  exact (enqueue_faults_iff 3 (by decide +kernel) (by decide +kernel) (by decide +kernel)
    (by decide +kernel) (by decide +kernel) (by decide +kernel) _).mpr (by decide +kernel)

end DynBandwidth.Sched.NetemSafe
