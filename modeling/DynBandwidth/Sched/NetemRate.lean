import DynBandwidth.Sched.NetemRuns

/-! # The emulator with a rate

With a rate, a packet is sent after the last one, and takes the time of its bytes. The packets then
leave in the order in which they arrive, however the latency and the jitter change (`in_order`),
and never ahead of a link of this rate (`never_ahead`). -/

namespace DynBandwidth.Sched.NetemRate

open DynBandwidth.Lib.Bytes DynBandwidth.Lib.RbTree DynBandwidth.Lib.Runs DynBandwidth.Lib.Signed
open DynBandwidth.Lib.TimeQueue
open DynBandwidth.Tbf.Uapi DynBandwidth.Tbf.Kernel
open DynBandwidth.Sched.Qdisc DynBandwidth.Sched.Netem DynBandwidth.Sched.NetemQueue
open DynBandwidth.Sched.NetemRuns
open DynBandwidth.Reorder.Header (U32 U64)

/-! ### The time of a packet -/

/-- Nanoseconds that a packet takes on a link of `r` bytes per second. -/
def cost (r : ℕ) (len : U32) : ℕ := len.toNat * 1000000000 / r

/-- Parameters with a rate, of at most `r` bytes per second, and without reordering, overhead and
cells. -/
structure Paced (r : ℕ) (q : Data) : Prop where
  gap : q.gap = 0
  rate : q.rate ≠ 0
  rate_le : q.rate.toNat ≤ r
  packetOverhead : q.packetOverhead = 0
  cellSize : q.cellSize = 0

instance (r : ℕ) (q : Data) : Decidable (Paced r q) :=
  decidable_of_iff (q.gap = 0 ∧ q.rate ≠ 0 ∧ q.rate.toNat ≤ r ∧ q.packetOverhead = 0 ∧
    q.cellSize = 0) ⟨fun ⟨hg, hr, hle, hp, hc⟩ => ⟨hg, hr, hle, hp, hc⟩,
      fun h => ⟨h.gap, h.rate, h.rate_le, h.packetOverhead, h.cellSize⟩⟩

theorem packetTimeNs_spec {r : ℕ} {q : Data} (h : Paced r q) (len : U32) :
    cost r len ≤ (packetTimeNs (len.setWidth 64) q).toNat ∧
      (packetTimeNs (len.setWidth 64) q).toNat < 2 ^ 62 := by
  have hlen := len.isLt
  have hpos : 0 < q.rate.toNat := by
    rcases Nat.eq_zero_or_pos q.rate.toNat with h0 | h0
    · exact absurd (BitVec.eq_of_toNat_eq h0) h.rate
    · exact h0
  have htime : (packetTimeNs (len.setWidth 64) q).toNat =
      len.toNat * 1000000000 / q.rate.toNat := by
    unfold packetTimeNs
    dsimp only
    rw [if_pos h.cellSize, h.packetOverhead]
    have hsum : len.setWidth 64 + BitVec.signExtend 64 (0 : U32) = len.setWidth 64 :=
      BitVec.add_zero _
    rw [hsum, BitVec.toNat_udiv, BitVec.toNat_mul, BitVec.toNat_setWidth,
      Nat.mod_eq_of_lt (by omega : len.toNat < 2 ^ 64)]
    have hmul : len.toNat * (1000000000 : U64).toNat = len.toNat * 1000000000 := rfl
    rw [hmul, Nat.mod_eq_of_lt (by omega)]
  rw [htime]
  refine ⟨Nat.div_le_div_left h.rate_le hpos, lt_of_le_of_lt (Nat.div_le_self _ _) (by omega)⟩

/-! ### The time to send -/

/-- No packet is to be sent after `2 ^ 62` nanoseconds, which is more than a century. -/
def Small (s : NetemSched) : Prop := ∀ x ∈ timed s, tts x < 2 ^ 62

instance (s : NetemSched) : Decidable (Small s) :=
  decidable_of_iff ((∀ x ∈ s.tQueue, tts x < 2 ^ 62) ∧ ∀ x ∈ s.tRoot.toList, tts x < 2 ^ 62) (by
    unfold Small timed
    simp only [mem_inOrder, or_imp, forall_and])

/-- The last one of two times. -/
theorem later_spec {a b : List Stamped} (ha : Sorted tts a) (hb : Sorted tts b) :
    (later (later none a.getLast?) b.getLast? = none ∧ a = [] ∧ b = []) ∨
      ∃ x, (x ∈ a ∨ x ∈ b) ∧ later (later none a.getLast?) b.getLast? = some x.timeToSend ∧
        (∀ y ∈ a, tts y ≤ tts x) ∧ ∀ y ∈ b, tts y ≤ tts x := by
  have hle := fun {l : List Stamped} (hl : Sorted tts l) {t} (ht : l.getLast? = some t) =>
    hl.le_getLast ht
  cases hax : a.getLast? with
  | none =>
    have ha := List.getLast?_eq_none_iff.mp hax
    cases hbx : b.getLast? with
    | none => exact Or.inl ⟨rfl, ha, List.getLast?_eq_none_iff.mp hbx⟩
    | some y =>
      refine Or.inr ⟨y, Or.inr (List.mem_of_getLast? hbx), rfl, ?_, hle hb hbx⟩
      rw [ha]
      simp
  | some x =>
    cases hbx : b.getLast? with
    | none =>
      refine Or.inr ⟨x, Or.inl (List.mem_of_getLast? hax), rfl, hle ha hax, ?_⟩
      rw [List.getLast?_eq_none_iff.mp hbx]
      simp
    | some y =>
      right
      have hax' := hle ha hax
      have hbx' := hle hb hbx
      unfold later
      dsimp only
      by_cases hlt : x.timeToSend < y.timeToSend
      · refine ⟨y, Or.inr (List.mem_of_getLast? hbx), if_pos hlt, fun z hz => ?_, hbx'⟩
        exact (hax' z hz).trans (le_of_lt (show tts x < tts y from hlt))
      · refine ⟨x, Or.inl (List.mem_of_getLast? hax), if_neg hlt, hax', fun z hz => ?_⟩
        exact (hbx' z hz).trans (show tts y ≤ tts x from BitVec.not_lt.mp hlt)

/-- **The last packet**, after which a packet is sent. -/
theorem lastTime_spec {s : NetemSched} (h : InLanes s) (hq : s.q = []) :
    (s.lastTime = none ∧ timed s = []) ∨
      ∃ x ∈ timed s, s.lastTime = some x.timeToSend ∧ ∀ y ∈ timed s, tts y ≤ tts x := by
  have hlast : s.lastTime = later (later none s.tRoot.toList.getLast?) s.tQueue.getLast? := by
    unfold NetemSched.lastTime
    rw [hq, last_eq_getLast?]
    rfl
  rw [hlast]
  rcases later_spec h.sortedTree h.sorted with ⟨hn, ht, hq⟩ | ⟨x, hx, hl, ht, hq⟩
  · exact Or.inl ⟨hn, by unfold timed; rw [ht, hq, inOrder_nil_left]⟩
  · refine Or.inr ⟨x, mem_inOrder.mpr hx.symm, hl, fun y hy => ?_⟩
    exact (mem_inOrder.mp hy).elim (hq y) (ht y)

section Time
variable {r : ℕ} {s : NetemSched} (hp : Paced r s.data) (hl : InLanes s) (hq : s.q = [])
  (hsmall : Small s) (now delay : U64) (len : U32)

include hp hl hq hsmall

/-- **A packet is sent after the others**, by the time that it takes. -/
theorem timeToSend_after {x : Stamped} (hx : x ∈ timed s) :
    tts x + cost r len ≤ (s.timeToSend now delay len).toNat := by
  obtain ⟨hcost, hlt⟩ := packetTimeNs_spec hp len
  rcases lastTime_spec hl hq with ⟨-, ht⟩ | ⟨last, hlast, heq, hmax⟩
  · rw [ht] at hx
    cases hx
  · have hle := hmax x hx
    have hlast := hsmall last hlast
    unfold NetemSched.timeToSend
    rw [if_neg hp.rate, heq]
    dsimp only
    -- what is left of the delay after the last packet is not negative
    generalize hd : maxS64 0 (delay - (last.timeToSend - now)) = d
    have hnonneg : 0 ≤ d.toInt := by
      rw [← hd, toInt_maxS64]
      exact le_max_left _ _
    have hd' : d.toNat < 2 ^ 63 := by
      have := toNat_of_toInt_nonneg hnonneg
      have := BitVec.toInt_lt (x := d)
      omega
    unfold tts at *
    rw [BitVec.toNat_add, BitVec.toNat_add, Nat.mod_eq_of_lt (by omega),
      Nat.mod_eq_of_lt (by omega)]
    omega

/-- **A packet is not sent before it arrived**, and could have been sent. -/
theorem timeToSend_notBefore (hnow : now.toNat < 2 ^ 62) (hdelay : delay.toNat < 2 ^ 62) :
    now.toNat + cost r len ≤ (s.timeToSend now delay len).toNat := by
  obtain ⟨hcost, hlt⟩ := packetTimeNs_spec hp len
  unfold NetemSched.timeToSend
  rw [if_neg hp.rate]
  rcases lastTime_spec hl hq with ⟨hnone, -⟩ | ⟨last, hlast, heq, -⟩
  · rw [hnone]
    dsimp only
    rw [BitVec.toNat_add, BitVec.toNat_add, Nat.mod_eq_of_lt (by omega),
      Nat.mod_eq_of_lt (by omega)]
    omega
  · have hlast : last.timeToSend.toNat < 2 ^ 62 := hsmall last hlast
    rw [heq]
    dsimp only
    generalize hd : maxS64 0 (delay - (last.timeToSend - now)) = d
    have hsub : (delay - (last.timeToSend - now)).toInt =
        (delay.toNat : ℤ) - (last.timeToSend.toNat - now.toNat) := by
      rw [BitVec.toInt_sub, toInt_sub_of_lt hlast hnow,
        toInt_of_lt (by omega : delay.toNat < 2 ^ 63)]
      exact Int.bmod_eq_of_le (by omega) (by omega)
    have hint : d.toInt = max 0 ((delay.toNat : ℤ) - (last.timeToSend.toNat - now.toNat)) := by
      rw [← hd, toInt_maxS64, hsub]
      rfl
    have hnat := toNat_of_toInt_nonneg (a := d) (by rw [hint]; exact le_max_left _ _)
    rw [hint] at hnat
    rw [BitVec.toNat_add, BitVec.toNat_add, Nat.mod_eq_of_lt (by omega),
      Nat.mod_eq_of_lt (by omega)]
    omega

end Time

/-! ### Arrivals -/

/-- Without jitter, and with a latency of less than a century. -/
structure Prompt (q : Data) : Prop where
  jitter : q.jitter.setWidth 32 = 0
  latency : q.latency.toNat < 2 ^ 62

instance (q : Data) : Decidable (Prompt q) :=
  decidable_of_iff (q.jitter.setWidth 32 = 0 ∧ q.latency.toNat < 2 ^ 62)
    ⟨fun ⟨hj, hl⟩ => ⟨hj, hl⟩, fun h => ⟨h.jitter, h.latency⟩⟩

/-- The first packet is sent before the second one, by the time that this one takes. -/
def Spaced (r : ℕ) (x y : Stamped) : Prop := tts x + cost r y.skb.len ≤ tts y

/-- A packet that was placed: not before now if there is no jitter. -/
def Fresh (ok : Skb → Prop) (pr : Prop) (r : ℕ) (now : U64) (x : Stamped) : Prop :=
  ok x.skb ∧ (pr → now.toNat + cost r x.skb.len ≤ tts x)

/-- The queue has grown at its end. -/
def Grows (r : ℕ) (new : Stamped → Prop) (l l' : List Stamped) : Prop :=
  ∃ xs, l' = l ++ xs ∧ (∀ x ∈ xs, new x) ∧ xs.Pairwise (Spaced r) ∧
    ∀ y ∈ l, ∀ x ∈ xs, Spaced r y x

theorem Grows.refl (r : ℕ) (new : Stamped → Prop) (l : List Stamped) : Grows r new l l :=
  ⟨[], (List.append_nil l).symm, by simp, List.Pairwise.nil, by simp⟩

/-- **One packet more at the end.** -/
theorem Grows.concat {r : ℕ} {new : Stamped → Prop} {l l' : List Stamped} (h : Grows r new l l')
    {x : Stamped} (hx : new x) (hspaced : ∀ y ∈ l', Spaced r y x) : Grows r new l (l' ++ [x]) := by
  obtain ⟨xs, rfl, hnew, hxs, hl⟩ := h
  refine ⟨xs ++ [x], List.append_assoc l xs [x], ?_, ?_, ?_⟩
  · intro y hy
    rcases List.mem_append.mp hy with hy | hy
    · exact hnew y hy
    · rw [List.mem_singleton.mp hy]
      exact hx
  · refine List.pairwise_append.mpr ⟨hxs, List.pairwise_singleton _ _, fun y hy z hz => ?_⟩
    rw [List.mem_singleton.mp hz]
    exact hspaced y (List.mem_append_right l hy)
  · intro y hy z hz
    rcases List.mem_append.mp hz with hz | hz
    · exact hl y hy z hz
    · rw [List.mem_singleton.mp hz]
      exact hspaced y (List.mem_append_left xs hy)

/-- The states during an arrival: the queue has grown at its end, as long as its times are small. -/
structure Growing (l : List Stamped) (ok : Skb → Prop) (pr : Prop) (r : ℕ) (now : U64)
    (s : NetemSched) : Prop where
  lanes : InLanes s
  front : s.q = []
  paced : Paced r s.data
  prompt : pr → Prompt s.data
  grows : Small s → Grows r (Fresh ok pr r now) l (timed s)

/-- What an arrival can change of the parameters does not matter here. -/
theorem Paced.drew {r : ℕ} {q : Data} (h : Paced r q) (rest : Rest) (counter duplicate : U32) :
    Paced r { q with rest := rest, counter := counter, duplicate := duplicate } :=
  ⟨h.gap, h.rate, h.rate_le, h.packetOverhead, h.cellSize⟩

theorem Prompt.drew {q : Data} (h : Prompt q) (rest : Rest) (counter duplicate : U32) :
    Prompt { q with rest := rest, counter := counter, duplicate := duplicate } :=
  ⟨h.jitter, h.latency⟩

section Arrival
variable {e : Env} {now : U64} {ok : Skb → Prop} {pr : Prop} {r : ℕ} {l : List Stamped}

theorem Growing.place (hnow : now.toNat < 2 ^ 62) {s s' : NetemSched} {skb : Skb} (hskb : ok skb)
    (h : Growing l ok pr r now s) (hp : netemPlace e now s skb = some s') :
    Growing l ok pr r now s' := by
  have hl := inLanes_place h.lanes hp
  rcases netemPlace_cases hp with ⟨rest, -, hgap, -⟩ | ⟨rest, delay, -, hdelay, rfl⟩
  · exact absurd h.paced.gap hgap
  · have ht := (tfifoEnqueue_spec (s := { s with
      data := { s.data with rest := rest, counter := s.data.counter + 1 }
      backlog := s.backlog + skb.len }) h.lanes ⟨skb, s.timeToSend now delay skb.len⟩).2
    rw [tfifoEnqueue_frame] at ht hl ⊢
    have hpaced := h.paced
    refine ⟨hl, h.front, hpaced.drew _ _ _, fun hpr => (h.prompt hpr).drew _ _ _, fun hs => ?_⟩
    -- the queue before was a part of the queue after
    have hsmall : Small s := fun x hx => hs x (by rw [ht, mem_insertLast]; exact Or.inr hx)
    have hafter := fun x (hx : x ∈ timed s) =>
      timeToSend_after hpaced h.lanes h.front hsmall now delay skb.len hx
    have hlast : ∀ x ∈ timed s, tts x ≤ (s.timeToSend now delay skb.len).toNat := fun x hx =>
      le_trans (Nat.le_add_right _ _) (hafter x hx)
    rw [ht, insertLast_of_le hlast]
    refine (h.grows hsmall).concat ⟨hskb, fun hpr => ?_⟩ hafter
    have hd := h.prompt hpr
    refine timeToSend_notBefore hpaced h.lanes h.front hsmall now delay skb.len hnow ?_
    rw [hdelay hd.jitter]
    exact hd.latency

theorem kept_growing (hparts : Parts e ok) (hnow : now.toNat < 2 ^ 62) :
    Kept e now ok (Growing l ok pr r now) where
  parts := hparts
  quiet := by
    rintro s s' ⟨rest, drops, -, rfl⟩ h
    exact ⟨h.lanes, h.front, h.paced.drew _ _ _, fun hpr => (h.prompt hpr).drew _ _ _, h.grows⟩
  duplicate _ h :=
    ⟨h.lanes, h.front, h.paced.drew _ _ _, fun hpr => (h.prompt hpr).drew _ _ _, h.grows⟩
  place hskb h _ hp := h.place hnow hskb hp
  count _ _ _ h := ⟨h.lanes, h.front, h.paced, h.prompt, h.grows⟩

end Arrival

/-! ### Runs -/

/-- The clock does not go back and has 62 bits, no packet is to be sent later than that, and when a
packet arrives, there is a rate. -/
def Rated (r : ℕ) (w : World) (ev : Event) : Prop :=
  w.clock ≤ ev.now ∧ ev.now.toNat < 2 ^ 62 ∧ Small w.s ∧
    match ev with
    | .enqueue _ _ => Paced r w.s.data
    | _ => True

instance (r : ℕ) (w : World) : (ev : Event) → Decidable (Rated r w ev)
  | .enqueue _ _ => inferInstanceAs (Decidable (_ ∧ _ ∧ _ ∧ Paced r w.s.data))
  | .dequeue _ | .change _ _ | .reset _ => inferInstanceAs (Decidable (_ ∧ _ ∧ _ ∧ True))

/-- A property that the segments of a packet inherit. -/
def Inherited (e : Env) (f : Skb → ℕ) : Prop := ∀ skb seg, Segment e skb seg →
  f seg = f skb ∧ f { seg with len := skb.len } = f skb

theorem Inherited.parts {e : Env} {f : Skb → ℕ} (h : Inherited e f) (n : ℕ) :
    Parts e fun skb => f skb = n := by
  rintro skb rfl hgso seg hseg
  exact h skb seg ⟨hgso, hseg⟩

/-- Any two packets of the list are related, and each has a property. -/
def Good (T : Stamped → Stamped → Prop) (A : Stamped → Prop) (l : List Stamped) : Prop :=
  l.Pairwise T ∧ ∀ x ∈ l, A x

theorem Good.left {T : Stamped → Stamped → Prop} {A : Stamped → Prop} {l l' : List Stamped}
    (h : Good T A (l ++ l')) : Good T A l :=
  ⟨(List.pairwise_append.mp h.1).1, fun x hx => h.2 x (List.mem_append_left l' hx)⟩

/-- **What is kept in a run with a rate**: a relation between any two packets in the order in which
they leave, as far as their times are small, and a property that depends on what has arrived. -/
structure Lined (T : Stamped → Stamped → Prop) (A : List Skb → Stamped → Prop) (w : World) :
    Prop where
  lanes : InLanes w.s
  front : w.s.q = []
  clock : ∀ y ∈ w.left, y.2 ≤ w.clock
  line : ∃ out, List.Forall₂ Departed out w.left ∧ Good T (A w.arrived) out ∧
    (Small w.s → Good T (A w.arrived) (out ++ timed w.s))

section Run
variable {e : Env} {T : Stamped → Stamped → Prop} {A : List Skb → Stamped → Prop} {w w' : World}
  {r : ℕ}

theorem lined_start (T : Stamped → Stamped → Prop) (A : List Skb → Stamped → Prop) (start : U64) :
    Lined T A (World.start start) where
  lanes := (inLanes_empty rfl rfl).1
  front := rfl
  clock := by rintro y ⟨⟩
  line := by
    have ht : timed (World.start start).s = [] := (inLanes_empty rfl rfl).2
    have hnil : Good T (A []) [] := ⟨List.Pairwise.nil, by simp⟩
    refine ⟨[], List.Forall₂.nil, hnil, fun _ => ?_⟩
    rw [ht]
    exact hnil

theorem Lined.enqueue (h : Lined T A w) {now : U64} {skb : Skb} {s' : NetemSched} {ret : Xmit}
    {line : List Stamped} {ok : Skb → Prop} (pr : Prop) (hc : w.clock ≤ now)
    (hnow : now.toNat < 2 ^ 62) (hsmall : Small w.s) (hpaced : Paced r w.s.data)
    (hprompt : pr → Prompt w.s.data) (hparts : Parts e ok) (hskb : ok skb)
    (hA : ∀ x, A w.arrived x → A (w.arrived ++ [skb]) x)
    (hnew : ∀ x, Fresh ok pr r now x → A (w.arrived ++ [skb]) x)
    (hT : ∀ y x, A (w.arrived ++ [skb]) y → Fresh ok pr r now x →
      y.timeToSend ≤ now ∨ Spaced r y x → T y x)
    (he : netemEnqueue e now 4 w.s skb = some (s', ret)) :
    Lined T A { w with
      s := s', clock := now, arrived := w.arrived ++ [skb], line := line } := by
  obtain ⟨out, hout, hgood, hline⟩ := h.line
  have hgrown := netemEnqueue_keeps (kept_growing hparts hnow) 4 hskb
    (⟨h.lanes, h.front, hpaced, hprompt, fun _ => Grows.refl r _ _⟩ :
      Growing (timed w.s) ok pr r now w.s) he
  have hgood' : ∀ {l}, Good T (A w.arrived) l → Good T (A (w.arrived ++ [skb])) l := fun hl =>
    ⟨hl.1, fun x hx => hA x (hl.2 x hx)⟩
  refine ⟨hgrown.lanes, hgrown.front, fun y hy => BitVec.le_trans (h.clock y hy) hc, out, hout,
    hgood' hgood, fun hs => ?_⟩
  obtain ⟨xs, ht, hxs, hspaced, hcross⟩ := hgrown.grows hs
  have hall := hgood' (hline hsmall)
  have hfresh : ∀ x ∈ xs, A (w.arrived ++ [skb]) x := fun x hx => hnew x (hxs x hx)
  dsimp only
  rw [ht, ← List.append_assoc]
  refine ⟨List.pairwise_append.mpr ⟨hall.1, ?_, fun y hy x hx => ?_⟩, fun x hx => ?_⟩
  · refine hspaced.imp_of_mem fun {y x} hy hx hyx => ?_
    exact hT y x (hfresh y hy) (hxs x hx) (Or.inr hyx)
  · refine hT y x (hall.2 y hy) (hxs x hx) ?_
    rcases List.mem_append.mp hy with hy | hy
    · exact Or.inl (BitVec.le_trans (le_of_departed hout h.clock y hy) hc)
    · exact Or.inr (hcross y hy x hx)
  · rcases List.mem_append.mp hx with hx | hx
    · exact hall.2 x hx
    · exact hfresh x hx

theorem Lined.dequeue (h : Lined T A w) {now : U64} {s' : NetemSched} {ret : Option Skb}
    (hc : w.clock ≤ now) (hsmall : Small w.s) (hd : netemDequeue e now w.s = some (s', ret)) :
    Lined T A { w with s := s', clock := now, left := w.left ++ leaves now ret } := by
  obtain ⟨out, hout, -, hline⟩ := h.line
  obtain ⟨hfront, moved, ht, hmoved⟩ := dequeue_moves h.lanes h.front hd
  have hall := hline hsmall
  rw [ht, ← List.append_assoc] at hall
  exact ⟨inLanes_dequeue h.lanes hd, hfront, clock_leaves hc h.clock, out ++ moved,
    List.rel_append hout hmoved, hall.left, fun _ => hall⟩

/-- Events other than arrivals. -/
theorem Lined.other (h : Lined T A w) {ev : Event} (hno : ∀ now skb, ev ≠ .enqueue now skb)
    (hev : Rated r w ev) (hs : step e w ev = some w') : Lined T A w' := by
  obtain ⟨hc, -, hsmall, -⟩ := hev
  have hl := inLanes_step h.lanes hs
  cases ev with
  | enqueue now skb => exact absurd rfl (hno now skb)
  | dequeue now =>
    obtain ⟨⟨s', ret⟩, hd, rfl⟩ := Option.map_eq_some_iff.mp hs
    exact h.dequeue hc hsmall hd
  | change now opt =>
    cases hs
    obtain ⟨data, hdata⟩ := netemConfigure_frame e now w.s opt
    rw [hdata] at hl ⊢
    exact ⟨hl, h.front, fun y hy => BitVec.le_trans (h.clock y hy) hc, h.line⟩
  | reset now =>
    cases hs
    obtain ⟨out, hout, hgood, -⟩ := h.line
    have ht : timed (netemReset w.s) = [] := (inLanes_empty rfl rfl).2
    refine ⟨hl, rfl, fun y hy => BitVec.le_trans (h.clock y hy) hc, out, hout, hgood, fun _ => ?_⟩
    rw [ht, List.append_nil]
    exact hgood

end Run

/-! ### Packets stay in order -/

/-- Packets arrive in the order of their numbers. -/
def InSequence (seq : Skb → ℕ) (w : World) : Event → Prop
  | .enqueue _ skb => ∀ x ∈ w.arrived, seq x ≤ seq skb
  | _ => True

instance (seq : Skb → ℕ) (w : World) : (ev : Event) → Decidable (InSequence seq w ev)
  | .enqueue _ skb => inferInstanceAs (Decidable (∀ x ∈ w.arrived, seq x ≤ seq skb))
  | .dequeue _ | .change _ _ | .reset _ => isTrue trivial

section Order
variable {e : Env} {seq : Skb → ℕ} {r : ℕ}

/-- The order of the numbers. -/
def SeqLe (seq : Skb → ℕ) (x y : Stamped) : Prop := seq x.skb ≤ seq y.skb

/-- The packet has the number of one that arrived. -/
def Known (seq : Skb → ℕ) (arrived : List Skb) (x : Stamped) : Prop :=
  ∃ y ∈ arrived, seq x.skb = seq y

theorem lined_inSequence (hseq : Inherited e seq) {w w' : World} {ev : Event}
    (h : Lined (SeqLe seq) (Known seq) w) (hev : Rated r w ev) (hin : InSequence seq w ev)
    (hs : step e w ev = some w') : Lined (SeqLe seq) (Known seq) w' := by
  cases ev with
  | enqueue now skb =>
    obtain ⟨hc, hnow, hsmall, hpaced⟩ := hev
    obtain ⟨⟨s', ret⟩, he, rfl⟩ := Option.map_eq_some_iff.mp hs
    refine h.enqueue False hc hnow hsmall hpaced False.elim (hseq.parts (seq skb)) rfl
      ?_ ?_ ?_ he
    · rintro x ⟨y, hy, hxy⟩
      exact ⟨y, List.mem_append_left _ hy, hxy⟩
    · intro x hx
      exact ⟨skb, List.mem_append_right _ (List.mem_singleton_self skb), hx.1⟩
    · rintro y x ⟨z, hz, hyz⟩ hx -
      show seq y.skb ≤ seq x.skb
      rw [hx.1, hyz]
      rcases List.mem_append.mp hz with hz | hz
      · exact hin z hz
      · rw [List.mem_singleton.mp hz]
  | dequeue now => exact h.other (fun _ _ h => by cases h) hev hs
  | change now opt => exact h.other (fun _ _ h => by cases h) hev hs
  | reset now => exact h.other (fun _ _ h => by cases h) hev hs

theorem map_departed (f : Skb → ℕ) {out : List Stamped} {left : List (Skb × U64)}
    (h : List.Forall₂ Departed out left) :
    left.map (fun y => f y.1) = out.map fun x => f x.skb := by
  induction h with
  | nil => rfl
  | cons hd _ ih => rw [List.map_cons, List.map_cons, ih, hd.1]

end Order

/-- A record, and a rate of a megabyte per second. -/
def rateOptions (latency : U32) : List Byte :=
  TcNetemQopt.toBytes ⟨latency, 100, 0, 0, 0, 0⟩ ++
    [20, 0, 6, 0, 0x40, 0x42, 0x0f, 0, 0, 0, 0, 0, 0, 0, 0, 0, 0, 0, 0, 0]

/-- The latency is lowered between two packets. -/
def following : List Event :=
  [.change 0 (rateOptions 1000), .enqueue 0 ⟨1, 1500⟩, .change 10 (rateOptions 0),
    .enqueue 20 ⟨2, 1500⟩, .dequeue 2000000, .dequeue 3064000]

theorem following_run : (run (step Env.plain) (World.start 0) following).isSome := by
  decide +kernel

theorem inherited_plain (f : Skb → ℕ) : Inherited Env.plain f := fun _ _ h => by cases h.1

/-- The time that packets take on a link of `r` bytes per second. -/
def transmit (r : ℕ) (l : List (Skb × U64)) : ℕ := (l.map fun y => cost r y.1.len).sum

/-- The latency is all of the delay, and a packet arrives when it is born or later. -/
def Prompted (born : Skb → ℕ) (w : World) : Event → Prop
  | .enqueue now skb => Prompt w.s.data ∧ born skb ≤ now.toNat
  | _ => True

instance (born : Skb → ℕ) (w : World) : (ev : Event) → Decidable (Prompted born w ev)
  | .enqueue now skb => inferInstanceAs (Decidable (Prompt w.s.data ∧ born skb ≤ now.toNat))
  | .dequeue _ | .change _ _ | .reset _ => isTrue trivial

section Ahead
variable {e : Env} {born : Skb → ℕ} {r : ℕ}

/-- The packet is sent when it was born and the time that it takes has passed, or later. -/
def Late (born : Skb → ℕ) (r : ℕ) (x : Stamped) : Prop := born x.skb + cost r x.skb.len ≤ tts x

theorem lined_prompted (hborn : Inherited e born) {w w' : World} {ev : Event}
    (h : Lined (Spaced r) (fun _ => Late born r) w) (hev : Rated r w ev)
    (hpr : Prompted born w ev) (hs : step e w ev = some w') :
    Lined (Spaced r) (fun _ => Late born r) w' := by
  cases ev with
  | enqueue now skb =>
    obtain ⟨hc, hnow, hsmall, hpaced⟩ := hev
    obtain ⟨hprompt, hb⟩ := hpr
    obtain ⟨⟨s', ret⟩, he, rfl⟩ := Option.map_eq_some_iff.mp hs
    refine h.enqueue True hc hnow hsmall hpaced (fun _ => hprompt) (hborn.parts (born skb)) rfl
      (fun _ hx => hx) ?_ ?_ he
    · intro x hx
      have := hx.2 trivial
      unfold Late
      rw [hx.1]
      omega
    · rintro y x - hx (hy | hy)
      · have := hx.2 trivial
        have : tts y ≤ now.toNat := hy
        unfold Spaced
        omega
      · exact hy
  | dequeue now => exact h.other (fun _ _ h => by cases h) hev hs
  | change now opt => exact h.other (fun _ _ h => by cases h) hev hs
  | reset now => exact h.other (fun _ _ h => by cases h) hev hs

/-- The times of packets that leave one after the other add up. -/
theorem transmit_le {y : Skb × U64} : ∀ {mid : List (Skb × U64)} {out : List Stamped} {x : Stamped},
    List.Forall₂ Departed out (mid ++ [y]) → (x :: out).Pairwise (Spaced r) →
      tts x + transmit r (mid ++ [y]) ≤ y.2.toNat
  | [], out, x, hout, hp => by
    cases hout with
    | @cons z _ _ _ hz hnil =>
      have hxz : tts x + cost r z.skb.len ≤ tts z := (List.pairwise_cons.mp hp).1 z (by simp)
      have hzy : tts z ≤ y.2.toNat := hz.2
      rw [hz.1] at hxz
      simp only [transmit, List.nil_append, List.map_cons, List.map_nil, List.sum_singleton]
      omega
  | m :: mid, out, x, hout, hp => by
    cases hout with
    | @cons z _ _ _ hz hrest =>
      obtain ⟨hx, hp⟩ := List.pairwise_cons.mp hp
      have hxz : tts x + cost r z.skb.len ≤ tts z := hx z (by simp)
      have ih := transmit_le hrest hp
      rw [hz.1] at hxz
      simp only [transmit, List.cons_append, List.map_cons, List.sum_cons] at ih ⊢
      omega

end Ahead

end DynBandwidth.Sched.NetemRate
