import DynBandwidth.Tbf.Requests

/-! # What the driver sends is what the kernel reads

In each round of its main loop the driver sends four messages, two for each device. The options of a
token bucket carry the rate in a record of 32 bits and, if it does not fit, in an attribute of its
own; the kernel takes the larger one, which is the rate in both cases (`maxU64_rate32`). The options
of an emulator are a record with the latency, and nothing behind it.

The buffer and the two records are used again in every round. What is kept between rounds is that
this makes no difference (`Inv`): a round replaces all that an earlier one has set, so that its
messages depend on its entry alone (`round_spec`). By the rule for rounds this holds in every run in
which the kernel accepts the messages (`rounds_decode`). -/

namespace DynBandwidth.Tbf.Rounds

open DynBandwidth.Lib.Bytes DynBandwidth.Lib.Attributes DynBandwidth.Lib.Runs
open DynBandwidth.Tbf.Uapi DynBandwidth.Tbf.Libnetlink DynBandwidth.Tbf.Kernel
open DynBandwidth.Tbf.Schedule DynBandwidth.Tbf.TcCore DynBandwidth.Tbf.TbfNetem
open DynBandwidth.Tbf.Requests
open DynBandwidth.Reorder.Header (U8 U16 U32 U64)

/-! ### What a round does -/

/-- The kernel reads this rate from the options of a token bucket, and a change with these options
installs it. -/
def SetsRate (rate : U64) (opt : List Byte) : Prop := ∀ k : TbfKernel, ∃ p,
  tbfDecode k opt = .ok p ∧ p.rate.rateBytesPs = rate ∧
    ∀ q q', tbfChange k q opt = .ok q' → q'.rate.rateBytesPs = rate

/-- The kernel reads this latency, in ticks, from the options of an emulator and finds no attributes
behind the record, and a change with these options succeeds and installs it. -/
def SetsLatency (latency : U32) (opt : List Byte) : Prop := ∃ qopt,
  netemDecode opt = .ok (qopt, fun _ => none) ∧ qopt.latency = latency ∧
    ∀ (ρ : Type) (k : NetemKernel ρ) q, ∃ q', netemChange k q opt = .ok q' ∧
      q'.latency = k.ticks2ns latency

/-- The attributes that the driver nests in the options of the token bucket for an entry. -/
def entryAttrs (env : Env) (e : BwParam) : List Attr :=
  tbfAttrs (nextOpt env e (startOpt env)) e.bandwidth
    (calcRtable env (withRate e (startOpt env))).2.1

/-- The options that the driver sends to the emulator for an entry. -/
def entryOpt (env : Env) (e : BwParam) : List Byte := (nextNopt env e (startNopt env)).toBytes

/-- **The messages of a round with this entry**: the token buckets on both devices, then the
emulators. The attributes are functions of the entry alone. -/
structure Sends (env : Env) (e : Entry) (msgs : List (List Byte)) : Prop where
  messages : ∃ opt m1 m2 m3 m4, msgs = [m1, m2, m3, m4] ∧
    Request kindTbf opt env.idx1 0 0xFFFFFFFF m1 ∧ Request kindTbf opt env.idx2 0 0xFFFFFFFF m2 ∧
    attrs opt = entryAttrs env e.param ∧ SetsRate (e.bandwidth >>> 3) opt ∧
    Request kindNetem (entryOpt env e.param) env.idx1 0x00100000 0x00010001 m3 ∧
    Request kindNetem (entryOpt env e.param) env.idx2 0x00100000 0x00010001 m4
  latency : SetsLatency (env.clock.time2tick (e.delay.setWidth 32)) (entryOpt env e.param)

/-- A round takes the next entry of the schedule, sends its messages, and no call of `addattr_l`
fails. -/
def Decodes (env : Env) (s : Sched) (d : Driver) (_ : Answers) (d' : Driver) : Prop :=
  ∃ e msgs, nextIndex d.index s.nbws = some d'.index ∧ s.entries[d'.index.toNat]? = some e ∧
    d'.sent = d.sent ++ msgs ∧ Sends env e msgs ∧ NoneFails d.req d'.req

/-- All calls of `rtnl_talk` of a round succeed. -/
def AllAccepted (a : Answers) : Prop := 0 ≤ a.tbf1 ∧ 0 ≤ a.tbf2 ∧ 0 ≤ a.netem1 ∧ 0 ≤ a.netem2

/-! ### The rate -/

/-- **The larger of the two rates is the rate**, whether it fits in 32 bits or not. -/
theorem maxU64_rate32 (rate64 : U64) : maxU64 ((rate32 rate64).setWidth 64)
    (if 4294967296 ≤ rate64.toNat then rate64 else 0) = rate64 := by
  by_cases hwide : 4294967296 ≤ rate64.toNat
  · have hlt : ¬ rate64 < (0xFFFFFFFF : U32).setWidth 64 := by
      rw [BitVec.lt_def]
      show ¬ rate64.toNat < 4294967295
      omega
    rw [rate32, if_pos hwide, if_pos hwide, maxU64, if_neg hlt]
  · have hcut : (rate64.setWidth 32).setWidth 64 = rate64 := by
      refine BitVec.eq_of_toNat_eq ?_
      rw [BitVec.toNat_setWidth, BitVec.toNat_setWidth]
      omega
    rw [rate32, if_neg hwide, if_neg hwide, hcut, maxU64]
    split_ifs with hpos
    · rfl
    · have hzero : ¬ 0 < rate64.toNat := hpos
      exact BitVec.eq_of_toNat_eq (by show 0 = rate64.toNat; omega)

section Table
variable (opt : TcTbfQopt) (rate64 : U64) (rtab : List U32)

theorem table_tbfAttrs_parms :
    table tcaTbfMax (tbfAttrs opt rate64 rtab) tcaTbfParms = some opt.toBytes := by
  unfold tbfAttrs wideRate
  split_ifs <;> simp [table, nlaType, tcaTbfMax, tcaTbfParms, tcaTbfBurst, tcaTbfRate64, tcaTbfRtab]

theorem table_tbfAttrs_burst :
    table tcaTbfMax (tbfAttrs opt rate64 rtab) tcaTbfBurst = some (bytes 4 burst.toNat) := by
  unfold tbfAttrs wideRate
  split_ifs <;> simp [table, nlaType, tcaTbfMax, tcaTbfParms, tcaTbfBurst, tcaTbfRate64, tcaTbfRtab]

theorem table_tbfAttrs_rate64 :
    ((table tcaTbfMax (tbfAttrs opt rate64 rtab) tcaTbfRate64).map nlaGetU64).getD 0 =
      if 4294967296 ≤ rate64.toNat then rate64 else 0 := by
  unfold tbfAttrs wideRate
  split_ifs <;> simp [table, nlaType, tcaTbfMax, tcaTbfParms, tcaTbfBurst, tcaTbfRate64, tcaTbfRtab,
    nlaGetU64_bytes]

theorem valid_tbfAttrs (hrtab : (rtabBytes rtab).length = 1024) :
    Valid tcaTbfMax tbfPolicy (tbfAttrs opt rate64 rtab) := by
  have hopt := opt.length_toBytes
  unfold tbfAttrs wideRate
  split_ifs <;> simp [Valid, tbfPolicy, nlaType, NlaPolicy.Accepts, hopt, hrtab, tcaTbfMax,
    tcaTbfParms, tcaTbfRtab, tcaTbfPtab, tcaTbfRate64, tcaTbfPrate64, tcaTbfBurst, tcaTbfPburst]

end Table

/-- **The options of an entry set its rate.** -/
theorem setsRate_of_attrs {env : Env} {e : Entry} {opt : List Byte}
    (h : attrs opt = entryAttrs env e.param) : SetsRate (e.bandwidth >>> 3) opt := by
  intro k
  obtain ⟨p, hp, -, hrate⟩ := tbfDecode_of_attrs (k := k) h
    (valid_tbfAttrs _ _ _ (length_rtabBytes _ _ _ _ _)) (table_tbfAttrs_parms _ _ _) rfl
    (table_tbfAttrs_burst _ _ _) (by rw [nlaGetU32_bytes]; decide)
  have hbytes : p.rate.rateBytesPs = e.bandwidth >>> 3 := by
    rw [hrate, entryAttrs, table_tbfAttrs_rate64, pschedRatecfgPrecompute]
    dsimp only
    rw [awareRate_rate]
    exact maxU64_rate32 e.param.bandwidth
  exact ⟨p, hp, hbytes, fun q q' hq => by rw [tbfChange_rate hp hq, hbytes]⟩

/-- **The options of an entry set its latency.** -/
theorem setsLatency_entryOpt (env : Env) (e : Entry) :
    SetsLatency (env.clock.time2tick (e.delay.setWidth 32)) (entryOpt env e.param) :=
  ⟨_, netemDecode_toBytes _, rfl, fun _ k q => ⟨_, netemChange_toBytes k q _, rfl⟩⟩

/-! ### A round -/

/-- Between two states the driver has sent messages, and nothing else. -/
structure Says (msgs : List (List Byte)) (d d' : Driver) : Prop where
  index : d'.index = d.index
  opt : d'.opt = d.opt
  nopt : d'.nopt = d.nopt
  rets : d'.req.rets = d.req.rets
  sent : d'.sent = d.sent ++ msgs

section Talk
variable {d : Driver} {kind opt : List Byte} {ifindex handle parent : U32}

theorem talk_spec (h : Ready d.req kind opt ifindex handle parent) {answer : ℤ}
    (ha : 0 ≤ answer) : ∃ d' msg, d.talk answer = .ok d' ∧ Says [msg] d d' ∧
      Ready d'.req kind opt ifindex handle parent ∧
      Request kind opt ifindex handle parent msg := by
  have hready := h.store_seq (d.seq + 1).toNat
    (value (load (store d.req.mem 8 (bytes 4 (d.seq + 1).toNat)) 6 2) ||| 4)
  refine ⟨_, _, if_neg (by omega), ⟨rfl, rfl, rfl, rfl, rfl⟩, hready, hready.request⟩

/-- **A request for both devices.** -/
theorem talkBoth_spec (env : Env) (h : Ready d.req kind opt env.idx1 handle parent)
    {answer1 answer2 : ℤ} (h1 : 0 ≤ answer1) (h2 : 0 ≤ answer2) :
    ∃ d' m1 m2, d.talkBoth env answer1 answer2 = .ok d' ∧ Says [m1, m2] d d' ∧
      load d'.req.mem 4 2 = bytes 2 36 ∧ Request kind opt env.idx1 handle parent m1 ∧
      Request kind opt env.idx2 handle parent m2 := by
  obtain ⟨d1, m1, e1, s1, r1, q1⟩ := talk_spec h h1
  obtain ⟨d2, m2, e2, s2, r2, q2⟩ := talk_spec
    (d := { d1 with req := d1.req.put32 tcmIfindex env.idx2 }) (r1.put32 env.idx2) h2
  refine ⟨d2, m1, m2, ?_, ?_, r2.header.type, q1, q2⟩
  · unfold Driver.talkBoth
    rw [e1]
    exact e2
  · refine ⟨s2.index.trans s1.index, s2.opt.trans s1.opt, s2.nopt.trans s1.nopt,
      s2.rets.trans s1.rets, ?_⟩
    rw [s2.sent, s1.sent, List.append_assoc]
    rfl

end Talk

/-- What every round keeps: the type of the request, and that the options of an entry are the same
whatever was sent before. -/
structure Inv (env : Env) (d : Driver) : Prop where
  type : load d.req.mem 4 2 = bytes 2 36
  opt : ∀ e, nextOpt env e d.opt = nextOpt env e (startOpt env)
  rtab : ∀ e, (calcRtable env (withRate e d.opt)).2.1 =
    (calcRtable env (withRate e (startOpt env))).2.1
  nopt : ∀ e, nextNopt env e d.nopt = nextNopt env e (startNopt env)

theorem inv_start (env : Env) : Inv env (start env) where
  type := by
    show load (store _ 6 (bytes 2 1)) 4 2 = _
    rw [load_store_disjoint _ (by omega), load_store_bytes]
  opt _ := rfl
  rtab _ := rfl
  nopt _ := rfl

/-- The entry of a round. -/
theorem next_entry (s : Sched) (index : U32) : ∃ next e, nextIndex index s.nbws = some next ∧
    s.entries[next.toNat]? = some e ∧ s.bws[next.toNat]? = some e.param := by
  have hnbws : s.nbws.toNat = s.entries.length := by
    have := s.lt
    rw [Sched.nbws, BitVec.toNat_ofNat, Nat.mod_eq_of_lt (by omega)]
  have hne : s.nbws ≠ 0 := fun h0 => by
    have := s.pos
    rw [h0] at hnbws
    simp at hnbws
    omega
  obtain ⟨next, hnext, hlt⟩ := nextIndex_lt hne index
  rw [hnbws] at hlt
  have hget := List.getElem?_eq_getElem hlt
  exact ⟨next, _, hnext, hget, by rw [Sched.bws, List.getElem?_map, hget]; rfl⟩

theorem length_calcRtable (env : Env) (opt : TcTbfQopt) :
    (rtabBytes (calcRtable env opt).2.1).length = 1024 :=
  length_rtabBytes env.clock opt.rate (-1) 0 .ethernet

section Round
variable {env : Env} {d : Driver} {a1 a2 : ℤ}

theorem orFault_bind {α β : Type} (x : α) (f : α → Except Stop β) :
    (orFault (some x) >>= f) = f x := rfl

/-- The driver with the request for the token bucket. -/
theorem tbf_eq (env : Env) (d : Driver) (e : BwParam) : d.tbf env e = .ok { d with
    req := (d.req.begin kindTbf 0xFFFFFFFF 0 env.idx1).tbfOptions (nextOpt env e d.opt) e.bandwidth
      (calcRtable env (withRate e d.opt)).2.1
    opt := nextOpt env e d.opt } := by
  unfold Driver.tbf
  exact if_neg (not_lt.mpr
    (tcCalcRtable_spec env.clock (withRate e d.opt).rate (-1) 0 .ethernet).1)

/-- **The first half of a round**: the token buckets. -/
theorem tbf_spec (h : Inv env d) (e : BwParam) (h1 : 0 ≤ a1) (h2 : 0 ≤ a2) :
    ∃ d' opt m1 m2, (d.tbf env e >>= fun d => d.talkBoth env a1 a2) = .ok d' ∧ Inv env d' ∧
      d'.index = d.index ∧ d'.sent = d.sent ++ [m1, m2] ∧ NoneFails d.req d'.req ∧
      attrs opt = entryAttrs env e ∧ Request kindTbf opt env.idx1 0 0xFFFFFFFF m1 ∧
      Request kindTbf opt env.idx2 0 0xFFFFFFFF m2 := by
  obtain ⟨opt, hattrs, hready, hrets⟩ := tbf_ready d.req h.type 0xFFFFFFFF 0 env.idx1
    (nextOpt env e d.opt) e.bandwidth (length_calcRtable env (withRate e d.opt))
  rw [tbf_eq]
  obtain ⟨d', m1, m2, hd', hs, htype, q1, q2⟩ := talkBoth_spec (d := { d with
    req := (d.req.begin kindTbf 0xFFFFFFFF 0 env.idx1).tbfOptions (nextOpt env e d.opt) e.bandwidth
      (calcRtable env (withRate e d.opt)).2.1
    opt := nextOpt env e d.opt }) env hready h1 h2
  rw [h.opt, h.rtab] at hattrs
  refine ⟨d', opt, m1, m2, hd', ⟨htype, ?_, ?_, ?_⟩, hs.index, hs.sent,
    hrets.trans ⟨0, by rw [hs.rets]; simp⟩, hattrs, q1, q2⟩
  -- The update replaces all that an earlier one has set.
  · exact fun e' => by rw [hs.opt]; exact h.opt e'
  · exact fun e' => by rw [hs.opt]; exact h.rtab e'
  · exact fun e' => by rw [hs.nopt]; exact h.nopt e'

/-- **The second half of a round**: the emulators. -/
theorem netem_spec (h : Inv env d) (e : BwParam) (h1 : 0 ≤ a1) (h2 : 0 ≤ a2) :
    ∃ d' m1 m2, (d.netem env e).talkBoth env a1 a2 = .ok d' ∧ Inv env d' ∧
      d'.index = d.index ∧ d'.sent = d.sent ++ [m1, m2] ∧ NoneFails d.req d'.req ∧
      Request kindNetem (entryOpt env e) env.idx1 0x00100000 0x00010001 m1 ∧
      Request kindNetem (entryOpt env e) env.idx2 0x00100000 0x00010001 m2 := by
  obtain ⟨hready, hrets⟩ := netem_ready d.req h.type 0x00010001 0x00100000 env.idx1
    (nextNopt env e d.nopt)
  obtain ⟨d', m1, m2, hd', hs, htype, q1, q2⟩ :=
    talkBoth_spec (d := d.netem env e) env hready h1 h2
  rw [h.nopt] at q1 q2
  refine ⟨d', m1, m2, hd', ⟨htype, ?_, ?_, ?_⟩, hs.index, hs.sent,
    hrets.trans ⟨0, by rw [hs.rets]; simp [Driver.netem]⟩, q1, q2⟩
  · exact fun e' => by rw [hs.opt]; exact h.opt e'
  · exact fun e' => by rw [hs.opt]; exact h.rtab e'
  · exact fun e' => by rw [hs.nopt]; exact h.nopt e'

/-- **One round**, from a state that keeps the invariant. -/
theorem round_spec {s : Sched} {a : Answers} (h : Inv env d) (ha : AllAccepted a) :
    ∃ d', step env s d a = some d' ∧ Decodes env s d a d' ∧ Inv env d' := by
  obtain ⟨ha1, ha2, ha3, ha4⟩ := ha
  obtain ⟨index, e, hindex, hentry, hbws⟩ := next_entry s d.index
  have h0 : Inv env { d with index := index } := ⟨h.type, h.opt, h.rtab, h.nopt⟩
  obtain ⟨d1, opt, m1, m2, e1, inv1, i1, s1, r1, hattrs, q1, q2⟩ := tbf_spec h0 e.param ha1 ha2
  obtain ⟨d2, m3, m4, e2, inv2, i2, s2, r2, q3, q4⟩ := netem_spec inv1 e.param ha3 ha4
  have hround : d.round env s a = .ok d2 := by
    simp only [Driver.round, hindex, hbws, orFault_bind]
    rw [← bind_assoc, e1]
    exact e2
  have hi : d2.index = index := i2.trans i1
  refine ⟨d2, by rw [step, hround]; rfl, ⟨e, [m1, m2, m3, m4], ?_, ?_, ?_, ?_, r1.trans r2⟩, inv2⟩
  · rw [hindex, hi]
  · rw [hi, hentry]
  · rw [s2, s1, List.append_assoc]
    rfl
  · exact ⟨⟨opt, m1, m2, m3, m4, rfl, q1, q2, hattrs, setsRate_of_attrs hattrs, q3, q4⟩,
      setsLatency_entryOpt env e⟩

end Round

/-- **What the driver encodes is what the kernel decodes**, for every schedule and in every round of
a run in which all calls of `rtnl_talk` succeed. -/
theorem rounds_decode (env : Env) (s : Sched) {as : List Answers} (h : ∀ a ∈ as, AllAccepted a) :
    AllRounds (step env s) (Decodes env s) (start env) as := by
  refine allRounds_of_inv (fun d a hd ha => round_spec hd ha) (inv_start env) ?_
  exact allSteps_of_inv (I := fun _ => True) (fun _ _ _ _ _ _ => trivial) (fun _ _ _ ha => ha)
    trivial h

/-- Some devices and a clock that counts microseconds. -/
def twoDevices : Env := ⟨⟨id, fun _ _ => 0⟩, 3, 4, 100, 0⟩

/-- One gigabit, and eighty, which is more than `2 ^ 32` bytes. -/
def twoRates : Sched :=
  ⟨[⟨1000000000, 5000, 1000⟩, ⟨80000000000, 10000, 1000⟩], by decide, by decide⟩

theorem rounds_decode_twoRates :
    AllRounds (step twoDevices twoRates) (Decodes twoDevices twoRates) (start twoDevices)
      [⟨0, 0, 0, 0⟩, ⟨0, 0, 0, 0⟩, ⟨0, 0, 0, 0⟩] :=
  rounds_decode twoDevices twoRates (by simp [AllAccepted])

end DynBandwidth.Tbf.Rounds
