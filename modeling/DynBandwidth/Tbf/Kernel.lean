import DynBandwidth.Tbf.Uapi

/-! # What the kernel reads from a request

The decoders of the two queueing disciplines: `tc_modify_qdisc` parses a request into a table of
attributes, and hands the options to `tbf_change` of `sch_tbf.c` or to `netem_change` of
`sch_netem.c`. The options of the first are nested attributes; those of the second are a record with
attributes behind it. The layout of an attribute is that of the comment in `netlink.h`. `nla_parse`
and the meaning of a policy belong to the netlink library of the kernel, which is not part of the
repository: of several attributes of one type the last one counts, and types the table has no place
for are skipped. The driver sends one attribute of a type at most.

The parts of `tbf_change` and `netem_change` that decode the options are `tbfDecode` and
`netemDecode`. What they yield for options with known attributes is `tbfDecode_of_attrs` and
`netemChange_toBytes`. -/

namespace DynBandwidth.Tbf.Kernel

open DynBandwidth.Lib.Bytes DynBandwidth.Lib.Attributes DynBandwidth.Tbf.Uapi
open DynBandwidth.Reorder.Header (U8 U16 U32 U64)

/-! ### Attributes -/

/-- The entries of a policy. -/
inductive NlaPolicy
  | unspec (len : ℕ)
  | binary (len : ℕ)
  | u32
  | u64
  | s64
  | string
  | nested
  | flag
  deriving DecidableEq, Repr

/-- The lengths of a payload that a policy lets pass. -/
def NlaPolicy.Accepts (n : ℕ) : NlaPolicy → Prop
  | .unspec len => len ≤ n
  | .binary len => n ≤ len
  | .u32 => 4 ≤ n
  | .u64 => 8 ≤ n
  | .s64 => 8 ≤ n
  | .string => 1 ≤ n
  | .nested => n = 0 ∨ 4 ≤ n
  | .flag => n = 0

instance (n : ℕ) (p : NlaPolicy) : Decidable (p.Accepts n) := by
  cases p <;> unfold NlaPolicy.Accepts <;> infer_instance

abbrev Policy := List (ℕ × NlaPolicy)

/-- A table of attributes, `struct nlattr *tb[]`. -/
abbrev Tb := ℕ → Option (List Byte)

def einval : ℤ := 22
def erange : ℤ := 34

/-- `nla_type`: the two flags are masked. -/
def nlaType (a : Attr) : ℕ := a.type % 16384

/-- The attributes by their types; the last one of a type counts. -/
def table (maxtype : ℕ) (as : List Attr) : Tb := fun t =>
  if 0 < t ∧ t ≤ maxtype then (as.filter fun a => nlaType a = t).getLast?.map Attr.payload else none

/-- The payloads of the attributes that have a place in the table have the lengths they should. -/
def Valid (maxtype : ℕ) (policy : Policy) (as : List Attr) : Prop :=
  ∀ a ∈ as, nlaType a ≤ maxtype → ∀ p ∈ policy, p.1 = nlaType a → p.2.Accepts a.payload.length

instance (maxtype : ℕ) (policy : Policy) (as : List Attr) :
    Decidable (Valid maxtype policy as) := by unfold Valid; infer_instance

/-- `nla_parse`. -/
def nlaParse (maxtype : ℕ) (policy : Policy) (bs : List Byte) : Except ℤ Tb :=
  if Valid maxtype policy (attrs bs) then .ok (table maxtype (attrs bs)) else .error (-erange)

def nlaGetU32 (bs : List Byte) : U32 := BitVec.ofNat 32 (value (bs.take 4))

def nlaGetU64 (bs : List Byte) : U64 := BitVec.ofNat 64 (value (bs.take 8))

/-- `nla_strcmp(nla, str) == 0`. -/
def nlaStreq (nla str : List Byte) : Bool :=
  (if nla.getLast? = some 0 then nla.dropLast else nla) == str

/-! ### Requests -/

/-- What `tc_modify_qdisc` reads from a request. -/
structure TcRequest where
  nlmsgType : U16
  tcmIfindex : U32
  tcmHandle : U32
  tcmParent : U32
  tca : Tb

def rtmTcaPolicy : Policy :=
  [(tcaKind, .string), (tcaRate, .binary 2), (tcaStab, .nested), (tcaDumpInvisible, .flag),
    (tcaChain, .u32), (tcaIngressBlock, .u32), (tcaEgressBlock, .u32)]

/-- The number in `k` bytes of a message. -/
def field (msg : List Byte) (o k : ℕ) : ℕ := value ((msg.drop o).take k)

/-- `nlmsg_parse`, for a message with a `struct tcmsg` behind its header: the attributes are those
up to `nlmsg_len`. -/
def nlmsgParse (msg : List Byte) : Except ℤ TcRequest :=
  if field msg 0 4 < 36 ∨ msg.length < field msg 0 4 then .error (-einval)
  else do
    let tca ← nlaParse tcaMax rtmTcaPolicy ((msg.take (field msg 0 4)).drop 36)
    return {
      nlmsgType := BitVec.ofNat 16 (field msg 4 2)
      tcmIfindex := BitVec.ofNat 32 (field msg 20 4)
      tcmHandle := BitVec.ofNat 32 (field msg 24 4)
      tcmParent := BitVec.ofNat 32 (field msg 28 4)
      tca := tca }

/-! ### Rates -/

structure PschedRatecfg where
  rateBytesPs : U64
  mult : U32
  overhead : U16
  linklayer : U8
  shift : U8
  deriving DecidableEq, Repr

def maxU64 (a b : U64) : U64 := if b < a then a else b
def minU64 (a b : U64) : U64 := if a < b then a else b

/-- The loop of `psched_ratecfg_precompute`. The factor starts with 30 bits and has 64 after 34
rounds, so that the loop ends there at the latest. -/
def reciprocal (rate : U64) : ℕ → U64 → U8 → U32 × U8
  | 0, factor, shift => ((factor / rate).setWidth 32, shift)
  | n + 1, factor, shift =>
    let mult : U32 := (factor / rate).setWidth 32
    if mult.getLsbD 31 || factor.getLsbD 63 then (mult, shift)
    else reciprocal rate n (factor <<< 1) (shift + 1)

def pschedRatecfgPrecompute (conf : TcRatespec) (rate64 : U64) : PschedRatecfg :=
  let rateBytesPs := maxU64 (conf.rate.setWidth 64) rate64
  let r := if 0 < rateBytesPs then reciprocal rateBytesPs 34 1000000000 0 else (1, 0)
  ⟨rateBytesPs, r.1, conf.overhead, conf.linklayer &&& 0x0F, r.2⟩

/-- `psched_ns_t2l`: the bytes that can be sent in a time. -/
def pschedNsT2l (r : PschedRatecfg) (timeInNs : U64) : U64 :=
  let len := timeInNs * r.rateBytesPs / 1000000000
  let len := if r.linklayer = 2 then len / 53 * 48 else len
  if r.overhead.setWidth 64 < len then len - r.overhead.setWidth 64 else 0

/-! ### `tbf_change` -/

/-- What the decoders use of the rest of the kernel: the clock of the schedulers, the time a packet
takes, the rate tables that others hold, and the queue inside a token bucket. `rtabListed` says that
the search in `qdisc_rtab_list` finds a table, or that there is no memory for a new one. -/
structure TbfKernel where
  ticks2ns : U32 → U64
  l2tNs : PschedRatecfg → U32 → U64
  rtabListed : TcRatespec → List Byte → Bool
  fifoSetLimit : ℕ → U32 → ℤ
  fifoCreateDflt : U32 → Except ℤ ℕ

/-- The parameters of a token bucket; `qdisc` is the queue inside it, `none` for `noop_qdisc`. -/
structure TbfSchedData where
  limit : U32
  maxSize : U32
  buffer : U64
  mtu : U64
  rate : PschedRatecfg
  peak : PschedRatecfg
  tokens : U64
  ptokens : U64
  qdisc : Option ℕ

def tbfPolicy : Policy :=
  [(tcaTbfParms, .unspec 36), (tcaTbfRtab, .binary 1024), (tcaTbfPtab, .binary 1024),
    (tcaTbfRate64, .u64), (tcaTbfPrate64, .u64), (tcaTbfBurst, .u32), (tcaTbfPburst, .u32)]

/-- The values that `tbf_change` computes from the options. -/
structure TbfParms where
  limit : U32
  maxSize : U64
  buffer : U64
  mtu : U64
  rate : PschedRatecfg
  peak : PschedRatecfg

def tcLinklayerUnaware : U8 := 0
def tcLinklayerEthernet : U8 := 1
def tcLinklayerAtm : U8 := 2

/-- `__detect_linklayer`: a table made for ATM has the same entry for all sizes of a cell. -/
def detectLinklayer (r : TcRatespec) (rtab : List Byte) : U8 :=
  let low := (r.mpu.toNat + 47) / 48 * 48
  let high := (low + 1 + 47) / 48 * 48
  let cellLow : ℤ := (low >>> r.cellLog.toNat : ℕ)
  let cellHigh : ℤ := (high >>> r.cellLog.toNat : ℕ) - 1
  if 12500000 < r.rate ∨ field rtab 0 4 = 0 then tcLinklayerEthernet
  else if cellLow < cellHigh ∧ cellHigh < 256 ∧
      field rtab (4 * cellLow.toNat) 4 = field rtab (4 * cellHigh.toNat) 4 then tcLinklayerAtm
  else tcLinklayerEthernet

/-- `qdisc_get_rtab`, as far as it changes the rate: for a new table, it detects the link layer. The
table itself is put back at once. -/
def qdiscGetRtab (k : TbfKernel) (r : TcRatespec) : Option (List Byte) → TcRatespec
  | none => r
  | some tab =>
    if r.rate = 0 ∨ r.cellLog = 0 ∨ tab.length ≠ 1024 ∨ k.rtabListed r tab = true then r
    else if r.linklayer = tcLinklayerUnaware then { r with linklayer := detectLinklayer r tab }
    else r

/-- A rate without a link layer gets the one that its table shows. -/
def awareRate (k : TbfKernel) (r : TcRatespec) (tab : Option (List Byte)) : TcRatespec :=
  if r.linklayer = tcLinklayerUnaware then qdiscGetRtab k r tab else r

/-- The record, with the link layers of both rates. -/
def awareQopt (k : TbfKernel) (tb : Tb) (qopt : TcTbfQopt) : TcTbfQopt :=
  { qopt with
    rate := awareRate k qopt.rate (tb tcaTbfRtab)
    peakrate := awareRate k qopt.peakrate (tb tcaTbfPtab) }

/-- The rate that is not to be exceeded at any time: the size, the `mtu` and the rate itself. -/
def tbfPeak (k : TbfKernel) (tb : Tb) (qopt : TcTbfQopt) (rate : PschedRatecfg)
    (maxSize mtu : U64) : Except ℤ (U64 × U64 × PschedRatecfg) :=
  if qopt.peakrate.rate ≠ 0 then
    let prate64 := ((tb tcaTbfPrate64).map nlaGetU64).getD 0
    let peak := pschedRatecfgPrecompute qopt.peakrate prate64
    if peak.rateBytesPs ≤ rate.rateBytesPs then .error (-einval)
    else
      match (tb tcaTbfPburst).map nlaGetU32 with
      | some pburst =>
        .ok (minU64 ((maxSize.setWidth 32).setWidth 64) (pburst.setWidth 64), k.l2tNs peak pburst,
          peak)
      | none => .ok (minU64 maxSize (pschedNsT2l peak mtu), mtu, peak)
  else .ok (maxSize, mtu, ⟨0, 0, 0, 0, 0⟩)

/-- `tbf_change` up to the last check of the options. -/
def tbfDecode (k : TbfKernel) (opt : List Byte) : Except ℤ TbfParms := do
  let tb ← nlaParse tcaTbfMax tbfPolicy opt
  match tb tcaTbfParms with
  | none => .error (-einval)
  | some parms =>
    let qopt := awareQopt k tb (TcTbfQopt.ofBytes parms)
    let buffer := minU64 (k.ticks2ns qopt.buffer) 0xFFFFFFFF
    let mtu := minU64 (k.ticks2ns qopt.mtu) 0xFFFFFFFF
    let rate64 := ((tb tcaTbfRate64).map nlaGetU64).getD 0
    let rate := pschedRatecfgPrecompute qopt.rate rate64
    let burst := (tb tcaTbfBurst).map nlaGetU32
    let maxSize :=
      match burst with
      | some burst => burst.setWidth 64
      | none => minU64 (pschedNsT2l rate buffer) 0xFFFFFFFF
    let (maxSize, mtu, peak) ← tbfPeak k tb qopt rate maxSize mtu
    if maxSize = 0 then .error (-einval)
    else
      return {
        limit := qopt.limit
        maxSize := maxSize
        buffer := (burst.map (k.l2tNs rate)).getD (k.ticks2ns qopt.buffer)
        mtu := if (tb tcaTbfPburst).isSome then mtu else k.ticks2ns qopt.mtu
        rate := rate
        peak := peak }

/-- The queue inside: its limit is set, or it is created. -/
def tbfChild (k : TbfKernel) (limit : U32) : Option ℕ → Except ℤ (Option ℕ)
  | some child =>
    if k.fifoSetLimit child limit ≠ 0 then .error (k.fifoSetLimit child limit)
    else .ok (some child)
  | none => if 0 < limit then (k.fifoCreateDflt limit).map some else .ok none

/-- `tbf_change`: the new parameters, with a queue inside if there was none. -/
def tbfChange (k : TbfKernel) (q : TbfSchedData) (opt : List Byte) : Except ℤ TbfSchedData := do
  let p ← tbfDecode k opt
  let qdisc ← tbfChild k p.limit q.qdisc
  return {
    limit := p.limit
    maxSize := p.maxSize.setWidth 32
    buffer := p.buffer
    mtu := p.mtu
    rate := p.rate
    peak := p.peak
    tokens := p.buffer
    ptokens := p.mtu
    qdisc := qdisc }

/-! ### `netem_change` -/

/-- The parameters of the emulator. The loss model, the distributions, the slots and the state of
the random numbers are in `rest`. -/
structure NetemSchedData (ρ : Type) where
  latency : U64
  jitter : U64
  limit : U32
  gap : U32
  counter : U32
  loss : U32
  duplicate : U32
  reorder : U32
  corrupt : U32
  rate : U64
  packetOverhead : U32
  cellSize : U32
  cellOverhead : U32
  ecn : U32
  rest : ρ

/-- What `netem_change` uses of the rest of the kernel and of its file: the functions that read the
attributes behind the record into `rest`. -/
structure NetemKernel (ρ : Type) where
  ticks2ns : U32 → U64
  randomLoss : ρ → ρ
  getLossClg : List Byte → ρ → Except ℤ ρ
  getDelayDist : List Byte → ρ → Except ℤ ρ
  getSlotDist : List Byte → ρ → Except ℤ ρ
  getCorrelation : List Byte → ρ → ρ
  initReorderCor : U32 → ρ → ρ
  initCorruptCor : U32 → ρ → ρ
  getSlot : List Byte → ρ → ρ

def netemPolicy : Policy :=
  [(tcaNetemCorr, .unspec 12), (tcaNetemReorder, .unspec 8), (tcaNetemCorrupt, .unspec 8),
    (tcaNetemRate, .unspec 16), (tcaNetemLoss, .nested), (tcaNetemEcn, .u32),
    (tcaNetemRate64, .u64), (tcaNetemLatency64, .s64), (tcaNetemJitter64, .s64),
    (tcaNetemSlot, .unspec 40)]

/-- `parse_attr`: the attributes behind a record of the length `len`. -/
def parseAttr (maxtype : ℕ) (policy : Policy) (nla : List Byte) (len : ℕ) : Except ℤ Tb :=
  if nla.length < align4 len then .error (-einval)
  else if 4 ≤ nla.length - align4 len then nlaParse maxtype policy (nla.drop (align4 len))
  else .ok fun _ => none

/-- The record and the attributes behind it. -/
def netemDecode (opt : List Byte) : Except ℤ (TcNetemQopt × Tb) := do
  let tb ← parseAttr tcaNetemMax netemPolicy opt 24
  return (TcNetemQopt.ofBytes opt, tb)

section Netem
variable {ρ : Type} (k : NetemKernel ρ) (tb : Tb)

/-- The attributes that can fail: the loss model and the tables of distributions. -/
def netemTables (rest : ρ) : Except ℤ ρ := do
  let rest ←
    match tb tcaNetemLoss with
    | some loss => k.getLossClg loss rest
    | none => .ok (k.randomLoss rest)
  let rest ←
    match tb tcaNetemDelayDist with
    | some dist => k.getDelayDist dist rest
    | none => .ok rest
  match tb tcaNetemSlotDist with
  | some dist => k.getSlotDist dist rest
  | none => .ok rest

/-- The record. -/
def netemQopt (qopt : TcNetemQopt) (rest : ρ) (q : NetemSchedData ρ) : NetemSchedData ρ :=
  { q with
    latency := k.ticks2ns qopt.latency
    jitter := k.ticks2ns qopt.jitter
    limit := qopt.limit
    gap := qopt.gap
    counter := 0
    loss := qopt.loss
    duplicate := qopt.duplicate
    reorder := if qopt.gap ≠ 0 then 0xFFFFFFFF else q.reorder
    rest := rest }

/-- The attributes that overwrite what the record says, in their order. -/
def netemAttrs (q : NetemSchedData ρ) : NetemSchedData ρ :=
  let q := match tb tcaNetemCorr with
    | some c => { q with rest := k.getCorrelation c q.rest }
    | none => q
  let q := match tb tcaNetemReorder with
    | some r =>
      { q with
        reorder := nlaGetU32 r
        rest := k.initReorderCor (nlaGetU32 (r.drop 4)) q.rest }
    | none => q
  let q := match tb tcaNetemCorrupt with
    | some r =>
      { q with
        corrupt := nlaGetU32 r
        rest := k.initCorruptCor (nlaGetU32 (r.drop 4)) q.rest }
    | none => q
  let q := match tb tcaNetemRate with
    | some r =>
      { q with
        rate := (nlaGetU32 r).setWidth 64
        packetOverhead := nlaGetU32 (r.drop 4)
        cellSize := nlaGetU32 (r.drop 8)
        cellOverhead := nlaGetU32 (r.drop 12) }
    | none => q
  let q := match tb tcaNetemRate64 with
    | some r => { q with rate := maxU64 q.rate (nlaGetU64 r) }
    | none => q
  let q := match tb tcaNetemLatency64 with
    | some l => { q with latency := nlaGetU64 l }
    | none => q
  let q := match tb tcaNetemJitter64 with
    | some j => { q with jitter := nlaGetU64 j }
    | none => q
  let q := match tb tcaNetemEcn with
    | some e => { q with ecn := nlaGetU32 e }
    | none => q
  match tb tcaNetemSlot with
    | some s => { q with rest := k.getSlot s q.rest }
    | none => q

end Netem

/-- `netem_change`. -/
def netemChange {ρ : Type} (k : NetemKernel ρ) (q : NetemSchedData ρ) (opt : List Byte) :
    Except ℤ (NetemSchedData ρ) := do
  let (qopt, tb) ← netemDecode opt
  let rest ← netemTables k tb q.rest
  return netemAttrs k tb (netemQopt k qopt rest q)

/-! ### What is decoded -/

theorem nlaParse_of_attrs {maxtype : ℕ} {policy : Policy} {bs : List Byte} {as : List Attr}
    (h : attrs bs = as) (hv : Valid maxtype policy as) :
    nlaParse maxtype policy bs = .ok (table maxtype as) := by
  rw [nlaParse, h, if_pos hv]

/-- **A message of the length it says**, with known attributes. -/
theorem nlmsgParse_of_attrs {msg : List Byte} {as : List Attr} (hlen : field msg 0 4 = msg.length)
    (h36 : 36 ≤ msg.length) (h : attrs (msg.drop 36) = as) (hv : Valid tcaMax rtmTcaPolicy as) :
    nlmsgParse msg = .ok {
      nlmsgType := BitVec.ofNat 16 (field msg 4 2)
      tcmIfindex := BitVec.ofNat 32 (field msg 20 4)
      tcmHandle := BitVec.ofNat 32 (field msg 24 4)
      tcmParent := BitVec.ofNat 32 (field msg 28 4)
      tca := table tcaMax as } := by
  unfold nlmsgParse
  rw [hlen, if_neg (by omega), List.take_length, nlaParse_of_attrs h hv]
  rfl

theorem nlaGetU32_bytes (x : U32) : nlaGetU32 (bytes 4 x.toNat) = x := by
  rw [nlaGetU32, List.take_of_length_le (by simp), value_bytes, ofNat_mod_pow (by omega)]

theorem nlaGetU64_bytes (x : U64) : nlaGetU64 (bytes 8 x.toNat) = x := by
  rw [nlaGetU64, List.take_of_length_le (by simp), value_bytes, ofNat_mod_pow (by omega)]

section Tbf
variable {k : TbfKernel} {opt : List Byte} {as : List Attr} {qopt : TcTbfQopt} {burst : List Byte}

/-- Only the link layer of a rate depends on its table. -/
theorem awareRate_rate (k : TbfKernel) (r : TcRatespec) (tab : Option (List Byte)) :
    (awareRate k r tab).rate = r.rate := by
  unfold awareRate qdiscGetRtab
  split
  · split
    · rfl
    · split_ifs <;> rfl
  · rfl

/-- **The rate that is decoded** from options without a peak rate and with a burst. -/
theorem tbfDecode_of_attrs (h : attrs opt = as) (hv : Valid tcaTbfMax tbfPolicy as)
    (hparms : table tcaTbfMax as tcaTbfParms = some qopt.toBytes) (hpeak : qopt.peakrate.rate = 0)
    (hburst : table tcaTbfMax as tcaTbfBurst = some burst)
    (hne : (nlaGetU32 burst).setWidth 64 ≠ (0 : U64)) :
    ∃ p, tbfDecode k opt = .ok p ∧ p.limit = qopt.limit ∧
      p.rate = pschedRatecfgPrecompute (awareRate k qopt.rate (table tcaTbfMax as tcaTbfRtab))
        (((table tcaTbfMax as tcaTbfRate64).map nlaGetU64).getD 0) := by
  have hp : ∀ rate maxSize mtu, tbfPeak k (table tcaTbfMax as)
      (awareQopt k (table tcaTbfMax as) qopt) rate maxSize mtu =
        .ok (maxSize, mtu, ⟨0, 0, 0, 0, 0⟩) := fun rate maxSize mtu => by
    rw [tbfPeak, if_neg]
    rw [awareQopt, awareRate_rate, hpeak]
    simp
  unfold tbfDecode
  rw [nlaParse_of_attrs h hv]
  simp only [bind, Except.bind, hparms, TcTbfQopt.ofBytes_toBytes, hburst, Option.map_some, hp]
  rw [if_neg hne]
  exact ⟨_, rfl, rfl, rfl⟩

/-- The rate that is installed is the one decoded. -/
theorem tbfChange_rate {q q' : TbfSchedData} {p : TbfParms} (hp : tbfDecode k opt = .ok p)
    (h : tbfChange k q opt = .ok q') : q'.rate = p.rate := by
  unfold tbfChange at h
  rw [hp] at h
  cases hc : tbfChild k p.limit q.qdisc with
  | error e => simp [bind, Except.bind, hc] at h
  | ok qdisc =>
    simp only [bind, Except.bind, hc] at h
    cases h
    rfl

end Tbf

theorem netemDecode_toBytes (qopt : TcNetemQopt) :
    netemDecode qopt.toBytes = .ok (qopt, fun _ => none) := by
  have hlen := qopt.length_toBytes
  have halign : align4 24 = 24 := rfl
  unfold netemDecode parseAttr
  rw [hlen, halign, if_neg (by omega), if_neg (by omega), TcNetemQopt.ofBytes_toBytes]
  rfl

/-- **Without attributes behind the record** only its fields count. -/
theorem netemChange_toBytes {ρ : Type} (k : NetemKernel ρ) (q : NetemSchedData ρ)
    (qopt : TcNetemQopt) :
    netemChange k q qopt.toBytes = .ok (netemQopt k qopt (k.randomLoss q.rest) q) := by
  unfold netemChange
  rw [netemDecode_toBytes]
  rfl

end DynBandwidth.Tbf.Kernel
