import DynBandwidth.Lib.Attributes
import DynBandwidth.Reorder.Header

/-! # The interface of the traffic control

The records and the types of attributes that the drivers and the kernel share, from the headers
`rtnetlink.h` and `pkt_sched.h`. A record is sent as the bytes of its fields, in their order; there
is no padding. Both sides read the same values from these bytes (`TcTbfQopt.ofBytes_toBytes`,
`TcNetemQopt.ofBytes_toBytes`). -/

namespace DynBandwidth.Tbf.Uapi

open DynBandwidth.Lib.Bytes
open DynBandwidth.Reorder.Header (U8 U16 U32)

/-! ### Types of attributes -/

def tcaKind : ℕ := 1
def tcaOptions : ℕ := 2
def tcaRate : ℕ := 5
def tcaStab : ℕ := 8
def tcaDumpInvisible : ℕ := 10
def tcaChain : ℕ := 11
def tcaIngressBlock : ℕ := 13
def tcaEgressBlock : ℕ := 14
def tcaMax : ℕ := 14

def tcaTbfParms : ℕ := 1
def tcaTbfRtab : ℕ := 2
def tcaTbfPtab : ℕ := 3
def tcaTbfRate64 : ℕ := 4
def tcaTbfPrate64 : ℕ := 5
def tcaTbfBurst : ℕ := 6
def tcaTbfPburst : ℕ := 7
def tcaTbfMax : ℕ := 8

def tcaNetemCorr : ℕ := 1
def tcaNetemDelayDist : ℕ := 2
def tcaNetemReorder : ℕ := 3
def tcaNetemCorrupt : ℕ := 4
def tcaNetemLoss : ℕ := 5
def tcaNetemRate : ℕ := 6
def tcaNetemEcn : ℕ := 7
def tcaNetemRate64 : ℕ := 8
def tcaNetemLatency64 : ℕ := 10
def tcaNetemJitter64 : ℕ := 11
def tcaNetemSlot : ℕ := 12
def tcaNetemSlotDist : ℕ := 13
def tcaNetemMax : ℕ := 13

/-! ### Records -/

structure TcRatespec where
  cellLog : U8
  linklayer : U8
  overhead : U16
  cellAlign : U16
  mpu : U16
  rate : U32
  deriving DecidableEq, Repr

structure TcTbfQopt where
  rate : TcRatespec
  peakrate : TcRatespec
  limit : U32
  buffer : U32
  mtu : U32
  deriving DecidableEq, Repr

structure TcNetemQopt where
  latency : U32
  limit : U32
  loss : U32
  gap : U32
  duplicate : U32
  jitter : U32
  deriving DecidableEq, Repr

/-- The widths of the fields of a `struct tc_ratespec`. -/
def ratespecWidths : List ℕ := [1, 1, 2, 2, 2, 4]

def TcRatespec.fields (r : TcRatespec) : List (ℕ × ℕ) :=
  [(1, r.cellLog.toNat), (1, r.linklayer.toNat), (2, r.overhead.toNat), (2, r.cellAlign.toNat),
    (2, r.mpu.toNat), (4, r.rate.toNat)]

def TcRatespec.ofFields (f : List ℕ) : TcRatespec where
  cellLog := BitVec.ofNat 8 (f.getD 0 0)
  linklayer := BitVec.ofNat 8 (f.getD 1 0)
  overhead := BitVec.ofNat 16 (f.getD 2 0)
  cellAlign := BitVec.ofNat 16 (f.getD 3 0)
  mpu := BitVec.ofNat 16 (f.getD 4 0)
  rate := BitVec.ofNat 32 (f.getD 5 0)

def TcTbfQopt.fields (o : TcTbfQopt) : List (ℕ × ℕ) :=
  o.rate.fields ++ o.peakrate.fields ++
    [(4, o.limit.toNat), (4, o.buffer.toNat), (4, o.mtu.toNat)]

def TcTbfQopt.toBytes (o : TcTbfQopt) : List Byte := pack o.fields

def TcTbfQopt.ofBytes (bs : List Byte) : TcTbfQopt :=
  let f := unpack (ratespecWidths ++ ratespecWidths ++ [4, 4, 4]) bs
  { rate := .ofFields f
    peakrate := .ofFields (f.drop 6)
    limit := BitVec.ofNat 32 (f.getD 12 0)
    buffer := BitVec.ofNat 32 (f.getD 13 0)
    mtu := BitVec.ofNat 32 (f.getD 14 0) }

def TcNetemQopt.fields (o : TcNetemQopt) : List (ℕ × ℕ) :=
  [(4, o.latency.toNat), (4, o.limit.toNat), (4, o.loss.toNat), (4, o.gap.toNat),
    (4, o.duplicate.toNat), (4, o.jitter.toNat)]

def TcNetemQopt.toBytes (o : TcNetemQopt) : List Byte := pack o.fields

def TcNetemQopt.ofBytes (bs : List Byte) : TcNetemQopt :=
  let f := unpack [4, 4, 4, 4, 4, 4] bs
  { latency := BitVec.ofNat 32 (f.getD 0 0)
    limit := BitVec.ofNat 32 (f.getD 1 0)
    loss := BitVec.ofNat 32 (f.getD 2 0)
    gap := BitVec.ofNat 32 (f.getD 3 0)
    duplicate := BitVec.ofNat 32 (f.getD 4 0)
    jitter := BitVec.ofNat 32 (f.getD 5 0) }

/-! ### Round trips -/

theorem TcTbfQopt.length_toBytes (o : TcTbfQopt) : o.toBytes.length = 36 := by
  simp [toBytes, length_pack, fields, TcRatespec.fields]

theorem TcNetemQopt.length_toBytes (o : TcNetemQopt) : o.toBytes.length = 24 := by
  simp [toBytes, length_pack, fields]

/-- **The options of a token bucket are read back.** -/
theorem TcTbfQopt.ofBytes_toBytes (o : TcTbfQopt) : ofBytes o.toBytes = o := by
  have hf := unpack_pack o.fields []
  rw [List.append_nil] at hf
  have hw : ratespecWidths ++ ratespecWidths ++ [4, 4, 4] = o.fields.map Prod.fst := rfl
  unfold ofBytes toBytes
  rw [hw, hf]
  simp only [fields, TcRatespec.fields, TcRatespec.ofFields, List.map_cons, List.map_nil,
    List.cons_append, List.nil_append, List.getD_cons_zero, List.getD_cons_succ,
    List.drop_succ_cons, List.drop_zero]
  simp (disch := omega) only [ofNat_mod_pow]

/-- **The options of the emulator are read back.** -/
theorem TcNetemQopt.ofBytes_toBytes (o : TcNetemQopt) : ofBytes o.toBytes = o := by
  have hf := unpack_pack o.fields []
  rw [List.append_nil] at hf
  have hw : [4, 4, 4, 4, 4, 4] = o.fields.map Prod.fst := rfl
  unfold ofBytes toBytes
  rw [hw, hf]
  simp only [fields, List.map_cons, List.map_nil, List.getD_cons_zero, List.getD_cons_succ]
  simp (disch := omega) only [ofNat_mod_pow]

end DynBandwidth.Tbf.Uapi
