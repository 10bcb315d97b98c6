import DynBandwidth.Tbf.Uapi

/-! # Rate tables

The functions of `tc_core.c` that the drivers call. Times are converted through `double`; the two
conversions are parameters (`Clock`), and everything around them is as in the source.

The table has the 1024 bytes that the attribute takes (`length_rtabBytes`), and only the fields of
the rate that say how the table was computed are changed (`tcCalcRtable_spec`). -/

namespace DynBandwidth.Tbf.TcCore

open DynBandwidth.Lib.Bytes DynBandwidth.Tbf.Uapi
open DynBandwidth.Reorder.Header (U8 U32 U64)

/-- The conversions through `double`: `tc_core_time2tick`, and the microseconds that a packet of a
size takes at a rate. -/
structure Clock where
  time2tick : U32 → U32
  usec : U64 → U32 → U32

inductive LinkLayer
  | unspec
  | ethernet
  | atm
  deriving DecidableEq, Repr

def LinkLayer.code : LinkLayer → U8
  | .unspec => 0
  | .ethernet => 1
  | .atm => 2

def tcCalcXmittime (c : Clock) (rate : U64) (size : U32) : U32 := c.time2tick (c.usec rate size)

/-- Whole cells of 48 bytes of payload, 53 bytes each. -/
def tcAlignToAtm (size : U32) : U32 :=
  (size / 48 + if 0 < size % 48 then 1 else 0) * 53

def tcAdjustSize (sz mpu : U32) (linklayer : LinkLayer) : U32 :=
  let sz := if sz < mpu then mpu else sz
  match linklayer with
  | .atm => tcAlignToAtm sz
  | _ => sz

/-- The loop that shifts `mtu` until it fits in a byte, which takes at most 24 rounds. -/
def cellLogOf (mtu : U32) : ℕ → ℕ → ℕ
  | 0, cellLog => cellLog
  | n + 1, cellLog => if 255 < mtu >>> cellLog then cellLogOf mtu n (cellLog + 1) else cellLog

/-- `tc_calc_rtable`: the rate, the table and the result. -/
def tcCalcRtable (c : Clock) (r : TcRatespec) (cellLog : ℤ) (mtu : U32) (linklayer : LinkLayer) :
    TcRatespec × List U32 × ℤ :=
  let mtu := if mtu = 0 then 2047 else mtu
  let cellLog : ℤ := if cellLog < 0 then cellLogOf mtu 24 0 else cellLog
  let rtab := (List.range 256).map fun i =>
    let sz := tcAdjustSize (BitVec.ofNat 32 (i + 1) <<< cellLog.toNat) (r.mpu.setWidth 32) linklayer
    tcCalcXmittime c (r.rate.setWidth 64) sz
  ({ r with
      cellAlign := -1
      cellLog := BitVec.ofInt 8 cellLog
      linklayer := linklayer.code &&& 0x0F },
    rtab, cellLog)

/-- A table as it is copied into an attribute. -/
def rtabBytes (rtab : List U32) : List Byte := rtab.flatMap fun x => bytes 4 x.toNat

section Rtable
variable (c : Clock) (r : TcRatespec) (cellLog : ℤ) (mtu : U32) (linklayer : LinkLayer)

theorem length_rtabBytes :
    (rtabBytes (tcCalcRtable c r cellLog mtu linklayer).2.1).length = 1024 := by
  have hlen : ∀ rtab : List U32, (rtabBytes rtab).length = rtab.length * 4 := fun rtab => by
    simp [rtabBytes, List.length_flatMap]
  rw [hlen]
  simp [tcCalcRtable]

/-- The computation does not fail, and the rate is the same. -/
theorem tcCalcRtable_spec : 0 ≤ (tcCalcRtable c r cellLog mtu linklayer).2.2 ∧
    (tcCalcRtable c r cellLog mtu linklayer).1.rate = r.rate := by
  refine ⟨?_, rfl⟩
  unfold tcCalcRtable
  simp only
  split_ifs
  · exact Int.natCast_nonneg _
  · exact Int.natCast_nonneg _
  · omega

end Rtable

end DynBandwidth.Tbf.TcCore
