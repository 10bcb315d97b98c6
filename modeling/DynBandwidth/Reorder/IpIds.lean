import DynBandwidth.Reorder.Flows

/-! # `ip_reordercounter.c`

The counter by IP identification: `expected_next` follows the 16-bit identification of the packets
of a flow, in a 32-bit variable, and a packet after it adds the distance, cut to a signed 16-bit
number, to the 64-bit count. A run of identifications on one flow is counted wrong in two respects.

* Increasing identifications. `rc_handle_packet` creates the flow buffer with `expected_next` one
  above the first identification, and then handles the first packet on it, which moves
  `expected_next` one further. Either it stays there, or the first identification left out brings it
  back and is counted short by one, and from then on the count has the wrong parity (`OneOff`). What
  is left out is moreover subtracted: the difference `expected_next - ipid` is negative.
* Identifications shifted by an offset. The differences are taken in 32 bits and `expected_next` is
  never reduced, so that the count is that of the shifted identifications exactly if the shift takes
  all of them past `2 ^ 16`, or none (`sameCount_iff`). -/

namespace DynBandwidth.Reorder.IpIds

open DynBandwidth.Lib.Serial DynBandwidth.Lib.RbTree DynBandwidth.Lib.Runs
open DynBandwidth.Reorder.Header DynBandwidth.Reorder.Flows

/-! ### The functions of the file -/

/-- The identification in the 32-bit expressions of the program. -/
def ident (p : Packet) : U32 := p.ipid.setWidth 32

/-- `(__s16)(expected_next - ipid)`, added to a `uint64_t`. -/
def skipped (expectedNext ipid : U32) : U64 := ((expectedNext - ipid).setWidth 16).signExtend 64

/-- `rc_handle_packet` on the flow buffer of the packet. -/
def countSkipped (fbuf : RcFlowbuf) (p : Packet) : Option (RcFlowbuf × Effect) :=
  if before (ident p) fbuf.expectedNext || ident p == fbuf.expectedNext then
    some ({ fbuf with expectedNext := fbuf.expectedNext + 1 }, ⟨0, []⟩)
  else
    some ({ fbuf with expectedNext := ident p + 1 }, ⟨skipped fbuf.expectedNext (ident p), []⟩)

/-- The buffer is not used; `calloc` leaves the root of the tree `NULL`. -/
def handler : Handler := ⟨fun p => ⟨0, ident p + 1, .nil⟩, countSkipped⟩

/-- **`rc_handle_packet`.** -/
def rcHandlePacket : Rc → Packet → Option Rc := handler.rcHandlePacket

/-- No packet faults, and the buffer stays empty. -/
theorem keeps_plain : handler.Keeps fun f => f.size = 0 ∧ f.root = .nil where
  fresh _ := ⟨rfl, rfl⟩
  step f p hf := by
    show ∃ f' e, countSkipped f p = some (f', e) ∧ _
    unfold countSkipped
    split_ifs
    · exact ⟨_, _, rfl, hf⟩
    · exact ⟨_, _, rfl, hf⟩

/-! ### One packet -/

theorem toNat_ident (p : Packet) : (ident p).toNat = p.ipid.toNat := by
  have := p.ipid.isLt
  rw [ident, BitVec.toNat_setWidth]; omega

theorem toNat_skipped (e n : U32) :
    ((skipped e n).toNat : ℤ) % 65536 = ((e.toNat : ℤ) - n.toNat) % 65536 := by
  have h : (skipped e n).toInt = ((e - n).setWidth 16).toInt :=
    BitVec.toInt_signExtend_of_le (by decide)
  rw [BitVec.toInt_eq_toNat_cond, BitVec.toInt_eq_toNat_cond, BitVec.toNat_setWidth,
    BitVec.toNat_sub] at h
  have := e.isLt
  have := n.isLt
  split_ifs at h <;> omega

/-- At or before `expected_next`. -/
theorem countSkipped_of_le {f : RcFlowbuf} {p : Packet} (hf : f.expectedNext.toNat < 2147483648)
    (h : p.ipid.toNat ≤ f.expectedNext.toNat) :
    countSkipped f p = some ({ f with expectedNext := f.expectedNext + 1 }, ⟨0, []⟩) := by
  have hp := toNat_ident p
  have hd := sdist_eq_sub (a := ident p) (b := f.expectedNext) (by omega) hf
  rw [countSkipped, if_pos (le_iff_sdist.mpr (by omega))]

/-- After `expected_next`. -/
theorem countSkipped_of_gt {f : RcFlowbuf} {p : Packet} (h : f.expectedNext.toNat < p.ipid.toNat) :
    countSkipped f p = some ({ f with expectedNext := ident p + 1 },
      ⟨skipped f.expectedNext (ident p), []⟩) := by
  have hp := toNat_ident p
  have := p.ipid.isLt
  have hd := sdist_eq_sub (a := ident p) (b := f.expectedNext) (by omega) (by omega)
  rw [countSkipped, if_neg]
  rw [le_iff_sdist]
  omega

theorem toNat_add_one {a : U32} (h : a.toNat < 2147483648) : (a + 1).toNat = a.toNat + 1 := by
  have h1 : (1 : U32).toNat = 1 := rfl
  rw [BitVec.toNat_add, h1]
  omega

theorem toNat_ident_add_one (p : Packet) : (ident p + 1).toNat = p.ipid.toNat + 1 := by
  have hp := toNat_ident p
  have := p.ipid.isLt
  rw [toNat_add_one (by omega), hp]

theorem toNat_ident_add_two (p : Packet) : (ident p + 1 + 1).toNat = p.ipid.toNat + 2 := by
  have h1 := toNat_ident_add_one p
  have := p.ipid.isLt
  rw [toNat_add_one (by omega), h1]

/-- The first packet of a flow is at or before the `expected_next` made for it. -/
theorem flowStep_first (p : Packet) : handler.flowStep ⟨none, 0, []⟩ p =
    some ⟨some ⟨0, ident p + 1 + 1, .nil⟩, 0, []⟩ := by
  have h1 := toNat_ident_add_one p
  have := p.ipid.isLt
  have hh : handler.handle ⟨0, ident p + 1, .nil⟩ p = some (⟨0, ident p + 1 + 1, .nil⟩, ⟨0, []⟩) :=
    countSkipped_of_le (by dsimp only; omega) (by dsimp only; omega)
  exact @flowStep_of_handle handler ⟨none, 0, []⟩ p _ _ hh

/-- **A flow that is new** ends as it does alone, and the counter grows by what it counts. -/
theorem run_fresh {h : List Packet} {rc : Rc} (hr : run rcHandlePacket Rc.init h = some rc)
    {s d : U16} (hnew : rc.flow s d = none) {tr : List Packet}
    (htr : ∀ p ∈ tr, p.sport = s ∧ p.dport = d) {st : FlowState}
    (hst : run handler.flowStep ⟨none, 0, []⟩ tr = some st) :
    ∃ rc', run rcHandlePacket rc tr = some rc' ∧ rc'.flow s d = st.buf ∧
      rc'.reorderCount = rc.reorderCount + st.counted := by
  obtain ⟨rc', hrc', -, hbuf, -, hcount, -⟩ :=
    run_single handler (keeps_plain.of_run hr).1 htr hnew hst
  exact ⟨rc', hrc', hbuf, by simpa using hcount⟩

/-! ### Increasing identifications -/

/-- The identification of the last packet. -/
def lastId (p : Packet) (ps : List Packet) : ℕ :=
  ((p :: ps).getLast (List.cons_ne_nil p ps)).ipid.toNat

/-- The count grows by the number of identifications between the first and the last that did not
arrive, without going down, and `expected_next` is one above the last. -/
def CountsLeftOut (rc : Rc) (s d : U16) (p : Packet) (ps : List Packet) : Prop :=
  ∃ rc' f, run rcHandlePacket rc (p :: ps) = some rc' ∧ rc'.flow s d = some f ∧
    rc'.reorderCount =
      rc.reorderCount + BitVec.ofNat 64 (lastId p ps - p.ipid.toNat - ps.length) ∧
    f.expectedNext = BitVec.ofNat 32 (lastId p ps + 1) ∧
    AllRounds rcHandlePacket (fun rc _ rc' => rc.reorderCount ≤ rc'.reorderCount) rc (p :: ps)

/-- After `n₀` and `i` larger identifications, the last of them `n`: either none was left out and
`expected_next` is one too far, or the count has the wrong parity. -/
def OneOff (n₀ i n : ℕ) (st : FlowState) : Prop :=
  ∃ f, st.buf = some f ∧ n₀ + i ≤ n ∧
    (f.expectedNext.toNat = n + 2 ∧ st.counted = 0 ∧ n = n₀ + i ∨
      f.expectedNext.toNat = n + 1 ∧ (st.counted.toNat + (n - n₀ - i)) % 2 = 1)

theorem oneOff_first (p : Packet) : ∃ st, handler.flowStep ⟨none, 0, []⟩ p = some st ∧
    OneOff p.ipid.toNat 0 p.ipid.toNat st :=
  ⟨_, flowStep_first p, _, rfl, le_rfl, Or.inl ⟨toNat_ident_add_two p, rfl, rfl⟩⟩

theorem OneOff.step {n₀ i n : ℕ} {st : FlowState} (h : OneOff n₀ i n st) {p : Packet}
    (hn : n < p.ipid.toNat) : ∃ st', handler.flowStep st p = some st' ∧
      OneOff n₀ (i + 1) p.ipid.toNat st' := by
  obtain ⟨buf, c, l⟩ := st
  obtain ⟨f, rfl, hi, h⟩ := h
  dsimp only at h
  have hp := toNat_ident p
  have hlt := p.ipid.isLt
  have hE : f.expectedNext.toNat < 65538 := by omega
  by_cases hle : p.ipid.toNat ≤ f.expectedNext.toNat
  · refine ⟨_, flowStep_buf handler (countSkipped_of_le (by omega) hle) c l, _, rfl, by omega, ?_⟩
    have h1 := toNat_add_one (a := f.expectedNext) (by omega)
    dsimp only
    rw [h1, add_zero]
    rcases h with ⟨hn2, rfl, rfl⟩ | ⟨hn1, hc⟩
    · -- the next identification keeps `expected_next` too far, the one after it is not counted
      rcases Nat.lt_or_ge (n₀ + i + 1) p.ipid.toNat with hskip | hnext
      · exact Or.inr ⟨by omega, by simp; omega⟩
      · exact Or.inl ⟨by omega, rfl, by omega⟩
    · exact Or.inr ⟨by omega, by omega⟩
  · refine ⟨_, flowStep_buf handler (countSkipped_of_gt (by omega)) c l, _, rfl, by omega,
      Or.inr ⟨?_, ?_⟩⟩
    · exact toNat_ident_add_one p
    · have hs := toNat_skipped f.expectedNext (ident p)
      dsimp only
      rw [BitVec.toNat_add]
      rcases h with ⟨hn2, rfl, rfl⟩ | ⟨hn1, hc⟩
      · simp only [BitVec.ofNat_eq_ofNat, BitVec.toNat_ofNat]
        omega
      · omega

theorem OneOff.last {n₀ : ℕ} : ∀ {ps : List Packet} {p : Packet} {i : ℕ} {st : FlowState},
    OneOff n₀ i p.ipid.toNat st → (p :: ps).Pairwise (fun q q' => q.ipid < q'.ipid) →
    ∃ st', run handler.flowStep st ps = some st' ∧
      OneOff n₀ (i + ps.length) (lastId p ps) st'
  | [], p, i, st, h, _ => ⟨st, rfl, h⟩
  | q :: ps, p, i, st, h, hids => by
    rw [List.pairwise_cons] at hids
    obtain ⟨st1, h1, hoff⟩ := h.step (BitVec.lt_def.mp (hids.1 q (by simp)))
    obtain ⟨st', h', hoff'⟩ := hoff.last hids.2
    have hi : i + (q :: ps).length = i + 1 + ps.length := by rw [List.length_cons]; omega
    rw [hi]
    exact ⟨st', run_of_step h1 h', hoff'⟩

/-- **The identifications left out are never counted right**: whatever increasing identifications
arrive on a new flow, `expected_next` or the count is wrong at the end. -/
theorem not_countsLeftOut {h : List Packet} {rc : Rc}
    (hr : run rcHandlePacket Rc.init h = some rc) {s d : U16} (hnew : rc.flow s d = none)
    {p : Packet} {ps : List Packet} (hflow : ∀ q ∈ p :: ps, q.sport = s ∧ q.dport = d)
    (hids : (p :: ps).Pairwise fun q q' => q.ipid < q'.ipid) : ¬ CountsLeftOut rc s d p ps := by
  rintro ⟨rc1, f, hrun, hf, hcount, hexp, -⟩
  obtain ⟨st1, h1, hfirst⟩ := oneOff_first p
  obtain ⟨st, hst, f', hf', hle, hoff⟩ := hfirst.last hids
  obtain ⟨rc', hrc', hbuf, hcount'⟩ := run_fresh hr hnew hflow (run_of_step h1 hst)
  rw [hrun] at hrc'
  cases hrc'
  rw [hf, hf', Option.some.injEq] at hbuf
  subst hbuf
  have hc : st.counted = BitVec.ofNat 64 (lastId p ps - p.ipid.toNat - ps.length) :=
    add_left_cancel (hcount'.symm.trans hcount)
  have hlast : lastId p ps < 65536 := ((p :: ps).getLast _).ipid.isLt
  rw [hexp, hc, BitVec.toNat_ofNat, BitVec.toNat_ofNat] at hoff
  omega

/-- A packet of the flow from port 7 to port 9. -/
def packet (ipid : U16) : Packet := ⟨7, 9, 0, 0, 0, ipid⟩

/-- Another flow is known, and of the identifications 1 to 4 the third one is left out. -/
theorem not_countsLeftOut_gap : ∃ rc, run rcHandlePacket Rc.init [⟨8, 9, 0, 0, 0, 70⟩] = some rc ∧
    ¬ CountsLeftOut rc 7 9 (packet 1) [packet 2, packet 4] :=
  ⟨_, rfl, not_countsLeftOut (h := [⟨8, 9, 0, 0, 0, 70⟩]) rfl rfl (by decide) (by decide)⟩

/-- Of the identifications 0 and 5 on a new flow, with four between them, the count becomes
`2 ^ 64 - 3`. -/
theorem leftOut_subtracted : ∃ rc, run rcHandlePacket Rc.init [packet 0, packet 5] = some rc ∧
    rc.reorderCount = 18446744073709551613 ∧ ¬ CountsLeftOut Rc.init 7 9 (packet 0) [packet 5] := by
  obtain ⟨rc, hrc⟩ : ∃ rc, run rcHandlePacket Rc.init [packet 0, packet 5] = some rc := ⟨_, rfl⟩
  have hcount : rc.reorderCount = 18446744073709551613 := by
    have := hrc
    cases this
    rfl
  refine ⟨rc, hrc, hcount, ?_⟩
  rintro ⟨rc', f, hrun, -, hc, -⟩
  rw [hrc] at hrun
  cases hrun
  rw [hcount] at hc
  exact absurd hc (by decide)

/-! ### Shifted identifications -/

/-- The identification, `k` further. -/
def shiftId (k : U16) (p : Packet) : Packet := { p with ipid := p.ipid + k }

/-- Both traces end, with the same count. -/
def SameCount (rc : Rc) (tr tr' : List Packet) : Prop :=
  ∃ r r', run rcHandlePacket rc tr = some r ∧ run rcHandlePacket rc tr' = some r' ∧
    r'.reorderCount = r.reorderCount

/-- The flow buffer with `expected_next` further by `c`. -/
def shiftBuf (c : U32) (f : RcFlowbuf) : RcFlowbuf :=
  { f with expectedNext := f.expectedNext + c }

/-- The flow counts the same with every identification further by `c`. -/
def Shifted (c : U32) (st st' : FlowState) : Prop :=
  st'.buf = st.buf.map (shiftBuf c) ∧ st'.counted = st.counted

theorem sdist_add_right (a b c : U32) : sdist (a + c) (b + c) = sdist a b := by
  unfold sdist
  rw [add_sub_add_right_eq_sub]

/-- Both sides of all comparisons and differences move by `c`. -/
theorem countSkipped_shift {c : U32} {f f' : RcFlowbuf} {p p' : Packet} {e : Effect}
    (hp : ident p' = ident p + c) (h : countSkipped f p = some (f', e)) :
    countSkipped (shiftBuf c f) p' = some (shiftBuf c f', e) := by
  have hskip : skipped (f.expectedNext + c) (ident p + c) = skipped f.expectedNext (ident p) := by
    unfold skipped
    rw [add_sub_add_right_eq_sub]
  have hcond : (before (ident p + c) (f.expectedNext + c) || ident p + c == f.expectedNext + c) =
      (before (ident p) f.expectedNext || ident p == f.expectedNext) := by
    rw [Bool.eq_iff_iff, le_iff_sdist, le_iff_sdist, sdist_add_right]
  have hcomm (a : U32) : a + c + 1 = a + 1 + c := by ring
  unfold countSkipped shiftBuf at *
  dsimp only
  rw [hp, hcond, hskip, hcomm, hcomm]
  split_ifs at h ⊢
  · cases h; rfl
  · cases h; rfl

theorem Shifted.step {c : U32} {st st1 st' : FlowState} (h : Shifted c st st') {p p' : Packet}
    (hp : ident p' = ident p + c) (hs : handler.flowStep st p = some st1) :
    ∃ st1', handler.flowStep st' p' = some st1' ∧ Shifted c st1 st1' := by
  obtain ⟨f, e, hh, rfl⟩ := flowStep_some handler hs
  have hget : st'.buf.getD (handler.fresh p') = shiftBuf c (st.buf.getD (handler.fresh p)) := by
    rw [h.1]
    cases st.buf with
    | none =>
      show (⟨0, ident p' + 1, .nil⟩ : RcFlowbuf) = ⟨0, ident p + 1 + c, .nil⟩
      rw [hp, add_right_comm]
    | some f => rfl
  have hh' : handler.handle (st'.buf.getD (handler.fresh p')) p' = some (shiftBuf c f, e) := by
    rw [hget]
    exact countSkipped_shift hp hh
  refine ⟨_, flowStep_of_handle handler hh', rfl, ?_⟩
  dsimp only
  rw [h.2]

/-- **A shift in 32 bits changes nothing.** -/
theorem counted_shift {c : U32} {k : U16} {tr : List Packet}
    (hc : ∀ p ∈ tr, ident (shiftId k p) = ident p + c) {st st' : FlowState}
    (hr : run handler.flowStep ⟨none, 0, []⟩ tr = some st)
    (hr' : run handler.flowStep ⟨none, 0, []⟩ (tr.map (shiftId k)) = some st') :
    st'.counted = st.counted := by
  obtain ⟨st1, h1, hsh⟩ := run_simulates (R := Shifted c) (g := shiftId k)
    (fun p hp s s' t hR hs => hR.step (hc p hp) hs) ⟨rfl, rfl⟩ hr
  rw [hr'] at h1
  cases h1
  exact hsh.2

/-- No identification past `2 ^ 16`. -/
theorem ident_shiftId {k : U16} {p : Packet} (h : p.ipid.toNat + k.toNat < 65536) :
    ident (shiftId k p) = ident p + k.setWidth 32 := by
  refine BitVec.eq_of_toNat_eq ?_
  rw [toNat_ident, BitVec.toNat_add, toNat_ident, BitVec.toNat_setWidth, shiftId,
    BitVec.toNat_add]
  omega

/-- All identifications past `2 ^ 16`. -/
theorem ident_shiftId_past {k : U16} {p : Packet} (h : 65536 ≤ p.ipid.toNat + k.toNat) :
    ident (shiftId k p) = ident p + (k.setWidth 32 - 65536) := by
  refine BitVec.eq_of_toNat_eq ?_
  have hk := k.isLt
  have hp := p.ipid.isLt
  have hc : (65536 : U32).toNat = 65536 := rfl
  rw [toNat_ident, BitVec.toNat_add, toNat_ident, BitVec.toNat_sub, BitVec.toNat_setWidth, shiftId,
    BitVec.toNat_add, hc]
  omega

/-- Two packets count something exactly if the second identification is more than two above the
first. -/
theorem counted_pair (p q : Packet) : ∃ st,
    run handler.flowStep ⟨none, 0, []⟩ [p, q] = some st ∧
      (st.counted = 0 ↔ q.ipid.toNat ≤ p.ipid.toNat + 2) := by
  have h2 := toNat_ident_add_two p
  have hq := toNat_ident q
  have := p.ipid.isLt
  have := q.ipid.isLt
  rcases Nat.lt_or_ge (p.ipid.toNat + 2) q.ipid.toNat with hgt | hle
  · have hh : handler.handle ⟨0, ident p + 1 + 1, .nil⟩ q = _ :=
      countSkipped_of_gt (by dsimp only; omega)
    refine ⟨_, run_of_step (flowStep_first p) (run_of_step (flowStep_buf handler hh 0 []) rfl), ?_⟩
    have hs := toNat_skipped (ident p + 1 + 1) (ident q)
    dsimp only
    rw [zero_add]
    refine ⟨fun h0 => ?_, fun h => absurd h (by omega)⟩
    rw [h0, h2, hq] at hs
    have hz : (0 : U64).toNat = 0 := rfl
    omega
  · have hh : handler.handle ⟨0, ident p + 1 + 1, .nil⟩ q = _ :=
      countSkipped_of_le (by dsimp only; omega) (by dsimp only; omega)
    exact ⟨_, run_of_step (flowStep_first p) (run_of_step (flowStep_buf handler hh 0 []) rfl),
      iff_of_true rfl hle⟩

theorem sameCount_iff_counted {h : List Packet} {rc : Rc}
    (hr : run rcHandlePacket Rc.init h = some rc) {s d : U16} (hnew : rc.flow s d = none)
    {k : U16} {tr : List Packet} (htr : ∀ p ∈ tr, p.sport = s ∧ p.dport = d) {st st' : FlowState}
    (hst : run handler.flowStep ⟨none, 0, []⟩ tr = some st)
    (hst' : run handler.flowStep ⟨none, 0, []⟩ (tr.map (shiftId k)) = some st') :
    SameCount rc tr (tr.map (shiftId k)) ↔ st'.counted = st.counted := by
  have htr' : ∀ p ∈ tr.map (shiftId k), p.sport = s ∧ p.dport = d := by
    simpa [shiftId] using htr
  obtain ⟨r, hrun, -, hc⟩ := run_fresh hr hnew htr hst
  obtain ⟨r', hrun', -, hc'⟩ := run_fresh hr hnew htr' hst'
  constructor
  · rintro ⟨r1, r1', h1, h1', heq⟩
    rw [hrun] at h1
    rw [hrun'] at h1'
    cases h1
    cases h1'
    rw [hc, hc'] at heq
    exact add_left_cancel heq
  · intro heq
    exact ⟨r, r', hrun, hrun', by rw [hc, hc', heq]⟩

/-- **Where the count does not depend on the start of the identifications**: the traces over a set
of identifications count the same after a shift exactly if the shift takes all of them past
`2 ^ 16`, or none. -/
theorem sameCount_iff {h : List Packet} {rc : Rc} (hr : run rcHandlePacket Rc.init h = some rc)
    {s d : U16} (hnew : rc.flow s d = none) (ids : Set U16) (k : U16) :
    (∀ tr : List Packet, (∀ p ∈ tr, (p.sport = s ∧ p.dport = d) ∧ p.ipid ∈ ids) →
      SameCount rc tr (tr.map (shiftId k))) ↔
    (∀ x ∈ ids, x.toNat + k.toNat < 65536) ∨ ∀ x ∈ ids, 65536 ≤ x.toNat + k.toNat := by
  constructor
  · intro hall
    by_contra hsplit
    push Not at hsplit
    obtain ⟨⟨y, hy, hyk⟩, x, hx, hxk⟩ := hsplit
    have hpair : ∀ a ∈ ids, ∀ b ∈ ids,
        (b.toNat ≤ a.toNat + 2 ↔ (b + k).toNat ≤ (a + k).toNat + 2) := by
      intro a ha b hb
      obtain ⟨st, hst, h0⟩ := counted_pair ⟨s, d, 0, 0, 0, a⟩ ⟨s, d, 0, 0, 0, b⟩
      obtain ⟨st', hst', h0'⟩ := counted_pair ⟨s, d, 0, 0, 0, a + k⟩ ⟨s, d, 0, 0, 0, b + k⟩
      have hsame := (sameCount_iff_counted hr hnew (by simp) hst hst').mp
        (hall [⟨s, d, 0, 0, 0, a⟩, ⟨s, d, 0, 0, 0, b⟩] (by simp [ha, hb]))
      rw [← h0, ← h0', hsame]
    have h1 := hpair x hx y hy
    have h2 := hpair y hy x hx
    rw [BitVec.toNat_add, BitVec.toNat_add] at h1 h2
    have := y.isLt
    have := k.isLt
    omega
  · intro h tr htr
    obtain ⟨c, hc⟩ : ∃ c : U32, ∀ p ∈ tr, ident (shiftId k p) = ident p + c := by
      rcases h with hno | hpast
      · exact ⟨k.setWidth 32, fun p hp => ident_shiftId (hno _ (htr p hp).2)⟩
      · exact ⟨k.setWidth 32 - 65536, fun p hp => ident_shiftId_past (hpast _ (htr p hp).2)⟩
    obtain ⟨st, hst, -⟩ := keeps_plain.run_flow tr ⟨none, 0, []⟩ (by simp)
    obtain ⟨st', hst', -⟩ := keeps_plain.run_flow (tr.map (shiftId k)) ⟨none, 0, []⟩ (by simp)
    exact (sameCount_iff_counted hr hnew (fun p hp => (htr p hp).1) hst hst').mpr
      (counted_shift hc hst hst')

theorem sameCount_iff_one : SameCount Rc.init [packet 5, packet 9] [packet 6, packet 10] :=
  (sameCount_iff (h := []) rfl (flow_init 7 9) {5, 9} 1).mpr
    (Or.inl (by simp)) [packet 5, packet 9] (by decide)

/-- The identifications 65530 and 5, counted from 0: nothing becomes `2 ^ 64 - 9`. -/
theorem shifted_counts_differ : ¬ SameCount Rc.init [packet 65530, packet 5]
    ([packet 65530, packet 5].map (shiftId 6)) := by
  rintro ⟨r, r', hr, hr', h⟩
  cases hr
  cases hr'
  exact absurd h (by decide)

end DynBandwidth.Reorder.IpIds
