import DynBandwidth.Tbf.Talk

/-! # What the kernel does with a request

`tc_modify_qdisc` of `sch_api.c` finds out what a request is about: the parameters of a discipline
are changed, a new discipline is created, or one that exists is put at another place. Which of these
depends on the parent, the handle, the kind and the flags of the request, and on the disciplines of
the device.

Without the flags `NLM_F_CREATE` and `NLM_F_REPLACE` nothing is created, and a discipline is only
put where there was none (`modify_spec`). -/

namespace DynBandwidth.Tbf.Modify

open DynBandwidth.Lib.Bytes DynBandwidth.Tbf.Uapi DynBandwidth.Tbf.Kernel DynBandwidth.Tbf.Talk
open DynBandwidth.Reorder.Header (U16 U32)

def enoent : ℤ := 2
def eexist : ℤ := 17
def enodev : ℤ := 19
def eloop : ℤ := 40
def eopnotsupp : ℤ := 95

def nlmFReplace : U16 := 0x100
def nlmFExcl : U16 := 0x200
def nlmFCreate : U16 := 0x400

def tcHRoot : U32 := 0xFFFFFFFF
def tcHIngress : U32 := 0xFFFFFFF1

/-- `TC_H_MAJ`, `TC_H_MIN`. -/
def tcHMaj (h : U32) : U32 := h &&& 0xFFFF0000
def tcHMin (h : U32) : U32 := h &&& 0x0000FFFF

/-- The disciplines of a device, as the lookups see them: the one at the root, the one at the
ingress, `qdisc_lookup`, `qdisc_leaf` and `check_loop`. -/
structure Tree (ν : Type) where
  root : ν
  ingress : Option ν
  lookup : U32 → Option ν
  leaf : ν → U32 → Option ν
  checkLoop : ν → ν → Bool
  handle : ν → U32
  kind : ν → List Byte

/-- What is to be done: the parameters of a discipline are changed, one is created, or one is put at
another place. -/
inductive Decision (ν : Type)
  | change (q : ν)
  | create (p : Option ν)
  | graft (q : ν) (p : Option ν)
  deriving DecidableEq, Repr

section Modify
variable {ν : Type} [DecidableEq ν] (t : Tree ν) (flags : U16) (req : TcRequest)

/-- The request names a kind, and it is another one. -/
def otherKind (q : ν) : Bool :=
  match req.tca tcaKind with
  | none => false
  | some nla => !nlaStreq nla (t.kind q)

/-- The label `create_n_graft`. -/
def createNGraft (p : Option ν) : Except Reply (Decision ν) :=
  if has flags nlmFCreate then .ok (.create p)
  else .error ⟨-enoent, some "Qdisc not found. To create specify NLM_F_CREATE flag"⟩

/-- The part under the comment "Change qdisc parameters". -/
def changeParameters : Option ν → Except Reply (Decision ν)
  | none => .error ⟨-enoent, some "Specified qdisc not found"⟩
  | some q =>
    if has flags nlmFExcl then .error ⟨-eexist, some "Exclusivity flag on, cannot modify"⟩
    else if otherKind t req q then .error ⟨-einval, some "Invalid qdisc name"⟩
    else .ok (.change q)

/-- A discipline with the handle of the request is put under the parent, or created. -/
def graftHandle (p : Option ν) : Except Reply (Decision ν) :=
  if tcHMin req.tcmHandle ≠ 0 then .error ⟨-einval, some "Invalid minor handle"⟩
  else
    match t.lookup req.tcmHandle with
    | none => createNGraft flags p
    | some q =>
      if has flags nlmFExcl then .error ⟨-eexist, some "Exclusivity flag on, cannot override"⟩
      else if otherKind t req q then .error ⟨-einval, some "Invalid qdisc name"⟩
      else if p = some q ∨ p.any (t.checkLoop q) then
        .error ⟨-eloop, some "Qdisc parent/child loop detected"⟩
      else .ok (.graft q p)

/-- The parent of the request, and the discipline that is there now. -/
def present : Except Reply (Option ν × Option ν) :=
  if req.tcmParent = tcHRoot then .ok (none, some t.root)
  else if req.tcmParent = tcHIngress then .ok (none, t.ingress)
  else
    match t.lookup (tcHMaj req.tcmParent) with
    | none => .error ⟨-enoent, some "Failed to find specified qdisc"⟩
    | some p => .ok (some p, t.leaf p req.tcmParent)

/-- What is done under a parent, where there is a discipline or none. -/
def modifyUnder (p : Option ν) : Option ν → Except Reply (Decision ν)
  | none => if req.tcmHandle ≠ 0 then graftHandle t flags req p else createNGraft flags p
  | some q =>
    if req.tcmHandle = 0 then
      if has flags nlmFCreate && (has flags nlmFReplace &&
          (has flags nlmFExcl || otherKind t req q)) then createNGraft flags p
      else changeParameters t flags req (some q)
    else if t.handle q = req.tcmHandle then changeParameters t flags req (some q)
    else if has flags nlmFReplace then graftHandle t flags req p
    else .error ⟨-eexist, some "NLM_F_REPLACE needed to override"⟩

/-- `tc_modify_qdisc`, up to what is done. A discipline without a handle is the one that was there
by default, and counts as none. -/
def tcModifyQdisc : Except Reply (Decision ν) :=
  if req.tcmParent = 0 then
    if req.tcmHandle = 0 then .error ⟨-einval, some "Handle cannot be zero"⟩
    else changeParameters t flags req (t.lookup req.tcmHandle)
  else do
    let r ← present t req
    modifyUnder t flags req r.1 (r.2.filter fun q => t.handle q ≠ 0)

/-- `qdisc_change`, for a request without a size table and an estimator, and a discipline that can
be changed: the options that are given to it, if there are any. -/
def qdiscChange : Except Reply (Option (List Byte)) :=
  match req.tca tcaOptions with
  | none => .ok none
  | some opt =>
    if (req.tca tcaIngressBlock).isSome || (req.tca tcaEgressBlock).isSome then
      .error ⟨-eopnotsupp, some "Change of blocks is not supported"⟩
    else .ok (some opt)

section Spec
variable {t flags req} {d : Decision ν}

omit [DecidableEq ν] in
theorem changeParameters_ok {o : Option ν} (h : changeParameters t flags req o = .ok d) :
    ∃ q, o = some q ∧ d = .change q ∧ otherKind t req q = false := by
  cases o with
  | none => cases h
  | some q =>
    rw [changeParameters] at h
    split_ifs at h with h1 h2
    cases h
    exact ⟨q, rfl, rfl, by simpa using h2⟩

theorem graftHandle_ok (hcreate : has flags nlmFCreate = false) {p : Option ν}
    (h : graftHandle t flags req p = .ok d) : ∃ q, d = .graft q p ∧ otherKind t req q = false := by
  unfold graftHandle at h
  by_cases hmin : tcHMin req.tcmHandle ≠ 0
  · rw [if_pos hmin] at h
    cases h
  rw [if_neg hmin] at h
  cases hq : t.lookup req.tcmHandle with
  | none =>
    rw [hq, createNGraft, hcreate] at h
    cases h
  | some q =>
    rw [hq] at h
    dsimp only at h
    split_ifs at h with h1 h2 h3
    cases h
    exact ⟨q, rfl, by simpa using h2⟩

theorem modifyUnder_ok (hcreate : has flags nlmFCreate = false)
    (hreplace : has flags nlmFReplace = false) {p o : Option ν}
    (h : modifyUnder t flags req p o = .ok d) :
    (∃ q, o = some q ∧ d = .change q ∧ otherKind t req q = false ∧
      (req.tcmHandle ≠ 0 → t.handle q = req.tcmHandle)) ∨
    ∃ q, o = none ∧ d = .graft q p ∧ otherKind t req q = false := by
  cases o with
  | none =>
    rw [modifyUnder] at h
    split_ifs at h with hh
    · obtain ⟨q, rfl, hkind⟩ := graftHandle_ok hcreate h
      exact Or.inr ⟨q, rfl, rfl, hkind⟩
    · rw [createNGraft, hcreate] at h
      cases h
  | some q =>
    left
    rw [modifyUnder, hcreate, hreplace, Bool.false_and, if_neg Bool.false_ne_true,
      if_neg Bool.false_ne_true] at h
    by_cases hzero : req.tcmHandle = 0
    · rw [if_pos hzero] at h
      obtain ⟨q', hq', rfl, hkind⟩ := changeParameters_ok h
      cases hq'
      exact ⟨q, rfl, rfl, hkind, fun hne => absurd hzero hne⟩
    · rw [if_neg hzero] at h
      split_ifs at h with hh
      obtain ⟨q', hq', rfl, hkind⟩ := changeParameters_ok h
      cases hq'
      exact ⟨q, rfl, rfl, hkind, fun _ => hh⟩

/-- **A request without flags replaces nothing**: if it is not refused, it changes the parameters of
a discipline that has the kind, if one is given, and the handle, if one is given; or it puts a
discipline where there was none. -/
theorem modify_spec (hcreate : has flags nlmFCreate = false)
    (hreplace : has flags nlmFReplace = false)
    (hlookup : ∀ h q, t.lookup h = some q → t.handle q = h)
    (h : tcModifyQdisc t flags req = .ok d) :
    (∃ q, d = .change q ∧ otherKind t req q = false ∧
      (req.tcmHandle ≠ 0 → t.handle q = req.tcmHandle)) ∨
    ∃ q p o, d = .graft q p ∧ otherKind t req q = false ∧ present t req = .ok (p, o) ∧
      ∀ q', o = some q' → t.handle q' = 0 := by
  unfold tcModifyQdisc at h
  by_cases hparent : req.tcmParent = 0
  · rw [if_pos hparent] at h
    split_ifs at h
    obtain ⟨q, hq, rfl, hkind⟩ := changeParameters_ok h
    exact Or.inl ⟨q, rfl, hkind, fun _ => hlookup _ q hq⟩
  rw [if_neg hparent] at h
  cases hp : present t req with
  | error err =>
    rw [hp] at h
    cases h
  | ok r =>
    obtain ⟨p, o⟩ := r
    rw [hp] at h
    rcases modifyUnder_ok hcreate hreplace h with ⟨q, -, rfl, hkind, hh⟩ | ⟨q, ho, rfl, hkind⟩
    · exact Or.inl ⟨q, rfl, hkind, hh⟩
    · refine Or.inr ⟨q, p, o, rfl, hkind, rfl, ?_⟩
      rintro q' rfl
      by_contra hne
      rw [Option.filter_some_pos (by simpa using hne)] at ho
      cases ho

end Spec

end Modify

/-! ### A device with two disciplines -/

/-- The two disciplines that the driver sets up. -/
inductive Place
  | bucket
  | emulator
  deriving DecidableEq, Repr

def Place.handle : Place → U32
  | .bucket => 0x00010000
  | .emulator => 0x00100000

def Place.kind : Place → List Byte
  | .bucket => [0x74, 0x62, 0x66]
  | .emulator => [0x6e, 0x65, 0x74, 0x65, 0x6d]

/-- The token bucket is at the root. It has one class, whatever its number is, with the emulator as
its leaf; the emulator has nothing inside. -/
def twoQdiscs : Tree Place where
  root := .bucket
  ingress := none
  lookup h :=
    if h = Place.bucket.handle then some .bucket
    else if h = Place.emulator.handle then some .emulator
    else none
  leaf
    | .bucket, _ => some .emulator
    | .emulator, _ => none
  checkLoop
    | .bucket, p => p = .emulator
    | .emulator, _ => false
  handle := Place.handle
  kind := Place.kind

theorem handle_of_lookup {h : U32} {q : Place} (hq : twoQdiscs.lookup h = some q) :
    twoQdiscs.handle q = h := by
  simp only [twoQdiscs] at hq
  split_ifs at hq with h1 h2
  · cases hq
    exact h1.symm
  · cases hq
    exact h2.symm

/-- A request for the emulator, with its kind as a string of C. -/
def forEmulator : TcRequest :=
  ⟨36, 3, 0x00100000, 0x00010001,
    fun t => if t = tcaKind then some (Place.emulator.kind ++ [0]) else none⟩

theorem modify_spec_forEmulator :
    tcModifyQdisc twoQdiscs 5 forEmulator = .ok (.change .emulator) ∧
      ((∃ q, Decision.change Place.emulator = .change q ∧
        otherKind twoQdiscs forEmulator q = false ∧
        (forEmulator.tcmHandle ≠ 0 → twoQdiscs.handle q = forEmulator.tcmHandle)) ∨
      ∃ q p o, Decision.change Place.emulator = .graft q p ∧
        otherKind twoQdiscs forEmulator q = false ∧
        present twoQdiscs forEmulator = .ok (p, o) ∧
        ∀ q', o = some q' → twoQdiscs.handle q' = 0) := by
  have h : tcModifyQdisc twoQdiscs 5 forEmulator = .ok (.change .emulator) := rfl
  exact ⟨h, modify_spec (by decide) (by decide) (fun _ _ hq => handle_of_lookup hq) h⟩

end DynBandwidth.Tbf.Modify
