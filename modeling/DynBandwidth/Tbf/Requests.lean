import DynBandwidth.Tbf.TbfNetem

/-! # The requests of the driver

The driver builds a request from a new header on, so that it does not matter what the buffer held
before: the attributes behind the headers are the kind and the options, each call of `addattr_l`
has room for its attribute, and the length ends the message there (`tbfOptions_spec`,
`netemOptions_spec`). What is sent in this state is parsed into these two attributes and nothing
else (`Ready.request`). -/

namespace DynBandwidth.Tbf.Requests

open DynBandwidth.Lib.Bytes DynBandwidth.Lib.Attributes DynBandwidth.Lib.Runs
open DynBandwidth.Tbf.Uapi DynBandwidth.Tbf.Libnetlink DynBandwidth.Tbf.Kernel
open DynBandwidth.Tbf.Schedule DynBandwidth.Tbf.TcCore DynBandwidth.Tbf.TbfNetem
open DynBandwidth.Reorder.Header (U8 U16 U32 U64)

/-! ### What a request is -/

/-- A message is a request of a kind for a device, with these options and no other attributes. -/
structure Request (kind opt : List Byte) (ifindex handle parent : U32) (msg : List Byte) :
    Prop where
  attrs : attrs (msg.drop headerLen) = [⟨tcaKind, cString kind⟩, ⟨tcaOptions, opt⟩]
  parse : ∃ req, nlmsgParse msg = .ok req ∧ req.nlmsgType = 36 ∧ req.tcmIfindex = ifindex ∧
    req.tcmHandle = handle ∧ req.tcmParent = parent ∧
    (∃ nla, req.tca tcaKind = some nla ∧ nlaStreq nla kind = true) ∧
    req.tca tcaOptions = some opt ∧ ∀ t, t ≠ tcaKind → t ≠ tcaOptions → req.tca t = none

/-- The fields of the headers that say what a request is for. -/
structure Header (m : Mem) (ifindex handle parent : U32) : Prop where
  type : load m 4 2 = bytes 2 36
  ifindex : load m 20 4 = bytes 4 ifindex.toNat
  handle : load m 24 4 = bytes 4 handle.toNat
  parent : load m 28 4 = bytes 4 parent.toNat

/-- The buffer holds a finished request. -/
structure Ready (b : Buf) (kind opt : List Byte) (ifindex handle parent : U32) : Prop where
  body : ∃ body, Body b.mem body ∧
    Encodes [⟨tcaKind, cString kind⟩, ⟨tcaOptions, opt⟩] body
  header : Header b.mem ifindex handle parent

/-- Between the two states every call of `addattr_l` has succeeded. -/
def NoneFails (b b' : Buf) : Prop := ∃ k, b'.rets = b.rets ++ List.replicate k 0

theorem NoneFails.trans {b b' b'' : Buf} (h : NoneFails b b') (h' : NoneFails b' b'') :
    NoneFails b b'' := by
  obtain ⟨k, hk⟩ := h
  obtain ⟨k', hk'⟩ := h'
  exact ⟨k + k', by rw [hk', hk, List.append_assoc, List.replicate_append_replicate]⟩

/-! ### Building requests -/

section Build
variable {b : Buf} {m m' : Mem} {body : List Byte} {ifindex handle parent : U32}

theorem Header.of_same (h : Header m ifindex handle parent) (hs : SameHeader m m') :
    Header m' ifindex handle parent where
  type := by rw [hs 4 2 (by omega) (by unfold headerLen; omega), h.type]
  ifindex := by rw [hs 20 4 (by omega) (by unfold headerLen; omega), h.ifindex]
  handle := by rw [hs 24 4 (by omega) (by unfold headerLen; omega), h.handle]
  parent := by rw [hs 28 4 (by omega) (by unfold headerLen; omega), h.parent]

theorem Body.put32 (h : Body b.mem body) {o : ℕ} (x : U32) (ho : 4 ≤ o) (hn : o + 4 ≤ 36) :
    Body (b.put32 o x).mem body :=
  h.store_header ho (by rw [length_bytes]; exact hn)

/-- The three fields that say where a request goes. -/
theorem header_put32 (b : Buf) (htype : load b.mem 4 2 = bytes 2 36)
    (parent handle ifindex : U32) :
    Header (((b.put32 tcmParent parent).put32 tcmHandle handle).put32 tcmIfindex ifindex).mem
      ifindex handle parent := by
  unfold Buf.put32 tcmParent tcmHandle tcmIfindex
  refine ⟨?_, load_store_bytes _ _ _ _, ?_, ?_⟩
  · rw [load_store_disjoint _ (by omega), load_store_disjoint _ (by omega),
      load_store_disjoint _ (by omega), htype]
  · rw [load_store_disjoint _ (by rw [length_bytes]; omega), load_store_bytes]
  · rw [load_store_disjoint _ (by rw [length_bytes]; omega),
      load_store_disjoint _ (by rw [length_bytes]; omega), load_store_bytes]

/-- **A call of `addattr_l`** that stays in its bound appends an attribute and succeeds. -/
theorem add_spec (h : Body b.mem body) (maxlen type : ℕ) (data : List Byte)
    (hmax : 36 + body.length + align4 (4 + data.length) ≤ maxlen) (hlt : maxlen ≤ sizeofReq)
    (htype : type < 65536) (hdata : 4 + data.length < 65536) :
    ∃ x, Encodes [⟨type, data⟩] x ∧ x.length = align4 (4 + data.length) ∧
      Body (b.add maxlen type data).mem (body ++ x) ∧
      SameHeader b.mem (b.add maxlen type data).mem ∧ NoneFails b (b.add maxlen type data) := by
  obtain ⟨fill, hfill, hret, hbody, hsame⟩ := addattrL_spec h type hmax
    (by unfold sizeofReq at hlt; omega)
  refine ⟨Attr.frame ⟨type, data⟩ ++ fill, ?_, ?_, hbody, hsame, 1, ?_⟩
  · have he := Encodes.cons ⟨htype, hdata⟩ hfill Encodes.nil
    rwa [List.append_nil] at he
  · rw [List.length_append, Nat.add_comm, hfill, length_frame]
  · rw [Buf.add, hret]
    rfl

/-- For data of whole words, what is appended is the frame. -/
theorem add_frame_spec (h : Body b.mem body) (maxlen type : ℕ) (data : List Byte)
    (hmax : 36 + body.length + (4 + data.length) ≤ maxlen) (hlt : maxlen ≤ sizeofReq)
    (hdvd : 4 ∣ data.length) :
    Body (b.add maxlen type data).mem (body ++ Attr.frame ⟨type, data⟩) ∧
      SameHeader b.mem (b.add maxlen type data).mem ∧ NoneFails b (b.add maxlen type data) := by
  have h4 : align4 (4 + data.length) = 4 + data.length := align4_of_dvd (by omega)
  have hmax' : headerLen + body.length + align4 (4 + data.length) ≤ maxlen := by
    rw [h4]; exact hmax
  obtain ⟨fill, hfill, hret, hbody, hsame⟩ := addattrL_spec h type hmax'
    (by unfold sizeofReq at hlt; omega)
  simp only [length_frame, h4] at hfill
  have hnil : fill = [] := List.eq_nil_of_length_eq_zero (by omega)
  rw [hnil, List.append_nil] at hbody
  exact ⟨hbody, hsame, 1, by rw [Buf.add, hret]; rfl⟩

/-- **A new request** has its kind only. -/
theorem begin_spec (b : Buf) (htype : load b.mem 4 2 = bytes 2 36) {kind : List Byte}
    (hkind : kind.length ≤ 15) (parent handle ifindex : U32) :
    ∃ x, Encodes [⟨tcaKind, cString kind⟩] x ∧ x.length ≤ 20 ∧
      Body (b.begin kind parent handle ifindex).mem x ∧
      Header (b.begin kind parent handle ifindex).mem ifindex handle parent ∧
      NoneFails b (b.begin kind parent handle ifindex) := by
  have hlen : align4 (4 + (cString kind).length) ≤ 20 := by
    simp only [cString, List.length_append, List.length_singleton, align4]
    omega
  obtain ⟨x, henc, hx, hbody, hsame, hret⟩ := add_spec
    (b := ⟨setNlmsgLen b.mem headerLen, b.rets⟩) (body_start b.mem) sizeofReq tcaKind (cString kind)
    (by simp only [List.length_nil]; unfold sizeofReq; omega) le_rfl (by decide)
    (by have := le_align4 (4 + (cString kind).length); omega)
  refine ⟨x, henc, by omega, ?_, header_put32 _ ?_ parent handle ifindex, hret⟩
  · have h1 := Body.put32 hbody parent (by decide : 4 ≤ tcmParent) (by decide)
    have h2 := Body.put32 h1 handle (by decide : 4 ≤ tcmHandle) (by decide)
    exact Body.put32 h2 ifindex (by decide) (by decide)
  · rw [hsame 4 2 (by omega) (by decide),
      sameHeader_setNlmsgLen b.mem headerLen 4 2 (by omega) (by decide), htype]

/-- The attribute for a rate of more than 32 bits. -/
def wideRate (rate64 : U64) : List Attr :=
  if 4294967296 ≤ rate64.toNat then [⟨tcaTbfRate64, bytes 8 rate64.toNat⟩] else []

/-- This attribute is appended if it is needed. -/
theorem addWide_spec (h : Body b.mem body) (hmax : body.length ≤ 1000) (rate64 : U64) :
    ∃ x, Encodes (wideRate rate64) x ∧ x.length ≤ 12 ∧ Body (b.addWide rate64).mem (body ++ x) ∧
      SameHeader b.mem (b.addWide rate64).mem ∧ NoneFails b (b.addWide rate64) := by
  have h12 : align4 (4 + (bytes 8 rate64.toNat).length) = 12 := by rw [length_bytes]; rfl
  unfold wideRate Buf.addWide
  split_ifs
  · obtain ⟨x, henc, hx, hbody, hsame, hret⟩ := add_spec h 2124 tcaTbfRate64
      (bytes 8 rate64.toNat) (by omega) (by decide) (by decide) (by rw [length_bytes]; omega)
    exact ⟨x, henc, by omega, hbody, hsame, hret⟩
  · exact ⟨[], Encodes.nil, by simp, by simpa using h, SameHeader.refl _, 0, by simp⟩

/-- The attributes nested in the options of the token bucket. -/
def tbfAttrs (opt : TcTbfQopt) (rate64 : U64) (rtab : List U32) : List Attr :=
  [⟨tcaTbfParms, opt.toBytes⟩] ++ [⟨tcaTbfBurst, bytes 4 burst.toNat⟩] ++ wideRate rate64 ++
    [⟨tcaTbfRtab, rtabBytes rtab⟩]

/-- **The options of the token bucket** are one attribute with the others nested in it. -/
theorem tbfOptions_spec (h : Body b.mem body) (hmax : body.length ≤ 20) (opt : TcTbfQopt)
    (rate64 : U64) {rtab : List U32} (hrtab : (rtabBytes rtab).length = 1024) :
    ∃ inner, Encodes (tbfAttrs opt rate64 rtab) inner ∧ inner.length ≤ 1088 ∧
      Body (b.tbfOptions opt rate64 rtab).mem (body ++ Attr.frame ⟨tcaOptions, inner⟩) ∧
      SameHeader b.mem (b.tbfOptions opt rate64 rtab).mem ∧
      NoneFails b (b.tbfOptions opt rate64 rtab) := by
  -- The lengths of the attributes, which the bounds have room for.
  have a2 : align4 (4 + opt.toBytes.length) = 40 := by rw [TcTbfQopt.length_toBytes]; rfl
  have a3 : align4 (4 + (bytes 4 burst.toNat).length) = 8 := by rw [length_bytes]; rfl
  have a5 : align4 (4 + (rtabBytes rtab).length) = 1028 := by rw [hrtab]; rfl
  have l1 : (body ++ Attr.frame ⟨tcaOptions, []⟩).length = body.length + 4 := by
    rw [List.length_append, length_frame]; rfl
  obtain ⟨h1, s1, r1⟩ := add_frame_spec h 1024 tcaOptions []
    (by simp only [List.length_nil]; omega) (by decide) (Nat.dvd_zero 4)
  obtain ⟨x2, e2, l2, h2, s2, r2⟩ := add_spec h1 2024 tcaTbfParms opt.toBytes
    (by omega) (by decide) (by decide) (by rw [TcTbfQopt.length_toBytes]; omega)
  obtain ⟨x3, e3, l3, h3, s3, r3⟩ := add_spec h2 2124 tcaTbfBurst
    (bytes 4 burst.toNat) (by rw [List.length_append]; omega) (by decide) (by decide)
    (by rw [length_bytes]; omega)
  obtain ⟨x4, e4, l4, h4, s4, r4⟩ := addWide_spec h3
    (by rw [List.length_append, List.length_append]; omega) rate64
  obtain ⟨x5, e5, l5, h5, s5, r5⟩ := add_spec h4 3024 tcaTbfRtab (rtabBytes rtab)
    (by rw [List.length_append, List.length_append, List.length_append]; omega) (by decide)
    (by decide) (by rw [hrtab]; omega)
  refine ⟨x2 ++ x3 ++ x4 ++ x5, ((e2.append e3).append e4).append e5, ?_, ?_⟩
  · simp only [List.length_append]
    omega
  · have hbody : body ++ Attr.frame ⟨tcaOptions, []⟩ ++ x2 ++ x3 ++ x4 ++ x5 =
        body ++ (bytes 2 4 ++ bytes 2 tcaOptions ++ (x2 ++ x3 ++ x4 ++ x5)) := by
      simp [Attr.frame]
    rw [hbody] at h5
    obtain ⟨h6, s6⟩ := addattrNestEnd_spec h5
    rw [← h.tail_eq] at h6 s6
    exact ⟨h6, ((((s1.trans s2).trans s3).trans s4).trans s5).trans s6,
      (((r1.trans r2).trans r3).trans r4).trans r5⟩

/-- **The options of the emulator** are its record. -/
theorem netemOptions_spec (h : Body b.mem body) (hmax : body.length ≤ 20) (nopt : TcNetemQopt) :
    Body (b.netemOptions nopt).mem (body ++ Attr.frame ⟨tcaOptions, nopt.toBytes⟩) ∧
      SameHeader b.mem (b.netemOptions nopt).mem ∧ NoneFails b (b.netemOptions nopt) := by
  have hlen := nopt.length_toBytes
  obtain ⟨h1, s1, r1⟩ := add_frame_spec h 1024 tcaOptions nopt.toBytes (by omega)
    (by decide) (by rw [hlen]; decide)
  obtain ⟨h2, s2⟩ := addattrNestEnd_spec h1
  rw [← h.tail_eq] at h2 s2
  exact ⟨h2, s1.trans s2, r1⟩

/-- The request for a token bucket. -/
theorem tbf_ready (b : Buf) (htype : load b.mem 4 2 = bytes 2 36) (parent handle ifindex : U32)
    (opt : TcTbfQopt) (rate64 : U64) {rtab : List U32} (hrtab : (rtabBytes rtab).length = 1024) :
    ∃ inner, attrs inner = tbfAttrs opt rate64 rtab ∧
      Ready ((b.begin kindTbf parent handle ifindex).tbfOptions opt rate64 rtab) kindTbf inner
        ifindex handle parent ∧
      NoneFails b ((b.begin kindTbf parent handle ifindex).tbfOptions opt rate64 rtab) := by
  obtain ⟨x, hx, hlen, hbody, hheader, hrets⟩ :=
    begin_spec b htype (by decide : kindTbf.length ≤ 15) parent handle ifindex
  obtain ⟨inner, hinner, hle, hbody', hsame, hrets'⟩ :=
    tbfOptions_spec hbody hlen opt rate64 hrtab
  have hframe : Encodes [⟨tcaOptions, inner⟩] (Attr.frame ⟨tcaOptions, inner⟩) :=
    Encodes.frame ⟨by show tcaOptions < 65536; decide, by show 4 + inner.length < 65536; omega⟩
      hinner.dvd
  exact ⟨inner, hinner.attrs_eq, ⟨⟨_, hbody', hx.append hframe⟩, hheader.of_same hsame⟩,
    hrets.trans hrets'⟩

/-- The request for an emulator. -/
theorem netem_ready (b : Buf) (htype : load b.mem 4 2 = bytes 2 36) (parent handle ifindex : U32)
    (nopt : TcNetemQopt) :
    Ready ((b.begin kindNetem parent handle ifindex).netemOptions nopt) kindNetem nopt.toBytes
        ifindex handle parent ∧
      NoneFails b ((b.begin kindNetem parent handle ifindex).netemOptions nopt) := by
  have hlen := nopt.length_toBytes
  obtain ⟨x, hx, hlenx, hbody, hheader, hrets⟩ :=
    begin_spec b htype (by decide : kindNetem.length ≤ 15) parent handle ifindex
  obtain ⟨hbody', hsame, hrets'⟩ := netemOptions_spec hbody hlenx nopt
  have hframe : Encodes [⟨tcaOptions, nopt.toBytes⟩] (Attr.frame ⟨tcaOptions, nopt.toBytes⟩) :=
    Encodes.frame ⟨by show tcaOptions < 65536; decide,
      by show 4 + nopt.toBytes.length < 65536; omega⟩ (by show 4 ∣ nopt.toBytes.length; omega)
  exact ⟨⟨⟨_, hbody', hx.append hframe⟩, hheader.of_same hsame⟩, hrets.trans hrets'⟩

end Build

/-! ### Sending requests -/

section Send
variable {b : Buf} {kind opt : List Byte} {ifindex handle parent : U32}

/-- The same request for another device. -/
theorem Ready.put32 (h : Ready b kind opt ifindex handle parent) (x : U32) :
    Ready (b.put32 tcmIfindex x) kind opt x handle parent := by
  obtain ⟨⟨body, hbody, henc⟩, hheader⟩ := h
  refine ⟨⟨body, Body.put32 hbody x (by decide) (by decide), henc⟩, ?_⟩
  unfold Buf.put32 tcmIfindex
  refine ⟨?_, load_store_bytes _ _ _ _, ?_, ?_⟩
  · rw [load_store_disjoint _ (by omega), hheader.type]
  · rw [load_store_disjoint _ (by rw [length_bytes]; omega), hheader.handle]
  · rw [load_store_disjoint _ (by rw [length_bytes]; omega), hheader.parent]

/-- The sequence number and the flags do not matter. -/
theorem Ready.store_seq (h : Ready b kind opt ifindex handle parent) (seq flags : ℕ) :
    Ready ⟨store (store b.mem 8 (bytes 4 seq)) 6 (bytes 2 flags), b.rets⟩ kind opt ifindex handle
      parent := by
  obtain ⟨⟨body, hbody, henc⟩, hheader⟩ := h
  have hkeep : ∀ o, (o = 4 ∨ 12 ≤ o) → ∀ n, (o = 4 → n = 2) →
      load (store (store b.mem 8 (bytes 4 seq)) 6 (bytes 2 flags)) o n = load b.mem o n := by
    intro o ho n hn
    rw [load_store_disjoint _ (by rw [length_bytes]; omega),
      load_store_disjoint _ (by rw [length_bytes]; omega)]
  refine ⟨⟨body, ?_, henc⟩, ?_, ?_, ?_, ?_⟩
  · exact (hbody.store_header (by omega) (by rw [length_bytes]; decide)).store_header (by omega)
      (by rw [length_bytes]; decide)
  · rw [hkeep 4 (by omega) 2 (by omega), hheader.type]
  · rw [hkeep 20 (by omega) 4 (by omega), hheader.ifindex]
  · rw [hkeep 24 (by omega) 4 (by omega), hheader.handle]
  · rw [hkeep 28 (by omega) 4 (by omega), hheader.parent]

/-- A field of a message that was loaded from its start. -/
theorem field_load (m : Mem) {n o k : ℕ} (h : o + k ≤ n) :
    field (load m 0 n) o k = value (load m o k) := by
  rw [field, take_drop_load m 0 h, Nat.zero_add]

/-- The table of the two attributes of a request. -/
theorem table_request (kind opt : List Byte) (t : ℕ) :
    table tcaMax [⟨tcaKind, cString kind⟩, ⟨tcaOptions, opt⟩] t =
      if t = tcaKind then some (cString kind) else if t = tcaOptions then some opt else none := by
  unfold table nlaType tcaMax tcaKind tcaOptions
  by_cases h1 : t = 1
  · subst h1; simp
  · by_cases h2 : t = 2
    · subst h2; simp
    · simp [h1, h2, Ne.symm h1, Ne.symm h2]

theorem valid_request (kind opt : List Byte) :
    Valid tcaMax rtmTcaPolicy [⟨tcaKind, cString kind⟩, ⟨tcaOptions, opt⟩] := by
  simp [Valid, rtmTcaPolicy, nlaType, NlaPolicy.Accepts, cString, tcaKind, tcaOptions, tcaRate,
    tcaStab, tcaDumpInvisible, tcaChain, tcaIngressBlock, tcaEgressBlock]

/-- **A finished request is parsed** into its kind and its options. -/
theorem Ready.request (h : Ready b kind opt ifindex handle parent) :
    Request kind opt ifindex handle parent (load b.mem 0 (nlmsgLen b.mem)) := by
  obtain ⟨⟨body, hbody, henc⟩, hheader⟩ := h
  have hlen : nlmsgLen b.mem = 36 + body.length := hbody.len
  have hdrop : (load b.mem 0 (nlmsgLen b.mem)).drop headerLen = body := by
    rw [hbody.len, load_add, List.drop_left' (length_load _ _ _), Nat.zero_add, hbody.load]
  have hattrs : attrs ((load b.mem 0 (nlmsgLen b.mem)).drop headerLen) =
      [⟨tcaKind, cString kind⟩, ⟨tcaOptions, opt⟩] := by
    rw [hdrop, henc.attrs_eq]
  have hword : ∀ {o : ℕ} {x : U32}, o + 4 ≤ 36 → load b.mem o 4 = bytes 4 x.toNat →
      BitVec.ofNat 32 (field (load b.mem 0 (nlmsgLen b.mem)) o 4) = x := fun ho hload => by
    rw [field_load _ (by omega), hload, value_bytes, ofNat_mod_pow (by omega)]
  refine ⟨hattrs, _, nlmsgParse_of_attrs ?_ ?_ hattrs (valid_request kind opt), ?_,
    hword (by omega) hheader.ifindex, hword (by omega) hheader.handle,
    hword (by omega) hheader.parent, ⟨cString kind, ?_, ?_⟩, ?_, fun t h1 h2 => ?_⟩
  · rw [field_load _ (by omega), length_load, nlmsgLen]
  · rw [length_load]; omega
  · show BitVec.ofNat 16 (field _ 4 2) = 36
    rw [field_load _ (by omega), hheader.type]
    rfl
  · exact (table_request kind opt _).trans (if_pos rfl)
  · simp [nlaStreq, cString]
  · exact (table_request kind opt _).trans ((if_neg (by decide)).trans (if_pos rfl))
  · exact (table_request kind opt _).trans ((if_neg h1).trans (if_neg h2))

end Send

end DynBandwidth.Tbf.Requests
