import DynBandwidth.Lib.Attributes

/-! # Building requests

The functions of `libnetlink.c` that append attributes to a request. A request is a memory that
starts with a `struct nlmsghdr` and a `struct tcmsg`, 36 bytes together, and its length is one of
the fields (`nlmsgLen`), so that everything behind the length is left over from earlier requests.

`Body m body` says that the request is complete up to `body` behind the headers. Each function has
one lemma about it: a new body is empty (`body_start`), `addattrL` appends a frame and leaves
whatever was there behind it (`addattrL_spec`), `addattrNestEnd` turns everything behind a frame
into its payload (`addattrNestEnd_spec`). -/

namespace DynBandwidth.Tbf.Libnetlink

open DynBandwidth.Lib.Bytes DynBandwidth.Lib.Attributes

/-! ### The functions -/

/-- `NLMSG_LENGTH(sizeof(struct tcmsg))`. -/
def headerLen : ℕ := 36

/-- The field `nlmsg_len`. -/
def nlmsgLen (m : Mem) : ℕ := value (load m 0 4)

def setNlmsgLen (m : Mem) (len : ℕ) : Mem := store m 0 (bytes 4 len)

/-- `NLMSG_TAIL`, as an offset in the request. -/
def nlmsgTail (m : Mem) : ℕ := align4 (nlmsgLen m)

/-- `RTA_LENGTH`. -/
def rtaLength (alen : ℕ) : ℕ := 4 + alen

/-- `addattr_l`: the request and the result. -/
def addattrL (m : Mem) (maxlen type : ℕ) (data : List Byte) : Mem × ℤ :=
  let len := rtaLength data.length
  if maxlen < align4 (nlmsgLen m) + align4 len then (m, -1)
  else
    let rta := nlmsgTail m
    let m := store m (rta + 2) (bytes 2 type)
    let m := store m rta (bytes 2 len)
    let m := store m (rta + 4) data
    (setNlmsgLen m (align4 (nlmsgLen m) + align4 len), 0)

/-- `addattr_nest`: the request, the result of the call of `addattr_l`, and the place of the
attribute. -/
def addattrNest (m : Mem) (maxlen type : ℕ) : Mem × ℤ × ℕ :=
  ((addattrL m maxlen type []).1, (addattrL m maxlen type []).2, nlmsgTail m)

/-- `nest->rta_len = NLMSG_TAIL(n) - nest`. -/
def addattrNestEnd (m : Mem) (nest : ℕ) : Mem := store m nest (bytes 2 (nlmsgTail m - nest))

/-! ### What a request holds -/

/-- The request is its headers, with the right length, and `body`. -/
structure Body (m : Mem) (body : List Byte) : Prop where
  len : nlmsgLen m = headerLen + body.length
  load : load m headerLen body.length = body
  dvd : 4 ∣ body.length

/-- The fields of the headers behind the length are the same. -/
def SameHeader (m m' : Mem) : Prop := ∀ o n, 4 ≤ o → o + n ≤ headerLen → load m' o n = load m o n

theorem SameHeader.refl (m : Mem) : SameHeader m m := fun _ _ _ _ => rfl

theorem SameHeader.trans {m m' m'' : Mem} (h : SameHeader m m') (h' : SameHeader m' m'') :
    SameHeader m m'' := fun o n ho hn => (h' o n ho hn).trans (h o n ho hn)

section Body
variable {m : Mem} {body : List Byte}

theorem Body.tail_eq (h : Body m body) : nlmsgTail m = headerLen + body.length := by
  rw [nlmsgTail, h.len, align4_of_dvd]
  exact (Nat.dvd_add_right (by decide)).mpr h.dvd

theorem nlmsgLen_setNlmsgLen (m : Mem) {len : ℕ} (h : len < 4294967296) :
    nlmsgLen (setNlmsgLen m len) = len := by
  rw [nlmsgLen, setNlmsgLen, load_store_bytes, value_bytes, Nat.mod_eq_of_lt (by simpa using h)]

theorem nlmsgLen_store (m : Mem) {o : ℕ} (ho : 4 ≤ o) (bs : List Byte) :
    nlmsgLen (store m o bs) = nlmsgLen m := by
  rw [nlmsgLen, load_store_disjoint m (Or.inl ho), nlmsgLen]

theorem sameHeader_setNlmsgLen (m : Mem) (len : ℕ) : SameHeader m (setNlmsgLen m len) :=
  fun _ _ ho _ => load_store_disjoint m (Or.inr (by rw [length_bytes]; exact ho))

theorem sameHeader_store (m : Mem) {o : ℕ} (ho : headerLen ≤ o) (bs : List Byte) :
    SameHeader m (store m o bs) :=
  fun _ _ _ hn => load_store_disjoint m (Or.inl (hn.trans ho))

/-- A request that has only its headers. -/
theorem body_start (m : Mem) : Body (setNlmsgLen m headerLen) [] where
  len := nlmsgLen_setNlmsgLen m (by decide)
  load := rfl
  dvd := Nat.dvd_zero 4

/-- A field of the headers is set. -/
theorem Body.store_header (h : Body m body) {o : ℕ} {bs : List Byte} (ho : 4 ≤ o)
    (hn : o + bs.length ≤ headerLen) : Body (store m o bs) body where
  len := by rw [nlmsgLen_store m ho, h.len]
  load := by rw [load_store_disjoint m (Or.inr hn), h.load]
  dvd := h.dvd

/-- **Bytes inside the body are replaced.** -/
theorem Body.patch {l x r : List Byte} (h : Body m (l ++ x ++ r)) (bs : List Byte)
    (hbs : bs.length = x.length) : Body (store m (headerLen + l.length) bs) (l ++ bs ++ r) := by
  have hlen : (l ++ bs ++ r).length = (l ++ x ++ r).length := by simp [hbs]
  refine ⟨?_, ?_, hlen ▸ h.dvd⟩
  · rw [nlmsgLen_store m (by unfold headerLen; omega), h.len, hlen]
  · have hload := h.load
    rw [List.length_append, List.length_append, load_add, load_add] at hload
    obtain ⟨hlx, hr⟩ := List.append_inj hload (by simp)
    obtain ⟨hl, -⟩ := List.append_inj hlx (by simp)
    rw [List.length_append, List.length_append, load_add, load_add,
      load_store_disjoint m (Or.inl le_rfl), load_store, hl,
      load_store_disjoint m (Or.inr (by omega)), hbs, hr]

end Body

/-! ### Attributes -/

section Append
variable {m : Mem} {body : List Byte}

/-- The three stores of an attribute are its frame. -/
theorem load_frame (m : Mem) (o type : ℕ) (data : List Byte) :
    load (store (store (store m (o + 2) (bytes 2 type)) o (bytes 2 (4 + data.length)))
      (o + 4) data) o (4 + data.length) = Attr.frame ⟨type, data⟩ := by
  have hsplit : ∀ m' : Mem, load m' o (4 + data.length) =
      load m' o 2 ++ (load m' (o + 2) 2 ++ load m' (o + 4) data.length) := fun m' => by
    rw [show 4 + data.length = 2 + (2 + data.length) by omega, load_add, load_add]
  rw [hsplit, load_store_disjoint _ (Or.inl (by omega)), load_store_bytes,
    load_store_disjoint _ (Or.inl (by omega)),
    load_store_disjoint _ (Or.inr (by rw [length_bytes])), load_store_bytes, load_store,
    Attr.frame, List.append_assoc]

/-- The stores of `addattr_l`, if the bound allows them. -/
theorem addattrL_eq (h : Body m body) {maxlen type : ℕ} {data : List Byte}
    (hmax : headerLen + body.length + align4 (4 + data.length) ≤ maxlen) :
    addattrL m maxlen type data =
      (setNlmsgLen (store (store (store m (headerLen + body.length + 2) (bytes 2 type))
          (headerLen + body.length) (bytes 2 (4 + data.length)))
          (headerLen + body.length + 4) data)
        (headerLen + body.length + align4 (4 + data.length)), 0) := by
  have htail := h.tail_eq
  unfold addattrL rtaLength
  simp only [htail]
  rw [if_neg (by rw [← nlmsgTail, htail]; omega), nlmsgLen_store _ (by unfold headerLen; omega),
    nlmsgLen_store _ (by unfold headerLen; omega), nlmsgLen_store _ (by unfold headerLen; omega),
    ← nlmsgTail, htail]

/-- **`addattr_l` appends a frame**, if the bound allows it. -/
theorem addattrL_spec (h : Body m body) {maxlen : ℕ} (type : ℕ) {data : List Byte}
    (hmax : headerLen + body.length + align4 (4 + data.length) ≤ maxlen)
    (hlt : maxlen < 4294967296) :
    ∃ fill, fill.length + (Attr.frame ⟨type, data⟩).length =
        align4 (Attr.frame ⟨type, data⟩).length ∧
      (addattrL m maxlen type data).2 = 0 ∧
      Body (addattrL m maxlen type data).1 (body ++ (Attr.frame ⟨type, data⟩ ++ fill)) ∧
      SameHeader m (addattrL m maxlen type data).1 := by
  rw [addattrL_eq h hmax]
  simp only [length_frame]
  have hh : headerLen = 36 := rfl
  have hle := le_align4 (4 + data.length)
  set t := headerLen + body.length with ht
  set m1 := store m (t + 2) (bytes 2 type) with hm1
  set m2 := store m1 t (bytes 2 (4 + data.length)) with hm2
  set m3 := store m2 (t + 4) data with hm3
  set m4 := setNlmsgLen m3 (t + align4 (4 + data.length)) with hm4
  -- Behind the length the last store changes nothing.
  have hback : ∀ o n, 4 ≤ o → load m4 o n = load m3 o n := fun o n ho =>
    load_store_disjoint m3 (Or.inr (by rw [length_bytes]; exact ho))
  have hbody : load m4 headerLen body.length = body := by
    rw [hback _ _ (by omega), hm3, load_store_disjoint m2 (Or.inl (by omega)), hm2,
      load_store_disjoint m1 (Or.inl le_rfl), hm1, load_store_disjoint m (Or.inl (by omega)),
      h.load]
  have hframe : load m4 t (4 + data.length) = Attr.frame ⟨type, data⟩ := by
    rw [hback _ _ (by omega), hm3, hm2, hm1, load_frame]
  refine ⟨load m4 (t + (4 + data.length)) (align4 (4 + data.length) - (4 + data.length)),
    by rw [length_load]; omega, trivial, ⟨?_, ?_, ?_⟩, ?_⟩
  · rw [hm4, nlmsgLen_setNlmsgLen m3 (by omega)]
    simp only [List.length_append, length_frame, length_load]
    omega
  · rw [List.length_append, load_add, hbody, ← ht, List.length_append, length_frame, length_load,
      load_add, hframe]
  · have h4 : 4 ∣ align4 (4 + data.length) := Nat.dvd_mul_left 4 _
    have := h.dvd
    simp only [List.length_append, length_frame, length_load]
    omega
  · refine SameHeader.trans ?_ (sameHeader_setNlmsgLen _ _)
    exact ((sameHeader_store m (by omega) _).trans (sameHeader_store m1 (by omega) _)).trans
      (sameHeader_store m2 (by omega) _)

/-- **`addattr_nest_end` sets the length** of the last attribute, whatever it was: everything behind
its frame is its payload. -/
theorem addattrNestEnd_spec {pre inner : List Byte} {len type : ℕ}
    (h : Body m (pre ++ (bytes 2 len ++ bytes 2 type ++ inner))) :
    Body (addattrNestEnd m (headerLen + pre.length)) (pre ++ Attr.frame ⟨type, inner⟩) ∧
      SameHeader m (addattrNestEnd m (headerLen + pre.length)) := by
  have hdiff : nlmsgTail m - (headerLen + pre.length) = 4 + inner.length := by
    rw [h.tail_eq]
    simp only [List.length_append, length_bytes]
    omega
  unfold addattrNestEnd
  rw [hdiff]
  refine ⟨?_, sameHeader_store m (by omega) _⟩
  have hsplit : Body m (pre ++ bytes 2 len ++ (bytes 2 type ++ inner)) := by
    simpa using h
  have hpatch := hsplit.patch (bytes 2 (4 + inner.length)) (by simp)
  simpa [Attr.frame] using hpatch

end Append

end DynBandwidth.Tbf.Libnetlink
