import DynBandwidth.Lib.Runs
import DynBandwidth.Tbf.Kernel

/-! # A request and its acknowledgement

`rtnl_talk` of `libnetlink.c` sends a request to the kernel and waits for the acknowledgement;
`netlink_rcv_skb` and `netlink_ack` of `af_netlink.c` are the other side. What is done with a
request is a parameter here. Sending, receiving and making room for an acknowledgement do not fail
here, and an acknowledgement has no attributes but the text.

An acknowledgement counts if its sequence number is that of the request or the one before it; the
lower bound is computed in 64 bits, so that nothing counts for the sequence number zero. From a
socket with nothing in it, `rtnl_talk` returns what became of its own request and leaves nothing
behind, and only for this sequence number it waits forever (`rtnlTalk_spec`, `talks_answered`). -/

namespace DynBandwidth.Tbf.Talk

open DynBandwidth.Lib.Bytes DynBandwidth.Lib.Attributes DynBandwidth.Lib.Runs
open DynBandwidth.Tbf.Kernel
open DynBandwidth.Reorder.Header (U16 U32 U64)

def eintr : ℤ := 4

/-- `NLMSG_ERROR`, `NLMSG_MIN_TYPE`. -/
def nlmsgError : ℕ := 2
def nlmsgMinType : ℕ := 16

def nlmFRequest : U16 := 0x1
def nlmFAck : U16 := 0x4
def nlmFCapped : U16 := 0x100
def nlmFAckTlvs : U16 := 0x200

/-- `NLMSGERR_ATTR_MSG`. -/
def nlmsgerrAttrMsg : ℕ := 1

/-- The flags of a message. -/
def nlmsgFlags (msg : List Byte) : U16 := BitVec.ofNat 16 (field msg 6 2)

/-- A flag is set. -/
def has (flags flag : U16) : Bool := flags &&& flag ≠ 0

theorem has_or (a b flag : U16) : has (a ||| b) flag = (has a flag || has b flag) := by
  unfold has
  rw [BitVec.and_or_distrib_right]
  by_cases ha : a &&& flag = 0 <;> by_cases hb : b &&& flag = 0 <;> simp [ha, hb]

/-- A `struct nlmsghdr`. -/
def nlmsghdr (len type flags seq pid : ℕ) : List Byte :=
  pack [(4, len), (2, type), (2, flags), (4, seq), (4, pid)]

/-! ### The kernel -/

/-- What became of a request: the result, and the text of the extended acknowledgement. -/
structure Reply where
  err : ℤ
  msg : Option String
  deriving DecidableEq, Repr

/-- What can be received from a socket: the sender, whether the end is missing, and the bytes. -/
structure Datagram where
  nlPid : U32
  trunc : Bool
  data : List Byte
  deriving DecidableEq, Repr

/-- Bytes up to the next multiple of four. -/
def padded (bs : List Byte) : List Byte := bs ++ List.replicate (align4 bs.length - bs.length) 0

/-- The attribute with the text. -/
def extackTlv : Option String → List Byte
  | none => []
  | some msg =>
    padded (Attr.frame ⟨nlmsgerrAttrMsg, (msg.toList.map fun c => BitVec.ofNat 8 c.toNat) ++ [0]⟩)

/-- The `struct nlmsgerr` and what follows it: a request that failed is sent back as a whole. -/
def nlmsgerr (nlh : List Byte) (r : Reply) : List Byte :=
  bytes 4 (BitVec.ofInt 32 r.err).toNat ++
    (padded (if r.err = 0 then nlh.take 16 else nlh) ++ extackTlv r.msg)

/-- `netlink_ack`, for a socket with extended acknowledgements. -/
def netlinkAck (portid : U32) (nlh : List Byte) (r : Reply) : List Byte :=
  let flags := (if r.err = 0 then nlmFCapped else 0) ||| (if r.msg.isSome then nlmFAckTlvs else 0)
  nlmsghdr (16 + (nlmsgerr nlh r).length) nlmsgError flags.toNat (field nlh 8 4) portid.toNat ++
    nlmsgerr nlh r

section Kernel
variable {σ : Type} (cb : σ → List Byte → Option (σ × Reply)) (portid : U32)

/-- Only requests are handled, and no control messages. -/
def handle (s : σ) (nlh : List Byte) : Option (σ × Reply) :=
  if has (nlmsgFlags nlh) nlmFRequest = false ∨ field nlh 4 2 < nlmsgMinType then
    some (s, ⟨0, none⟩)
  else cb s nlh

/-- The label `ack`. -/
def acknowledge (nlh : List Byte) (r : Reply) : List Datagram :=
  if r.err = -eintr then []
  else if has (nlmsgFlags nlh) nlmFAck ∨ r.err ≠ 0 then [⟨0, false, netlinkAck portid nlh r⟩]
  else []

/-- `netlink_rcv_skb`: the messages of a buffer, one after the other. Each has a header at least, so
that the number of bytes bounds the number of messages. -/
def netlinkRcvSkb : ℕ → σ → List Byte → Option (σ × List Datagram)
  | 0, s, _ => some (s, [])
  | n + 1, s, skb =>
    if skb.length < 16 then some (s, [])
    else if field skb 0 4 < 16 ∨ skb.length < field skb 0 4 then some (s, [])
    else do
      let nlh := skb.take (field skb 0 4)
      let (s, r) ← handle cb s nlh
      let (s, acks) ← netlinkRcvSkb n s (skb.drop (align4 (field skb 0 4)))
      return (s, acknowledge portid nlh r ++ acks)

end Kernel

/-! ### The client -/

/-- What is found among the messages of a datagram: an acknowledgement with its error, one that is
too short for it, a message with a wrong length, one that ends behind the datagram, or none of these
and some bytes that are left. -/
inductive Seen
  | reply (error : U32)
  | short
  | malformed
  | overrun
  | remnant (status : ℕ)
  deriving DecidableEq, Repr

/-- How a call ends. It waits if there is nothing more to be received. -/
inductive Outcome
  | returns (ret : ℤ)
  | waits
  | exits
  | faults
  deriving DecidableEq, Repr

/-- The number of requests that are sent at once, a `size_t`. -/
def iovlen : U64 := 1

section Client
variable (pid seq : U32)

/-- The message is not for this call. -/
def skips (nlPid : U32) (h : List Byte) : Bool :=
  nlPid ≠ 0 || field h 12 4 ≠ pid.toNat || seq.toNat < field h 8 4 ||
    BitVec.ofNat 64 (field h 8 4) < seq.setWidth 64 - iovlen

/-- The inner loop of `__rtnl_talk_iov`; `len` and `l` are of type `int`. -/
def scan (nlPid : U32) : ℕ → List Byte → Seen
  | 0, h => .remnant h.length
  | n + 1, h =>
    if h.length < 16 then .remnant h.length
    else
      let len : U32 := BitVec.ofNat 32 (field h 0 4)
      let l := len - 16
      if l.toInt < 0 ∨ (h.length : ℤ) < len.toInt then .malformed
      else if skips pid seq nlPid h ∨ field h 4 2 ≠ nlmsgError then
        if h.length < align4 len.toNat then .overrun else scan nlPid n (h.drop (align4 len.toNat))
      else if l.toInt < 20 then .short
      -- the least `int` lengths pass the tests, though the message is not there
      else if h.length < 20 then .overrun
      else .reply (BitVec.ofNat 32 (field h 16 4))

/-- The outer loop of `__rtnl_talk_iov`, without a place for the answer: how it ends, and what has
not been received then. -/
def await : ℕ → List Datagram → Outcome × List Datagram
  | _, [] => (.waits, [])
  | i, msg :: inbox =>
    match scan pid seq msg.nlPid msg.data.length msg.data with
    | .reply error => (.returns (if error ≠ 0 then -(i + 1) else 0), inbox)
    | .short => (.returns (-1), inbox)
    | .malformed => (if msg.trunc then .returns (-1) else .exits, inbox)
    | .overrun => (.faults, inbox)
    | .remnant status =>
      if msg.trunc ∨ status = 0 then await (i + 1) inbox else (.exits, inbox)

end Client

/-- A client and the kernel: the sequence number of the last request, and what can be received. -/
structure Peer (σ : Type) where
  kernel : σ
  seq : U32
  inbox : List Datagram

/-- The request gets a sequence number and asks for an acknowledgement. -/
def stamp (seq : U32) (msg : List Byte) : List Byte :=
  msg.take 6 ++ (bytes 2 (field msg 6 2 ||| 4) ++ (bytes 4 seq.toNat ++ msg.drop 12))

/-- `rtnl_talk`. -/
def rtnlTalk {σ : Type} (cb : σ → List Byte → Option (σ × Reply)) (pid : U32) (p : Peer σ)
    (msg : List Byte) : Option (Peer σ × Outcome) :=
  let seq := p.seq + 1
  let msg := stamp seq msg
  (netlinkRcvSkb cb pid msg.length p.kernel msg).map fun (kernel, acks) =>
    let r := await pid seq 0 (p.inbox ++ acks)
    (⟨kernel, seq, r.2⟩, r.1)

/-! ### Fields -/

theorem field_append_left {a b : List Byte} {o k : ℕ} (h : o + k ≤ a.length) :
    field (a ++ b) o k = field a o k := by
  rw [field, field, List.drop_append_of_le_length (by omega),
    List.take_append_of_le_length (by rw [List.length_drop]; omega)]

theorem field_append_right {a b : List Byte} {n : ℕ} (h : a.length = n) (o k : ℕ) :
    field (a ++ b) (n + o) k = field b o k := by
  rw [field, field, ← List.drop_drop, List.drop_left' h]

theorem field_bytes (k x : ℕ) (rest : List Byte) : field (bytes k x ++ rest) 0 k = x % 256 ^ k := by
  rw [field, List.drop_zero, List.take_left' (length_bytes k x), value_bytes]

theorem field_lt (h : List Byte) (o k : ℕ) : field h o k < 256 ^ k := by
  have hval : ∀ l : List Byte, value l < 256 ^ l.length := by
    intro l
    induction l with
    | nil => simp [value]
    | cons b l ih =>
      have hb := b.isLt
      rw [value, List.length_cons, pow_succ]
      omega
  exact (hval _).trans_le (Nat.pow_le_pow_right (by omega) (List.length_take_le _ _))

theorem length_nlmsghdr (len type flags seq pid : ℕ) :
    (nlmsghdr len type flags seq pid).length = 16 := by
  rw [nlmsghdr, length_pack]
  rfl

/-- The fields of a header. -/
theorem field_nlmsghdr (len type flags seq pid : ℕ) (rest : List Byte) :
    field (nlmsghdr len type flags seq pid ++ rest) 0 4 = len % 256 ^ 4 ∧
      field (nlmsghdr len type flags seq pid ++ rest) 4 2 = type % 256 ^ 2 ∧
      field (nlmsghdr len type flags seq pid ++ rest) 8 4 = seq % 256 ^ 4 ∧
      field (nlmsghdr len type flags seq pid ++ rest) 12 4 = pid % 256 ^ 4 := by
  have hsplit : nlmsghdr len type flags seq pid ++ rest = bytes 4 len ++ (bytes 2 type ++
      (bytes 2 flags ++ (bytes 4 seq ++ (bytes 4 pid ++ rest)))) := by
    simp [nlmsghdr, pack]
  have h4 := length_bytes 4
  have h2 := length_bytes 2
  rw [hsplit]
  refine ⟨field_bytes 4 len _, ?_, ?_, ?_⟩
  · rw [field_append_right (h4 len) 0 2, field_bytes]
  · rw [field_append_right (h4 len) 4 4, field_append_right (h2 type) 2 4,
      field_append_right (h2 flags) 0 4, field_bytes]
  · rw [field_append_right (h4 len) 8 4, field_append_right (h2 type) 6 4,
      field_append_right (h2 flags) 4 4, field_append_right (h4 seq) 0 4, field_bytes]

theorem length_padded (bs : List Byte) : (padded bs).length = align4 bs.length := by
  have := le_align4 bs.length
  rw [padded, List.length_append, List.length_replicate]
  omega

theorem dvd_align4 (n : ℕ) : 4 ∣ align4 n := ⟨(n + 3) / 4, Nat.mul_comm _ _⟩

theorem length_nlmsgerr {nlh : List Byte} (h : 16 ≤ nlh.length) (r : Reply) :
    20 ≤ (nlmsgerr nlh r).length ∧ 4 ∣ (nlmsgerr nlh r).length := by
  have htlv : 4 ∣ (extackTlv r.msg).length := by
    cases r.msg with
    | none => exact Nat.dvd_zero 4
    | some msg =>
      rw [extackTlv, length_padded]
      exact dvd_align4 _
  have hmsg : 16 ≤ (if r.err = 0 then nlh.take 16 else nlh).length := by
    split_ifs
    · rw [List.length_take]
      omega
    · exact h
  have hpad := length_padded (if r.err = 0 then nlh.take 16 else nlh)
  have hle := le_align4 (if r.err = 0 then nlh.take 16 else nlh).length
  have hdvd := dvd_align4 (if r.err = 0 then nlh.take 16 else nlh).length
  unfold nlmsgerr
  rw [List.length_append, List.length_append, length_bytes]
  omega

/-! ### Acknowledgements -/

/-- The length of an acknowledgement is an `int`. -/
def Fits (nlh : List Byte) (r : Reply) : Prop := 16 + (nlmsgerr nlh r).length < 2147483648

/-- The sequence numbers that count: that of the request, and the one before it. -/
def Counts (seq : U32) (n : ℕ) : Prop := seq ≠ 0 ∧ n ≤ seq.toNat ∧ seq.toNat ≤ n + 1

instance (seq : U32) (n : ℕ) : Decidable (Counts seq n) := inferInstanceAs (Decidable (_ ∧ _))

section Ack
variable {pid seq : U32} {nlh : List Byte} {r : Reply}

variable (seq) in
/-- **What counts**; for the sequence number zero, nothing does. -/
theorem skips_eq_false_iff {h : List Byte} (hpid : field h 12 4 = pid.toNat) :
    skips pid seq 0 h = false ↔ Counts seq (field h 8 4) := by
  have hlt := field_lt h 8 4
  have hn : (BitVec.ofNat 64 (field h 8 4)).toNat = field h 8 4 := by
    rw [BitVec.toNat_ofNat, Nat.mod_eq_of_lt (by omega)]
  have hlow : BitVec.ofNat 64 (field h 8 4) < seq.setWidth 64 - iovlen ↔
      seq = 0 ∨ field h 8 4 + 1 < seq.toNat := by
    have hseq := seq.isLt
    have hz : seq = 0 ↔ seq.toNat = 0 := ⟨fun h0 => by rw [h0]; rfl, fun h0 =>
      BitVec.eq_of_toNat_eq h0⟩
    rw [BitVec.lt_def, hn, BitVec.toNat_sub, BitVec.toNat_setWidth, hz]
    show _ < (2 ^ 64 - 1 + _) % 2 ^ 64 ↔ _
    omega
  unfold skips Counts
  simp only [ne_eq, not_true_eq_false, decide_false, hpid, Bool.false_or, Bool.or_eq_false_iff,
    decide_eq_false_iff_not, hlow, not_or, not_lt]
  tauto

theorem scan_nil (pid seq nlPid : U32) (n : ℕ) : scan pid seq nlPid n [] = .remnant 0 := by
  cases n <;> rfl

/-- The fields of an acknowledgement. -/
theorem fields_netlinkAck (pid : U32) (h16 : 16 ≤ nlh.length) (hfits : Fits nlh r) :
    36 ≤ (netlinkAck pid nlh r).length ∧ (netlinkAck pid nlh r).length < 2147483648 ∧
      4 ∣ (netlinkAck pid nlh r).length ∧
      field (netlinkAck pid nlh r) 0 4 = (netlinkAck pid nlh r).length ∧
      field (netlinkAck pid nlh r) 4 2 = nlmsgError ∧
      field (netlinkAck pid nlh r) 8 4 = field nlh 8 4 ∧
      field (netlinkAck pid nlh r) 12 4 = pid.toNat ∧
      field (netlinkAck pid nlh r) 16 4 = (BitVec.ofInt 32 r.err).toNat := by
  obtain ⟨h20, h4⟩ := length_nlmsgerr h16 r
  unfold Fits at hfits
  unfold netlinkAck
  dsimp only
  generalize ((if r.err = 0 then nlmFCapped else 0) |||
    (if r.msg.isSome then nlmFAckTlvs else 0) : U16).toNat = flags
  have hhdr := length_nlmsghdr (16 + (nlmsgerr nlh r).length) nlmsgError flags (field nlh 8 4)
    pid.toNat
  obtain ⟨hlen, htype, hs, hp⟩ := field_nlmsghdr (16 + (nlmsgerr nlh r).length) nlmsgError flags
    (field nlh 8 4) pid.toNat (nlmsgerr nlh r)
  rw [List.length_append, hhdr, hlen, htype, hs, hp]
  refine ⟨by omega, by omega, by omega, Nat.mod_eq_of_lt (by omega), rfl,
    Nat.mod_eq_of_lt (field_lt nlh 8 4), Nat.mod_eq_of_lt pid.isLt, ?_⟩
  rw [show 16 = 16 + 0 from rfl, field_append_right hhdr 0 4, nlmsgerr, field_bytes]
  exact Nat.mod_eq_of_lt (BitVec.isLt (BitVec.ofInt 32 r.err))

/-- A length that is an `int`, and what it is without a header. -/
theorem int_len {n : ℕ} (h16 : 16 ≤ n) (hint : n < 2147483648) :
    (BitVec.ofNat 32 n).toNat = n ∧ (BitVec.ofNat 32 n).toInt = n ∧
      (BitVec.ofNat 32 n - 16).toInt = n - 16 := by
  have hn : (BitVec.ofNat 32 n).toNat = n := by
    rw [BitVec.toNat_ofNat, Nat.mod_eq_of_lt (by omega)]
  have hi : (BitVec.ofNat 32 n).toInt = n := by
    rw [BitVec.toInt_eq_toNat_of_lt (by omega), hn]
  refine ⟨hn, hi, ?_⟩
  rw [BitVec.toInt_sub, hi]
  exact Int.bmod_eq_of_le (by show _ ≤ (n : ℤ) - 16; omega) (by show (n : ℤ) - 16 < _; omega)

/-- **An acknowledgement is read**: it counts, or it is passed over as a whole. -/
theorem scan_netlinkAck (h16 : 16 ≤ nlh.length) (hfits : Fits nlh r) (n : ℕ) :
    scan pid seq 0 (n + 1) (netlinkAck pid nlh r) =
      if Counts seq (field nlh 8 4) then .reply (BitVec.ofInt 32 r.err) else .remnant 0 := by
  obtain ⟨h36, hint, h4, hlen, htype, hseq, hpid, herr⟩ := fields_netlinkAck pid h16 hfits
  have hskip := skips_eq_false_iff seq hpid
  rw [hseq] at hskip
  generalize netlinkAck pid nlh r = ack at h36 hint h4 hlen htype hpid herr hskip
  obtain ⟨hnat, hlen', hl⟩ := int_len (n := ack.length) (by omega) hint
  rw [scan, if_neg (by omega)]
  dsimp only
  rw [hlen, hnat, hlen', hl, if_neg (by omega), align4_of_dvd h4, htype]
  by_cases hc : Counts seq (field nlh 8 4)
  · rw [if_pos hc, if_neg, if_neg (by omega), if_neg (by omega), herr, BitVec.ofNat_toNat,
      BitVec.setWidth_eq]
    rw [hskip.mpr hc]
    decide
  · have hyes : skips pid seq 0 ack = true := by
      by_contra hno
      exact hc (hskip.mp (by simpa using hno))
    rw [if_neg hc, if_pos (Or.inl hyes), if_neg (lt_irrefl _), List.drop_length, scan_nil]

theorem await_netlinkAck (h16 : 16 ≤ nlh.length) (hfits : Fits nlh r) (i : ℕ)
    (inbox : List Datagram) : await pid seq i (⟨0, false, netlinkAck pid nlh r⟩ :: inbox) =
      if Counts seq (field nlh 8 4) then
        (.returns (if BitVec.ofInt 32 r.err ≠ 0 then -(i + 1) else 0), inbox)
      else await pid seq (i + 1) inbox := by
  obtain ⟨n, hn⟩ : ∃ n, (netlinkAck pid nlh r).length = n + 1 :=
    ⟨(netlinkAck pid nlh r).length - 1, by have := (fields_netlinkAck pid h16 hfits).1; omega⟩
  rw [await]
  dsimp only
  rw [hn, scan_netlinkAck h16 hfits]
  by_cases hc : Counts seq (field nlh 8 4)
  · rw [if_pos hc, if_pos hc]
  · rw [if_neg hc, if_neg hc]
    exact if_pos (Or.inr rfl)

end Ack

/-! ### Talking -/

/-- A message that is a request, and nothing but it; the length of an acknowledgement that sends it
back is an `int`. -/
structure IsRequest (msg : List Byte) : Prop where
  len : field msg 0 4 = msg.length
  short : msg.length + 23 < 2147483648
  header : 16 ≤ msg.length
  type : nlmsgMinType ≤ field msg 4 2
  flags : has (nlmsgFlags msg) nlmFRequest = true

section Stamp
variable {msg : List Byte} (seq : U32)

theorem length_stamp (h : 16 ≤ msg.length) : (stamp seq msg).length = msg.length := by
  simp only [stamp, List.length_append, List.length_take, List.length_drop, length_bytes]
  omega

/-- The fields of a request that was stamped. -/
theorem field_stamp (h : 16 ≤ msg.length) :
    field (stamp seq msg) 0 4 = field msg 0 4 ∧ field (stamp seq msg) 4 2 = field msg 4 2 ∧
      field (stamp seq msg) 6 2 = (field msg 6 2 ||| 4) % 256 ^ 2 ∧
      field (stamp seq msg) 8 4 = seq.toNat := by
  have h6 : (msg.take 6).length = 6 := by rw [List.length_take]; omega
  have hsame : ∀ o k, o + k ≤ 6 → field (stamp seq msg) o k = field msg o k := by
    intro o k hok
    rw [stamp, field_append_left (by omega)]
    nth_rewrite 2 [← List.take_append_drop 6 msg]
    rw [field_append_left (by omega)]
  refine ⟨hsame 0 4 (by omega), hsame 4 2 (by omega), ?_, ?_⟩
  · rw [stamp, show 6 = 6 + 0 from rfl, field_append_right h6 0 2, field_bytes]
  · rw [stamp, show 8 = 6 + 2 from rfl, field_append_right h6 2 4,
      show 2 = 2 + 0 from rfl, field_append_right (length_bytes 2 _) 0 4, field_bytes]
    exact Nat.mod_eq_of_lt seq.isLt

theorem nlmsgFlags_stamp (h : 16 ≤ msg.length) :
    nlmsgFlags (stamp seq msg) = nlmsgFlags msg ||| nlmFAck := by
  unfold nlmsgFlags nlmFAck
  rw [(field_stamp seq h).2.2.1]
  refine BitVec.eq_of_toNat_eq ?_
  rw [BitVec.toNat_or, BitVec.toNat_ofNat, BitVec.toNat_ofNat]
  show (field msg 6 2 ||| 4) % 2 ^ 16 % 2 ^ 16 = field msg 6 2 % 2 ^ 16 ||| 4 % 2 ^ 16
  rw [Nat.mod_mod, Nat.or_mod_two_pow]

end Stamp

section Spec
variable {σ : Type} {cb : σ → List Byte → Option (σ × Reply)} {pid : U32} {p : Peer σ}
  {msg : List Byte} {s' : σ} {r : Reply}

/-- **The kernel acknowledges a request.** -/
theorem netlinkRcvSkb_request {s : σ} (h : IsRequest msg) (hack : has (nlmsgFlags msg) nlmFAck)
    (hcb : cb s msg = some (s', r)) (hintr : r.err ≠ -eintr) :
    netlinkRcvSkb cb pid msg.length s msg = some (s', [⟨0, false, netlinkAck pid msg r⟩]) := by
  obtain ⟨n, hn⟩ : ∃ n, msg.length = n + 1 := ⟨msg.length - 1, by have := h.header; omega⟩
  have hhandle : handle cb s msg = some (s', r) := by
    rw [handle, if_neg, hcb]
    rw [h.flags]
    exact fun hor => hor.elim (fun hno => by cases hno) (not_lt.mpr h.type)
  have hacks : acknowledge pid msg r = [⟨0, false, netlinkAck pid msg r⟩] := by
    rw [acknowledge, if_neg hintr, if_pos (Or.inl hack)]
  have hrest : ∀ s', netlinkRcvSkb cb pid n s' (msg.drop (align4 msg.length)) = some (s', []) := by
    intro s'
    rw [List.drop_of_length_le (le_align4 _)]
    cases n <;> rfl
  have hlen := h.len
  have hheader := h.header
  rw [hn, netlinkRcvSkb, if_neg (by omega), if_neg (by omega)]
  dsimp only
  rw [h.len, List.take_length, hhandle]
  dsimp only [Option.bind_eq_bind, Option.bind_some]
  rw [hrest, Option.bind_some, hacks]
  rfl

theorem IsRequest.stamp (h : IsRequest msg) (seq : U32) : IsRequest (stamp seq msg) where
  len := by rw [(field_stamp seq h.header).1, length_stamp seq h.header, h.len]
  short := by rw [length_stamp seq h.header]; exact h.short
  header := by rw [length_stamp seq h.header]; exact h.header
  type := by rw [(field_stamp seq h.header).2.1]; exact h.type
  flags := by
    rw [nlmsgFlags_stamp seq h.header, has_or, h.flags]
    rfl

/-- Without a text, an acknowledgement fits. -/
theorem fits_of_request (h : IsRequest msg) (hr : r.msg = none) : Fits msg r := by
  have hshort := h.short
  have hle : (if r.err = 0 then msg.take 16 else msg).length ≤ msg.length := by
    split_ifs
    · exact List.length_take_le' _ _
    · exact le_refl _
  unfold Fits nlmsgerr
  rw [List.length_append, List.length_append, length_bytes, length_padded, hr]
  unfold align4
  show 16 + (4 + (_ + 0)) < _
  omega

/-- **What `rtnl_talk` returns**: from a socket with nothing in it, what became of the request; and
nothing is left in the socket. It does not return if the sequence number is zero. -/
theorem rtnlTalk_spec (h : IsRequest msg) (hinbox : p.inbox = [])
    (hcb : cb p.kernel (stamp (p.seq + 1) msg) = some (s', r)) (hintr : r.err ≠ -eintr)
    (hfits : Fits (stamp (p.seq + 1) msg) r) :
    rtnlTalk cb pid p msg = some (⟨s', p.seq + 1, []⟩,
      if p.seq + 1 = 0 then .waits
      else .returns (if BitVec.ofInt 32 r.err ≠ 0 then -1 else 0)) := by
  have hreq := h.stamp (p.seq + 1)
  have hack : has (nlmsgFlags (stamp (p.seq + 1) msg)) nlmFAck := by
    rw [nlmsgFlags_stamp _ h.header, has_or, Bool.or_eq_true]
    exact Or.inr rfl
  have hseq := (field_stamp (p.seq + 1) h.header).2.2.2
  rw [rtnlTalk]
  dsimp only
  rw [netlinkRcvSkb_request hreq hack hcb hintr, hinbox]
  dsimp only [Option.map_some, List.nil_append]
  rw [await_netlinkAck hreq.header hfits, hseq]
  by_cases hz : p.seq + 1 = 0
  · rw [if_pos hz, if_neg fun hc => hc.1 hz]
    rfl
  · rw [if_neg hz, if_pos ⟨hz, le_refl _, Nat.le_succ _⟩]
    rfl

end Spec

/-! ### Runs -/

/-- A client and the kernel; and for each request that was answered, what became of it, and what
`rtnl_talk` returned. -/
structure Talked (σ : Type) where
  peer : Peer σ
  log : List (ℤ × ℤ)

section Run
variable {σ : Type} (cb : σ → List Byte → Option (σ × Reply)) (pid : U32)

/-- A request; `none` if `rtnl_talk` does not return. -/
def talkStep (t : Talked σ) (msg : List Byte) : Option (Talked σ) := do
  let (_, r) ← cb t.peer.kernel (stamp (t.peer.seq + 1) msg)
  let (peer, outcome) ← rtnlTalk cb pid t.peer msg
  match outcome with
  | .returns ret => some ⟨peer, t.log ++ [(r.err, ret)]⟩
  | _ => none

/-- The kernel deals with a request, and is not interrupted. -/
def Deals (s : σ) (msg : List Byte) : Prop := ∃ s' r, cb s msg = some (s', r) ∧
  r.err ≠ -eintr ∧ Fits msg r ∧ (BitVec.ofInt 32 r.err).toInt = r.err

variable {cb pid}

variable (pid) in
/-- **A request is answered**, unless its sequence number is zero. -/
theorem talkStep_spec {t : Talked σ} {msg : List Byte} (hreq : IsRequest msg)
    (hd : Deals cb t.peer.kernel (stamp (t.peer.seq + 1) msg)) (hinbox : t.peer.inbox = []) :
    ∃ s' err, talkStep cb pid t msg = if t.peer.seq + 1 = 0 then none
      else some ⟨⟨s', t.peer.seq + 1, []⟩, t.log ++ [(err, if err = 0 then 0 else -1)]⟩ := by
  obtain ⟨s', r, hcb, hintr, hfits, hint⟩ := hd
  have hzero : BitVec.ofInt 32 r.err ≠ 0 ↔ ¬ r.err = 0 := by
    refine not_congr ⟨fun h0 => ?_, fun h0 => by rw [h0]; rfl⟩
    rw [← hint, h0]
    rfl
  refine ⟨s', r.err, ?_⟩
  rw [talkStep, hcb, rtnlTalk_spec hreq hinbox hcb hintr hfits]
  by_cases hseq : t.peer.seq + 1 = 0
  · rw [if_pos hseq, if_pos hseq]
    rfl
  · rw [if_neg hseq, if_neg hseq, ite_congr (propext hzero) (fun _ => rfl) (fun _ => rfl), ite_not]
    rfl

/-- **Every call returns what became of its own request**, however many there are: zero if the
kernel has accepted it, and -1 if not. -/
theorem talks_answered {start t : Talked σ} {msgs : List (List Byte)}
    (hinbox : start.peer.inbox = []) (hlog : start.log = [])
    (hdeals : AllSteps (talkStep cb pid) (fun t msg => IsRequest msg ∧
      Deals cb t.peer.kernel (stamp (t.peer.seq + 1) msg)) start msgs)
    (hrun : run (talkStep cb pid) start msgs = some t) :
    t.peer.inbox = [] ∧ ∀ x ∈ t.log, x.2 = if x.1 = 0 then 0 else -1 := by
  refine run_keeps_of_allSteps (I := fun t => t.peer.inbox = [] ∧
    ∀ x ∈ t.log, x.2 = if x.1 = 0 then 0 else -1) ?_ ⟨hinbox, by simp [hlog]⟩ hdeals hrun
  rintro t msg t' ⟨hinbox, hlog⟩ ⟨hreq, hd⟩ ht'
  obtain ⟨s', err, hstep⟩ := talkStep_spec pid hreq hd hinbox
  by_cases hseq : t.peer.seq + 1 = 0
  · rw [hstep, if_pos hseq] at ht'
    cases ht'
  rw [hstep, if_neg hseq] at ht'
  cases ht'
  refine ⟨rfl, fun x hx => ?_⟩
  rcases List.mem_append.mp hx with hx | hx
  · exact hlog x hx
  · rw [List.mem_singleton.mp hx]

/-- **How long this goes on**: with a kernel that deals with every request, all calls return if and
only if the sequence number does not come to zero. -/
theorem talks_return_iff (hdeals : ∀ s msg, IsRequest msg → Deals cb s msg) :
    ∀ {msgs : List (List Byte)} {start : Talked σ}, start.peer.inbox = [] →
      (∀ msg ∈ msgs, IsRequest msg) → ((run (talkStep cb pid) start msgs).isSome ↔
        start.peer.seq.toNat + msgs.length < 2 ^ 32)
  | [], start, _, _ => iff_of_true rfl start.peer.seq.isLt
  | msg :: msgs, start, hinbox, hreqs => by
    have hreq := hreqs msg List.mem_cons_self
    have hlt := start.peer.seq.isLt
    have hnext : (start.peer.seq + 1).toNat = (start.peer.seq.toNat + 1) % 2 ^ 32 :=
      BitVec.toNat_add _ _
    obtain ⟨s', err, hstep⟩ := talkStep_spec pid hreq
      (hdeals _ _ (hreq.stamp (start.peer.seq + 1))) hinbox
    rw [run_cons, hstep, List.length_cons]
    by_cases hzero : start.peer.seq + 1 = 0
    · have h0 : (start.peer.seq + 1).toNat = 0 := by rw [hzero]; rfl
      rw [if_pos hzero]
      exact iff_of_false Bool.false_ne_true (by omega)
    · have h0 : (start.peer.seq + 1).toNat ≠ 0 := fun h0 => hzero (BitVec.eq_of_toNat_eq h0)
      rw [if_neg hzero, Option.bind_some, talks_return_iff hdeals rfl fun x hx =>
        hreqs x (List.mem_cons_of_mem _ hx)]
      show (start.peer.seq + 1).toNat + msgs.length < 2 ^ 32 ↔ _
      omega

end Run

/-- A kernel that counts the requests of one type, and refuses those of any other. -/
def counting (s : ℕ) (msg : List Byte) : Option (ℕ × Reply) :=
  if field msg 4 2 = 36 then some (s + 1, ⟨0, none⟩) else some (s, ⟨-95, none⟩)

/-- Two requests, of different types. -/
def twoTypes : List (List Byte) := [nlmsghdr 16 36 1 0 0, nlmsghdr 16 40 1 0 0]

theorem deals_counting (s : ℕ) {msg : List Byte} (h : IsRequest msg) : Deals counting s msg := by
  unfold Deals counting
  split_ifs
  · exact ⟨_, _, rfl, by decide, fits_of_request h rfl, rfl⟩
  · exact ⟨_, _, rfl, by decide, fits_of_request h rfl, rfl⟩

theorem twoTypes_requests : ∀ msg ∈ twoTypes, IsRequest msg := by
  intro msg hmsg
  rcases List.mem_pair.mp hmsg with rfl | rfl
  · exact ⟨by decide, by decide, by decide, by decide, by decide⟩
  · exact ⟨by decide, by decide, by decide, by decide, by decide⟩

theorem talks_return_iff_twoTypes :
    (run (talkStep counting 77) ⟨⟨0, 9, []⟩, []⟩ twoTypes).isSome :=
  (talks_return_iff deals_counting rfl twoTypes_requests).mpr (by decide)

theorem twoTypes_run :
    (run (talkStep counting 77) ⟨⟨0, 9, []⟩, []⟩ twoTypes).isSome := by decide +kernel

theorem talks_answered_twoTypes :
    ∃ t, run (talkStep counting 77) ⟨⟨0, 9, []⟩, []⟩ twoTypes = some t ∧
      t.log = [(0, 0), (-95, -1)] ∧ t.peer.inbox = [] ∧
      ∀ x ∈ t.log, x.2 = if x.1 = 0 then 0 else -1 := by
  have hrun := (Option.some_get twoTypes_run).symm
  refine ⟨_, hrun, by decide +kernel, talks_answered rfl rfl ?_ hrun⟩
  exact allSteps_of_inv (I := fun _ => True) (fun _ _ _ _ _ _ => trivial)
    (fun t msg _ hmsg => ⟨hmsg, deals_counting _ (hmsg.stamp _)⟩) trivial twoTypes_requests

end DynBandwidth.Tbf.Talk
