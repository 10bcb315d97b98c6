import DynBandwidth.Sched.Device

/-! # The driver and its devices

The whole control loop: the driver sends its requests to the kernel and gets the acknowledgements,
the requests change the disciplines of two devices, and packets come and go on these devices at any
time, also between two requests of one round.

If the devices work at the beginning, no request is refused, and the kernel does not fault, in any
run (`driven_runs`). After a round both devices have the rate and the latency of the entry
(`driven_installs`), and the driver is where the rounds of its main loop lead (`driven_rounds`). All
the time the devices obey the rate of the moment (`driven_conforms`) and delay by the latency of the
moment (`driven_delays`). -/

namespace DynBandwidth.Sched.Driven

open DynBandwidth.Lib.Bytes DynBandwidth.Lib.Attributes DynBandwidth.Lib.Runs
open DynBandwidth.Lib.TimeQueue DynBandwidth.Lib.TokenBucket
open DynBandwidth.Tbf.Uapi DynBandwidth.Tbf.Libnetlink DynBandwidth.Tbf.Kernel
open DynBandwidth.Tbf.Schedule DynBandwidth.Tbf.TcCore DynBandwidth.Tbf.TbfNetem
open DynBandwidth.Tbf.Requests
open DynBandwidth.Tbf.Rounds DynBandwidth.Tbf.Talk DynBandwidth.Tbf.Modify
open DynBandwidth.Sched.Qdisc (Skb)
open DynBandwidth.Sched.Device
open DynBandwidth.Reorder.Header (U16 U32 U64)

/-! ### The system -/

/-- The next call of `rtnl_talk` in the main loop. In the middle of a round it has an entry. -/
inductive Turn
  | tbf1
  | tbf2 (e : BwParam)
  | netem1 (e : BwParam)
  | netem2 (e : BwParam)
  deriving DecidableEq

/-- The driver goes on, waits forever, or has ended. -/
inductive Status
  | going (turn : Turn)
  | waits
  | ended (stop : Stop)
  deriving DecidableEq

/-- The driver, its socket, the devices, and the time of the last event. -/
structure System where
  driver : Driver
  status : Status
  inbox : List Datagram
  net : Net
  clock : U64

/-- What happens: a packet arrives at a device, a device is asked for a packet, or the driver sends
its next request. -/
inductive Input
  | arrive (idx : U32) (now : U64) (skb : Skb)
  | poll (idx : U32) (now : U64)
  | talk (now : U64)

def Input.now : Input → U64
  | .arrive _ now _ => now
  | .poll _ now => now
  | .talk now => now

/-- What the driver does up to its next call of `rtnl_talk`, and the turn after it. -/
def prepare (env : Env) (s : Sched) (d : Driver) : Turn → Except Stop (Driver × Turn)
  | .tbf1 => do
    let index ← orFault (nextIndex d.index s.nbws)
    let e ← orFault s.bws[index.toNat]?
    let d ← { d with index := index }.tbf env e
    return (d, .tbf2 e)
  | .tbf2 e => .ok ({ d with req := d.req.put32 tcmIfindex env.idx2 }, .netem1 e)
  | .netem1 e => .ok (d.netem env e, .netem2 e)
  | .netem2 _ => .ok ({ d with req := d.req.put32 tcmIfindex env.idx2 }, .tbf1)

/-- The request in the buffer. -/
def message (d : Driver) : List Byte := load d.req.mem 0 (nlmsgLen d.req.mem)

/-- What the program is run with: the kernel, the port of its socket, and its arguments. -/
structure Setting where
  kernel : Link.Env
  pid : U32
  env : Env
  sched : Sched

section Model
variable (c : Setting)

/-- How the driver goes on after a call of `rtnl_talk`. -/
def proceed (d : Driver) (next : Turn) : Tbf.Talk.Outcome → Driver × Status
  | .returns ret =>
    match d.talk ret with
    | .ok d => (d, .going next)
    | .error stop => (d, .ended stop)
  | .waits => (d, .waits)
  | .exits => (d, .ended (.exit 1))
  | .faults => (d, .ended .fault)

/-- A call of `rtnl_talk`. -/
def exchange (now : U64) (sys : System) (d : Driver) (next : Turn) : Option System :=
  (rtnlTalk (rtnetlinkRcvMsg c.kernel now) c.pid ⟨sys.net, d.seq, sys.inbox⟩ (message d)).map
    fun r =>
      { driver := (proceed d next r.2).1
        status := (proceed d next r.2).2
        inbox := r.1.inbox
        net := r.1.kernel
        clock := now }

/-- An event at a device, if it is there. -/
def atDevice (now : U64) (sys : System) (idx : U32) (ev : Qdisc.Event) : Option System :=
  match sys.net idx with
  | none => some { sys with clock := now }
  | some w =>
    (Link.step c.kernel w (.event ev)).map fun w' =>
      { sys with net := Function.update sys.net idx (some w'), clock := now }

/-- **A step of the system.** -/
def step (sys : System) : Input → Option System
  | .arrive idx now skb => atDevice c now sys idx (.enqueue now skb)
  | .poll idx now => atDevice c now sys idx (.dequeue now)
  | .talk now =>
    match sys.status with
    | .going turn =>
      match prepare c.env c.sched sys.driver turn with
      | .error stop => some { sys with status := .ended stop, clock := now }
      | .ok (d, next) => exchange c now sys d next
    | _ => some { sys with clock := now }

/-- The driver has been started; the devices have the disciplines it needs. -/
def System.start (net : Net) (now : U64) : System :=
  ⟨Tbf.TbfNetem.start c.env, .going .tbf1, [], net, now⟩

end Model

/-- **The turns of a round are a round.** -/
theorem round_eq (env : Env) (s : Sched) (d : Driver) (a : Answers) :
    d.round env s a = (do
      let r ← prepare env s d .tbf1
      let d ← r.1.talk a.tbf1
      let r ← prepare env s d r.2
      let d ← r.1.talk a.tbf2
      let r ← prepare env s d r.2
      let d ← r.1.talk a.netem1
      let r ← prepare env s d r.2
      r.1.talk a.netem2) := by
  unfold Driver.round Driver.talkBoth
  rw [prepare]
  simp only [bind_assoc]
  rfl

/-! ### The buffer -/

/-- The flags of the request in the buffer are `NLM_F_REQUEST`, perhaps with `NLM_F_ACK`. -/
def Asks (b : Buf) : Prop := value (load b.mem 6 2) = 1 ∨ value (load b.mem 6 2) = 5

section Flags
variable {b : Buf}

theorem Asks.of_load {b' : Buf} (h : Asks b) (hl : load b'.mem 6 2 = load b.mem 6 2) : Asks b' := by
  unfold Asks
  rw [hl]
  exact h

theorem Asks.put32 (h : Asks b) {o : ℕ} (ho : 8 ≤ o) (x : U32) : Asks (b.put32 o x) :=
  h.of_load (load_store_disjoint _ (Or.inl ho))

theorem Asks.begin (h : Asks b) {kind : List Byte} (hkind : kind.length ≤ 15)
    (parent handle ifindex : U32) : Asks (b.begin kind parent handle ifindex) := by
  have hlen : align4 (4 + (cString kind).length) ≤ 20 := by
    simp only [cString, List.length_append, List.length_singleton, align4]
    omega
  obtain ⟨x, -, -, -, hsame, -⟩ := add_spec (b := ⟨setNlmsgLen b.mem headerLen, b.rets⟩)
    (body_start b.mem) sizeofReq tcaKind (cString kind)
    (by simp only [List.length_nil]; unfold sizeofReq; omega) le_rfl (by decide)
    (by have := le_align4 (4 + (cString kind).length); omega)
  have hadd : Asks (Buf.add ⟨setNlmsgLen b.mem headerLen, b.rets⟩ sizeofReq tcaKind
      (cString kind)) := by
    refine h.of_load ?_
    rw [hsame 6 2 (by omega) (by decide)]
    exact sameHeader_setNlmsgLen b.mem headerLen 6 2 (by omega) (by decide)
  exact ((hadd.put32 (by decide) parent).put32 (by decide) handle).put32 (by decide) ifindex

/-- The options leave the flags as they are. -/
theorem Asks.tbf (h : Asks b) (htype : load b.mem 4 2 = bytes 2 36) (parent handle ifindex : U32)
    (opt : TcTbfQopt) (rate64 : U64) {rtab : List U32} (hrtab : (rtabBytes rtab).length = 1024) :
    Asks ((b.begin kindTbf parent handle ifindex).tbfOptions opt rate64 rtab) := by
  obtain ⟨x, -, hlen, hbody, -, -⟩ :=
    begin_spec b htype (by decide : kindTbf.length ≤ 15) parent handle ifindex
  obtain ⟨inner, -, -, -, hsame, -⟩ := tbfOptions_spec hbody hlen opt rate64 hrtab
  exact (h.begin (by decide) parent handle ifindex).of_load (hsame 6 2 (by omega) (by decide))

theorem Asks.netem (h : Asks b) (htype : load b.mem 4 2 = bytes 2 36) (parent handle ifindex : U32)
    (nopt : TcNetemQopt) : Asks ((b.begin kindNetem parent handle ifindex).netemOptions nopt) := by
  obtain ⟨x, -, hlen, hbody, -, -⟩ :=
    begin_spec b htype (by decide : kindNetem.length ≤ 15) parent handle ifindex
  obtain ⟨-, hsame, -⟩ := netemOptions_spec hbody hlen nopt
  exact (h.begin (by decide) parent handle ifindex).of_load (hsame 6 2 (by omega) (by decide))

end Flags

/-! ### A call of `rtnl_talk` -/

/-- The buffer after a call. -/
def told (d : Driver) : Mem :=
  store (store d.req.mem 8 (bytes 4 (d.seq + 1).toNat)) 6
    (bytes 2 (value (load (store d.req.mem 8 (bytes 4 (d.seq + 1).toNat)) 6 2) ||| 4))

/-- The driver after a call that succeeds. -/
def talked (d : Driver) : Driver :=
  { d with
    req := ⟨told d, d.req.rets⟩
    seq := d.seq + 1
    sent := d.sent ++ [load (told d) 0 (nlmsgLen (told d))] }

section Exchange
variable {d : Driver} {kind opt : List Byte} {ifindex handle parent : U32}

theorem nlmsgLen_told (d : Driver) : nlmsgLen (told d) = nlmsgLen d.req.mem := by
  unfold told
  rw [nlmsgLen_store _ (by omega), nlmsgLen_store _ (by omega)]

theorem load_told {o n : ℕ} (h : o + n ≤ 6 ∨ 12 ≤ o) : load (told d) o n = load d.req.mem o n := by
  unfold told
  rw [load_store_disjoint _ (by rw [length_bytes]; omega),
    load_store_disjoint _ (by rw [length_bytes]; omega)]

/-- **What is sent** is the request with its sequence number. -/
theorem stamp_message (h : 12 ≤ nlmsgLen d.req.mem) :
    stamp (d.seq + 1) (message d) = load (told d) 0 (nlmsgLen (told d)) := by
  have hsplit : ∀ m : Mem, load m 0 (nlmsgLen d.req.mem) =
      load m 0 6 ++ (load m 6 2 ++ (load m 8 4 ++ load m 12 (nlmsgLen d.req.mem - 12))) := by
    intro m
    rw [← load_add, ← load_add, ← load_add]
    congr 1
    omega
  have hflags : load (told d) 6 2 = bytes 2 (field (message d) 6 2 ||| 4) := by
    unfold told message
    rw [load_store_bytes, load_store_disjoint _ (by omega), field_load _ (by omega)]
  have hseq : load (told d) 8 4 = bytes 4 (d.seq + 1).toNat := by
    unfold told
    rw [load_store_disjoint _ (by rw [length_bytes]; omega), load_store_bytes]
  rw [nlmsgLen_told, hsplit (told d), load_told (by omega), hflags, hseq, load_told (by omega),
    stamp]
  unfold message
  rw [hsplit d.req.mem, List.take_left' (length_load _ _ _), ← hsplit d.req.mem]
  congr 3
  rw [show nlmsgLen d.req.mem = 12 + (nlmsgLen d.req.mem - 12) by omega, load_add,
    List.drop_left' (length_load _ _ _)]
  congr 1
  omega

theorem length_encodes {as : List Attr} {bs : List Byte} (h : Encodes as bs) :
    bs.length ≤ 65540 * as.length := by
  induction h with
  | nil => exact Nat.le_refl _
  | @cons a as fill rest ha hfill _ ih =>
    have hlen := length_frame a
    have hfits := ha.2
    unfold align4 at hfill
    simp only [List.length_append, List.length_cons]
    omega

/-- **A finished request** is one that the kernel takes. -/
theorem isRequest_message (h : Ready d.req kind opt ifindex handle parent) (ha : Asks d.req) :
    IsRequest (message d) := by
  obtain ⟨⟨body, hbody, henc⟩, hheader⟩ := h
  have hlen : nlmsgLen d.req.mem = 36 + body.length := hbody.len
  have hle := length_encodes henc
  simp only [List.length_cons, List.length_nil] at hle
  unfold message
  refine ⟨?_, ?_, ?_, ?_, ?_⟩
  · rw [field_load _ (by omega), length_load, nlmsgLen]
  · rw [length_load]
    omega
  · rw [length_load]
    omega
  · rw [field_load _ (by omega), hheader.type]
    decide
  · rw [nlmsgFlags, field_load _ (by omega)]
    rcases ha with ha | ha <;> rw [ha] <;> rfl

theorem Asks.talked (h : Asks d.req) : Asks (talked d).req := by
  right
  show value (load (told d) 6 2) = 5
  unfold told
  rw [load_store_bytes, load_store_disjoint _ (by omega), value_bytes]
  rcases h with h | h <;> rw [h] <;> rfl

theorem ready_talked (h : Ready d.req kind opt ifindex handle parent) :
    Ready (talked d).req kind opt ifindex handle parent :=
  h.store_seq _ _

theorem inv_talked {env : Env} (h : Tbf.Rounds.Inv env d) : Tbf.Rounds.Inv env (talked d) where
  type := (load_told (by omega)).trans h.type
  opt := h.opt
  rtab := h.rtab
  nopt := h.nopt

/-- **A request that its discipline accepts**: the driver goes on, unless the sequence number is
zero, and the socket has nothing in it. -/
theorem exchange_spec {c : Setting} {now : U64} {sys : System} (next : Turn) {place : Place}
    (hready : Ready d.req place.kind opt ifindex (asksHandle place) (asksParent place))
    (ha : Asks d.req) (hinbox : sys.inbox = []) {w w' : Link.World}
    (hw : sys.net ifindex = some w) (hchange : change c.kernel now w opt place = some (w', 0)) :
    exchange c now sys d next = some {
      driver := if d.seq + 1 = 0 then d else talked d
      status := if d.seq + 1 = 0 then .waits else .going next
      inbox := []
      net := Function.update sys.net ifindex (some w')
      clock := now } := by
  have hreq := isRequest_message hready ha
  have hlen : 36 ≤ nlmsgLen d.req.mem := by
    obtain ⟨⟨body, hbody, -⟩, -⟩ := hready
    rw [hbody.len]
    exact Nat.le_add_right _ _
  have hstamp := stamp_message (d := d) (by omega)
  have hrequest := (ready_talked hready).request
  have hflags : nlmsgFlags (stamp (d.seq + 1) (message d)) = 5 := by
    rw [nlmsgFlags_stamp _ hreq.header, nlmsgFlags, message, field_load _ (by omega)]
    rcases ha with ha | ha <;> rw [ha] <;> rfl
  have hcb : rtnetlinkRcvMsg c.kernel now sys.net (stamp (d.seq + 1) (message d)) =
      some (Function.update sys.net ifindex (some w'), ⟨0, none⟩) := by
    rw [rcvMsg_request (hstamp ▸ hrequest) (by rw [hflags]; decide) (by rw [hflags]; decide) hw,
      hchange]
    rfl
  rw [exchange, rtnlTalk_spec (p := ⟨sys.net, d.seq, sys.inbox⟩) hreq hinbox hcb (by decide)
    (fits_of_request (hreq.stamp _) rfl)]
  by_cases hz : d.seq + 1 = 0
  · simp only [if_pos hz, Option.map_some]
    rfl
  · simp only [if_neg hz, Option.map_some]
    rfl

end Exchange

/-! ### Turns -/

/-- The discipline and the device of a request. -/
def target (env : Env) : Turn → Place × U32
  | .tbf1 => (.bucket, env.idx1)
  | .tbf2 _ => (.bucket, env.idx2)
  | .netem1 _ => (.emulator, env.idx1)
  | .netem2 _ => (.emulator, env.idx2)

/-- What has been set in a round when a turn comes; at its end, everything. -/
def done (env : Env) : Turn → List (Place × U32)
  | .tbf1 => [(.bucket, env.idx1), (.bucket, env.idx2), (.emulator, env.idx1),
      (.emulator, env.idx2)]
  | .tbf2 _ => [(.bucket, env.idx1)]
  | .netem1 _ => [(.bucket, env.idx1), (.bucket, env.idx2)]
  | .netem2 _ => [(.bucket, env.idx1), (.bucket, env.idx2), (.emulator, env.idx1)]

/-- The entry that a round has. -/
def Turn.entry : Turn → Option BwParam
  | .tbf1 => none
  | .tbf2 e => some e
  | .netem1 e => some e
  | .netem2 e => some e

/-- The options are those of an entry. -/
def OptFor (env : Env) (e : Entry) (opt : List Byte) : Place → Prop
  | .bucket => attrs opt = entryAttrs env e.param
  | .emulator => opt = entryOpt env e.param

/-- The buffer holds a request with the options of an entry. -/
def Holds (env : Env) (e : Entry) (b : Buf) (place : Place) (idx : U32) : Prop :=
  ∃ opt, Ready b place.kind opt idx (asksHandle place) (asksParent place) ∧ OptFor env e opt place

/-- The buffer that a turn starts from: the second request of a kind is made from the first one. -/
def Loaded (env : Env) (e : Entry) (b : Buf) : Turn → Prop
  | .tbf2 _ => Holds env e b .bucket env.idx1
  | .netem2 _ => Holds env e b .emulator env.idx1
  | _ => True

theorem Holds.put32 {env : Env} {e : Entry} {b : Buf} {place : Place} {idx : U32}
    (h : Holds env e b place idx) (x : U32) : Holds env e (b.put32 tcmIfindex x) place x := by
  obtain ⟨opt, hready, hopt⟩ := h
  exact ⟨opt, hready.put32 x, hopt⟩

/-- The driver between two turns: the options of an entry do not depend on earlier ones; in a round,
the entry is that of the index. -/
structure AtTurn (env : Env) (s : Sched) (d : Driver) (turn : Turn) (e : Entry) : Prop where
  entry : s.entries[d.index.toNat]? = some e
  param : ∀ p ∈ turn.entry, p = e.param
  loaded : Loaded env e d.req turn

/-- **The request of a turn is ready**, with an entry; the turn after it can follow. -/
structure Prepared (env : Env) (s : Sched) (d : Driver) (turn : Turn) (e : Entry) (d' : Driver)
    (next : Turn) : Prop where
  eq : prepare env s d turn = .ok (d', next)
  inv : Tbf.Rounds.Inv env d'
  asks : Asks d'.req
  holds : Holds env e d'.req (target env turn).1 (target env turn).2
  after : AtTurn env s d' next e

section Prepare
variable {env : Env} {s : Sched} {d : Driver} {e : Entry}

theorem OptFor.of_inv (hinv : Tbf.Rounds.Inv env d) (e : Entry) :
    tbfAttrs (nextOpt env e.param d.opt) e.param.bandwidth
      (calcRtable env (withRate e.param d.opt)).2.1 = entryAttrs env e.param := by
  rw [hinv.opt, hinv.rtab]
  rfl

/-- **The first request of a round** takes the next entry. -/
theorem prepare_first (hinv : Tbf.Rounds.Inv env d) (ha : Asks d.req) : ∃ e d' next,
    Prepared env s d .tbf1 e d' next ∧ done env next = [target env .tbf1] := by
  obtain ⟨index, e, hindex, hentry, hbws⟩ := next_entry s d.index
  obtain ⟨opt, hattrs, hready, -⟩ := tbf_ready d.req hinv.type 0xFFFFFFFF 0 env.idx1
    (nextOpt env e.param d.opt) e.param.bandwidth
    (length_calcRtable env (withRate e.param d.opt))
  rw [OptFor.of_inv hinv e] at hattrs
  have htbf := tbf_eq env { d with index := index } e.param
  generalize hd' : ({ d with
    req := (d.req.begin kindTbf 0xFFFFFFFF 0 env.idx1).tbfOptions (nextOpt env e.param d.opt)
      e.param.bandwidth (calcRtable env (withRate e.param d.opt)).2.1
    opt := nextOpt env e.param d.opt
    index := index } : Driver) = d' at htbf
  have hready' : Ready d'.req kindTbf opt env.idx1 0 0xFFFFFFFF := by rw [← hd']; exact hready
  refine ⟨e, d', .tbf2 e.param, ⟨?_, ?_, ?_, ⟨opt, hready', hattrs⟩, ⟨?_, ?_,
    ⟨opt, hready', hattrs⟩⟩⟩, rfl⟩
  · simp only [prepare, hindex, hbws, orFault_bind]
    rw [htbf]
    rfl
  · rw [← hd']
    exact ⟨hready.header.type, hinv.opt, hinv.rtab, hinv.nopt⟩
  · rw [← hd']
    exact ha.tbf hinv.type _ _ _ _ _ (length_calcRtable env (withRate e.param d.opt))
  · rw [← hd']
    exact hentry
  · rintro p ⟨⟩
    rfl

/-- **The other requests of a round.** -/
theorem prepare_next (hinv : Tbf.Rounds.Inv env d) (ha : Asks d.req) {turn : Turn}
    (hturn : turn ≠ .tbf1) (hat : AtTurn env s d turn e) : ∃ d' next,
      Prepared env s d turn e d' next ∧ done env next ⊆ target env turn :: done env turn := by
  cases turn with
  | tbf1 => exact absurd rfl hturn
  | tbf2 p =>
    refine ⟨_, .netem1 p, ⟨rfl, ?_, ha.put32 (by decide) _, hat.loaded.put32 env.idx2,
      ⟨hat.entry, hat.param, trivial⟩⟩, by simp [done, target]⟩
    obtain ⟨opt, hready, -⟩ := hat.loaded.put32 env.idx2
    exact ⟨hready.header.type, hinv.opt, hinv.rtab, hinv.nopt⟩
  | netem1 p =>
    obtain ⟨hready, -⟩ := netem_ready d.req hinv.type 0x00010001 0x00100000 env.idx1
      (nextNopt env p d.nopt)
    have hp : p = e.param := hat.param p rfl
    have hopt : (nextNopt env p d.nopt).toBytes = entryOpt env e.param := by
      rw [hinv.nopt, hp]
      rfl
    rw [hopt] at hready
    refine ⟨_, .netem2 p, ⟨rfl, ?_, ?_, ⟨_, hready, rfl⟩, ⟨hat.entry, hat.param,
      ⟨_, hready, rfl⟩⟩⟩, by simp [done, target]⟩
    · exact ⟨hready.header.type, hinv.opt, hinv.rtab, hinv.nopt⟩
    · exact ha.netem hinv.type _ _ _ _
  | netem2 p =>
    refine ⟨_, .tbf1, ⟨rfl, ?_, ha.put32 (by decide) _, hat.loaded.put32 env.idx2,
      ⟨hat.entry, by rintro p ⟨⟩, trivial⟩⟩, by simp [done, target]⟩
    obtain ⟨opt, hready, -⟩ := hat.loaded.put32 env.idx2
    exact ⟨hready.header.type, hinv.opt, hinv.rtab, hinv.nopt⟩

end Prepare

/-- A turn whose request is accepted. -/
def turnStep (env : Env) (s : Sched) (x : Driver × Turn) (_ : Unit) : Option (Driver × Turn) :=
  (do
    let r ← prepare env s x.1 x.2
    let d ← r.1.talk 0
    return (d, r.2) : Except Stop (Driver × Turn)).toOption

theorem Prepared.turnStep {env : Env} {s : Sched} {d d' : Driver} {turn next : Turn} {e : Entry}
    (h : Prepared env s d turn e d' next) :
    turnStep env s (d, turn) () = some (talked d', next) := by
  rw [Driven.turnStep, h.eq]
  rfl

theorem AtTurn.talked {env : Env} {s : Sched} {d : Driver} {turn : Turn} {e : Entry}
    (h : AtTurn env s d turn e) : AtTurn env s (talked d) turn e := by
  refine ⟨h.entry, h.param, ?_⟩
  have hl := h.loaded
  cases turn with
  | tbf1 => trivial
  | tbf2 p =>
    obtain ⟨opt, hready, hopt⟩ := hl
    exact ⟨opt, ready_talked hready, hopt⟩
  | netem1 p => trivial
  | netem2 p =>
    obtain ⟨opt, hready, hopt⟩ := hl
    exact ⟨opt, ready_talked hready, hopt⟩

section Turns
variable {env : Env} {s : Sched}

/-- What a turn is, and which one comes after it. -/
theorem turnStep_some {d : Driver} {turn : Turn} {x : Driver × Turn}
    (h : turnStep env s (d, turn) () = some x) : ∃ d', prepare env s d turn = .ok (d', x.2) ∧
      d'.talk 0 = .ok x.1 ∧ match turn with
        | .tbf1 => ∃ e, x.2 = .tbf2 e
        | .tbf2 e => x.2 = .netem1 e
        | .netem1 e => x.2 = .netem2 e
        | .netem2 _ => x.2 = .tbf1 := by
  unfold turnStep at h
  cases hp : prepare env s d turn with
  | error stop =>
    rw [hp] at h
    cases h
  | ok r =>
    rw [hp] at h
    cases h
    refine ⟨r.1, rfl, rfl, ?_⟩
    cases turn with
    | tbf1 =>
      simp only [prepare, bind, Except.bind] at hp
      split at hp
      · cases hp
      split at hp
      · cases hp
      split at hp
      · cases hp
      cases hp
      exact ⟨_, rfl⟩
    | tbf2 e =>
      cases hp
      rfl
    | netem1 e =>
      cases hp
      rfl
    | netem2 e =>
      cases hp
      rfl

/-- **Turns make rounds**: between two rounds, the driver is where the rounds of its main loop
lead. -/
theorem rounds_of_turns : ∀ (k : ℕ) {d0 d : Driver},
    run (turnStep env s) (d0, .tbf1) (List.replicate k ()) = some (d, .tbf1) →
      ∃ n, run (Tbf.TbfNetem.step env s) d0 (List.replicate n ⟨0, 0, 0, 0⟩) = some d
  | 0, d0, d, h => by
    cases h
    exact ⟨0, rfl⟩
  | k + 1, d0, d, h => by
    obtain ⟨⟨d1, t1⟩, h1, h⟩ := run_cons_some h
    obtain ⟨d1', p1, k1, e, rfl⟩ := turnStep_some h1
    cases k with
    | zero => cases h
    | succ k =>
    obtain ⟨⟨d2, t2⟩, h2, h⟩ := run_cons_some h
    obtain ⟨d2', p2, k2, rfl⟩ := turnStep_some h2
    cases k with
    | zero => cases h
    | succ k =>
    obtain ⟨⟨d3, t3⟩, h3, h⟩ := run_cons_some h
    obtain ⟨d3', p3, k3, rfl⟩ := turnStep_some h3
    cases k with
    | zero => cases h
    | succ k =>
    obtain ⟨⟨d4, t4⟩, h4, h⟩ := run_cons_some h
    obtain ⟨d4', p4, k4, rfl⟩ := turnStep_some h4
    obtain ⟨n, hn⟩ := rounds_of_turns k h
    refine ⟨n + 1, run_of_step ?_ hn⟩
    have hround : d0.round env s ⟨0, 0, 0, 0⟩ = .ok d4 := by
      simp only [round_eq, bind, Except.bind, p1, k1, p2, k2, p3, k3, p4, k4]
    rw [Tbf.TbfNetem.step, hround]
    rfl

end Turns

/-! ### The invariant -/

/-- The latency of an entry. -/
def latencyOf (c : Setting) (e : Entry) : U64 :=
  c.kernel.netem.ticks2ns (c.env.clock.time2tick (e.delay.setWidth 32))

/-- A discipline of a device has what an entry says. -/
def Installed (c : Setting) (start : U64) (e : Entry) (w : Link.World) : Place → Prop
  | .bucket => w.dev.q.rate.rateBytesPs = e.bandwidth >>> 3
  | .emulator => Works start (latencyOf c e) w

/-- Where the driver is, and what has been installed by then. -/
def Progress (c : Setting) (start : U64) (net : Net) (d : Driver) : Status → Prop
  | .going turn =>
    (∃ k, run (turnStep c.env c.sched) (Tbf.TbfNetem.start c.env, .tbf1) (List.replicate k ()) =
      some (d, turn)) ∧
    ((turn = .tbf1 ∧ d = Tbf.TbfNetem.start c.env) ∨ ∃ e, AtTurn c.env c.sched d turn e ∧
      ∀ x ∈ done c.env turn, ∃ w, net x.2 = some w ∧ Installed c start e w x.1)
  | .waits => d.seq + 1 = 0
  | .ended _ => False

theorem Progress.update {c : Setting} {start : U64} {net net' : Net} {d : Driver} {st : Status}
    (h : Progress c start net d st) (hnet : ∀ e (x : Place × U32),
      (∃ w, net x.2 = some w ∧ Installed c start e w x.1) →
        ∃ w, net' x.2 = some w ∧ Installed c start e w x.1) : Progress c start net' d st := by
  cases st with
  | going turn =>
    refine ⟨h.1, h.2.imp_right ?_⟩
    rintro ⟨e, hat, hdone⟩
    exact ⟨e, hat, fun x hx => hnet e x (hdone x hx)⟩
  | waits => exact h
  | ended stop => exact h

/-- The devices, at some time: they work, with one of the latencies there can be. -/
def AllWork (start : U64) (L : U64 → Prop) (net : Net) (clock : U64) : Prop :=
  ∀ i w, net i = some w → w.dev.clock ≤ clock ∧ ∃ latency, L latency ∧ Works start latency w

/-- **What holds all the time.** -/
structure Loop (c : Setting) (start : U64) (L : U64 → Prop) (sys : System) : Prop where
  inbox : sys.inbox = []
  net : AllWork start L sys.net sys.clock
  devices : (∃ w, sys.net c.env.idx1 = some w) ∧ ∃ w, sys.net c.env.idx2 = some w
  driver : Tbf.Rounds.Inv c.env sys.driver
  asks : Asks sys.driver.req
  progress : Progress c start sys.net sys.driver sys.status

section Update
variable {c : Setting} {start now : U64} {L : U64 → Prop} {net : Net} {idx : U32}
  {w w' : Link.World}

/-- One device has changed. -/
theorem AllWork.update {clock : U64} (h : AllWork start L net clock) (hc : clock ≤ now)
    (hclock : w'.dev.clock = now) (hworks : ∃ latency, L latency ∧ Works start latency w') :
    AllWork start L (Function.update net idx (some w')) now := by
  intro i v hv
  by_cases hi : i = idx
  · subst hi
    rw [Function.update_self] at hv
    cases hv
    exact ⟨hclock ▸ BitVec.le_refl _, hworks⟩
  · rw [Function.update_of_ne hi] at hv
    exact ⟨BitVec.le_trans (h i v hv).1 hc, (h i v hv).2⟩

theorem devices_update {i : U32} (h : ∃ w, net i = some w) :
    ∃ w, Function.update net idx (some w') i = some w := by
  by_cases hi : i = idx
  · subst hi
    exact ⟨w', Function.update_self _ _ _⟩
  · rw [Function.update_of_ne hi]
    exact h

/-- What a device had, and keeps if it is the one that has changed. -/
theorem installed_update {P : Link.World → Prop} (hw : net idx = some w) (hkeep : P w → P w')
    {i : U32} (h : ∃ w, net i = some w ∧ P w) :
    ∃ w, Function.update net idx (some w') i = some w ∧ P w := by
  obtain ⟨v, hv, hP⟩ := h
  by_cases hi : i = idx
  · subst hi
    rw [hw] at hv
    cases hv
    exact ⟨w', Function.update_self _ _ _, hkeep hP⟩
  · exact ⟨v, by rw [Function.update_of_ne hi, hv], hP⟩

end Update

section Packets
variable {c : Setting} {start now : U64} {L : U64 → Prop} {sys : System}

/-- **A packet comes or goes** at a device. -/
theorem Loop.atDevice (h : Loop c start L sys) (hc : sys.clock ≤ now) {ev : Qdisc.Event}
    (hev : ∀ {latency w}, Works start latency w → w.dev.clock ≤ now →
      ∃ w', Link.step c.kernel w (.event ev) = some w' ∧ Works start latency w' ∧
        w'.dev.clock = now ∧ w'.dev.q.rate = w.dev.q.rate) (idx : U32) :
    ∃ sys', atDevice c now sys idx ev = some sys' ∧ Loop c start L sys' ∧ sys'.clock = now := by
  unfold Driven.atDevice
  cases hw : sys.net idx with
  | none =>
    refine ⟨_, rfl, ⟨h.inbox, fun i w hi => ?_, h.devices, h.driver, h.asks, h.progress⟩, rfl⟩
    exact ⟨BitVec.le_trans (h.net i w hi).1 hc, (h.net i w hi).2⟩
  | some w =>
    obtain ⟨hclock, latency, hl, hworks⟩ := h.net idx w hw
    have hle := BitVec.le_trans hclock hc
    obtain ⟨w', hs, hworks', hclock', hrate⟩ := hev hworks hle
    have hkeep : ∀ e place, Installed c start e w place → Installed c start e w' place := by
      intro e place hi
      cases place with
      | bucket =>
        show w'.dev.q.rate.rateBytesPs = _
        rw [hrate]
        exact hi
      | emulator =>
        obtain ⟨w'', hs', hi', -, -⟩ := hev hi hle
        rw [hs] at hs'
        cases hs'
        exact hi'
    dsimp only
    rw [hs]
    exact ⟨_, rfl, ⟨h.inbox, h.net.update hc hclock' ⟨latency, hl, hworks'⟩,
      ⟨devices_update h.devices.1, devices_update h.devices.2⟩, h.driver, h.asks,
      h.progress.update fun e x => installed_update hw (hkeep e x.1)⟩, rfl⟩

end Packets

section Talk
variable {c : Setting} {start now : U64} {L : U64 → Prop} {sys : System}

/-- **A request of the driver is accepted** by a device that works, and does what it should. -/
theorem accepts {latency : U64} {w : Link.World} (h : Works start latency w) (hl : L latency)
    (hc : w.dev.clock ≤ now) (hnow : now.toNat < 2 ^ 62) {e : Entry} (he : L (latencyOf c e))
    {opt : List Byte} {place : Place} (hopt : OptFor c.env e opt place) : ∃ w',
      change c.kernel now w opt place = some (w', 0) ∧
      (∃ latency, L latency ∧ Works start latency w') ∧ w'.dev.clock = now ∧
      ∀ place', (place' = place ∨ Installed c start e w place') →
        Installed c start e w' place' := by
  cases place with
  | bucket =>
    have hset := setsRate_of_attrs (e := e) hopt
    obtain ⟨w', hch, hworks, hclock, hrate⟩ := h.setRate (e := c.kernel) hc hnow hset
    refine ⟨w', hch, ⟨latency, hl, hworks⟩, hclock, fun place' hp => ?_⟩
    cases place' with
    | bucket => exact hrate
    | emulator =>
      obtain ⟨w'', hch', hworks', -, -⟩ := (hp.resolve_left (by decide) :
        Works start (latencyOf c e) w).setRate (e := c.kernel) hc hnow hset
      rw [hch] at hch'
      cases hch'
      exact hworks'
  | emulator =>
    have hopt : opt = (nextNopt c.env e.param (startNopt c.env)).toBytes := hopt
    obtain ⟨w', hch, hworks, hclock, hrate⟩ := h.setLatency (e := c.kernel) hc hnow
      (nextNopt c.env e.param (startNopt c.env)) rfl rfl rfl
    rw [← hopt] at hch
    refine ⟨w', hch, ⟨_, he, hworks⟩, hclock, fun place' hp => ?_⟩
    cases place' with
    | bucket =>
      show w'.dev.q.rate.rateBytesPs = _
      rw [hrate]
      exact hp.resolve_left (by decide)
    | emulator => exact hworks

/-- The devices have moved no packets. -/
def SameBooks (net net' : Net) : Prop :=
  ∀ i w, net i = some w → ∃ w', net' i = some w' ∧ w'.line = w.line ∧ w'.left = w.left

theorem sameBooks_update {net : Net} {idx : U32} {w w' : Link.World} (hw : net idx = some w)
    (h : w'.line = w.line ∧ w'.left = w.left) :
    SameBooks net (Function.update net idx (some w')) := by
  intro i v hv
  by_cases hi : i = idx
  · subst hi
    rw [hw] at hv
    cases hv
    exact ⟨w', Function.update_self _ _ _, h⟩
  · exact ⟨v, by rw [Function.update_of_ne hi, hv], rfl, rfl⟩

/-- **A turn of the driver.** -/
theorem Loop.turn (h : Loop c start L sys) (hL : ∀ e ∈ c.sched.entries, L (latencyOf c e))
    (hc : sys.clock ≤ now) (hnow : now.toNat < 2 ^ 62) {turn : Turn}
    (hst : sys.status = .going turn) :
    ∃ sys', step c sys (.talk now) = some sys' ∧ Loop c start L sys' ∧ sys'.clock = now ∧
      SameBooks sys.net sys'.net := by
  have hp := h.progress
  rw [hst] at hp
  obtain ⟨⟨k, hk⟩, hat⟩ := hp
  -- the next request, and what was set before it in the same round
  obtain ⟨e, d', next, hprep, hdone⟩ : ∃ e d' next,
      Prepared c.env c.sched sys.driver turn e d' next ∧ ∀ x ∈ done c.env next,
        x = target c.env turn ∨ ∃ w, sys.net x.2 = some w ∧ Installed c start e w x.1 := by
    by_cases hturn : turn = .tbf1
    · subst hturn
      obtain ⟨e, d', next, hprep, hdone⟩ := prepare_first (s := c.sched) h.driver h.asks
      refine ⟨e, d', next, hprep, fun x hx => Or.inl ?_⟩
      rw [hdone] at hx
      exact List.mem_singleton.mp hx
    · obtain ⟨e, hat, hdone⟩ := hat.resolve_left fun hno => hturn hno.1
      obtain ⟨d', next, hprep, hsub⟩ := prepare_next h.driver h.asks hturn hat
      exact ⟨e, d', next, hprep, fun x hx => (List.mem_cons.mp (hsub hx)).imp_right (hdone x)⟩
  obtain ⟨opt, hready, hopt⟩ := hprep.holds
  obtain ⟨w, hw⟩ : ∃ w, sys.net (target c.env turn).2 = some w := by
    cases turn with
    | tbf1 => exact h.devices.1
    | tbf2 p => exact h.devices.2
    | netem1 p => exact h.devices.1
    | netem2 p => exact h.devices.2
  obtain ⟨hclock, latency, hl, hworks⟩ := h.net _ w hw
  obtain ⟨w', hch, hworks', hclock', hinst⟩ := accepts (c := c) hworks hl
    (BitVec.le_trans hclock hc) hnow (hL e (List.mem_of_getElem? hprep.after.entry)) hopt
  have hex := exchange_spec next hready hprep.asks h.inbox hw hch
  refine ⟨_, by rw [step, hst]; dsimp only; rw [hprep.eq]; exact hex, ⟨rfl,
    h.net.update hc hclock' hworks',
    ⟨devices_update h.devices.1, devices_update h.devices.2⟩, ?_, ?_, ?_⟩, rfl,
    sameBooks_update hw (change_books hch)⟩
  · dsimp only
    split_ifs
    · exact hprep.inv
    · exact inv_talked hprep.inv
  · dsimp only
    split_ifs
    · exact hprep.asks
    · exact hprep.asks.talked
  · dsimp only
    split_ifs with hz
    · exact hz
    · refine ⟨⟨k + 1, ?_⟩, Or.inr ⟨e, hprep.after.talked, fun x hx => ?_⟩⟩
      · rw [List.replicate_succ']
        exact run_concat hk hprep.turnStep
      · rcases hdone x hx with rfl | hx
        · exact ⟨w', Function.update_self _ _ _, hinst _ (Or.inl rfl)⟩
        · exact installed_update hw (fun hi => hinst _ (Or.inr hi)) hx

end Talk

/-! ### Runs -/

/-- From a time on, the clock does not go back and has 62 bits. -/
def Timely : U64 → List Input → Prop :=
  Along (fun t i => t ≤ i.now ∧ i.now.toNat < 2 ^ 62) fun _ i => i.now

instance (now : U64) (inputs : List Input) : Decidable (Timely now inputs) :=
  inferInstanceAs (Decidable (Along _ _ now inputs))

/-- The two devices of the driver are there, and all devices work. -/
structure SetUp (c : Setting) (start : U64) (net : Net) (now : U64) : Prop where
  work : AllWork start (fun _ => True) net now
  devices : (∃ w, net c.env.idx1 = some w) ∧ ∃ w, net c.env.idx2 = some w

section Run
variable {c : Setting} {start now : U64} {L : U64 → Prop} {net : Net} {sys : System}
  {inputs : List Input}

theorem loop_start (h : SetUp c start net now) (hL : AllWork start L net now) :
    Loop c start L (System.start c net now) where
  inbox := rfl
  net := hL
  devices := h.devices
  driver := inv_start c.env
  asks := by
    left
    show value (load (store _ 6 (bytes 2 1)) 6 2) = 1
    rw [load_store_bytes, value_bytes]
    rfl
  progress := ⟨⟨0, rfl⟩, Or.inl ⟨rfl, rfl⟩⟩

theorem Loop.step (h : Loop c start L sys) (hL : ∀ e ∈ c.sched.entries, L (latencyOf c e))
    {i : Input} (hc : sys.clock ≤ i.now) (hnow : i.now.toNat < 2 ^ 62) :
    ∃ sys', step c sys i = some sys' ∧ Loop c start L sys' ∧ sys'.clock = i.now := by
  cases i with
  | arrive idx now skb => exact h.atDevice hc (fun hw hle => hw.enqueue hle hnow skb) idx
  | poll idx now => exact h.atDevice hc (fun hw hle => hw.dequeue hle hnow) idx
  | talk now =>
    have hwait : Loop c start L { sys with clock := now } :=
      ⟨h.inbox, fun i w hi => ⟨BitVec.le_trans (h.net i w hi).1 hc, (h.net i w hi).2⟩, h.devices,
        h.driver, h.asks, h.progress⟩
    cases hst : sys.status with
    | going turn =>
      obtain ⟨sys', hs, h', hclock, -⟩ := h.turn hL hc hnow hst
      exact ⟨sys', hs, h', hclock⟩
    | waits => exact ⟨_, by rw [Driven.step, hst], hwait, rfl⟩
    | ended stop => exact ⟨_, by rw [Driven.step, hst], hwait, rfl⟩

theorem loop_of_run (h : SetUp c start net now) (hinputs : Timely now inputs) :
    ∃ sys, run (step c) (System.start c net now) inputs = some sys ∧
      Loop c start (fun _ => True) sys := by
  have hstep : ∀ t sys i, Loop c start (fun _ => True) sys ∧ sys.clock = t →
      t ≤ i.now ∧ i.now.toNat < 2 ^ 62 → ∃ sys', step c sys i = some sys' ∧
        Loop c start (fun _ => True) sys' ∧ sys'.clock = i.now := by
    rintro t sys i ⟨hl, rfl⟩ ⟨hc, hnow⟩
    exact hl.step (fun _ _ => trivial) hc hnow
  obtain ⟨t, sys, hrun, hl, -⟩ := run_total_of_along hstep ⟨loop_start h h.work, rfl⟩ hinputs
  exact ⟨sys, hrun, hl⟩

/-- **The loop goes on**: every run takes place as a whole, no request is refused, and the driver
stops only if its sequence number comes to zero, where it waits forever. -/
theorem driven_runs (h : SetUp c start net now) (hinputs : Timely now inputs) :
    ∃ sys, run (step c) (System.start c net now) inputs = some sys ∧
      ((∃ turn, sys.status = .going turn) ∨ sys.status = .waits ∧ sys.driver.seq + 1 = 0) := by
  obtain ⟨sys, hrun, hl⟩ := loop_of_run h hinputs
  refine ⟨sys, hrun, ?_⟩
  have hp := hl.progress
  cases hst : sys.status with
  | going turn => exact Or.inl ⟨turn, rfl⟩
  | waits =>
    rw [hst] at hp
    exact Or.inr ⟨rfl, hp⟩
  | ended stop =>
    rw [hst] at hp
    exact hp.elim

theorem loop_of_fair (h : SetUp c start net now) (hinputs : Timely now inputs)
    (hrun : run (step c) (System.start c net now) inputs = some sys) :
    Loop c start (fun _ => True) sys := by
  obtain ⟨sys', hrun', hl⟩ := loop_of_run h hinputs
  rw [hrun] at hrun'
  cases hrun'
  exact hl

/-- **What a round installs**: between two rounds, both devices have the rate and the latency of the
entry that the driver has taken last. -/
theorem driven_installs (h : SetUp c start net now) (hinputs : Timely now inputs)
    (hrun : run (step c) (System.start c net now) inputs = some sys)
    (hst : sys.status = .going .tbf1) (hsent : sys.driver.sent ≠ []) :
    ∃ e, c.sched.entries[sys.driver.index.toNat]? = some e ∧
      ∀ i, i = c.env.idx1 ∨ i = c.env.idx2 → ∃ w s, sys.net i = some w ∧
        w.dev.q.rate.rateBytesPs = e.bandwidth >>> 3 ∧
        Link.emulator w.dev.q.qdisc = some s ∧ s.data.latency = latencyOf c e := by
  have hp := (loop_of_fair h hinputs hrun).progress
  rw [hst] at hp
  obtain ⟨e, hat, hdone⟩ := hp.2.resolve_left fun h0 => hsent (by rw [h0.2]; rfl)
  refine ⟨e, hat.entry, fun i hi => ?_⟩
  obtain ⟨w, hw, hrate⟩ : ∃ w, sys.net i = some w ∧ Installed c start e w .bucket := by
    rcases hi with rfl | rfl
    · exact hdone (.bucket, c.env.idx1) (by simp [done])
    · exact hdone (.bucket, c.env.idx2) (by simp [done])
  obtain ⟨w', hw', hworks⟩ : ∃ w, sys.net i = some w ∧ Installed c start e w .emulator := by
    rcases hi with rfl | rfl
    · exact hdone (.emulator, c.env.idx1) (by simp [done])
    · exact hdone (.emulator, c.env.idx2) (by simp [done])
  rw [hw] at hw'
  cases hw'
  obtain ⟨s, hs, hd⟩ := hworks.emulator
  exact ⟨w, s, hw, hrate, hs, hd.latency⟩

/-- **The driver does its rounds**: between two rounds it is where the rounds of its main loop lead
if all requests are accepted. -/
theorem driven_rounds (h : SetUp c start net now) (hinputs : Timely now inputs)
    (hrun : run (step c) (System.start c net now) inputs = some sys)
    (hst : sys.status = .going .tbf1) : ∃ n, run (Tbf.TbfNetem.step c.env c.sched)
      (Tbf.TbfNetem.start c.env) (List.replicate n ⟨0, 0, 0, 0⟩) = some sys.driver := by
  have hp := (loop_of_fair h hinputs hrun).progress
  rw [hst] at hp
  obtain ⟨⟨k, hk⟩, -⟩ := hp
  exact rounds_of_turns k hk

/-- **The devices obey the rate of the moment**, whatever the driver does in between. -/
theorem driven_conforms (h : SetUp c start net now) (hinputs : Timely now inputs)
    (hrun : run (step c) (System.start c net now) inputs = some sys) {i : U32} {w : Link.World}
    (hw : sys.net i = some w) {pre mid post : List TbfShape.Entry} {x y : TbfShape.Sent}
    (hlog : w.dev.log = pre ++ .sent x :: mid ++ .sent y :: post) :
    x.price + paid (mid.map TbfShape.Entry.move) + y.price ≤
      x.buffer.toNat + ((y.now.toNat : ℤ) - x.now.toNat) := by
  obtain ⟨-, latency, -, hworks⟩ := (loop_of_fair h hinputs hrun).net i w hw
  exact (hworks.shape.conforms_of_onlySent hworks.sent hlog).1

/-- **The devices delay by the latency of the moment**, whatever the driver does in between: packets
leave in the order of the times at which they are due, and none of them earlier. -/
theorem driven_delays (h : SetUp c start net now) (hinputs : Timely now inputs)
    (hrun : run (step c) (System.start c net now) inputs = some sys) {i : U32} {w : Link.World}
    (hw : sys.net i = some w) :
    ∃ s, Link.emulator w.dev.q.qdisc = some s ∧ Sorted NetemQueue.tts w.line ∧ ∃ out shown,
      w.line = out ++ (shown ++ NetemQueue.timed s) ∧ Child.Aside s shown ∧
        List.Forall₂ NetemRuns.Departed out w.left := by
  obtain ⟨-, latency, -, hworks⟩ := (loop_of_fair h hinputs hrun).net i w hw
  obtain ⟨s, hs, -⟩ := hworks.emulator
  obtain ⟨out, shown, hline, haside, -, hout⟩ := (hworks.link.line s hs).line
  exact ⟨s, hs, hworks.link.sorted, out, shown, hline, haside, hout⟩

end Run

/-- The devices with the indices 3 and 4, which are new, in a kernel as `Netem.Env.plain`. -/
def twoLinks : Setting := ⟨Link.Env.plain, 77, twoDevices, twoRates⟩

def newLinks : Net := fun i => if i = 3 ∨ i = 4 then some (Link.World.start 0) else none

/-- A round, and packets before, in and after it. -/
def oneRound : List Input :=
  [.arrive 3 5 ⟨1, 1500⟩, .talk 10, .arrive 3 15 ⟨2, 1500⟩, .talk 20, .talk 30, .talk 40,
    .arrive 3 50 ⟨3, 1500⟩, .arrive 3 60 ⟨4, 1000⟩, .poll 3 700000, .poll 3 700500]

/-- A packet of this run, at ten gigabytes per second. -/
def packetAt (now : U64) (skb : Skb) (tokens : U64) : TbfShape.Sent :=
  ⟨now, skb, ⟨10000000000, 1717986918, 0, 1, 34⟩, ⟨0, 0, 0, 0, 0⟩, 4999, 0, tokens, 0⟩

theorem oneRound_evaluates :
    (run (step twoLinks) (System.start twoLinks newLinks 0) oneRound).any (fun sys =>
      decide (sys.status = .going .tbf1) && (decide (sys.driver.sent.length = 4) &&
        (sys.net 3).any fun w => decide (w.dev.log = [.sent (packetAt 700000 ⟨3, 1500⟩ 4850),
          .sent (packetAt 700500 ⟨4, 1000⟩ 4900)]))) = true := by
  decide +kernel

theorem oneRound_run : ∃ sys w, run (step twoLinks) (System.start twoLinks newLinks 0) oneRound =
    some sys ∧ sys.status = .going .tbf1 ∧ sys.driver.sent ≠ [] ∧ sys.net 3 = some w ∧
    w.dev.log = [] ++ .sent (packetAt 700000 ⟨3, 1500⟩ 4850) :: [] ++
      .sent (packetAt 700500 ⟨4, 1000⟩ 4900) :: [] := by
  have h := oneRound_evaluates
  cases hrun : run (step twoLinks) (System.start twoLinks newLinks 0) oneRound with
  | none =>
    rw [hrun] at h
    cases h
  | some sys =>
    rw [hrun, Option.any_some, Bool.and_eq_true, Bool.and_eq_true] at h
    obtain ⟨hst, hlen, hnet⟩ := h
    cases hw : sys.net 3 with
    | none =>
      rw [hw] at hnet
      cases hnet
    | some w =>
      rw [hw] at hnet
      refine ⟨sys, w, rfl, of_decide_eq_true hst, fun h0 => ?_, hw, of_decide_eq_true hnet⟩
      rw [h0] at hlen
      cases hlen

theorem newLinks_setUp : SetUp twoLinks 0 newLinks 0 where
  work := by
    intro i w hw
    unfold newLinks at hw
    split_ifs at hw
    cases hw
    exact ⟨BitVec.le_refl _, 0, trivial, works_start (by decide)⟩
  devices := ⟨⟨_, rfl⟩, ⟨_, rfl⟩⟩

theorem oneRound_timely : Timely 0 oneRound := by decide

theorem driven_runs_oneRound :
    ∃ sys, run (step twoLinks) (System.start twoLinks newLinks 0) oneRound = some sys ∧
      ((∃ turn, sys.status = .going turn) ∨ sys.status = .waits ∧ sys.driver.seq + 1 = 0) :=
  driven_runs newLinks_setUp oneRound_timely

theorem driven_installs_oneRound :
    ∃ sys e, run (step twoLinks) (System.start twoLinks newLinks 0) oneRound = some sys ∧
      twoRates.entries[sys.driver.index.toNat]? = some e ∧
      ∀ i, i = 3 ∨ i = 4 → ∃ w s, sys.net i = some w ∧
        w.dev.q.rate.rateBytesPs = e.bandwidth >>> 3 ∧
        Link.emulator w.dev.q.qdisc = some s ∧ s.data.latency = latencyOf twoLinks e := by
  obtain ⟨sys, w, hrun, hst, hsent, -⟩ := oneRound_run
  obtain ⟨e, he, hi⟩ := driven_installs newLinks_setUp oneRound_timely hrun hst hsent
  exact ⟨sys, e, hrun, he, hi⟩

theorem driven_rounds_oneRound :
    ∃ sys n, run (step twoLinks) (System.start twoLinks newLinks 0) oneRound = some sys ∧
      run (Tbf.TbfNetem.step twoDevices twoRates) (Tbf.TbfNetem.start twoDevices)
        (List.replicate n ⟨0, 0, 0, 0⟩) = some sys.driver := by
  obtain ⟨sys, w, hrun, hst, -⟩ := oneRound_run
  obtain ⟨n, hn⟩ := driven_rounds newLinks_setUp oneRound_timely hrun hst
  exact ⟨sys, n, hrun, hn⟩

theorem driven_conforms_oneRound :
    ∃ sys w, run (step twoLinks) (System.start twoLinks newLinks 0) oneRound = some sys ∧
      sys.net 3 = some w ∧ (packetAt 700000 ⟨3, 1500⟩ 4850).price +
        (packetAt 700500 ⟨4, 1000⟩ 4900).price ≤ 4999 + 500 := by
  obtain ⟨sys, w, hrun, -, -, hw, hlog⟩ := oneRound_run
  have h := driven_conforms newLinks_setUp oneRound_timely hrun hw hlog
  exact ⟨sys, w, hrun, hw, by simpa [packetAt] using h⟩

theorem driven_delays_oneRound :
    ∃ sys w s, run (step twoLinks) (System.start twoLinks newLinks 0) oneRound = some sys ∧
      sys.net 3 = some w ∧ Link.emulator w.dev.q.qdisc = some s ∧ Sorted NetemQueue.tts w.line ∧
      ∃ out shown, w.line = out ++ (shown ++ NetemQueue.timed s) ∧ Child.Aside s shown ∧
        List.Forall₂ NetemRuns.Departed out w.left := by
  obtain ⟨sys, w, hrun, -, -, hw, -⟩ := oneRound_run
  obtain ⟨s, hs⟩ := driven_delays newLinks_setUp oneRound_timely hrun hw
  exact ⟨sys, w, s, hrun, hw, hs⟩

end DynBandwidth.Sched.Driven
