import DynBandwidth.Lib.Runs
import DynBandwidth.Tbf.Kernel
import DynBandwidth.Tbf.Libnetlink
import DynBandwidth.Tbf.Schedule
import DynBandwidth.Tbf.TcCore

/-! # The driver `tbfnetem.c`

Once in a period the driver takes the next entry of its schedule, and sets the rate of a token
bucket and the latency of an emulator on two devices. All requests are built in one buffer. -/

namespace DynBandwidth.Tbf.TbfNetem

open DynBandwidth.Lib.Bytes DynBandwidth.Lib.Attributes DynBandwidth.Lib.Runs
open DynBandwidth.Tbf.Uapi DynBandwidth.Tbf.Libnetlink DynBandwidth.Tbf.Kernel
open DynBandwidth.Tbf.Schedule DynBandwidth.Tbf.TcCore
open DynBandwidth.Reorder.Header (U8 U16 U32 U64)

/-! ### The program -/

/-- An entry of the schedule as it is given on the command line. -/
structure Entry where
  bandwidth : U64
  delay : U64
  period : U64
  deriving DecidableEq, Repr

/-- A schedule of at least one entry; `nbws` is an `int`. -/
structure Sched where
  entries : List Entry
  pos : 0 < entries.length
  lt : entries.length < 2147483648

def Sched.nbws (s : Sched) : U32 := BitVec.ofNat 32 s.entries.length

def Entry.param (e : Entry) : BwParam := bwParam e.bandwidth e.delay e.period

def Sched.bws (s : Sched) : List BwParam := s.entries.map Entry.param

/-- What the program is started with: the clock, the indices of the two devices, the length of the
queue, and the first sequence number of its socket. -/
structure Env where
  clock : Clock
  idx1 : U32
  idx2 : U32
  ql : U64
  seq : U32

/-- The buffer of the requests, and the results of the calls of `addattr_l`, which the driver does
not look at. -/
structure Buf where
  mem : Mem
  rets : List ℤ

/-- The state of the main loop, and the messages it has sent. -/
structure Driver where
  req : Buf
  seq : U32
  index : U32
  opt : TcTbfQopt
  nopt : TcNetemQopt
  sent : List (List Byte)

/-- How the main loop ends. -/
inductive Stop
  | fault
  | exit (ret : ℤ)
  deriving DecidableEq, Repr

def kindTbf : List Byte := [0x74, 0x62, 0x66]
def kindNetem : List Byte := [0x6e, 0x65, 0x74, 0x65, 0x6d]

/-- A string with the byte that ends it. -/
def cString (s : List Byte) : List Byte := s ++ [0]

/-- `sizeof(req)`: the headers and `TCA_BUF_MAX` bytes. -/
def sizeofReq : ℕ := 65572

def startOpt (env : Env) : TcTbfQopt :=
  ⟨⟨0, 0, 0, 0, 0, 0⟩, ⟨0, 0, 0, 0, 0, 0⟩, (1514 * env.ql).setWidth 32, 0, 0⟩

def startNopt (env : Env) : TcNetemQopt := ⟨0, env.ql.setWidth 32, 0, 0, 0, 0⟩

/-- The driver before its first round: `nlmsg_type` is `RTM_NEWQDISC`, `nlmsg_flags` is
`NLM_F_REQUEST`. -/
def start (env : Env) : Driver where
  req := ⟨store (store (fun _ => 0) 4 (bytes 2 36)) 6 (bytes 2 1), []⟩
  seq := env.seq
  index := 0
  opt := startOpt env
  nopt := startNopt env
  sent := []

/-- A call of `addattr_l`. -/
def Buf.add (b : Buf) (maxlen type : ℕ) (data : List Byte) : Buf :=
  ⟨(addattrL b.mem maxlen type data).1, b.rets ++ [(addattrL b.mem maxlen type data).2]⟩

/-- A field of the headers is set. -/
def Buf.put32 (b : Buf) (o : ℕ) (x : U32) : Buf := ⟨store b.mem o (bytes 4 x.toNat), b.rets⟩

/-- The offsets of the fields of `struct tcmsg` that the driver sets. -/
def tcmIfindex : ℕ := 20
def tcmHandle : ℕ := 24
def tcmParent : ℕ := 28

/-- A new request: its kind and where it goes. -/
def Buf.begin (b : Buf) (kind : List Byte) (parent handle ifindex : U32) : Buf :=
  let b : Buf := ⟨setNlmsgLen b.mem headerLen, b.rets⟩
  let b := b.add sizeofReq tcaKind (cString kind)
  let b := b.put32 tcmParent parent
  let b := b.put32 tcmHandle handle
  b.put32 tcmIfindex ifindex

/-- `rtnl_talk`, and the test of its result: the message gets a sequence number and asks for an
acknowledgement. -/
def Driver.talk (d : Driver) (answer : ℤ) : Except Stop Driver :=
  let mem := store d.req.mem 8 (bytes 4 (d.seq + 1).toNat)
  let mem := store mem 6 (bytes 2 (value (load mem 6 2) ||| 4))
  if answer < 0 then .error (.exit 2)
  else
    .ok { d with
      req := ⟨mem, d.req.rets⟩
      seq := d.seq + 1
      sent := d.sent ++ [load mem 0 (nlmsgLen mem)] }

/-- The rate in 32 bits, all of them set if it does not fit. -/
def rate32 (rate64 : U64) : U32 :=
  if 4294967296 ≤ rate64.toNat then 0xFFFFFFFF else rate64.setWidth 32

/-- The options with the rate of an entry, before the table is computed. -/
def withRate (e : BwParam) (opt : TcTbfQopt) : TcTbfQopt :=
  { opt with rate := { opt.rate with rate := rate32 e.bandwidth } }

def burst : U32 := 50000

/-- `tc_calc_rtable` with the arguments of the driver. -/
def calcRtable (env : Env) (opt : TcTbfQopt) : TcRatespec × List U32 × ℤ :=
  tcCalcRtable env.clock opt.rate (-1) 0 .ethernet

/-- The options of an entry. -/
def nextOpt (env : Env) (e : BwParam) (opt : TcTbfQopt) : TcTbfQopt :=
  { withRate e opt with
    rate := (calcRtable env (withRate e opt)).1
    buffer := tcCalcXmittime env.clock ((rate32 e.bandwidth).setWidth 64) burst }

/-- A rate of more than 32 bits gets an attribute of its own. -/
def Buf.addWide (b : Buf) (rate64 : U64) : Buf :=
  if 4294967296 ≤ rate64.toNat then b.add 2124 tcaTbfRate64 (bytes 8 rate64.toNat) else b

/-- The options of the token bucket, as nested attributes. -/
def Buf.tbfOptions (b : Buf) (opt : TcTbfQopt) (rate64 : U64) (rtab : List U32) : Buf :=
  let (mem, ret, nest) := addattrNest b.mem 1024 tcaOptions
  let b : Buf := ⟨mem, b.rets ++ [ret]⟩
  let b := b.add 2024 tcaTbfParms opt.toBytes
  let b := b.add 2124 tcaTbfBurst (bytes 4 burst.toNat)
  let b := b.addWide rate64
  let b := b.add 3024 tcaTbfRtab (rtabBytes rtab)
  ⟨addattrNestEnd b.mem nest, b.rets⟩

/-- The request for the token bucket. -/
def Driver.tbf (d : Driver) (env : Env) (e : BwParam) : Except Stop Driver :=
  let req := d.req.begin kindTbf 0xFFFFFFFF 0 env.idx1
  let r := calcRtable env (withRate e d.opt)
  if r.2.2 < 0 then .error (.exit (-1))
  else
    .ok { d with
      req := req.tbfOptions (nextOpt env e d.opt) e.bandwidth r.2.1
      opt := nextOpt env e d.opt }

/-- The options of the emulator, with the delay of an entry. -/
def nextNopt (env : Env) (e : BwParam) (nopt : TcNetemQopt) : TcNetemQopt :=
  { nopt with latency := env.clock.time2tick (e.delay.setWidth 32) }

/-- The options of the emulator. The length of the attribute is set once more. -/
def Buf.netemOptions (b : Buf) (nopt : TcNetemQopt) : Buf :=
  let tail := nlmsgTail b.mem
  let b := b.add 1024 tcaOptions nopt.toBytes
  ⟨addattrNestEnd b.mem tail, b.rets⟩

/-- The request for the emulator. -/
def Driver.netem (d : Driver) (env : Env) (e : BwParam) : Driver :=
  let req := d.req.begin kindNetem 0x00010001 0x00100000 env.idx1
  { d with
    req := req.netemOptions (nextNopt env e d.nopt)
    nopt := nextNopt env e d.nopt }

/-- The request is sent, and once more for the other device. -/
def Driver.talkBoth (d : Driver) (env : Env) (answer1 answer2 : ℤ) : Except Stop Driver := do
  let d ← d.talk answer1
  { d with req := d.req.put32 tcmIfindex env.idx2 }.talk answer2

/-- The results of the four calls of `rtnl_talk` in a round. -/
structure Answers where
  tbf1 : ℤ
  tbf2 : ℤ
  netem1 : ℤ
  netem2 : ℤ
  deriving DecidableEq, Repr

/-- The entry at an index; reading it elsewhere is a fault, as is a division by zero. -/
def orFault {α : Type} : Option α → Except Stop α
  | none => .error .fault
  | some x => .ok x

/-- **A round of the main loop**, up to the pause at its end. -/
def Driver.round (env : Env) (s : Sched) (d : Driver) (a : Answers) : Except Stop Driver := do
  let index ← orFault (nextIndex d.index s.nbws)
  let e ← orFault s.bws[index.toNat]?
  let d ← { d with index := index }.tbf env e
  let d ← d.talkBoth env a.tbf1 a.tbf2
  (d.netem env e).talkBoth env a.netem1 a.netem2

/-- A round as a step; `none` if the loop has ended. -/
def step (env : Env) (s : Sched) (d : Driver) (a : Answers) : Option Driver :=
  (d.round env s a).toOption

end DynBandwidth.Tbf.TbfNetem
