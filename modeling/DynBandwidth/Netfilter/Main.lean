import DynBandwidth.Netfilter.Queue

/-! # The queue of a verdict

`main` of `nfqueue.c` sets up a queue with `nfq_init` and has the event loop call `nfq_cb` and the
timers. The configuration that `nfq_init` fills is a local variable of `main`, which hides the
global one of the same name. The stage uses the queue that its callback is given, but `timer_cb`
reads the queue of the global variable, which is still zero. So every verdict goes to the queue of
`nfq_init` if and only if no flow times out while it holds packets (`verdicts_to_queue_iff`). -/

namespace DynBandwidth.Netfilter.Main

open DynBandwidth.Lib.Runs
open DynBandwidth.Reorder.Header DynBandwidth.Reorder.SeqTree
open DynBandwidth.Netfilter.Stage DynBandwidth.Netfilter.Queue

/-! ### Setting up -/

/-- A handle of the library; `none` is `NULL`. -/
abbrev Handle := Option ℕ

def maxQl : ℕ := 1048756

/-- Constants of the library. -/
def nfqnlCopyPacket : ℕ := 2
def nfqaCfgFFailOpen : ℕ := 1

/-- What the calls of the library return. -/
structure Library where
  nfqOpen : Handle
  nfqCreateQueue : Handle → ℕ → QHandle
  nfqSetMode : QHandle → ℕ → ℕ → ℤ
  nfqSetQueueFlags : QHandle → ℕ → ℕ → ℤ
  nfqSetQueueMaxlen : QHandle → ℕ → ℤ
  nfqFd : Handle → ℤ

/-- `struct nfq_config` without its flow table. -/
structure NfqConfig where
  fd : ℤ
  handler : Handle
  queue : QHandle

/-- What `nfq_init` prints and returns when it fails. -/
structure InitError where
  message : String
  ret : ℤ

/-- **`nfq_init`**: the configuration it fills. -/
def nfqInit (lib : Library) : Except InitError NfqConfig :=
  let handler := lib.nfqOpen
  let queue := lib.nfqCreateQueue handler 0
  let mode := lib.nfqSetMode queue nfqnlCopyPacket 40
  let flags := lib.nfqSetQueueFlags queue nfqaCfgFFailOpen nfqaCfgFFailOpen
  let maxlen := lib.nfqSetQueueMaxlen queue maxQl
  let fd := lib.nfqFd handler
  if handler = none then .error ⟨"Error: cannot open nfq\n", -1⟩
  else if queue = none then .error ⟨"Error: cannot create queue\n", -1⟩
  else if mode < 0 then .error ⟨"Error: cannot set mode\n", mode⟩
  else if flags < 0 then .error ⟨"Error: cannot set flags\n", flags⟩
  else if maxlen < 0 then .error ⟨"Error: cannot set queue length\n", maxlen⟩
  else if fd < 0 then .error ⟨"Error: cannot open fd\n", -1⟩
  else .ok ⟨fd, handler, queue⟩

/-- **`main`** up to the event loop: its local configuration and the global state, which it does not
touch. `none` is `exit(1)`. -/
def main (lib : Library) : Option (NfqConfig × Nfq) :=
  match nfqInit lib with
  | .ok config => some (config, Nfq.init)
  | .error _ => none

theorem nfqInit_ok {lib : Library} {config : NfqConfig} (h : nfqInit lib = .ok config) :
    config.queue = lib.nfqCreateQueue lib.nfqOpen 0 ∧ config.queue ≠ none := by
  unfold nfqInit at h
  dsimp only at h
  split_ifs at h with hopen hqueue
  cases h
  exact ⟨rfl, hqueue⟩

/-- After a successful start there is a queue, and the global state does not know it. -/
theorem main_some {lib : Library} {config : NfqConfig} {nfq : Nfq}
    (h : main lib = some (config, nfq)) :
    nfq = Nfq.init ∧ lib.nfqCreateQueue lib.nfqOpen 0 ≠ none := by
  unfold main at h
  split at h
  · next c hinit =>
    cases h
    obtain ⟨heq, hne⟩ := nfqInit_ok hinit
    exact ⟨rfl, heq ▸ hne⟩
  · cases h

/-! ### Verdicts -/

/-- Every call so far was made with this queue. -/
def CallsTo (queue : QHandle) (nfq : Nfq) : Prop := ∀ call ∈ nfq.calls, call.queue = queue

/-- A flow that a timer finds timed out holds nothing. -/
def EmptyAtTimeout (nfq : Nfq) : Event → Prop
  | .packet _ => True
  | .timer now fbuf => ∀ c, nfq.reorderBuf.cells[fbuf]? = some c → c.val.timer.isSome = true →
      TimedOut now c.val → c.val.held = []

/-- The library passes the queue to the callback. -/
def ArrivesOn (queue : QHandle) (_ : Nfq) : Event → Prop
  | .packet a => a.queue = queue
  | .timer _ _ => True

theorem insertOrSendPacket_queue {now : ℚ} {queue : QHandle} {f : NfqFlowbuf} {seq id : U32}
    {segSize : U16} {c : Call} (hc : c ∈ (insertOrSendPacket now queue f seq id segSize).2) :
    c.queue = queue := by
  unfold insertOrSendPacket at hc
  split at hc
  · rw [List.mem_singleton] at hc
    rw [hc]
  · cases hc

/-- **The stage uses the queue of the callback.** -/
theorem resequence_queue {now : ℚ} {queue : QHandle} {f f' : NfqFlowbuf} {id : U32} {p : Packet}
    {calls : List Call} (h : resequence now queue f id p = some (f', calls)) {c : Call}
    (hc : c ∈ calls) : c.queue = queue := by
  obtain ⟨sent, kept, -, ⟨-, -, rfl⟩ | ⟨g, -, -, -, rfl⟩⟩ := resequence_split h
  · rcases List.mem_cons.mp hc with rfl | hc
    · rfl
    · obtain ⟨x, -, rfl⟩ := List.mem_map.mp hc
      rfl
  · rcases List.mem_append.mp hc with hc | hc
    · obtain ⟨x, -, rfl⟩ := List.mem_map.mp hc
      rfl
    · exact insertOrSendPacket_queue hc

/-- What holds as long as all calls go to the queue: the global state does not know it. -/
structure Kept (queue : QHandle) (nfq : Nfq) : Prop where
  sized : nfq.All Sized
  global : nfq.queue = none
  calls : CallsTo queue nfq

theorem callsTo_append {queue : QHandle} {nfq nfq' : Nfq} {calls : List Call}
    (h : CallsTo queue nfq) (hcalls : nfq'.calls = nfq.calls ++ calls) :
    CallsTo queue nfq' ↔ ∀ call ∈ calls, call.queue = queue := by
  unfold CallsTo
  rw [hcalls, List.forall_mem_append]
  exact and_iff_right h

/-- One event. -/
theorem step_iff {queue : QHandle} (hqueue : queue ≠ none) {nfq : Nfq} {ev : Event}
    (hk : Kept queue nfq) (hw : ArrivesOn queue nfq ev) :
    ∃ nfq', step nfq ev = some nfq' ∧ (CallsTo queue nfq' ↔ EmptyAtTimeout nfq ev) ∧
      (CallsTo queue nfq' → Kept queue nfq') := by
  rcases ev with a | ⟨now, fbuf⟩
  · obtain ⟨nfq', f, calls, hr, e, hall, -, -, hcalls, hglobal⟩ := keeps_sized.packet hk.sized a
    refine ⟨nfq', e, iff_of_true ((callsTo_append hk.calls hcalls).mpr fun c hc => ?_) trivial,
      fun h => ⟨hall, hglobal.trans hk.global, h⟩⟩
    exact (resequence_queue hr hc).trans hw
  · obtain ⟨nfq1, e1, hall⟩ := keeps_sized.event hk.sized (.timer now fbuf)
    obtain ⟨L, hL, hlisted⟩ := hk.sized.1
    obtain ⟨nfq', L', e, -, -, hglobal, -, hcase⟩ := fire_at hL hlisted now fbuf
    obtain rfl : nfq1 = nfq' := Option.some.inj (e1.symm.trans e)
    refine ⟨nfq1, e, ?_, fun h => ⟨hall, hglobal.trans hk.global, h⟩⟩
    rcases hcase with ⟨rfl, -, hnone⟩ | ⟨c, hc, htimer, -, -, -, -, hcase⟩
    · refine iff_of_true hk.calls fun c hc htimer => ?_
      rw [hnone c hc] at htimer
      cases htimer
    have hempty : EmptyAtTimeout nfq (.timer now fbuf) ↔
        (TimedOut now c.val → c.val.held = []) :=
      forall_pending_iff hc htimer (P := fun f => TimedOut now f → f.held = [])
    rw [hempty]
    rcases hcase with ⟨hnot, -, hcalls, -⟩ | ⟨hout, -, hcalls, -⟩
    · have hsame : nfq1.calls = nfq.calls ++ [] := by rw [hcalls, List.append_nil]
      rw [callsTo_append hk.calls hsame]
      exact iff_of_true (by simp) fun h => absurd h hnot
    · -- the packets of the flow are accepted on the queue that the global state knows
      rw [callsTo_append hk.calls hcalls, hk.global, imp_iff_right hout, List.forall_mem_map]
      rcases c.val.held with _ | ⟨x, xs⟩
      · simp
      · exact iff_of_false (fun h => hqueue (h x (by simp)).symm) (by simp)

/-! ### Runs -/

theorem arrivesOn_run {queue : QHandle} {evs : List Event}
    (h : ∀ a, Event.packet a ∈ evs → a.queue = queue) (nfq : Nfq) :
    AllSteps step (ArrivesOn queue) nfq evs := by
  refine allSteps_of_inv (I := fun _ => True) (Q := fun ev => ArrivesOn queue nfq ev)
    (fun _ _ _ _ _ _ => trivial) (fun _ ev _ hev => ?_) trivial fun ev hev => ?_
  · cases ev <;> exact hev
  · rcases ev with a | ⟨now, fbuf⟩
    · exact h a hev
    · trivial

/-- **Every verdict goes to the queue of `nfq_init` if and only if no flow times out with packets**:
after a successful start, in every run whose packets the library passes with the queue that
`nfq_create_queue` returned, all calls of `nfq_set_verdict` are made with this queue if and only if
every flow that a timer finds timed out holds nothing. -/
theorem verdicts_to_queue_iff {lib : Library} {config : NfqConfig} {nfq : Nfq}
    (hmain : main lib = some (config, nfq)) {evs : List Event}
    (hevs : ∀ a, Event.packet a ∈ evs → a.queue = lib.nfqCreateQueue lib.nfqOpen 0) :
    AllStates step (CallsTo (lib.nfqCreateQueue lib.nfqOpen 0)) nfq evs ↔
      AllSteps step EmptyAtTimeout nfq evs := by
  obtain ⟨rfl, hqueue⟩ := main_some hmain
  exact allStates_iff (fun _ _ hk hw => step_iff hqueue hk hw)
    ⟨all_init Sized, rfl, fun _ h => by cases h⟩ (arrivesOn_run hevs _)

/-- A library in which all calls succeed. -/
def testLibrary : Library where
  nfqOpen := some 1
  nfqCreateQueue _ _ := some 2
  nfqSetMode _ _ _ := 0
  nfqSetQueueFlags _ _ _ := 0
  nfqSetQueueMaxlen _ _ := 0
  nfqFd _ := 3

def segment (id seq : U32) : Arrival := ⟨0, some 2, id, ⟨7, 9, 10, seq, 16, 0⟩⟩

/-- A packet that is sent, and the timer of its flow. -/
def sentTrace : List Event := [.packet (segment 0 1000), .timer 1 0]

/-- A packet that is sent, one that is held, and the timer of their flow. -/
def heldTrace : List Event := [.packet (segment 0 1000), .packet (segment 1 1050), .timer 1 0]

theorem verdicts_to_queue_iff_sent : main testLibrary = some (⟨3, some 1, some 2⟩, Nfq.init) ∧
    AllStates step (CallsTo (some 2)) Nfq.init sentTrace := by
  have hflow : ∃ st f, run flowStep ⟨none, []⟩ [segment 0 1000] = some st ∧ st.buf = some f ∧
      f.held = [] := ⟨_, _, rfl, rfl, by decide⟩
  obtain ⟨st, f, hr, hbuf, hheld⟩ := hflow
  obtain ⟨nfq, c, hrun, -, -, hc, hv⟩ := run_single_cell (s := 7) (d := 9) (by decide) hr
  obtain rfl : f = c.val := Option.some.inj (hbuf.symm.trans hv)
  have hevs : ∀ a, Event.packet a ∈ sentTrace → a.queue = some 2 := by
    simp [sentTrace, segment]
  have hmain : main testLibrary = some (⟨3, some 1, some 2⟩, Nfq.init) := rfl
  refine ⟨hmain, (verdicts_to_queue_iff hmain hevs).mpr
    ⟨trivial, fun nfq' h => ⟨fun c' hc' _ _ => ?_, fun _ _ => trivial⟩⟩⟩
  obtain rfl : nfq' = nfq := Option.some.inj ((run_of_step h rfl).symm.trans hrun)
  rw [hc] at hc'
  cases hc'
  exact hheld

/-- **A verdict without a queue**: the packet that is held when the timer of `heldTrace` fires is
accepted on the queue `NULL`. -/
theorem verdict_on_null : main testLibrary = some (⟨3, some 1, some 2⟩, Nfq.init) ∧
    (∀ a, Event.packet a ∈ heldTrace → a.queue = some 2) ∧
    ¬ AllStates step (CallsTo (some 2)) Nfq.init heldTrace := by
  have hevs : ∀ a, Event.packet a ∈ heldTrace → a.queue = some 2 := by
    simp [heldTrace, segment]
  refine ⟨rfl, hevs, fun h => ?_⟩
  rw [allStates_iff (fun _ _ hk hw => step_iff (by simp) hk hw)
    ⟨all_init Sized, rfl, fun _ h => by cases h⟩ (arrivesOn_run hevs _)] at h
  have hflow : ∃ st f, run flowStep ⟨none, []⟩ [segment 0 1000, segment 1 1050] = some st ∧
      st.buf = some f ∧ f.held = [⟨1050, 1, 10⟩] ∧ f.timer = some 0 ∧ f.lastActivity = 0 ∧
      f.timeout = 0 := ⟨_, _, rfl, rfl, by decide, rfl, rfl, rfl⟩
  obtain ⟨st, f, hr, hbuf, hheld, htimer, hlast, htimeout⟩ := hflow
  obtain ⟨nfq, c, hrun, -, -, hc, hv⟩ := run_single_cell (s := 7) (d := 9) (by decide) hr
  obtain rfl : f = c.val := Option.some.inj (hbuf.symm.trans hv)
  have hout : TimedOut 1 c.val := by
    rw [TimedOut, hlast, htimeout]
    norm_num
  have hempty := h.last (l := [_, _]) hrun c hc (by rw [htimer]; rfl) hout
  rw [hheld] at hempty
  cases hempty

end DynBandwidth.Netfilter.Main
