import DynBandwidth.Sched.NetemRuns
import DynBandwidth.Sched.Tbf

/-! # The emulator inside a token bucket

A token bucket asks the discipline inside it for its next packet, pays for it, and only then takes
it. An emulator has no way to show a packet without letting it go, so that it is kept aside
(`qdisc_peek_dequeued`) until it is taken (`qdisc_dequeue_peeked`). The order of the packets does
not change by this: the one that is kept aside is before those in the queue (`peek_shows`).

A duplicate goes to the discipline at the root, and of a packet that is segmented to be corrupted
the disciplines above are told. Here both stay with the emulator; where this would matter, the
results exclude them. -/

namespace DynBandwidth.Sched.Child

open DynBandwidth.Lib.TimeQueue
open DynBandwidth.Tbf.Kernel (einval)
open DynBandwidth.Sched.Qdisc DynBandwidth.Sched.Netem DynBandwidth.Sched.NetemQueue
open DynBandwidth.Sched.NetemRuns
open DynBandwidth.Reorder.Header (U32 U64)

section Ops
variable (e : Env)

/-- `qdisc_peek_dequeued` of an emulator: the packet that was kept aside, or the next one, which
then is. It still counts. -/
def netemPeekDequeued (now : U64) (s : NetemSched) : Option (NetemSched × Option Skb) :=
  match s.gsoSkb with
  | some skb => some (s, some skb)
  | none =>
    (netemDequeue e now s).map fun r =>
      match r.2 with
      | none => (r.1, none)
      | some skb =>
        ({ r.1 with
          gsoSkb := some skb
          backlog := r.1.backlog + skb.len
          qlen := r.1.qlen + 1 }, some skb)

/-- `qdisc_dequeue_peeked` of an emulator. -/
def netemDequeuePeeked (now : U64) (s : NetemSched) : Option (NetemSched × Option Skb) :=
  match s.gsoSkb with
  | some skb =>
    some ({ s with gsoSkb := none, backlog := s.backlog - skb.len, qlen := s.qlen - 1 }, some skb)
  | none => netemDequeue e now s

/-- A call of an emulator; `none` is a kernel that has stopped. -/
def call {α : Type} (f : NetemSched → Option (NetemSched × α)) (stopped : α)
    (c : Option NetemSched) : Option NetemSched × α :=
  match c.bind f with
  | none => (none, stopped)
  | some r => (some r.1, r.2)

/-- The operations of an emulator inside another discipline, for packets of which it makes no other
packets. `fifo_set_limit` leaves disciplines of other kinds than its own alone, and what is created
is no emulator. -/
def netemOps : QdiscOps (Option NetemSched) where
  enqueue now c skb := call (fun s => netemEnqueue e now 4 s skb) .drop c
  peek now := call (netemPeekDequeued e now) none
  dequeuePeeked now := call (netemDequeuePeeked e now) none
  reset c := c.map netemReset
  fifoSetLimit c _ := .ok c
  fifoCreateDflt _ := .error (-einval)

/-- A call returns, or the kernel has stopped. -/
theorem call_cases {α : Type} (f : NetemSched → Option (NetemSched × α)) (stopped : α)
    (c : Option NetemSched) : call f stopped c = (none, stopped) ∨
      ∃ s s' r, c = some s ∧ f s = some (s', r) ∧ call f stopped c = (some s', r) := by
  unfold call
  cases c with
  | none => exact Or.inl rfl
  | some s =>
    rw [Option.bind_some]
    cases hf : f s with
    | none => exact Or.inl rfl
    | some r => exact Or.inr ⟨s, r.1, r.2, rfl, hf, rfl⟩

theorem gsoSkb_of_peek {e : Env} {now : U64} {s s' : NetemSched} {skb : Skb}
    (h : netemPeekDequeued e now s = some (s', some skb)) : s'.gsoSkb = some skb := by
  unfold netemPeekDequeued at h
  cases hg : s.gsoSkb with
  | some skb' =>
    rw [hg] at h
    cases h
    exact hg
  | none =>
    rw [hg] at h
    obtain ⟨⟨s1, _ | skb'⟩, -, h'⟩ := Option.map_eq_some_iff.mp h
    · cases h'
    · cases h'
      rfl

theorem netemOps_faithful : (netemOps e).Faithful := by
  intro now c skb hp
  simp only [netemOps] at hp ⊢
  rcases call_cases (netemPeekDequeued e now) none c with h | ⟨s, s', r, rfl, hs, h⟩
  · rw [h] at hp
    cases hp
  · rw [h] at hp ⊢
    dsimp only at hp ⊢
    subst hp
    rw [call, Option.bind_some, netemDequeuePeeked, gsoSkb_of_peek hs]

end Ops

/-! ### The order of the packets -/

/-- The packet that is kept aside, with its time. -/
def Aside (s : NetemSched) (shown : List Stamped) : Prop := shown.map Stamped.skb = s.gsoSkb.toList

theorem gsoSkb_dequeue {e : Env} {now : U64} {s s' : NetemSched} {r : Option Skb} (h : InLanes s)
    (hd : netemDequeue e now s = some (s', r)) : s'.gsoSkb = s.gsoSkb := by
  rcases netemDequeue_cases h hd with ⟨x, q, -, -, rfl⟩ | ⟨-, -, -, rfl⟩ |
    ⟨x, lane, data, -, -, -, -, -, -, rfl⟩ | ⟨x, l, data, -, -, -, -, -, rfl⟩
  · rfl
  · rfl
  · cases lane <;> rfl
  · rfl

theorem kept_gsoSkb (e : Env) (now : U64) (g : Option Skb) :
    Kept e now (fun _ => True) fun s => s.gsoSkb = g where
  parts _ _ _ _ _ := ⟨trivial, trivial⟩
  quiet := by
    rintro s s' ⟨rest, drops, -, rfl⟩ h
    exact h
  duplicate _ h := h
  place := by
    rintro s s' skb - h - hp
    rcases netemPlace_cases hp with ⟨rest, -, -, rfl⟩ | ⟨rest, delay, -, -, rfl⟩
    · exact h
    · rw [tfifoEnqueue_frame]
      exact h
  count _ _ _ h := h

/-- **A packet that is shown stays at the front**: the packet that is kept aside, and then those in
the queue, are the same before and after; and a packet is only shown when its time has come. -/
theorem peek_shows {e : Env} {now : U64} {s s' : NetemSched} {r : Option Skb} (h : InLanes s)
    (hq : s.q = []) (hp : netemPeekDequeued e now s = some (s', r)) {shown : List Stamped}
    (hshown : Aside s shown) :
    InLanes s' ∧ s'.q = [] ∧ s'.gsoSkb = r ∧ ∃ shown', shown ++ timed s = shown' ++ timed s' ∧
      Aside s' shown' ∧ ∀ x ∈ shown', x ∈ shown ∨ x.timeToSend ≤ now := by
  unfold netemPeekDequeued at hp
  cases hg : s.gsoSkb with
  | some skb =>
    rw [hg] at hp
    cases hp
    exact ⟨h, hq, hg, shown, rfl, hshown, fun x hx => Or.inl hx⟩
  | none =>
    rw [hg] at hp
    obtain ⟨⟨s1, r1⟩, hd, hp⟩ := Option.map_eq_some_iff.mp hp
    have hl := inLanes_dequeue h hd
    obtain ⟨hq1, moved, ht, hmoved⟩ := dequeue_moves h hq hd
    have hnil : shown = [] := by
      rw [Aside, hg] at hshown
      exact List.map_eq_nil_iff.mp hshown
    cases r1 with
    | none =>
      cases hp
      cases hmoved
      refine ⟨hl, hq1, (gsoSkb_dequeue h hd).trans hg, [], by rw [hnil, ht]; rfl, ?_, by simp⟩
      rw [Aside, gsoSkb_dequeue h hd, hg]
      rfl
    | some skb =>
      cases hp
      cases hmoved with
      | @cons x _ _ _ hx hnil' =>
        cases hnil'
        refine ⟨hl, hq1, rfl, [x], ?_, ?_, ?_⟩
        · rw [hnil, ht]
          rfl
        · exact congrArg (fun x => [x]) hx.1
        · intro y hy
          rw [List.mem_singleton.mp hy]
          exact Or.inr hx.2

end DynBandwidth.Sched.Child
