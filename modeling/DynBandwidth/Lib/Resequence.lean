import Mathlib.Data.List.Infix
import Mathlib.Data.List.Perm.Basic
import Mathlib.Data.List.Sort
import Mathlib.Data.List.Range

/-! # Resequencing a permuted stream

The items `0, 1, 2, …` of a stream arrive in some order. A resequencer passes an item on when all
lower items have arrived, and holds it until then. Its state is the next item to pass on and the
held items in order; `arrive` is one arrival and `arrivals` a whole order.

After any arrivals the state is determined by what has arrived (`inv_arrivals`), so a permutation of
`0 … n - 1` ends with everything passed on (`arrivals_perm`). The number of held items is the number
of those that miss a lower one (`length_held`), and an item is held on arrival if and only if a
lower one arrives after it (`late_iff`). `arrivals_induction` is the rule for simulations of the
resequencer with a bounded buffer. How much room it needs follows from who can overtake whom
(`waiting_le`). -/

namespace DynBandwidth.Lib.Resequence

structure State where
  next : ℕ
  held : List ℕ

/-- Pass on the held items that are next. -/
def chase : ℕ → List ℕ → State
  | m, [] => ⟨m, []⟩
  | m, j :: js => if j = m then chase (m + 1) js else ⟨m, j :: js⟩

def arrive (s : State) (i : ℕ) : State :=
  if i = s.next then chase (s.next + 1) s.held else ⟨s.next, s.held.orderedInsert (· ≤ ·) i⟩

def arrivals (ord : List ℕ) : State := ord.foldl arrive ⟨0, []⟩

/-- The items that have arrived and miss a lower one. -/
def waiting (arrived : List ℕ) : List ℕ := arrived.filter fun i => ∃ j < i, j ∉ arrived

/-- Some lower item arrives after `i`. -/
def late (ord : List ℕ) (i : ℕ) : Prop := ∃ j < i, ord.idxOf i < ord.idxOf j

instance (ord : List ℕ) : DecidablePred (late ord) := fun i => by unfold late; infer_instance

theorem arrivals_concat (ord : List ℕ) (i : ℕ) :
    arrivals (ord ++ [i]) = arrive (arrivals ord) i := by
  simp [arrivals]

/-! ### One arrival -/

/-- The state is what it should be after the items of a list have arrived. -/
structure Inv (pre : List ℕ) (s : State) : Prop where
  arrived : ∀ j, j ∈ pre ↔ j < s.next ∨ j ∈ s.held
  above : ∀ j ∈ s.held, s.next < j
  sorted : s.held.Pairwise (· < ·)

theorem chase_spec : ∀ {m : ℕ} {js : List ℕ}, (∀ j ∈ js, m ≤ j) → js.Pairwise (· < ·) →
    ∃ k rest, chase m js = ⟨m + k, rest⟩ ∧ js = List.range' m k ++ rest ∧ ∀ j ∈ rest, m + k < j
  | m, [], _, _ => ⟨0, [], rfl, rfl, by simp⟩
  | m, j :: js, hm, hs => by
    rw [List.pairwise_cons] at hs
    by_cases hj : j = m
    · subst hj
      obtain ⟨k, rest, h1, h2, h3⟩ := chase_spec (m := j + 1) (fun x hx => hs.1 x hx) hs.2
      refine ⟨k + 1, rest, by rw [chase, if_pos rfl, h1]; congr 1; omega, ?_, fun x hx => ?_⟩
      · rw [List.range'_succ, List.cons_append, ← h2]
      · have := h3 x hx; omega
    · have hlt : m < j := by have := hm j (by simp); omega
      refine ⟨0, j :: js, by rw [chase, if_neg hj]; rfl, rfl, fun x hx => ?_⟩
      rcases List.mem_cons.mp hx with rfl | hx
      · omega
      · have := hs.1 x hx; omega

/-- The next item passes on with the run of held items behind it. -/
theorem Inv.arrive_next {pre : List ℕ} {s : State} (h : Inv pre s) : ∃ k rest,
    s.held = List.range' (s.next + 1) k ++ rest ∧ (∀ j ∈ rest, s.next + 1 + k < j) ∧
    arrive s s.next = ⟨s.next + 1 + k, rest⟩ := by
  obtain ⟨k, rest, h1, h2, h3⟩ := chase_spec (m := s.next + 1) h.above h.sorted
  exact ⟨k, rest, h2, h3, by rw [arrive, if_pos rfl, h1]⟩

theorem Inv.next_lt {pre : List ℕ} {s : State} (h : Inv pre s) {i : ℕ} (hi : i ∉ pre)
    (hne : i ≠ s.next) : s.next < i := by
  have := mt (h.arrived i).mpr hi
  omega

theorem Inv.next_le {pre : List ℕ} {s : State} (h : Inv pre s) (i : ℕ) :
    s.next ≤ (arrive s i).next := by
  by_cases hi : i = s.next
  · subst hi
    obtain ⟨k, rest, -, -, h3⟩ := h.arrive_next
    rw [h3]
    dsimp only
    omega
  · rw [arrive, if_neg hi]

theorem inv_arrive {pre : List ℕ} {s : State} (h : Inv pre s) {i : ℕ} (hi : i ∉ pre) :
    Inv (pre ++ [i]) (arrive s i) := by
  by_cases hne : i = s.next
  · subst hne
    obtain ⟨k, rest, h1, h2, h3⟩ := h.arrive_next
    rw [h3]
    have hs := h.sorted
    rw [h1, List.pairwise_append] at hs
    refine ⟨fun j => ?_, h2, hs.2.1⟩
    rw [List.mem_append, h.arrived, h1, List.mem_append, List.mem_range'_1, List.mem_singleton]
    dsimp only
    by_cases hr : j ∈ rest
    · simp [hr]
    · simp only [hr, or_false]
      omega
  · have hlt := h.next_lt hi hne
    rw [arrive, if_neg hne]
    refine ⟨fun j => ?_, fun j hj => ?_, ?_⟩
    · rw [List.mem_append, h.arrived, List.mem_orderedInsert, List.mem_singleton]
      tauto
    · rcases (List.mem_orderedInsert _).mp hj with rfl | hj
      · exact hlt
      · exact h.above j hj
    · have hnot : i ∉ s.held := fun hm => hi ((h.arrived i).mpr (Or.inr hm))
      have hle : (s.held.orderedInsert (· ≤ ·) i).Pairwise (· ≤ ·) :=
        (h.sorted.imp le_of_lt).orderedInsert i s.held
      have hnd : (s.held.orderedInsert (· ≤ ·) i).Nodup :=
        (List.perm_orderedInsert _ i s.held).nodup_iff.mpr
          (List.nodup_cons.mpr ⟨hnot, h.sorted.imp fun hab => hab.ne⟩)
      exact hle.imp₂ (fun a b hab hne => lt_of_le_of_ne hab hne) hnd

/-! ### Orders -/

theorem inv_arrivals {ord : List ℕ} (h : ord.Nodup) : Inv ord (arrivals ord) := by
  induction ord using List.reverseRecOn with
  | nil => exact ⟨by simp [arrivals], by simp [arrivals], by simp [arrivals]⟩
  | append_singleton ord i ih =>
    rw [List.nodup_append] at h
    rw [arrivals_concat]
    exact inv_arrive (ih h.1) fun hi => h.2.2 i hi i (by simp) rfl

/-- **A whole stream**: after a permutation of `0 … n - 1` every item has been passed on. -/
theorem arrivals_perm {ord : List ℕ} {n : ℕ} (h : ord.Perm (List.range n)) :
    arrivals ord = ⟨n, []⟩ := by
  have hinv := inv_arrivals (h.nodup_iff.mpr List.nodup_range)
  have hmem : ∀ j, j ∈ ord ↔ j < n := fun j => by rw [h.mem_iff, List.mem_range]
  rcases hs : arrivals ord with ⟨m, B⟩
  rw [hs] at hinv
  have harr : ∀ j, j < n ↔ j < m ∨ j ∈ B := fun j => by rw [← hmem, hinv.arrived]
  -- `m` itself has not arrived, and everything above it lies below `n`
  have hm : ¬ m < n := fun hlt => by
    rcases (harr m).mp hlt with hlt | hB
    · omega
    · exact absurd (hinv.above m hB) (lt_irrefl m)
  have hB : B = [] := List.eq_nil_iff_forall_not_mem.mpr fun j hj => by
    have h1 := (harr j).mpr (Or.inr hj)
    have h2 := hinv.above j hj
    dsimp only at h2
    omega
  have hmn : m = n := by
    by_contra hne
    have := (harr n).mpr (Or.inl (by omega))
    omega
  rw [hB, hmn]

theorem next_notMem {ord : List ℕ} (h : ord.Nodup) : (arrivals ord).next ∉ ord := fun hm => by
  have hinv := inv_arrivals h
  rcases (hinv.arrived _).mp hm with hlt | hB
  · omega
  · exact absurd (hinv.above _ hB) (lt_irrefl _)

/-- The held items are those that miss a lower one. -/
theorem length_held {ord : List ℕ} (h : ord.Nodup) :
    (arrivals ord).held.length = (waiting ord).length := by
  have hinv := inv_arrivals h
  refine List.Perm.length_eq ((List.perm_ext_iff_of_nodup ?_ ?_).mpr fun j => ?_)
  · exact hinv.sorted.imp fun hab => hab.ne
  · exact h.filter _
  · rw [waiting, List.mem_filter, decide_eq_true_eq, hinv.arrived j]
    constructor
    · intro hj
      exact ⟨Or.inr hj, _, hinv.above j hj, next_notMem h⟩
    · rintro ⟨hj | hj, k, hk, hk'⟩
      · exact absurd ((hinv.arrived k).mpr (Or.inl (hk.trans hj))) hk'
      · exact hj

/-- **An item is held on arrival if and only if it is late.** -/
theorem late_iff {pre post : List ℕ} {i : ℕ} (h : pre.Nodup) (hi : i ∉ pre) :
    late (pre ++ i :: post) i ↔ i ≠ (arrivals pre).next := by
  have hinv := inv_arrivals h
  have hidx : (pre ++ i :: post).idxOf i = pre.length := by
    rw [List.idxOf_append_of_notMem hi, List.idxOf_cons_self, Nat.add_zero]
  have hlt : ∀ j, j < i → (pre.length < (pre ++ i :: post).idxOf j ↔ j ∉ pre) := fun j hj => by
    by_cases hm : j ∈ pre
    · have := List.idxOf_lt_length_of_mem hm
      rw [List.idxOf_append_of_mem hm]
      simp only [hm, not_true, iff_false]
      omega
    · rw [List.idxOf_append_of_notMem hm, List.idxOf_cons_ne _ (by omega)]
      simp only [hm, not_false_iff, iff_true]
      omega
  constructor
  · rintro ⟨j, hj, hlate⟩ rfl
    rw [hidx, hlt j hj] at hlate
    exact hlate ((hinv.arrived j).mpr (Or.inl hj))
  · intro hne
    refine ⟨_, hinv.next_lt hi hne, ?_⟩
    rw [hidx, hlt _ (hinv.next_lt hi hne)]
    exact next_notMem h

theorem late_of_held {pre : List ℕ} (h : pre.Nodup) (post : List ℕ) {j : ℕ}
    (hj : j ∈ (arrivals pre).held) : late (pre ++ post) j := by
  have hinv := inv_arrivals h
  have hmem := (hinv.arrived j).mpr (Or.inr hj)
  refine ⟨_, hinv.above j hj, ?_⟩
  rw [List.idxOf_append_of_mem hmem, List.idxOf_append_of_notMem (next_notMem h)]
  have := List.idxOf_lt_length_of_mem hmem
  omega

/-- **Induction along an order of arrival** that never has more than `cap` items waiting. -/
theorem arrivals_induction {ord : List ℕ} (hnd : ord.Nodup) {cap : ℕ}
    (hwait : ∀ pre ∈ ord.inits, (waiting pre).length ≤ cap) {P : List ℕ → Prop} (hnil : P [])
    (hstep : ∀ pre i, pre ++ [i] <+: ord → pre.Nodup → i ∉ pre →
      (arrive (arrivals pre) i).held.length ≤ cap → P pre → P (pre ++ [i])) :
    ∀ pre, pre <+: ord → P pre := by
  intro pre hp
  induction pre using List.reverseRecOn with
  | nil => exact hnil
  | append_singleton pre i ih =>
    have hnd' : (pre ++ [i]).Nodup := hp.sublist.nodup hnd
    have h := List.nodup_append.mp hnd'
    refine hstep pre i hp h.1 (fun hi => h.2.2 i hi i (by simp) rfl) ?_
      (ih ((List.prefix_append pre [i]).trans hp))
    rw [← arrivals_concat, length_held hnd']
    exact hwait _ ((List.mem_inits _ _).mpr hp)

/-- The late items passed on after the next item has arrived: those before, and the held ones that
follow it. -/
theorem filter_late_range {pre post : List ℕ} (h : pre.Nodup) {k : ℕ} {rest : List ℕ}
    (hheld : (arrivals pre).held = List.range' ((arrivals pre).next + 1) k ++ rest) :
    (List.range ((arrivals pre).next + 1 + k)).filter (late (pre ++ (arrivals pre).next :: post)) =
      (List.range (arrivals pre).next).filter (late (pre ++ (arrivals pre).next :: post)) ++
        List.range' ((arrivals pre).next + 1) k := by
  have hself : ¬ late (pre ++ (arrivals pre).next :: post) (arrivals pre).next := by
    rw [late_iff h (next_notMem h)]
    exact fun hne => hne rfl
  have hrun : ∀ j ∈ List.range' ((arrivals pre).next + 1) k,
      late (pre ++ (arrivals pre).next :: post) j := fun j hj =>
    late_of_held h _ (by rw [hheld]; exact List.mem_append_left _ hj)
  have hall : (List.range' ((arrivals pre).next + 1) k).filter
      (late (pre ++ (arrivals pre).next :: post)) = List.range' ((arrivals pre).next + 1) k :=
    List.filter_eq_self.mpr fun j hj => decide_eq_true (hrun j hj)
  have hsplit : List.range ((arrivals pre).next + 1 + k) = List.range (arrivals pre).next ++
      (arrivals pre).next :: List.range' ((arrivals pre).next + 1) k := by
    rw [List.range_eq_range', List.range_eq_range', ← List.range'_append_1, List.range'_concat]
    simp
  rw [hsplit, List.filter_append, List.filter_cons_of_neg (by simpa using hself), hall]

/-! ### Bounded overtaking -/

section Overtaking
variable {ord : List ℕ} {n : ℕ} {R : ℕ → ℕ → Prop}

/-- **How many wait**: if an item overtakes only those that `R` says, and only `cap` can overtake
one of them, no more than `cap` are waiting at any time. -/
theorem waiting_le [DecidableRel R] (hord : ord.Perm (List.range n))
    (hover : ord.Pairwise fun i j => j < i → R i j) {cap : ℕ}
    (hcap : ∀ j < n, ((List.range n).countP fun i => j < i ∧ R i j) ≤ cap) :
    ∀ pre ∈ ord.inits, (waiting pre).length ≤ cap := by
  intro pre hpre
  obtain ⟨post, rfl⟩ := (List.mem_inits _ _).mp hpre
  have hmem : ∀ j, j ∈ pre ++ post ↔ j < n := fun j => by rw [hord.mem_iff, List.mem_range]
  obtain ⟨hnd, -, -⟩ := List.nodup_append.mp (hord.nodup_iff.mpr List.nodup_range)
  have hinv := inv_arrivals hnd
  rw [← length_held hnd]
  -- all of them miss the item that is to be passed on next
  by_cases hn : (arrivals pre).next < n
  · refine le_trans ?_ (hcap _ hn)
    have hpost := (List.mem_append.mp ((hmem _).mpr hn)).resolve_left (next_notMem hnd)
    rw [List.countP_eq_length_filter]
    refine (List.subperm_of_subset (hinv.sorted.imp fun hab => hab.ne) fun i hi => ?_).length_le
    have hpre := (hinv.arrived i).mpr (Or.inr hi)
    have hlt := (hmem i).mp (List.mem_append_left _ hpre)
    have hR := (List.pairwise_append.mp hover).2.2 i hpre _ hpost (hinv.above i hi)
    rw [List.mem_filter, List.mem_range, decide_eq_true_eq]
    exact ⟨hlt, hinv.above i hi, hR⟩
  · have hnil : (arrivals pre).held = [] := List.eq_nil_iff_forall_not_mem.mpr fun i hi => by
      have hlt := (hmem i).mp (List.mem_append_left _ ((hinv.arrived i).mpr (Or.inr hi)))
      have hab := hinv.above i hi
      omega
    rw [hnil]
    exact Nat.zero_le _

/-- An item that none can overtake comes first. -/
theorem head_eq_zero (hord : ord.Perm (List.range n))
    (hover : ord.Pairwise fun i j => j < i → R i j) (hlead : ∀ i < n, 0 < i → ¬ R i 0) :
    ∀ i ∈ ord.head?, i = 0 := by
  intro i hi
  obtain ⟨rest, rfl⟩ := List.head?_eq_some_iff.mp hi
  by_contra hne
  have hlt : i < n := List.mem_range.mp (hord.mem_iff.mp List.mem_cons_self)
  have hzero : 0 ∈ i :: rest := hord.mem_iff.mpr (List.mem_range.mpr (by omega))
  have hrest := (List.mem_cons.mp hzero).resolve_left fun h => hne h.symm
  exact hlead i hlt (by omega) ((List.pairwise_cons.mp hover).1 0 hrest (by omega))

/-- **Who is late** in an order by keys: an item with a key below that of a lower item. -/
theorem late_iff_key {key : ℕ → ℕ} (hord : ord.Perm (List.range n))
    (hsort : ord.Pairwise fun i j => key i ≤ key j ∧ (j < i → key i < key j)) {j : ℕ}
    (hj : j < n) : late ord j ↔ ∃ i < j, key j < key i := by
  have hmem : ∀ i, i < n → i ∈ ord := fun i hi => hord.mem_iff.mpr (List.mem_range.mpr hi)
  have hbefore : ∀ {a b : ℕ}, a ∈ ord → b ∈ ord → ord.idxOf a < ord.idxOf b →
      key a ≤ key b ∧ (b < a → key a < key b) := by
    intro a b ha hb hlt
    have h := List.pairwise_iff_getElem.mp hsort _ _ (List.idxOf_lt_length_of_mem ha)
      (List.idxOf_lt_length_of_mem hb) hlt
    rwa [List.getElem_idxOf, List.getElem_idxOf] at h
  refine exists_congr fun i => and_congr_right fun hij => ?_
  have hi := hmem i (by omega)
  constructor
  · intro hlt
    exact (hbefore (hmem j hj) hi hlt).2 hij
  · intro hkey
    by_contra hle
    have hne : ord.idxOf i ≠ ord.idxOf j := fun h => by
      have := (List.idxOf_inj hi).mp h
      omega
    have := (hbefore hi (hmem j hj) (by omega)).1
    omega

end Overtaking

end DynBandwidth.Lib.Resequence
