import Mathlib.Data.List.Nodup
import Mathlib.Data.List.Perm.Subperm
import Mathlib.Data.List.Range
import Mathlib.Logic.Function.Basic

/-! # An array of doubly linked lists

A table of records found by a bucket and a key: an array of heads, and per bucket a doubly linked
list of cells. Cells are allocated and never freed, so an address is the number of the allocation.
Reading through an invalid pointer faults (`none`), as does a walk that does not end.

* `search` walks a bucket for a key, `lookupOrCreate` appends a new cell at the tail if the walk
  found none, `unlink` takes a cell out of its list. `follow` lists the addresses of a bucket.
* `Linked t L` says that the pointers of `t` are what they should be for the lists of addresses `L`:
  the heads and the `next` pointers run through `L b`, the `prev` pointers back, all cells carry
  their bucket, and the keys of one bucket are different.
* `flowAt t b k` is the value of the record at `(b, k)`, if any (`flowAt_eq_some`,
  `flowAt_eq_none`).

What the operations do to a well-formed table is in `Lib/BucketOps.lean`. -/

namespace DynBandwidth.Lib.Buckets

structure Cell (β κ ν : Type) where
  bucket : β
  key : κ
  prev : Option ℕ
  next : Option ℕ
  val : ν
  deriving DecidableEq, Repr

structure Table (β κ ν : Type) where
  head : β → Option ℕ
  cells : List (Cell β κ ν)

variable {β κ ν : Type}

/-! ### The operations -/

section Operations
variable [DecidableEq β] [DecidableEq κ]

/-- The table without cells. -/
def empty : Table β κ ν := ⟨fun _ => none, []⟩

/-- Walk from `curr` for the key `k`. The second result is the last cell passed, `tail` if none was.
The number bounds the steps of the walk. -/
def search (cells : List (Cell β κ ν)) (k : κ) :
    ℕ → Option ℕ → Option ℕ → Option (Option ℕ × Option ℕ)
  | _, none, tail => some (none, tail)
  | 0, some _, _ => none
  | n + 1, some p, tail => do
    let c ← cells[p]?
    if c.key = k then some (some p, tail) else search cells k n c.next (some p)

/-- **Find the record of `(b, k)`, or append one with the value `v`**; returns its address. -/
def lookupOrCreate (t : Table β κ ν) (b : β) (k : κ) (v : ν) : Option (Table β κ ν × ℕ) :=
  match t.head b with
  | none =>
    some (⟨Function.update t.head b (some t.cells.length), t.cells ++ [⟨b, k, none, none, v⟩]⟩,
      t.cells.length)
  | some h => do
    match ← search t.cells k t.cells.length (some h) (some h) with
    | (some p, _) => some (t, p)
    | (none, tail) => do
      let q ← tail
      let c ← t.cells[q]?
      some (⟨t.head, t.cells.set q { c with next := some t.cells.length } ++
        [⟨b, k, some q, none, v⟩]⟩, t.cells.length)

/-- Store a value in a cell. -/
def setVal (t : Table β κ ν) (p : ℕ) (v : ν) : Option (Table β κ ν) := do
  let c ← t.cells[p]?
  some ⟨t.head, t.cells.set p { c with val := v }⟩

/-- **Find or create a record, and let `f` change its value.** -/
def withFlow {ω : Type} (t : Table β κ ν) (b : β) (k : κ) (v : ν) (f : ν → Option (ν × ω)) :
    Option (Table β κ ν × ω) := do
  let (t, p) ← lookupOrCreate t b k v
  let c ← t.cells[p]?
  let (v', o) ← f c.val
  let t ← setVal t p v'
  some (t, o)

/-- **Take a cell out of its list.** -/
def unlink (t : Table β κ ν) (p : ℕ) : Option (Table β κ ν) := do
  let c ← t.cells[p]?
  let t ← match c.prev with
    | some q => do
      let d ← t.cells[q]?
      some (⟨t.head, t.cells.set q { d with next := c.next }⟩ : Table β κ ν)
    | none => some ⟨Function.update t.head c.bucket c.next, t.cells⟩
  match c.next with
  | some n => do
    let d ← t.cells[n]?
    some ⟨t.head, t.cells.set n { d with prev := c.prev }⟩
  | none => some t

/-- The addresses on the way from `curr` along the `next` pointers. The number bounds the steps of
the walk. -/
def follow (cells : List (Cell β κ ν)) : ℕ → Option ℕ → Option (List ℕ)
  | _, none => some []
  | 0, some _ => none
  | n + 1, some p => do
    let c ← cells[p]?
    let ps ← follow cells n c.next
    some (p :: ps)

/-- The value of the record of `(b, k)`, if there is one. -/
def flowAt (t : Table β κ ν) (b : β) (k : κ) : Option ν := do
  let (p, _) ← search t.cells k t.cells.length (t.head b) none
  let c ← t.cells[← p]?
  some c.val

end Operations

/-! ### List segments -/

/-- The cells of bucket `b` at the addresses `ps` are linked: `start` points to the first, whose
`prev` is `prev`; `last` is the last of them and `fin` its `next`. -/
def Seg (cells : List (Cell β κ ν)) (b : β) :
    Option ℕ → Option ℕ → List ℕ → Option ℕ → Option ℕ → Prop
  | prev, start, [], last, fin => last = prev ∧ fin = start
  | prev, start, p :: ps, last, fin => start = some p ∧
    ∃ c, cells[p]? = some c ∧ c.bucket = b ∧ c.prev = prev ∧ Seg cells b (some p) c.next ps last fin

theorem seg_append {cells : List (Cell β κ ν)} {b : β} {ys : List ℕ} {last fin : Option ℕ} :
    ∀ (xs : List ℕ) {prev start : Option ℕ}, Seg cells b prev start (xs ++ ys) last fin ↔
      ∃ m s, Seg cells b prev start xs m s ∧ Seg cells b m s ys last fin
  | [], prev, start => by simp [Seg]
  | p :: xs, prev, start => by
    simp only [List.cons_append, Seg, seg_append xs]
    constructor
    · rintro ⟨h1, c, h2, h3, h4, m, s, h5, h6⟩
      exact ⟨m, s, ⟨h1, c, h2, h3, h4, h5⟩, h6⟩
    · rintro ⟨m, s, ⟨h1, c, h2, h3, h4, h5⟩, h6⟩
      exact ⟨h1, c, h2, h3, h4, m, s, h5, h6⟩

/-- Two memories agree on the cell at `p`, its value apart. -/
def SameLinks (cells cells' : List (Cell β κ ν)) (p : ℕ) : Prop :=
  ∀ c, cells[p]? = some c → ∃ c', cells'[p]? = some c' ∧ c'.bucket = c.bucket ∧ c'.key = c.key ∧
    c'.prev = c.prev ∧ c'.next = c.next

/-- Two memories agree on the cell at `p`, its links apart. -/
def SameData (cells cells' : List (Cell β κ ν)) (p : ℕ) : Prop :=
  ∀ c, cells[p]? = some c → ∃ c', cells'[p]? = some c' ∧ c'.bucket = c.bucket ∧ c'.key = c.key ∧
    c'.val = c.val

/-- The cell at `p` is that of the record `(b, k)`, and holds `v`. -/
def HasCell (t : Table β κ ν) (p : ℕ) (b : β) (k : κ) (v : ν) : Prop :=
  ∃ c, t.cells[p]? = some c ∧ c.bucket = b ∧ c.key = k ∧ c.val = v

/-- The key of the cell at `p`. -/
def keyOf (cells : List (Cell β κ ν)) (p : ℕ) : Option κ := cells[p]?.map Cell.key

theorem sameLinks_of_eq {cells cells' : List (Cell β κ ν)} {p : ℕ} (h : cells'[p]? = cells[p]?) :
    SameLinks cells cells' p := fun c hc => ⟨c, h.trans hc, rfl, rfl, rfl, rfl⟩

theorem sameData_of_eq {cells cells' : List (Cell β κ ν)} {p : ℕ} (h : cells'[p]? = cells[p]?) :
    SameData cells cells' p := fun c hc => ⟨c, h.trans hc, rfl, rfl, rfl⟩

theorem SameLinks.keyOf_eq {cells cells' : List (Cell β κ ν)} {p : ℕ}
    (h : SameLinks cells cells' p) {c : Cell β κ ν} (hc : cells[p]? = some c) :
    keyOf cells' p = keyOf cells p := by
  obtain ⟨c', h1, -, h2, -⟩ := h c hc
  simp [keyOf, h1, hc, h2]

/-- A segment only depends on the links of its cells. -/
theorem Seg.congr {cells cells' : List (Cell β κ ν)} {b : β} {last fin : Option ℕ} :
    ∀ {ps : List ℕ} {prev start : Option ℕ}, Seg cells b prev start ps last fin →
      (∀ p ∈ ps, SameLinks cells cells' p) → Seg cells' b prev start ps last fin
  | [], _, _, h, _ => h
  | p :: ps, prev, start, ⟨h1, c, h2, h3, h4, h5⟩, hs => by
    obtain ⟨c', e1, e2, -, e3, e4⟩ := hs p (by simp) c h2
    refine ⟨h1, c', e1, e2.trans h3, e3.trans h4, ?_⟩
    rw [e4]; exact h5.congr fun q hq => hs q (by simp [hq])

theorem Seg.mem {cells : List (Cell β κ ν)} {b : β} {last fin : Option ℕ} :
    ∀ {ps : List ℕ} {prev start : Option ℕ}, Seg cells b prev start ps last fin →
      ∀ p ∈ ps, ∃ c, cells[p]? = some c ∧ c.bucket = b
  | [], _, _, _, p, hp => by simp at hp
  | q :: ps, prev, start, ⟨_, c, h2, h3, _, h5⟩, p, hp => by
    rcases List.mem_cons.mp hp with rfl | hp
    · exact ⟨c, h2, h3⟩
    · exact h5.mem p hp

/-- The last cell of a segment is its `last`. -/
theorem Seg.last_eq {cells : List (Cell β κ ν)} {b : β} {last fin : Option ℕ} :
    ∀ {ps : List ℕ} {prev start : Option ℕ}, Seg cells b prev start ps last fin →
      last = ps.getLast?.or prev
  | [], _, _, h => by simpa using h.1
  | p :: ps, prev, start, ⟨_, c, _, _, _, h5⟩ => by
    rw [h5.last_eq, List.getLast?_cons]
    cases h : ps.getLast? <;> simp

/-- Redirecting the last cell of a segment. -/
theorem Seg.setNext {cells : List (Cell β κ ν)} {b : β} {xs : List ℕ} {q : ℕ} {d : Cell β κ ν}
    {prev start last fin : Option ℕ} (h : Seg cells b prev start (xs ++ [q]) last fin)
    (hd : cells[q]? = some d) (hnd : (xs ++ [q]).Nodup) (fin' : Option ℕ) :
    Seg (cells.set q { d with next := fin' }) b prev start (xs ++ [q]) last fin' := by
  rw [seg_append] at h ⊢
  obtain ⟨m, s, h1, h2, c, h3, h4, h5, h6, -⟩ := h
  rw [hd] at h3; cases h3
  refine ⟨m, s, h1.congr fun p hp => sameLinks_of_eq ?_, h2,
    { d with next := fin' }, ?_, h4, h5, h6,
    rfl⟩
  · have hne : q ≠ p := by
      rintro rfl
      rw [List.nodup_append] at hnd
      exact hnd.2.2 q hp q (by simp) rfl
    exact List.getElem?_set_ne hne
  · exact List.getElem?_set_self (List.getElem?_eq_some_iff.mp hd).1

/-- Redirecting the first cell of a segment backwards. -/
theorem Seg.setPrev {cells : List (Cell β κ ν)} {b : β} {ys : List ℕ} {n : ℕ} {d : Cell β κ ν}
    {prev start last fin : Option ℕ} (h : Seg cells b prev start (n :: ys) last fin)
    (hd : cells[n]? = some d) (hnd : (n :: ys).Nodup) (prev' : Option ℕ) :
    Seg (cells.set n { d with prev := prev' }) b prev' start (n :: ys) last fin := by
  obtain ⟨h1, c, h2, h3, -, h5⟩ := h
  rw [hd] at h2; cases h2
  refine ⟨h1, _, List.getElem?_set_self (List.getElem?_eq_some_iff.mp hd).1, h3, rfl, ?_⟩
  refine h5.congr fun p hp => sameLinks_of_eq (List.getElem?_set_ne ?_)
  rintro rfl
  exact (List.nodup_cons.mp hnd).1 hp

/-- Changing the links of one cell keeps the data of all. -/
theorem sameData_set {cells : List (Cell β κ ν)} {q : ℕ} {d : Cell β κ ν}
    (hd : cells[q]? = some d) (d' : Cell β κ ν) (hb : d'.bucket = d.bucket) (hk : d'.key = d.key)
    (hv : d'.val = d.val) (p : ℕ) : SameData cells (cells.set q d') p := by
  by_cases hpq : p = q
  · subst hpq
    intro c hc
    rw [hd] at hc; cases hc
    exact ⟨d', List.getElem?_set_self (List.getElem?_eq_some_iff.mp hd).1, hb, hk, hv⟩
  · exact sameData_of_eq (List.getElem?_set_ne (Ne.symm hpq))

theorem SameData.trans {cells cells' cells'' : List (Cell β κ ν)} {p : ℕ}
    (h : SameData cells cells' p) (h' : SameData cells' cells'' p) : SameData cells cells'' p := by
  intro c hc
  obtain ⟨c1, e1, e2, e3, e4⟩ := h c hc
  obtain ⟨c2, f1, f2, f3, f4⟩ := h' c1 e1
  exact ⟨c2, f1, f2.trans e2, f3.trans e3, f4.trans e4⟩

theorem SameData.keyOf_eq {cells cells' : List (Cell β κ ν)} {p : ℕ}
    (h : SameData cells cells' p) {c : Cell β κ ν} (hc : cells[p]? = some c) :
    keyOf cells' p = keyOf cells p := by
  obtain ⟨c', h1, -, h2, -⟩ := h c hc
  simp [keyOf, h1, hc, h2]

/-! ### Well-formed tables -/

/-- **The table is well formed**, with the lists of addresses `L`. -/
structure Linked (t : Table β κ ν) (L : β → List ℕ) : Prop where
  seg : ∀ b, ∃ last, Seg t.cells b none (t.head b) (L b) last none
  keys : ∀ b, ((L b).map (keyOf t.cells)).Nodup

section Linked
variable {t : Table β κ ν} {L : β → List ℕ} (h : Linked t L)
include h

theorem Linked.nodup (b : β) : (L b).Nodup := (h.keys b).of_map

theorem Linked.cell {b : β} {p : ℕ} (hp : p ∈ L b) : ∃ c, t.cells[p]? = some c ∧ c.bucket = b :=
  (h.seg b).choose_spec.mem p hp

theorem Linked.lt {b : β} {p : ℕ} (hp : p ∈ L b) : p < t.cells.length := by
  obtain ⟨c, hc, -⟩ := h.cell hp
  exact (List.getElem?_eq_some_iff.mp hc).1

theorem Linked.length_le (b : β) : (L b).length ≤ t.cells.length := by
  have hsub : L b ⊆ List.range t.cells.length := fun p hp => List.mem_range.mpr (h.lt hp)
  simpa using ((h.nodup b).subperm hsub).length_le

/-- Cells of different buckets are different. -/
theorem Linked.bucket_eq {b b' : β} {p : ℕ} (hp : p ∈ L b) (hp' : p ∈ L b') : b = b' := by
  obtain ⟨c, hc, hb⟩ := h.cell hp
  obtain ⟨c', hc', hb'⟩ := h.cell hp'
  rw [hc] at hc'; cases hc'
  exact hb.symm.trans hb'

/-- Cells of one bucket with one key are equal. -/
theorem Linked.key_inj {b : β} {p q : ℕ} (hp : p ∈ L b) (hq : q ∈ L b)
    (hk : keyOf t.cells p = keyOf t.cells q) : p = q := List.inj_on_of_nodup_map (h.keys b) hp hq hk

end Linked

theorem follow_seg {cells : List (Cell β κ ν)} {b : β} {last : Option ℕ} :
    ∀ {ps : List ℕ} {n : ℕ} {prev start : Option ℕ}, Seg cells b prev start ps last none →
      ps.length ≤ n → follow cells n start = some ps
  | [], n, prev, start, ⟨_, h⟩, _ => by
    subst h
    cases n <;> rfl
  | p :: ps, 0, prev, start, _, hn => by simp at hn
  | p :: ps, n + 1, prev, start, ⟨h1, c, h2, _, _, h5⟩, hn => by
    subst h1
    simp only [follow, h2, Option.bind_eq_bind, Option.bind_some]
    rw [follow_seg h5 (by simpa using hn)]
    rfl

/-- The walk through a bucket of a well-formed table ends, and visits the cells listed. -/
theorem Linked.follow {t : Table β κ ν} {L : β → List ℕ} (h : Linked t L) (b : β) :
    Buckets.follow t.cells t.cells.length (t.head b) = some (L b) := by
  obtain ⟨last, hs⟩ := h.seg b
  exact follow_seg hs (h.length_le b)

/-- The `prev` pointers of a segment. -/
theorem Seg.prev_eq {cells : List (Cell β κ ν)} {b : β} {last fin : Option ℕ} :
    ∀ {ps : List ℕ} {prev start : Option ℕ}, Seg cells b prev start ps last fin →
      ∀ {i p : ℕ}, ps[i]? = some p → ∃ c, cells[p]? = some c ∧
        c.prev = if i = 0 then prev else ps[i - 1]?
  | [], _, _, _, i, p, hp => by simp at hp
  | q :: ps, prev, start, ⟨_, c, h2, _, h4, h5⟩, i, p, hp => by
    cases i with
    | zero =>
      simp only [List.getElem?_cons_zero, Option.some.injEq] at hp
      subst hp
      exact ⟨c, h2, h4⟩
    | succ i =>
      rw [List.getElem?_cons_succ] at hp
      obtain ⟨d, hd, hprev⟩ := h5.prev_eq hp
      refine ⟨d, hd, hprev.trans ?_⟩
      cases i <;> simp

theorem linked_empty : Linked (empty : Table β κ ν) fun _ => [] :=
  ⟨fun _ => ⟨none, rfl, rfl⟩, fun _ => by simp⟩

section Records
variable [DecidableEq κ]

/-- **The search finds the cell with the key, or the end of the list.** -/
theorem search_seg {cells : List (Cell β κ ν)} {b : β} (k : κ) {last : Option ℕ} :
    ∀ {ps : List ℕ} {n : ℕ} {prev start : Option ℕ} (tail : Option ℕ),
      Seg cells b prev start ps last none → ps.length ≤ n →
      (∃ p ∈ ps, keyOf cells p = some k ∧ ∃ q, search cells k n start tail = some (some p, q)) ∨
      ((∀ p ∈ ps, keyOf cells p ≠ some k) ∧
        search cells k n start tail = some (none, ps.getLast?.or tail))
  | [], n, prev, start, tail, h, _ => by
    right
    obtain ⟨-, rfl⟩ := h
    cases n <;> simp [search]
  | p :: ps, 0, prev, start, tail, _, hn => by simp at hn
  | p :: ps, n + 1, prev, start, tail, ⟨h1, c, h2, h3, h4, h5⟩, hn => by
    subst h1
    have hkey : keyOf cells p = some c.key := by simp [keyOf, h2]
    simp only [search, h2, Option.bind_eq_bind, Option.bind_some]
    by_cases hk : c.key = k
    · left
      exact ⟨p, by simp, by rw [hkey, hk], tail, by rw [if_pos hk]⟩
    · rw [if_neg hk]
      rcases search_seg k (some p) h5 (by simpa using hn) with ⟨q, hq, hq', r⟩ | ⟨hq, r⟩
      · left; exact ⟨q, by simp [hq], hq', r⟩
      · right
        refine ⟨?_, ?_⟩
        · intro q hq'
          rcases List.mem_cons.mp hq' with rfl | hq'
          · rw [hkey]; simpa using hk
          · exact hq q hq'
        · rw [r, List.getLast?_cons]
          cases ps.getLast? <;> simp

/-- **The records of a well-formed table.** -/
theorem flowAt_eq_some {t : Table β κ ν} {L : β → List ℕ} (h : Linked t L) {b : β} {k : κ} {v : ν} :
    flowAt t b k = some v ↔ ∃ p ∈ L b, ∃ c, t.cells[p]? = some c ∧ c.key = k ∧ c.val = v := by
  obtain ⟨last, hs⟩ := h.seg b
  unfold flowAt
  rcases search_seg k none hs (h.length_le b) with ⟨p, hp, hk, q, e⟩ | ⟨hno, e⟩
  · obtain ⟨c, hc, -⟩ := h.cell hp
    have hck : c.key = k := by simpa [keyOf, hc] using hk
    simp only [e, Option.bind_eq_bind, Option.bind_some, hc, Option.some.injEq]
    constructor
    · rintro rfl; exact ⟨p, hp, c, hc, hck, rfl⟩
    · rintro ⟨p', hp', c', hc', hk', rfl⟩
      have : p' = p := h.key_inj hp' hp (by simp [keyOf, hc, hc', hk', hck])
      subst this
      rw [hc] at hc'; cases hc'; rfl
  · simp only [e, Option.bind_eq_bind, Option.bind_some, Option.bind_none, reduceCtorEq, false_iff]
    rintro ⟨p, hp, c, hc, hk, -⟩
    exact hno p hp (by simp [keyOf, hc, hk])

theorem flowAt_eq_none {t : Table β κ ν} {L : β → List ℕ} (h : Linked t L) {b : β} {k : κ} :
    flowAt t b k = none ↔ ∀ p ∈ L b, keyOf t.cells p ≠ some k := by
  rw [Option.eq_none_iff_forall_ne_some]
  constructor
  · intro hn p hp hk
    obtain ⟨c, hc, -⟩ := h.cell hp
    exact hn c.val ((flowAt_eq_some h).mpr ⟨p, hp, c, hc, by simpa [keyOf, hc] using hk, rfl⟩)
  · intro hn v hv
    obtain ⟨p, hp, c, hc, hk, -⟩ := (flowAt_eq_some h).mp hv
    exact hn p hp (by simp [keyOf, hc, hk])

@[simp] theorem flowAt_empty (b : β) (k : κ) : flowAt (empty : Table β κ ν) b k = none :=
  (flowAt_eq_none linked_empty).mpr (by simp)

/-- The same records at `(b, k)`, if the same cells are listed there and keep their data. -/
theorem flowAt_congr {t t' : Table β κ ν} {L L' : β → List ℕ} (h : Linked t L) (h' : Linked t' L')
    {b : β} {k : κ} (hsub : ∀ p ∈ L b, keyOf t.cells p = some k → p ∈ L' b)
    (hsup : ∀ p ∈ L' b, keyOf t'.cells p = some k → p ∈ L b)
    (hd : ∀ p ∈ L b, SameData t.cells t'.cells p) : flowAt t' b k = flowAt t b k := by
  refine Option.ext fun v => ?_
  rw [flowAt_eq_some h, flowAt_eq_some h']
  constructor
  · rintro ⟨p, hp, c', hc', hk, rfl⟩
    have hpL := hsup p hp (by simp [keyOf, hc', hk])
    obtain ⟨c, hc, -⟩ := h.cell hpL
    obtain ⟨c'', e1, -, e2, e3⟩ := hd p hpL c hc
    rw [hc'] at e1; cases e1
    exact ⟨p, hpL, c, hc, e2.symm.trans hk, e3.symm⟩
  · rintro ⟨p, hp, c, hc, hk, rfl⟩
    obtain ⟨c', e1, -, e2, e3⟩ := hd p hp c hc
    exact ⟨p, hsub p hp (by simp [keyOf, hc, hk]), c', e1, e2.trans hk, e3⟩

end Records

end DynBandwidth.Lib.Buckets
