import DynBandwidth.Lib.Buckets

/-! # The operations on arrays of doubly linked lists

On a well-formed table of `Lib/Buckets.lean` the operations do not fault, keep the table well formed
and change the record at one place: `lookupOrCreate_flow`, `setVal_spec`, `withFlow_spec` and
`unlink_flow`. `Listed` is for invariants of memory: only cells in a list have values of a certain
kind. -/

namespace DynBandwidth.Lib.Buckets

variable {β κ ν : Type}

/-! ### Appending a cell -/

/-- Only the list without cells starts at no address. -/
theorem Linked.nil_of_head {t : Table β κ ν} {L : β → List ℕ} (h : Linked t L) {b : β}
    (hb : t.head b = none) : L b = [] := by
  obtain ⟨last, hs⟩ := h.seg b
  rcases hL : L b with _ | ⟨p, ps⟩
  · rfl
  · rw [hL, hb] at hs
    exact absurd hs.1 (by simp)

section Create
variable [DecidableEq β]

/-- A change of one bucket. -/
theorem Linked.update {t t' : Table β κ ν} {L : β → List ℕ} (h : Linked t L) {b : β} {ps : List ℕ}
    (hseg : ∃ last, Seg t'.cells b none (t'.head b) ps last none)
    (hkeys : (ps.map (keyOf t'.cells)).Nodup) (hhead : ∀ b' ≠ b, t'.head b' = t.head b')
    (hcells : ∀ b' ≠ b, ∀ p ∈ L b', SameLinks t.cells t'.cells p) :
    Linked t' (Function.update L b ps) := by
  refine ⟨fun b' => ?_, fun b' => ?_⟩
  · by_cases hb : b' = b
    · subst hb; simpa using hseg
    · obtain ⟨last, hs⟩ := h.seg b'
      rw [Function.update_of_ne hb, hhead b' hb]
      exact ⟨last, hs.congr (hcells b' hb)⟩
  · by_cases hb : b' = b
    · subst hb; simpa using hkeys
    · rw [Function.update_of_ne hb, List.map_congr_left fun p hp => ?_]
      · exact h.keys b'
      · obtain ⟨c, hc, -⟩ := h.cell hp
        exact (hcells b' hb p hp).keyOf_eq hc

/-- **The first cell of a bucket.** -/
theorem Linked.createFirst {t : Table β κ ν} {L : β → List ℕ} (h : Linked t L) {b : β}
    (hb : t.head b = none) (k : κ) (v : ν) :
    Linked ⟨Function.update t.head b (some t.cells.length), t.cells ++ [⟨b, k, none, none, v⟩]⟩
      (Function.update L b (L b ++ [t.cells.length])) := by
  rw [h.nil_of_head hb]
  refine h.update ⟨some t.cells.length, ?_⟩ (by simp) (fun b' hb' => by simp [hb']) ?_
  · simp [Seg]
  · intro b' _ p hp
    exact sameLinks_of_eq (List.getElem?_append_left (h.lt hp))

/-- **A further cell of a bucket**, behind the last one. -/
theorem Linked.createTail {t : Table β κ ν} {L : β → List ℕ} (h : Linked t L) {b : β}
    {xs : List ℕ} {q : ℕ} {c : Cell β κ ν} (hL : L b = xs ++ [q])
    (hc : t.cells[q]? = some c) {k : κ}
    (hno : ∀ p ∈ L b, keyOf t.cells p ≠ some k) (v : ν) :
    Linked ⟨t.head, t.cells.set q { c with next := some t.cells.length } ++
      [⟨b, k, some q, none, v⟩]⟩ (Function.update L b (L b ++ [t.cells.length])) := by
  have hq : q ∈ L b := by simp [hL]
  -- the new memory, and what it has at the old addresses and at the new one
  set cells1 := t.cells.set q { c with next := some t.cells.length } with hcells1
  have hlen : cells1.length = t.cells.length := by simp [hcells1]
  have hold : ∀ p ∈ L b, (cells1 ++ [⟨b, k, some q, none, v⟩])[p]? = cells1[p]? := fun p hp =>
    List.getElem?_append_left (by rw [hlen]; exact h.lt hp)
  have hnew : (cells1 ++ [⟨b, k, some q, none, v⟩])[t.cells.length]? =
      some ⟨b, k, some q, none, v⟩ := by
    rw [← hlen, List.getElem?_concat_length]
  have hkeys : ∀ p ∈ L b, keyOf (cells1 ++ [⟨b, k, some q, none, v⟩]) p = keyOf t.cells p := by
    intro p hp
    obtain ⟨d, hd, -⟩ := h.cell hp
    rw [keyOf, hold p hp]
    exact (sameData_set hc { c with next := some t.cells.length } rfl rfl rfl p).keyOf_eq hd
  refine h.update ⟨some t.cells.length, ?_⟩ ?_ (fun b' _ => rfl) ?_
  · obtain ⟨last, hs⟩ := h.seg b
    have hlast : last = some q := by rw [hs.last_eq, hL]; simp
    have hnd := h.nodup b
    rw [hL] at hs hnd
    rw [seg_append]
    refine ⟨some q, some t.cells.length, ?_, rfl, _, hnew, rfl, rfl, rfl, rfl⟩
    rw [hL]
    refine Seg.congr ?_ fun p hp => sameLinks_of_eq (hold p (by rw [hL]; exact hp))
    rw [← hlast]
    exact hs.setNext hc hnd _
  · rw [List.map_append, List.map_congr_left hkeys, List.map_singleton, List.nodup_append]
    refine ⟨h.keys b, by simp, ?_⟩
    rintro x hx y hy rfl
    obtain ⟨p, hp, rfl⟩ := List.mem_map.mp hx
    refine hno p hp ?_
    rw [List.mem_singleton] at hy
    rw [hy, keyOf, hnew]; rfl
  · intro b' hb' p hp
    refine sameLinks_of_eq ?_
    rw [List.getElem?_append_left (by rw [hlen]; exact h.lt hp), hcells1, List.getElem?_set_ne]
    rintro rfl
    exact hb' (h.bucket_eq hp hq)

end Create

/-! ### The operations on well-formed tables -/

section Specs
variable [DecidableEq β] [DecidableEq κ] {t : Table β κ ν} {L : β → List ℕ}

/-- **Lookup or creation**: the listed cell with the key, or a new one at the end of the list. -/
theorem lookupOrCreate_spec (h : Linked t L) (b : β) (k : κ) (v : ν) :
    ∃ t' p, lookupOrCreate t b k v = some (t', p) ∧
      ((t' = t ∧ p ∈ L b ∧ keyOf t.cells p = some k) ∨
       ((∀ q ∈ L b, keyOf t.cells q ≠ some k) ∧ p = t.cells.length ∧
        Linked t' (Function.update L b (L b ++ [p])) ∧
        (∃ prev, t'.cells[p]? = some ⟨b, k, prev, none, v⟩) ∧
        t'.cells.length = t.cells.length + 1 ∧
        ∀ q < t.cells.length, SameData t.cells t'.cells q)) := by
  unfold lookupOrCreate
  rcases hh : t.head b with _ | a
  · refine ⟨_, _, rfl, Or.inr ⟨?_, rfl, h.createFirst hh k v, ⟨none, ?_⟩, ?_, fun q hq => ?_⟩⟩
    · simp [h.nil_of_head hh]
    · exact List.getElem?_concat_length
    · simp
    · exact sameData_of_eq (List.getElem?_append_left hq)
  · obtain ⟨last, hs⟩ := h.seg b
    have hsr := search_seg k (some a) hs (h.length_le b)
    rw [hh] at hsr
    rcases hsr with ⟨p, hp, hk, q, e⟩ | ⟨hno, e⟩
    · exact ⟨t, p, by simp [e], Or.inl ⟨rfl, hp, hk⟩⟩
    · -- the list is not empty, so the walk ended at its last cell
      rcases List.eq_nil_or_concat (L b) with hnil | ⟨xs, q, hL⟩
      · rw [hnil, hh] at hs
        exact absurd hs.2 (by simp)
      · rw [List.concat_eq_append] at hL
        obtain ⟨c, hc, -⟩ := h.cell (b := b) (p := q) (by simp [hL])
        have hlast : (L b).getLast? = some q := by rw [hL]; simp
        refine ⟨_, _, by simp [e, hlast, hc], Or.inr ⟨hno, rfl, h.createTail hL hc hno v,
          ⟨some q, ?_⟩, by simp, fun p hp => ?_⟩⟩
        · have hlen : (t.cells.set q { c with next := some t.cells.length }).length =
              t.cells.length := List.length_set
          rw [List.getElem?_append_right hlen.le, hlen, Nat.sub_self]; rfl
        · refine (sameData_set hc { c with next := some t.cells.length } rfl rfl rfl p).trans
            (sameData_of_eq ?_)
          exact List.getElem?_append_left (by simpa using hp)

omit [DecidableEq β] [DecidableEq κ] in
theorem setVal_get {p : ℕ} {c : Cell β κ ν} (hc : t.cells[p]? = some c) {v : ν} {t' : Table β κ ν}
    (e : setVal t p v = some t') : t'.cells[p]? = some { c with val := v } := by
  simp only [setVal, hc, Option.bind_eq_bind, Option.bind_some, Option.some.injEq] at e
  subst e
  exact List.getElem?_set_self (List.getElem?_eq_some_iff.mp hc).1

omit [DecidableEq β] [DecidableEq κ] in
/-- Storing a value changes one cell. -/
theorem setVal_cells {p : ℕ} {v : ν} {t' : Table β κ ν} (e : setVal t p v = some t') :
    t'.cells.length = t.cells.length ∧ ∀ q ≠ p, t'.cells[q]? = t.cells[q]? := by
  obtain ⟨c, hc, e⟩ := Option.bind_eq_some_iff.mp e
  cases e
  exact ⟨List.length_set, fun q hq => List.getElem?_set_ne (Ne.symm hq)⟩

omit [DecidableEq β] in
/-- **Storing a value** changes one record. -/
theorem setVal_spec (h : Linked t L) {b : β} {p : ℕ} (hp : p ∈ L b) {k : κ}
    (hk : keyOf t.cells p = some k) (v : ν) :
    ∃ t', setVal t p v = some t' ∧ Linked t' L ∧ flowAt t' b k = some v ∧
      ∀ b' k', ¬ (b' = b ∧ k' = k) → flowAt t' b' k' = flowAt t b' k' := by
  obtain ⟨c, hc, hcb⟩ := h.cell hp
  have hck : c.key = k := by simpa [keyOf, hc] using hk
  have hself : (t.cells.set p { c with val := v })[p]? = some { c with val := v } :=
    List.getElem?_set_self (List.getElem?_eq_some_iff.mp hc).1
  have hlinks : ∀ q, SameLinks t.cells (t.cells.set p { c with val := v }) q := by
    intro q
    by_cases hq : q = p
    · subst hq
      intro c' hc'
      rw [hc] at hc'; cases hc'
      exact ⟨_, hself, rfl, rfl, rfl, rfl⟩
    · exact sameLinks_of_eq (List.getElem?_set_ne (Ne.symm hq))
  have hL : Linked (⟨t.head, t.cells.set p { c with val := v }⟩ : Table β κ ν) L := by
    refine ⟨fun b' => ?_, fun b' => ?_⟩
    · obtain ⟨last, hs⟩ := h.seg b'
      exact ⟨last, hs.congr fun q _ => hlinks q⟩
    · rw [List.map_congr_left fun q hq => ?_]
      · exact h.keys b'
      · obtain ⟨d, hd, -⟩ := h.cell hq
        exact (hlinks q).keyOf_eq hd
  refine ⟨_, by simp [setVal, hc], hL, (flowAt_eq_some hL).mpr ⟨p, hp, _, hself, hck, rfl⟩, ?_⟩
  intro b' k' hne
  -- a cell other than `p` is as before, and `p` is not a cell of `(b', k')`
  have hpne : ∀ q ∈ L b', ∀ d : Cell β κ ν, t.cells[q]? = some d → d.key = k' → q ≠ p := by
    rintro q hq d hd hdk rfl
    rw [hc] at hd; cases hd
    exact hne ⟨h.bucket_eq hq hp, hdk.symm.trans hck⟩
  refine Option.ext fun w => ?_
  rw [flowAt_eq_some h, flowAt_eq_some hL]
  constructor
  · rintro ⟨q, hq, d, hd, hdk, rfl⟩
    obtain ⟨d0, hd0, -⟩ := h.cell hq
    obtain ⟨d', hd', -, hk', -⟩ := hlinks q d0 hd0
    have hd'' : d = d' := Option.some.inj (hd.symm.trans hd')
    have hqp := hpne q hq d0 hd0 (by rw [← hk', ← hd'']; exact hdk)
    rw [List.getElem?_set_ne (Ne.symm hqp)] at hd
    exact ⟨q, hq, d, hd, hdk, rfl⟩
  · rintro ⟨q, hq, d, hd, hdk, rfl⟩
    have hqp := hpne q hq d hd hdk
    exact ⟨q, hq, d, by rw [List.getElem?_set_ne (Ne.symm hqp)]; exact hd, hdk, rfl⟩

/-- **Lookup or creation, by records**: the address found has the record of `(b, k)`, or a new
record with the value `v`, and no other record changes. -/
theorem lookupOrCreate_flow (h : Linked t L) (b : β) (k : κ) (v : ν) :
    ∃ t' p L' c, lookupOrCreate t b k v = some (t', p) ∧ Linked t' L' ∧ p ∈ L' b ∧
      t'.cells[p]? = some c ∧ c.key = k ∧ c.val = (flowAt t b k).getD v ∧
      (∀ b' k', ¬ (b' = b ∧ k' = k) → flowAt t' b' k' = flowAt t b' k') ∧
      ((flowAt t b k = some c.val ∧ t' = t ∧ L' = L) ∨
        (flowAt t b k = none ∧ p = t.cells.length ∧ L' = Function.update L b (L b ++ [p]) ∧
          t'.cells.length = t.cells.length + 1 ∧
          ∀ q < t.cells.length, SameData t.cells t'.cells q)) := by
  obtain ⟨t1, p, e1, hcase⟩ := lookupOrCreate_spec h b k v
  rcases hcase with ⟨rfl, hp, hk⟩ | ⟨hno, rfl, hL1, ⟨prev, hnew⟩, hlen, hsame⟩
  · obtain ⟨c, hc, -⟩ := h.cell hp
    have hck : c.key = k := by simpa [keyOf, hc] using hk
    have hflow : flowAt t1 b k = some c.val := (flowAt_eq_some h).mpr ⟨p, hp, c, hc, hck, rfl⟩
    exact ⟨t1, p, L, c, e1, h, hp, hc, hck, by rw [hflow]; rfl, fun _ _ _ => rfl,
      Or.inl ⟨hflow, rfl, rfl⟩⟩
  · have hflow : flowAt t b k = none := (flowAt_eq_none h).mpr hno
    have hk : keyOf t1.cells t.cells.length = some k := by simp [keyOf, hnew]
    refine ⟨t1, _, _, _, e1, hL1, by simp, hnew, rfl, by rw [hflow]; rfl, fun b' k' hne => ?_,
      Or.inr ⟨hflow, rfl, rfl, hlen, hsame⟩⟩
    refine flowAt_congr h hL1 (fun q hq _ => ?_) (fun q hq hqk => ?_) fun q hq => hsame q (h.lt hq)
    · by_cases hb : b' = b
      · subst hb; simp [hq]
      · rwa [Function.update_of_ne hb]
    · by_cases hb : b' = b
      · subst hb
        rw [Function.update_self, List.mem_append, List.mem_singleton] at hq
        rcases hq with hq | rfl
        · exact hq
        · rw [hk, Option.some.injEq] at hqk
          exact absurd ⟨rfl, hqk.symm⟩ hne
      · rwa [Function.update_of_ne hb] at hq

/-- **A transaction on one record** changes this record and no other. -/
theorem withFlow_spec {ω : Type} (h : Linked t L) {b : β} {k : κ} {v v' : ν} {o : ω}
    {f : ν → Option (ν × ω)} (hf : f ((flowAt t b k).getD v) = some (v', o)) :
    ∃ t' L', withFlow t b k v f = some (t', o) ∧ Linked t' L' ∧ flowAt t' b k = some v' ∧
      ∀ b' k', ¬ (b' = b ∧ k' = k) → flowAt t' b' k' = flowAt t b' k' := by
  obtain ⟨t1, p, L1, c, e1, hL1, hp, hc, hck, hval, hsame, -⟩ := lookupOrCreate_flow h b k v
  obtain ⟨t', e2, hL', hat, hother⟩ := setVal_spec hL1 hp (show keyOf t1.cells p = some k by
    simp [keyOf, hc, hck]) v'
  rw [← hval] at hf
  refine ⟨t', L1, by simp [withFlow, e1, hc, hf, e2], hL', hat, fun b' k' hne => ?_⟩
  rw [hother b' k' hne, hsame b' k' hne]

/-- A transaction that faults. -/
theorem withFlow_none {ω : Type} (h : Linked t L) {b : β} {k : κ} {v : ν}
    {f : ν → Option (ν × ω)} (hf : f ((flowAt t b k).getD v) = none) :
    withFlow t b k v f = none := by
  obtain ⟨t1, p, L1, c, e1, -, -, hc, -, hval, -⟩ := lookupOrCreate_flow h b k v
  rw [← hval] at hf
  simp [withFlow, e1, hc, hf]

/-! ### Taking a cell out -/

omit [DecidableEq β] [DecidableEq κ] in
/-- Linking the cells before and after a cell to each other: the cells `xs` end at `fin`, the cells
`ys` start there. -/
theorem Seg.join {cells : List (Cell β κ ν)} {b : β} {xs ys : List ℕ} {start m fin last : Option ℕ}
    (hx : Seg cells b none start xs m fin) {p : ℕ} (hy : Seg cells b (some p) fin ys last none)
    (hnd : (xs ++ ys).Nodup) :
    ∃ cells', (match fin with
        | some n => (cells[n]?).bind fun d => some (cells.set n { d with prev := m })
        | none => some cells) = some cells' ∧
      (∃ last', Seg cells' b none start (xs ++ ys) last' none) ∧
      (∀ q, SameData cells cells' q) ∧ cells'.length = cells.length ∧
      ∀ q, q ∉ ys → cells'[q]? = cells[q]? := by
  rcases ys with _ | ⟨n, ys⟩
  · obtain ⟨-, rfl⟩ := hy
    refine ⟨cells, rfl, ⟨m, ?_⟩, fun q => sameData_of_eq rfl, rfl, fun _ _ => rfl⟩
    simpa using hx
  · have hn := hy.1
    subst hn
    obtain ⟨d, hd, -⟩ := hy.mem n (by simp)
    rw [List.nodup_append] at hnd
    refine ⟨cells.set n { d with prev := m }, by simp [hd], ⟨last, ?_⟩,
      sameData_set hd { d with prev := m } rfl rfl rfl, by simp, fun q hq => ?_⟩
    · rw [seg_append]
      refine ⟨m, some n, hx.congr fun q hq => sameLinks_of_eq ?_, hy.setPrev hd hnd.2.1 m⟩
      exact List.getElem?_set_ne fun he => hnd.2.2 q hq n (by simp) he.symm
    · exact List.getElem?_set_ne fun he => hq (by simp [he])

omit [DecidableEq κ] in
/-- **Taking a cell out**: its list loses the address, and no cell loses its data. -/
theorem unlink_spec (h : Linked t L) {b : β} {p : ℕ} (hp : p ∈ L b) :
    ∃ t', unlink t p = some t' ∧ Linked t' (Function.update L b ((L b).erase p)) ∧
      (∀ q, SameData t.cells t'.cells q) ∧ t'.cells.length = t.cells.length := by
  obtain ⟨xs, ys, hL⟩ := List.append_of_mem hp
  have hnd := h.nodup b
  obtain ⟨last, hs⟩ := h.seg b
  rw [hL] at hs hnd
  rw [seg_append] at hs
  obtain ⟨m, s, hx, rfl, c, hc, hcb, hcm, hy⟩ := hs
  have hpx : p ∉ xs := fun hm => by
    rw [List.nodup_append] at hnd; exact hnd.2.2 p hm p (by simp) rfl
  have herase : (L b).erase p = xs ++ ys := by
    rw [hL, List.erase_append_right _ hpx, List.erase_cons_head]
  have hnd' : (xs ++ ys).Nodup := by rw [← herase]; exact (h.nodup b).erase p
  have hmem : ∀ q ∈ xs ++ ys, q ∈ L b := fun q hq => by
    rw [hL]; simp only [List.mem_append, List.mem_cons] at hq ⊢; tauto
  -- it is enough to have the memory, the new head and the new list
  suffices hgoal : ∃ t', unlink t p = some t' ∧
      (∃ last, Seg t'.cells b none (t'.head b) (xs ++ ys) last none) ∧
      (∀ q, SameData t.cells t'.cells q) ∧ t'.cells.length = t.cells.length ∧
      (∀ b' ≠ b, t'.head b' = t.head b') ∧ ∀ q, q ∉ L b → t'.cells[q]? = t.cells[q]? by
    obtain ⟨t', e, hseg, hdata, hlen, hhead, hout⟩ := hgoal
    refine ⟨t', e, ?_, hdata, hlen⟩
    rw [herase]
    refine h.update hseg ?_ hhead fun b' hb' q hq => sameLinks_of_eq (hout q fun hq' => ?_)
    · rw [List.map_congr_left fun q hq => ?_]
      · have hsub : ((xs ++ ys).map (keyOf t.cells)).Sublist ((L b).map (keyOf t.cells)) := by
          rw [← herase]; exact List.erase_sublist.map _
        exact hsub.nodup (h.keys b)
      · obtain ⟨d, hd, -⟩ := h.cell (hmem q hq)
        exact (hdata q).keyOf_eq hd
    · exact hb' (h.bucket_eq hq hq')
  have hml : m = xs.getLast? := by rw [hx.last_eq]; simp
  rcases List.eq_nil_or_concat xs with rfl | ⟨xs', q, hxs⟩
  · -- the first cell: the head moves
    simp only [List.getLast?_nil] at hml
    subst hml
    have hx0 : Seg t.cells b none c.next [] none c.next := ⟨rfl, rfl⟩
    obtain ⟨cells', e, hseg, hdata, hlen, hout⟩ := hx0.join hy hnd'
    refine ⟨⟨Function.update t.head b c.next, cells'⟩, ?_, ?_, hdata, hlen, ?_, ?_⟩
    · simp only [unlink, hc, Option.bind_eq_bind, Option.bind_some, hcm, hcb]
      rcases hn : c.next with _ | n
      · rw [hn] at e; simp only [Option.some.injEq] at e; rw [e]
      · rw [hn] at e
        obtain ⟨d, hd, e⟩ := Option.bind_eq_some_iff.mp e
        simp only [Option.some.injEq] at e
        simp [hd, e]
    · simpa using hseg
    · intro b' hb'; simp [hb']
    · intro q hq; exact hout q fun hq' => hq (hmem q (by simpa using hq'))
  · -- a later cell: its predecessor is redirected
    rw [List.concat_eq_append] at hxs
    subst hxs
    simp only [List.getLast?_append, List.getLast?_singleton, Option.some_or] at hml
    subst hml
    obtain ⟨d, hd, -⟩ := h.cell (hmem q (by simp))
    have hq1 : q ∉ p :: ys := fun hq => by
      rw [List.nodup_append] at hnd; exact hnd.2.2 q (by simp) q hq rfl
    have hx1 := hx.setNext hd (List.nodup_append.mp hnd).1 c.next
    have hy1 : Seg (t.cells.set q { d with next := c.next }) b (some p) c.next ys last none := by
      refine hy.congr fun r hr => sameLinks_of_eq (List.getElem?_set_ne ?_)
      rintro rfl; exact hq1 (by simp [hr])
    obtain ⟨cells', e, hseg, hdata, hlen, hout⟩ := Seg.join hx1 hy1 hnd'
    refine ⟨⟨t.head, cells'⟩, ?_, hseg, fun r => ?_, by simpa using hlen, fun _ _ => rfl, ?_⟩
    · simp only [unlink, hc, Option.bind_eq_bind, Option.bind_some, hcm, hd]
      rcases hn : c.next with _ | n
      · rw [hn] at e; simp only [Option.some.injEq] at e; rw [e]
      · rw [hn] at e
        obtain ⟨d', hd', e⟩ := Option.bind_eq_some_iff.mp e
        simp only [Option.some.injEq] at e
        simp [hd', e]
    · exact (sameData_set hd { d with next := c.next } rfl rfl rfl r).trans (hdata r)
    · intro r hr
      rw [hout r fun hr' => hr (hmem r (by simp [hr']))]
      refine List.getElem?_set_ne ?_
      rintro rfl; exact hr (hmem _ (by simp))

/-- **Taking a cell out, by records**: its record is gone, and no other record changes. -/
theorem unlink_flow (h : Linked t L) {b : β} {p : ℕ} (hp : p ∈ L b) {k : κ}
    (hk : keyOf t.cells p = some k) :
    ∃ t', unlink t p = some t' ∧ Linked t' (Function.update L b ((L b).erase p)) ∧
      flowAt t' b k = none ∧
      (∀ b' k', ¬ (b' = b ∧ k' = k) → flowAt t' b' k' = flowAt t b' k') ∧
      (∀ q, SameData t.cells t'.cells q) ∧ t'.cells.length = t.cells.length := by
  obtain ⟨t', e, hL', hdata, hlen⟩ := unlink_spec h hp
  have hkey : ∀ q ∈ L b, keyOf t'.cells q = keyOf t.cells q := fun q hq => by
    obtain ⟨c, hc, -⟩ := h.cell hq
    exact (hdata q).keyOf_eq hc
  refine ⟨t', e, hL', (flowAt_eq_none hL').mpr fun q hq hqk => ?_, fun b' k' hne => ?_, hdata, hlen⟩
  · rw [Function.update_self] at hq
    have hqL := List.mem_of_mem_erase hq
    rw [hkey q hqL] at hqk
    have hqp := h.key_inj hqL hp (hqk.trans hk.symm)
    exact (h.nodup b).not_mem_erase (hqp ▸ hq)
  · refine flowAt_congr h hL' (fun q hq hqk => ?_) (fun q hq _ => ?_) fun q _ => hdata q
    · by_cases hb : b' = b
      · subst hb
        rw [Function.update_self]
        refine (List.mem_erase_of_ne ?_).mpr hq
        rintro rfl
        rw [hk, Option.some.injEq] at hqk
        exact hne ⟨rfl, hqk.symm⟩
      · rwa [Function.update_of_ne hb]
    · by_cases hb : b' = b
      · subst hb
        rw [Function.update_self] at hq
        exact List.mem_of_mem_erase hq
      · rwa [Function.update_of_ne hb] at hq

end Specs

/-! ### Cells in no list -/

/-- The cells whose value satisfies `P` are in a list. -/
def Listed (t : Table β κ ν) (L : β → List ℕ) (P : ν → Prop) : Prop :=
  ∀ q c, t.cells[q]? = some c → P c.val → q ∈ L c.bucket

theorem listed_empty (L : β → List ℕ) (P : ν → Prop) : Listed (empty : Table β κ ν) L P :=
  fun q c hc => by simp [empty] at hc

theorem SameData.back {cells cells' : List (Cell β κ ν)} {q : ℕ} (h : SameData cells cells' q)
    (hq : q < cells.length) {c : Cell β κ ν} (hc : cells'[q]? = some c) :
    ∃ d, cells[q]? = some d ∧ c.bucket = d.bucket ∧ c.val = d.val := by
  obtain ⟨c', h1, h2, -, h4⟩ := h _ (List.getElem?_eq_getElem hq)
  rw [hc] at h1
  cases h1
  exact ⟨_, List.getElem?_eq_getElem hq, h2, h4⟩

section Listed
variable {t t' : Table β κ ν} {L : β → List ℕ} {P : ν → Prop} (hl : Listed t L P) {b : β} {p : ℕ}
include hl

theorem Listed.setVal (h : Linked t L) (hp : p ∈ L b) {v : ν} (e : setVal t p v = some t') :
    Listed t' L P := by
  obtain ⟨c, hc, hcb⟩ := h.cell hp
  simp only [Buckets.setVal, hc, Option.bind_eq_bind, Option.bind_some, Option.some.injEq] at e
  subst e
  intro q d hd hP
  by_cases hq : q = p
  · subst hq
    rw [List.getElem?_set_self (List.getElem?_eq_some_iff.mp hc).1] at hd
    cases hd
    rw [hcb]
    exact hp
  · rw [List.getElem?_set_ne (Ne.symm hq)] at hd
    exact hl q d hd hP

variable [DecidableEq β]

theorem Listed.create (h' : Linked t' (Function.update L b (L b ++ [t.cells.length])))
    (hlen : t'.cells.length = t.cells.length + 1)
    (hsame : ∀ q < t.cells.length, SameData t.cells t'.cells q) :
    Listed t' (Function.update L b (L b ++ [t.cells.length])) P := by
  intro q c hc hP
  have hq : q < t.cells.length + 1 := hlen ▸ (List.getElem?_eq_some_iff.mp hc).1
  rcases Nat.lt_succ_iff_lt_or_eq.mp hq with hlt | rfl
  · obtain ⟨d, hd, hb, hv⟩ := (hsame q hlt).back hlt hc
    have hmem := hl q d hd (hv ▸ hP)
    rw [hb]
    by_cases hdb : d.bucket = b
    · rw [hdb, Function.update_self, ← hdb]
      exact List.mem_append_left _ hmem
    · rwa [Function.update_of_ne hdb]
  · have hmem : t.cells.length ∈ Function.update L b (L b ++ [t.cells.length]) b := by simp
    obtain ⟨d, hd, hdb⟩ := h'.cell hmem
    rw [hc] at hd
    cases hd
    rw [hdb]
    exact hmem

theorem Listed.unlink (hdata : ∀ q, SameData t.cells t'.cells q)
    (hlen : t'.cells.length = t.cells.length) (hnot : ∀ c, t.cells[p]? = some c → ¬ P c.val) :
    Listed t' (Function.update L b ((L b).erase p)) P := by
  intro q c hc hP
  have hq : q < t.cells.length := hlen ▸ (List.getElem?_eq_some_iff.mp hc).1
  obtain ⟨d, hd, hb, hv⟩ := (hdata q).back hq hc
  have hne : q ≠ p := by
    rintro rfl
    exact hnot d hd (hv ▸ hP)
  have hmem := hl q d hd (hv ▸ hP)
  rw [hb]
  by_cases hdb : d.bucket = b
  · rw [hdb, Function.update_self, ← hdb]
    exact (List.mem_erase_of_ne hne).mpr hmem
  · rwa [Function.update_of_ne hdb]

end Listed

end DynBandwidth.Lib.Buckets
