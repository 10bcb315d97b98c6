import DynBandwidth.Lib.BucketOps

/-! # Tables of other values

`t.mapIdx g` is the table with the value `v` of the cell at the address `i` replaced by `g i v`. The
operations look at heads, keys and links only, so they commute with it. -/

namespace DynBandwidth.Lib.Buckets

variable {β κ ν ν' : Type}

def Cell.withVal (c : Cell β κ ν) (v : ν') : Cell β κ ν' := ⟨c.bucket, c.key, c.prev, c.next, v⟩

def Table.mapIdx (g : ℕ → ν → ν') (t : Table β κ ν) : Table β κ ν' :=
  ⟨t.head, t.cells.mapIdx fun i c => c.withVal (g i c.val)⟩

/-- The last step of `unlink`: the cell behind the gap gets a new `prev`. -/
def Table.pointBack (t : Table β κ ν) (prev next : Option ℕ) : Option (Table β κ ν) :=
  match next with
  | some n => do
    let d ← t.cells[n]?
    some ⟨t.head, t.cells.set n { d with prev := prev }⟩
  | none => some t

section Lemmas
variable (g : ℕ → ν → ν') (t : Table β κ ν)

@[simp] theorem length_mapIdx : (t.mapIdx g).cells.length = t.cells.length := List.length_mapIdx

theorem get_mapIdx (p : ℕ) :
    (t.mapIdx g).cells[p]? = (t.cells[p]?).map fun c => c.withVal (g p c.val) :=
  List.getElem?_mapIdx

/-- A cell is replaced. -/
theorem mapIdx_set {g g' : ℕ → ν → ν'} {cells : List (Cell β κ ν)} {p : ℕ} {c : Cell β κ ν}
    (h : ∀ i d, i ≠ p → cells[i]? = some d → g' i d.val = g i d.val) :
    (cells.set p c).mapIdx (fun i d => d.withVal (g' i d.val)) =
      (cells.mapIdx fun i d => d.withVal (g i d.val)).set p (c.withVal (g' p c.val)) := by
  refine List.ext_getElem? fun i => ?_
  rw [List.getElem?_mapIdx, List.getElem?_set, List.getElem?_set, List.getElem?_mapIdx,
    List.length_mapIdx]
  by_cases hi : p = i
  · subst hi
    by_cases hlt : p < cells.length
    · simp [hlt]
    · simp [hlt]
  · rw [if_neg hi, if_neg hi]
    cases hd : cells[i]? with
    | none => rfl
    | some d => rw [Option.map_some, Option.map_some, h i d (fun e => hi e.symm) hd]

variable [DecidableEq β] [DecidableEq κ]

omit [DecidableEq β] [DecidableEq κ] in
theorem setVal_mapIdx (g g' : ℕ → ν → ν') {t : Table β κ ν} {p : ℕ} {v : ν}
    (h : ∀ i d, i ≠ p → t.cells[i]? = some d → g' i d.val = g i d.val) :
    setVal (t.mapIdx g) p (g' p v) = (setVal t p v).map fun t' => t'.mapIdx g' := by
  unfold setVal
  rw [get_mapIdx]
  cases hc : t.cells[p]? with
  | none => rfl
  | some c =>
    simp only [Option.map_some, Option.bind_eq_bind, Option.bind_some, Option.some.injEq]
    unfold Table.mapIdx
    congr 1
    exact (mapIdx_set (c := { c with val := v }) h).symm

omit [DecidableEq β] in
theorem search_mapIdx (k : κ) : ∀ (n : ℕ) (curr tail : Option ℕ),
    search (t.mapIdx g).cells k n curr tail = search t.cells k n curr tail
  | _, none, _ => by simp [search]
  | 0, some _, _ => rfl
  | n + 1, some p, tail => by
    rw [search, search, get_mapIdx]
    cases hc : t.cells[p]? with
    | none => rfl
    | some c =>
      simp only [Option.map_some, Option.bind_eq_bind, Option.bind_some]
      rw [search_mapIdx k n]
      rfl

theorem lookupOrCreate_mapIdx (b : β) (k : κ) (v : ν) :
    lookupOrCreate (t.mapIdx g) b k (g t.cells.length v) =
      (lookupOrCreate t b k v).map fun r => (r.1.mapIdx g, r.2) := by
  have happ : ∀ (cells : List (Cell β κ ν)) (c : Cell β κ ν), cells.length = t.cells.length →
      (cells ++ [c]).mapIdx (fun i d => d.withVal (g i d.val)) =
        cells.mapIdx (fun i d => d.withVal (g i d.val)) ++
          [c.withVal (g t.cells.length c.val)] := by
    intro cells c hlen
    rw [List.mapIdx_append, ← hlen]
    simp
  unfold lookupOrCreate
  rw [length_mapIdx, show (t.mapIdx g).head = t.head from rfl]
  cases hh : t.head b with
  | none =>
    simp only [Option.map_some, Option.some.injEq, Prod.mk.injEq, and_true]
    unfold Table.mapIdx
    rw [happ _ _ rfl]
    rfl
  | some p0 =>
    simp only [search_mapIdx]
    cases hs : search t.cells k t.cells.length (some p0) (some p0) with
    | none => rfl
    | some r =>
      rcases r with ⟨_ | p, tail⟩
      · cases tail with
        | none => rfl
        | some q =>
          simp only [Option.bind_eq_bind, Option.bind_some, get_mapIdx]
          cases hc : t.cells[q]? with
          | none => rfl
          | some c =>
            simp only [Option.map_some, Option.bind_some, Option.some.injEq, Prod.mk.injEq,
              and_true]
            unfold Table.mapIdx
            rw [happ _ _ (by simp), mapIdx_set fun _ _ _ _ => rfl]
            rfl
      · rfl

omit [DecidableEq β] [DecidableEq κ] in
theorem mapIdx_setCell (head : β → Option ℕ) (cells : List (Cell β κ ν)) (q : ℕ) (c : Cell β κ ν) :
    (⟨head, cells.set q c⟩ : Table β κ ν).mapIdx g = ⟨head,
      (Table.mapIdx g ⟨head, cells⟩).cells.set q (c.withVal (g q c.val))⟩ := by
  unfold Table.mapIdx
  congr 1
  exact mapIdx_set fun _ _ _ _ => rfl

omit [DecidableEq β] [DecidableEq κ] in
theorem pointBack_mapIdx (prev next : Option ℕ) :
    (t.mapIdx g).pointBack prev next = (t.pointBack prev next).map fun t' => t'.mapIdx g := by
  cases next with
  | none => rfl
  | some n =>
    simp only [Table.pointBack, get_mapIdx]
    cases hd : t.cells[n]? with
    | none => rfl
    | some d =>
      simp only [Option.map_some, Option.bind_eq_bind, Option.bind_some, Option.some.injEq]
      rw [mapIdx_setCell]
      rfl

omit [DecidableEq κ] in
theorem unlink_mapIdx (p : ℕ) :
    unlink (t.mapIdx g) p = (unlink t p).map fun t' => t'.mapIdx g := by
  unfold unlink
  rw [get_mapIdx]
  cases hc : t.cells[p]? with
  | none => rfl
  | some c =>
    simp only [Option.map_some, Option.bind_eq_bind, Option.bind_some]
    rcases c with ⟨b, k, _ | q, next, v⟩
    · exact pointBack_mapIdx g ⟨Function.update t.head b next, t.cells⟩ none next
    · simp only [Cell.withVal, get_mapIdx]
      cases hd : t.cells[q]? with
      | none => rfl
      | some d =>
        simp only [Option.map_some, Option.bind_some]
        have h1 := pointBack_mapIdx g ⟨t.head, t.cells.set q { d with next := next }⟩ (some q) next
        rw [mapIdx_setCell] at h1
        exact h1

end Lemmas

/-! ### The values of a table -/

def Table.vals (t : Table β κ ν) : List ν := t.cells.map Cell.val

section Values
variable {t t' : Table β κ ν} {p : ℕ} {v : ν}

theorem get_vals {c : Cell β κ ν} (h : t.cells[p]? = some c) : t.vals[p]? = some c.val := by
  rw [Table.vals, List.getElem?_map, h, Option.map_some]

theorem setVal_vals (h : setVal t p v = some t') :
    t'.vals = t.vals.set p v := by
  unfold setVal at h
  obtain ⟨c, -, h⟩ := Option.bind_eq_some_iff.mp h
  cases h
  rw [Table.vals, List.map_set]
  rfl

/-- A cell gets other links. -/
theorem vals_set {head : β → Option ℕ} {c d : Cell β κ ν} (h : t.cells[p]? = some d)
    (hv : c.val = d.val) : (⟨head, t.cells.set p c⟩ : Table β κ ν).vals = t.vals := by
  obtain ⟨hlt, hd⟩ := List.getElem?_eq_some_iff.mp (get_vals h)
  rw [Table.vals, List.map_set, hv, ← hd]
  exact List.set_getElem_self hlt

variable [DecidableEq β] [DecidableEq κ]

omit [DecidableEq β] [DecidableEq κ] in
theorem pointBack_vals {prev next : Option ℕ} (h : t.pointBack prev next = some t') :
    t'.vals = t.vals := by
  unfold Table.pointBack at h
  cases next with
  | none =>
    cases h
    rfl
  | some n =>
    obtain ⟨d, hd, h⟩ := Option.bind_eq_some_iff.mp h
    cases h
    exact vals_set hd rfl

omit [DecidableEq κ] in
theorem unlink_vals (h : unlink t p = some t') : t'.vals = t.vals := by
  unfold unlink at h
  obtain ⟨c, -, h⟩ := Option.bind_eq_some_iff.mp h
  cases hp : c.prev with
  | none =>
    rw [hp] at h
    have h1 : Table.pointBack ⟨Function.update t.head c.bucket c.next, t.cells⟩ none c.next =
      some t' := h
    rw [pointBack_vals h1]
    rfl
  | some q =>
    rw [hp] at h
    obtain ⟨d, hd, h⟩ := Option.bind_eq_some_iff.mp h
    have h1 : Table.pointBack ⟨t.head, t.cells.set q { d with next := c.next }⟩ (some q) c.next =
      some t' := h
    rw [pointBack_vals h1]
    exact vals_set hd rfl

theorem lookupOrCreate_vals {b : β} {k : κ} (h : lookupOrCreate t b k v = some (t', p)) :
    t'.vals = t.vals ∨ t'.vals = t.vals ++ [v] := by
  unfold lookupOrCreate at h
  cases hh : t.head b with
  | none =>
    rw [hh] at h
    cases h
    right
    simp [Table.vals]
  | some p0 =>
    rw [hh] at h
    obtain ⟨r, -, h⟩ := Option.bind_eq_some_iff.mp h
    rcases r with ⟨_ | q, tail⟩
    · obtain ⟨q, -, h⟩ := Option.bind_eq_some_iff.mp h
      obtain ⟨c, hc, h⟩ := Option.bind_eq_some_iff.mp h
      cases h
      right
      have hset : (⟨t.head, t.cells.set q { c with next := some t.cells.length }⟩ :
          Table β κ ν).vals = t.vals := vals_set hc rfl
      unfold Table.vals at hset ⊢
      rw [List.map_append, hset]
      rfl
    · cases h
      exact Or.inl rfl

end Values

end DynBandwidth.Lib.Buckets
