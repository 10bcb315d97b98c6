import Mathlib.Data.List.Nodup
import Mathlib.Data.List.Perm.Basic

/-! # A ledger of items

Items enter a system once each. From then on an item lies in one of several places, or it is done. A
ledger is `Balanced` when every item that entered is in exactly one of these states, once
(`Balanced.exactly_one`), and no other item is anywhere.

All that a system does to keep its ledger balanced is to rearrange: new items and those of one place
become the items of the place and items done (`Balanced.rearrange`). -/

namespace DynBandwidth.Lib.Ledger

variable {κ α : Type}

/-- Every item that entered lies in one place, once, or is done, once. -/
structure Balanced (entered : List α) (places : κ → List α) (done : List α) : Prop where
  nodup : ∀ k, (places k).Nodup
  disjoint : ∀ k k' a, a ∈ places k → a ∈ places k' → k = k'
  doneNodup : done.Nodup
  notDone : ∀ k, ∀ a ∈ places k, a ∉ done
  mem_iff : ∀ a, a ∈ entered ↔ a ∈ done ∨ ∃ k, a ∈ places k

theorem balanced_nil {places : κ → List α} (h : ∀ k, places k = []) : Balanced [] places [] where
  nodup k := by rw [h]; exact List.nodup_nil
  disjoint k _ a ha := by simp [h] at ha
  doneNodup := List.nodup_nil
  notDone k a ha := by simp [h] at ha
  mem_iff a := by simp [h]

variable {entered done : List α} {places : κ → List α}

/-- **Every item is in exactly one state.** -/
theorem Balanced.exactly_one [DecidableEq α] (h : Balanced entered places done) {a : α}
    (ha : a ∈ entered) :
    (∃ k, (places k).count a = 1 ∧ (∀ k', a ∈ places k' → k' = k) ∧ a ∉ done) ∨
      (∀ k, a ∉ places k) ∧ done.count a = 1 := by
  rcases (h.mem_iff a).mp ha with hd | ⟨k, hk⟩
  · exact Or.inr ⟨fun k hk => h.notDone k a hk hd, List.count_eq_one_of_mem h.doneNodup hd⟩
  · exact Or.inl ⟨k, List.count_eq_one_of_mem (h.nodup k) hk,
      fun k' hk' => h.disjoint k' k a hk' hk, h.notDone k a hk⟩

/-- An item lies in the place `k` or in one of the others. -/
theorem exists_mem_iff {places' : κ → List α} (k : κ)
    (hother : ∀ k', k' ≠ k → places' k' = places k') {a : α} :
    (∃ k', a ∈ places' k') ↔ a ∈ places' k ∨ ∃ k', k' ≠ k ∧ a ∈ places k' := by
  constructor
  · rintro ⟨k', ha⟩
    by_cases hk : k' = k
    · exact Or.inl (hk ▸ ha)
    · exact Or.inr ⟨k', hk, hother k' hk ▸ ha⟩
  · rintro (ha | ⟨k', hk, ha⟩)
    · exact ⟨k, ha⟩
    · exact ⟨k', (hother k' hk).symm ▸ ha⟩

/-- New items and those of a place are in no other state. -/
theorem Balanced.free (h : Balanced entered places done) {new : List α}
    (hfresh : ∀ a ∈ new, a ∉ entered) {k : κ} {a : α} (ha : a ∈ new ∨ a ∈ places k) :
    a ∉ done ∧ ∀ k', k' ≠ k → a ∉ places k' := by
  rcases ha with ha | ha
  · have hno := fun hd => hfresh a ha ((h.mem_iff a).mpr hd)
    exact ⟨fun hd => hno (Or.inl hd), fun k' _ hk' => hno (Or.inr ⟨k', hk'⟩)⟩
  · exact ⟨h.notDone k a ha, fun k' hne hk' => hne (h.disjoint k' k a hk' ha)⟩

theorem Balanced.nodup_append (h : Balanced entered places done) {new : List α}
    (hnew : new.Nodup) (hfresh : ∀ a ∈ new, a ∉ entered) (k : κ) : (new ++ places k).Nodup := by
  rw [List.nodup_append]
  refine ⟨hnew, h.nodup k, fun a ha b hb hab => hfresh a ha ?_⟩
  rw [hab]
  exact (h.mem_iff b).mpr (Or.inr ⟨k, hb⟩)

/-- **Rearranging**: new items and the items of the place `k` become items of `k` and items done.
The other places stay as they are. -/
theorem Balanced.rearrange (h : Balanced entered places done) {new out : List α}
    {places' : κ → List α} (k : κ) (hnew : new.Nodup) (hfresh : ∀ a ∈ new, a ∉ entered)
    (hperm : (new ++ places k).Perm (places' k ++ out))
    (hother : ∀ k', k' ≠ k → places' k' = places k') :
    Balanced (entered ++ new) places' (done ++ out) := by
  have hnd := List.nodup_append.mp (hperm.nodup (h.nodup_append hnew hfresh k))
  have hsrc : ∀ a, a ∈ places' k ∨ a ∈ out ↔ a ∈ new ∨ a ∈ places k := fun a => by
    rw [← List.mem_append, ← List.mem_append]
    exact hperm.mem_iff.symm
  have hfree : ∀ a, a ∈ places' k ∨ a ∈ out → a ∉ done ∧ ∀ k', k' ≠ k → a ∉ places k' :=
    fun a ha => h.free hfresh ((hsrc a).mp ha)
  have hsep : ∀ k', k' ≠ k → ∀ a ∈ places' k, a ∉ places' k' := fun k' hne a ha hk' => by
    rw [hother k' hne] at hk'
    exact (hfree a (Or.inl ha)).2 k' hne hk'
  refine ⟨fun k' => ?_, fun k1 k2 a h1 h2 => ?_, ?_, fun k' a ha hd => ?_, fun a => ?_⟩
  · by_cases hk : k' = k
    · rw [hk]; exact hnd.1
    · rw [hother k' hk]; exact h.nodup k'
  · by_cases e1 : k1 = k
    · subst e1
      by_contra hne
      exact hsep k2 (fun e => hne e.symm) a h1 h2
    · by_cases e2 : k2 = k
      · subst e2
        exact absurd h1 (hsep k1 e1 a h2)
      · rw [hother k1 e1] at h1
        rw [hother k2 e2] at h2
        exact h.disjoint k1 k2 a h1 h2
  · rw [List.nodup_append]
    refine ⟨h.doneNodup, hnd.2.1, fun a ha b hb hab => ?_⟩
    rw [hab] at ha
    exact (hfree b (Or.inr hb)).1 ha
  · rcases List.mem_append.mp hd with hd | ho
    · by_cases hk : k' = k
      · rw [hk] at ha
        exact (hfree a (Or.inl ha)).1 hd
      · rw [hother k' hk] at ha
        exact h.notDone k' a ha hd
    · by_cases hk : k' = k
      · rw [hk] at ha
        exact hnd.2.2 a ha a ho rfl
      · rw [hother k' hk] at ha
        exact (hfree a (Or.inr ho)).2 k' hk ha
  · have hs := hsrc a
    rw [List.mem_append, List.mem_append, h.mem_iff, exists_mem_iff k hother,
      exists_mem_iff k fun _ _ => rfl]
    constructor
    · rintro ((hd | hk | he) | hn)
      · exact Or.inl (Or.inl hd)
      · rcases hs.mpr (Or.inr hk) with hk' | ho
        · exact Or.inr (Or.inl hk')
        · exact Or.inl (Or.inr ho)
      · exact Or.inr (Or.inr he)
      · rcases hs.mpr (Or.inl hn) with hk' | ho
        · exact Or.inr (Or.inl hk')
        · exact Or.inl (Or.inr ho)
    · rintro ((hd | ho) | hk' | he)
      · exact Or.inl (Or.inl hd)
      · exact (hs.mp (Or.inr ho)).elim Or.inr fun hk => Or.inl (Or.inr (Or.inl hk))
      · exact (hs.mp (Or.inl hk')).elim Or.inr fun hk => Or.inl (Or.inr (Or.inl hk))
      · exact Or.inl (Or.inr (Or.inr he))

end DynBandwidth.Lib.Ledger
