import Mathlib.Data.List.Basic

/-! # Runs of a partial step function

A system takes one input at a time; `step s i = none` means that the code would fault on the input
`i` in the state `s`. `run` feeds it a list of inputs. There are rules for progress (`run_total`),
invariants (`run_inv`) and simulations (`run_simulates`).

Three predicates speak about all steps of a run: `AllSteps P` says that `P` holds of the state and
the input before each step, `AllStates I` that no step faults and `I` holds after each of them,
`AllRounds R` that no step faults and `R` relates the states around each of them. `allStates_iff`
and `allRounds_iff_allSteps` reduce the equivalence of such statements to single steps. -/

namespace DynBandwidth.Lib.Runs

variable {σ ι : Type} (step : σ → ι → Option σ)

/-- The state after the inputs, `none` if a step faulted. -/
def run : σ → List ι → Option σ
  | s, [] => some s
  | s, i :: is => (step s i).bind fun s' => run s' is

@[simp] theorem run_nil (s : σ) : run step s [] = some s := rfl

theorem run_cons (s : σ) (i : ι) (is : List ι) :
    run step s (i :: is) = (step s i).bind fun s' => run step s' is := rfl

theorem run_append : ∀ (l l' : List ι) (s : σ),
    run step s (l ++ l') = (run step s l).bind fun s' => run step s' l'
  | [], l', s => by simp
  | i :: l, l', s => by
    rw [List.cons_append, run_cons, run_cons]
    cases h : step s i with
    | none => simp
    | some s1 => simpa using run_append l l' s1

variable {step}

theorem run_of_step {s s' : σ} {i : ι} {is : List ι} {r : Option σ} (h : step s i = some s')
    (hr : run step s' is = r) : run step s (i :: is) = r := by
  rw [run_cons, h]; simpa using hr

theorem run_concat {s s' s'' : σ} {l : List ι} {i : ι} (h : run step s l = some s')
    (hi : step s' i = some s'') : run step s (l ++ [i]) = some s'' := by
  rw [run_append, h, Option.bind_some, run_cons, hi]; rfl

/-- A run of `i :: is` is a step and a run. -/
theorem run_cons_some {s s'' : σ} {i : ι} {is : List ι} (h : run step s (i :: is) = some s'') :
    ∃ s', step s i = some s' ∧ run step s' is = some s'' := by
  rw [run_cons] at h
  exact Option.bind_eq_some_iff.mp h

theorem run_append_some {s s'' : σ} {l l' : List ι} (h : run step s (l ++ l') = some s'') :
    ∃ s', run step s l = some s' ∧ run step s' l' = some s'' := by
  rw [run_append] at h
  exact Option.bind_eq_some_iff.mp h

/-- **The progress rule**: a run from an invariant state never faults, and ends in one. The steps
may use that the input is one of the run. -/
theorem run_total {I : σ → Prop} : ∀ (l : List ι) {s : σ},
    (∀ i ∈ l, ∀ s, I s → ∃ s', step s i = some s' ∧ I s') → I s →
    ∃ s', run step s l = some s' ∧ I s'
  | [], s, _, hs => ⟨s, rfl, hs⟩
  | i :: l, s, hstep, hs => by
    obtain ⟨s1, h1, hs1⟩ := hstep i (by simp) s hs
    obtain ⟨s', h', hs'⟩ := run_total l (fun j hj => hstep j (by simp [hj])) hs1
    exact ⟨s', run_of_step h1 h', hs'⟩

/-- **The invariant rule**: what every step keeps holds where a run ends. -/
theorem run_inv {I : σ → Prop} (hstep : ∀ s i, I s → ∃ s', step s i = some s' ∧ I s')
    {l : List ι} {s s' : σ} (hs : I s) (hr : run step s l = some s') : I s' := by
  obtain ⟨s1, hr1, hs1⟩ := run_total l (fun i _ s => hstep s i) hs
  rw [hr] at hr1
  cases hr1
  exact hs1

/-- **The simulation rule**: if each step is matched by a step on the image of the input, so is each
run. The steps may use that the input is one of the run. -/
theorem run_simulates {σ' ι' : Type} {step' : σ' → ι' → Option σ'} {R : σ → σ' → Prop}
    {g : ι → ι'} : ∀ {l : List ι} {s s' : σ} {t : σ'},
    (∀ i ∈ l, ∀ s s' t, R s t → step s i = some s' → ∃ t', step' t (g i) = some t' ∧ R s' t') →
    R s t → run step s l = some s' → ∃ t', run step' t (l.map g) = some t' ∧ R s' t'
  | [], s, s', t, _, hR, hr => by
    simp only [run_nil, Option.some.injEq] at hr
    subst hr
    exact ⟨t, rfl, hR⟩
  | i :: l, s, s', t, hstep, hR, hr => by
    obtain ⟨s1, h1, hr1⟩ := run_cons_some hr
    obtain ⟨t1, ht1, hR1⟩ := hstep i (by simp) s s1 t hR h1
    obtain ⟨t', ht', hR'⟩ := run_simulates (fun j hj => hstep j (by simp [hj])) hR1 hr1
    exact ⟨t', run_of_step ht1 ht', hR'⟩

/-! ### All steps of a run -/

variable (step)

/-- `P` holds of the state and the input before each step of the run. -/
def AllSteps (P : σ → ι → Prop) : σ → List ι → Prop
  | _, [] => True
  | s, i :: is => P s i ∧ ∀ s', step s i = some s' → AllSteps P s' is

instance decidableAllSteps (P : σ → ι → Prop) [∀ s i, Decidable (P s i)] :
    ∀ (s : σ) (l : List ι), Decidable (AllSteps step P s l)
  | _, [] => isTrue trivial
  | s, i :: is =>
    match h : step s i with
    | none => decidable_of_iff (P s i) (by simp [AllSteps, h])
    | some s' =>
      have := decidableAllSteps P s' is
      decidable_of_iff (P s i ∧ AllSteps step P s' is) (by simp [AllSteps, h])

/-- No step of the run faults, and `I` holds after each of them. -/
def AllStates (I : σ → Prop) : σ → List ι → Prop
  | _, [] => True
  | s, i :: is => ∃ s', step s i = some s' ∧ I s' ∧ AllStates I s' is

variable {step}

/-- **One step at a time**: along a run whose steps satisfy `W`, the states satisfy `I` if and only
if the steps satisfy `C`. The invariant `J` is only needed as long as `I` holds. -/
theorem allStates_iff {J I : σ → Prop} {W C : σ → ι → Prop}
    (hstep : ∀ s i, J s → W s i → ∃ s', step s i = some s' ∧ (I s' ↔ C s i) ∧ (I s' → J s')) :
    ∀ {l : List ι} {s : σ}, J s → AllSteps step W s l →
      (AllStates step I s l ↔ AllSteps step C s l)
  | [], _, _, _ => Iff.rfl
  | i :: l, s, hJ, hW => by
    obtain ⟨s1, h1, hIC, hJ1⟩ := hstep s i hJ hW.1
    constructor
    · rintro ⟨s2, h2, hI, hr⟩
      rw [h1] at h2; cases h2
      refine ⟨hIC.mp hI, fun s2 h2 => ?_⟩
      rw [h1] at h2; cases h2
      exact (allStates_iff hstep (hJ1 hI) (hW.2 s1 h1)).mp hr
    · rintro ⟨hC, hr⟩
      have hI := hIC.mpr hC
      exact ⟨s1, h1, hI, (allStates_iff hstep (hJ1 hI) (hW.2 s1 h1)).mpr (hr s1 h1)⟩

/-- A condition that follows from an invariant and from the input holds of all steps. -/
theorem allSteps_of_inv {I : σ → Prop} {Q : ι → Prop} {P : σ → ι → Prop}
    (hstep : ∀ s i s', I s → Q i → step s i = some s' → I s') (hP : ∀ s i, I s → Q i → P s i) :
    ∀ {l : List ι} {s : σ}, I s → (∀ i ∈ l, Q i) → AllSteps step P s l
  | [], _, _, _ => trivial
  | i :: l, s, hI, hQ =>
    ⟨hP s i hI (hQ i (by simp)), fun s' hs' =>
      allSteps_of_inv hstep hP (hstep s i s' hI (hQ i (by simp)) hs')
        fun j hj => hQ j (by simp [hj])⟩

theorem allSteps_true (step : σ → ι → Option σ) : ∀ (s : σ) (l : List ι),
    AllSteps step (fun _ _ => True) s l
  | _, [] => trivial
  | _, _ :: l => ⟨trivial, fun s' _ => allSteps_true step s' l⟩

/-- **The invariant rule along a run**: what every step that does not fault keeps under a condition
holds where a run ends whose steps satisfy the condition. -/
theorem run_keeps_of_allSteps {I : σ → Prop} {P : σ → ι → Prop}
    (hstep : ∀ s i s', I s → P s i → step s i = some s' → I s') :
    ∀ {l : List ι} {s s' : σ}, I s → AllSteps step P s l → run step s l = some s' → I s'
  | [], _, _, hI, _, hr => by cases hr; exact hI
  | i :: l, s, s', hI, hP, hr => by
    obtain ⟨s1, h1, hr⟩ := run_cons_some hr
    exact run_keeps_of_allSteps hstep (hstep s i s1 hI hP.1 h1) (hP.2 s1 h1) hr

/-- **The progress rule along a run**: a run whose steps satisfy a condition does not fault if no
step does so under the condition from an invariant state, and ends in one. -/
theorem run_total_of_allSteps {I : σ → Prop} {P : σ → ι → Prop}
    (hstep : ∀ s i, I s → P s i → ∃ s', step s i = some s' ∧ I s') :
    ∀ {l : List ι} {s : σ}, I s → AllSteps step P s l → ∃ s', run step s l = some s' ∧ I s'
  | [], s, hI, _ => ⟨s, rfl, hI⟩
  | i :: l, s, hI, hP => by
    obtain ⟨s1, h1, hI1⟩ := hstep s i hI hP.1
    obtain ⟨s', h', hI'⟩ := run_total_of_allSteps hstep hI1 (hP.2 s1 h1)
    exact ⟨s', run_of_step h1 h', hI'⟩

theorem run_inv_of_allSteps {I : σ → Prop} {P : σ → ι → Prop}
    (hstep : ∀ s i, I s → P s i → ∃ s', step s i = some s' ∧ I s') {l : List ι} {s s' : σ}
    (hI : I s) (hP : AllSteps step P s l) (hr : run step s l = some s') : I s' := by
  obtain ⟨s1, hr1, hI1⟩ := run_total_of_allSteps hstep hI hP
  rw [hr] at hr1
  cases hr1
  exact hI1

/-- What every step that does not fault keeps holds where a run ends. -/
theorem run_keeps {I : σ → Prop} (hstep : ∀ s i s', I s → step s i = some s' → I s') :
    ∀ {l : List ι} {s s' : σ}, I s → run step s l = some s' → I s'
  | [], _, _, hI, hr => by cases hr; exact hI
  | i :: l, s, s', hI, hr => by
    obtain ⟨s1, h1, hr⟩ := run_cons_some hr
    exact run_keeps hstep (hstep s i s1 hI h1) hr

theorem AllSteps.last {P : σ → ι → Prop} : ∀ {l : List ι} {i : ι} {s s' : σ},
    AllSteps step P s (l ++ [i]) → run step s l = some s' → P s' i
  | [], i, s, s', h, hr => by
    simp only [run_nil, Option.some.injEq] at hr
    subst hr
    exact h.1
  | j :: l, i, s, s', h, hr => by
    obtain ⟨s1, h1, hr1⟩ := run_cons_some hr
    exact (h.2 s1 h1).last hr1

/-- The condition holds of the last state. -/
theorem AllStates.last {I : σ → Prop} : ∀ {l : List ι} {s s' : σ},
    AllStates step I s l → run step s l = some s' → l ≠ [] → I s'
  | [], _, _, _, _, hne => absurd rfl hne
  | i :: l, s, s', ⟨s1, h1, hI, h⟩, hr, _ => by
    rw [run_cons, h1, Option.bind_some] at hr
    cases l with
    | nil =>
      simp only [run_nil, Option.some.injEq] at hr
      exact hr ▸ hI
    | cons j l => exact h.last hr (by simp)

/-! ### Rounds -/

section Rounds
variable (step)

/-- No step of the run faults, and `R` relates each state, the input and the next state. -/
def AllRounds (R : σ → ι → σ → Prop) : σ → List ι → Prop
  | _, [] => True
  | s, i :: is => ∃ s', step s i = some s' ∧ R s i s' ∧ AllRounds R s' is

variable {τ : Type}

/-- `ok` holds of each input and a value that `next` computes from the inputs before it. -/
def Along (ok : τ → ι → Prop) (next : τ → ι → τ) : τ → List ι → Prop
  | _, [] => True
  | t, i :: is => ok t i ∧ Along ok next (next t i) is

instance decidableAlong (ok : τ → ι → Prop) (next : τ → ι → τ) [∀ t i, Decidable (ok t i)] :
    ∀ (t : τ) (l : List ι), Decidable (Along ok next t l)
  | _, [] => isTrue trivial
  | t, i :: is =>
    have := decidableAlong ok next (next t i) is
    inferInstanceAs (Decidable (ok t i ∧ Along ok next (next t i) is))

variable {R : σ → ι → σ → Prop} {ok : τ → ι → Prop} {next : τ → ι → τ}

theorem allRounds_cons {s s' : σ} {i : ι} {is : List ι} (h : step s i = some s') :
    AllRounds step R s (i :: is) ↔ R s i s' ∧ AllRounds step R s' is := by
  constructor
  · rintro ⟨s1, h1, hr⟩
    rw [h] at h1; cases h1
    exact hr
  · exact fun hr => ⟨s', h, hr⟩

variable {step}

/-- **The invariant rule for rounds**: along a run whose steps satisfy `W`, each round satisfies `R`
if it does so from every invariant state, and the invariant is kept. -/
theorem allRounds_of_inv {J : σ → Prop} {W : σ → ι → Prop}
    (hstep : ∀ s i, J s → W s i → ∃ s', step s i = some s' ∧ R s i s' ∧ J s') :
    ∀ {l : List ι} {s : σ}, J s → AllSteps step W s l → AllRounds step R s l
  | [], _, _, _ => trivial
  | i :: l, s, hJ, hW => by
    obtain ⟨s', h, hR, hJ'⟩ := hstep s i hJ hW.1
    exact ⟨s', h, hR, allRounds_of_inv hstep hJ' (hW.2 s' h)⟩

/-- **One round at a time**: along a run whose steps satisfy `W`, if `R` amounts to a condition on
the state and the input in every invariant state, all rounds satisfy `R` if and only if all steps
satisfy the condition. -/
theorem allRounds_iff_allSteps {J : σ → Prop} {W C : σ → ι → Prop}
    (hstep : ∀ s i, J s → W s i → ∃ s', step s i = some s' ∧ (R s i s' ↔ C s i) ∧ J s') :
    ∀ {l : List ι} {s : σ}, J s → AllSteps step W s l →
      (AllRounds step R s l ↔ AllSteps step C s l)
  | [], _, _, _ => Iff.rfl
  | i :: l, s, hJ, hW => by
    obtain ⟨s', h, hRC, hJ'⟩ := hstep s i hJ hW.1
    rw [allRounds_cons step h, hRC, allRounds_iff_allSteps hstep hJ' (hW.2 s' h), AllSteps]
    refine and_congr_right fun _ => ⟨fun hl s1 h1 => ?_, fun hl => hl s' h⟩
    rw [h] at h1
    cases h1
    exact hl

/-- The relation holds of the last round. -/
theorem AllRounds.last : ∀ {l : List ι} {i : ι} {s s' : σ}, AllRounds step R s (l ++ [i]) →
    run step s l = some s' → ∃ s'', step s' i = some s'' ∧ R s' i s''
  | [], i, s, s', ⟨s'', h, hR, _⟩, hr => by
    simp only [run_nil, Option.some.injEq] at hr
    subst hr
    exact ⟨s'', h, hR⟩
  | j :: l, i, s, s', ⟨s1, h1, _, h⟩, hr => by
    rw [run_cons, h1, Option.bind_some] at hr
    exact h.last hr

/-- **Rounds follow a value**: if `J` ties the state to a value, and the relation of a round is a
condition on the value and the input, the relation of all rounds is this condition along the run. -/
theorem allRounds_iff {J : τ → σ → Prop} {Q : ι → Prop}
    (hstep : ∀ t s i, Q i → J t s →
      ∃ s', step s i = some s' ∧ (R s i s' ↔ ok t i) ∧ (ok t i → J (next t i) s')) :
    ∀ {l : List ι} {t : τ} {s : σ}, (∀ i ∈ l, Q i) → J t s →
      (AllRounds step R s l ↔ Along ok next t l)
  | [], _, _, _, _ => Iff.rfl
  | i :: l, t, s, hQ, hJ => by
    obtain ⟨s1, h1, hR, hJ1⟩ := hstep t s i (hQ i (by simp)) hJ
    rw [allRounds_cons step h1, hR, Along]
    refine and_congr_right fun hok => ?_
    exact allRounds_iff hstep (fun j hj => hQ j (by simp [hj])) (hJ1 hok)

/-- **The progress rule along a value**: a run whose inputs satisfy the condition does not fault if
no step does so from a state that an invariant ties to the value, and ends in one. -/
theorem run_total_of_along {I : τ → σ → Prop}
    (hstep : ∀ t s i, I t s → ok t i → ∃ s', step s i = some s' ∧ I (next t i) s') :
    ∀ {l : List ι} {t : τ} {s : σ}, I t s → Along ok next t l →
      ∃ t' s', run step s l = some s' ∧ I t' s'
  | [], t, s, hI, _ => ⟨t, s, rfl, hI⟩
  | i :: l, t, s, hI, hok => by
    obtain ⟨s1, h1, hI1⟩ := hstep t s i hI hok.1
    obtain ⟨t', s', h', hI'⟩ := run_total_of_along hstep hI1 hok.2
    exact ⟨t', s', run_of_step h1 h', hI'⟩

theorem along_map {ι' : Type} (g : ι' → ι) : ∀ {l : List ι'} {t : τ},
    Along (fun t i => ok t (g i)) (fun t i => next t (g i)) t l ↔ Along ok next t (l.map g)
  | [], _ => Iff.rfl
  | i :: l, t => by
    rw [List.map_cons, Along, Along, along_map g]

end Rounds

end DynBandwidth.Lib.Runs
