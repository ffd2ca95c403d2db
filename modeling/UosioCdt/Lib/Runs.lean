import Mathlib.Tactic.Lemma

/-!
# Runs of a deterministic system that may stop

`Along P s ops`: the condition `P` on a state and the step taken from it holds all along the run. The
rules carry an invariant along the run.
-/

namespace Runs

variable {σ ι : Type} (step : σ → ι → Option σ)

/-- `P` holds at every step of the run, which ends when a step stops. -/
def Along (P : σ → ι → Prop) : σ → List ι → Prop
  | _, [] => True
  | s, op :: ops => P s op ∧ ∀ t, step s op = some t → Along P t ops

variable {step} {I : σ → Prop} {H P Q : σ → ι → Prop} {s : σ} {ops : List ι}

/-- Two conditions that are the same where the invariant holds are the same along a run that meets
`H`. -/
theorem along_iff (hs : I s) (hops : Along step H s ops)
    (hiff : ∀ s op, I s → H s op → (P s op ↔ Q s op))
    (hkeep : ∀ s op t, I s → H s op → Q s op → step s op = some t → I t) :
    Along step P s ops ↔ Along step Q s ops := by
  induction ops generalizing s with
  | nil => exact Iff.rfl
  | cons op ops ih =>
    obtain ⟨hop, hrest⟩ := hops
    constructor
    · rintro ⟨hp, hnext⟩
      have hq := (hiff s op hs hop).mp hp
      exact ⟨hq, fun t ht => (ih (hkeep s op t hs hop hq ht) (hrest t ht)).mp (hnext t ht)⟩
    · rintro ⟨hq, hnext⟩
      refine ⟨(hiff s op hs hop).mpr hq, fun t ht => ?_⟩
      exact (ih (hkeep s op t hs hop hq ht) (hrest t ht)).mpr (hnext t ht)

lemma Along.and (hp : Along step P s ops) (hq : Along step Q s ops) :
    Along step (fun s op => P s op ∧ Q s op) s ops := by
  induction ops generalizing s with
  | nil => exact trivial
  | cons op ops ih => exact ⟨⟨hp.1, hq.1⟩, fun t ht => ih (hp.2 t ht) (hq.2 t ht)⟩

lemma Along.mono (hp : Along step P s ops) (h : ∀ s op, P s op → Q s op) : Along step Q s ops := by
  induction ops generalizing s with
  | nil => exact trivial
  | cons op ops ih => exact ⟨h s op hp.1, fun t ht => ih (hp.2 t ht)⟩

/-- A condition that always holds. -/
theorem along_of_forall (h : ∀ s op, P s op) : Along step P s ops := by
  induction ops generalizing s with
  | nil => exact trivial
  | cons op ops ih => exact ⟨h s op, fun _ _ => ih⟩

/-- What every step of a run keeps holds at its end. -/
theorem keeps_run {t : σ} (hs : I s) (hops : Along step H s ops)
    (hkeep : ∀ s op t, I s → H s op → step s op = some t → I t)
    (hrun : ops.foldlM step s = some t) : I t := by
  induction ops generalizing s with
  | nil =>
    cases hrun
    exact hs
  | cons op ops ih =>
    rw [List.foldlM_cons] at hrun
    obtain ⟨u, hstep, hrest⟩ := Option.bind_eq_some_iff.1 hrun
    exact ih (hkeep s op u hs hops.1 hstep) (hops.2 u hstep) hrest

end Runs
