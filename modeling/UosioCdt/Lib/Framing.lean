import Mathlib.Data.List.Basic
import Mathlib.Tactic.Lemma

/-!
# Frames that are read until the input ends

A reader takes one frame after another from the front of its input and changes a state. When it
reads back every frame that a writer puts, it reads back any list of them.
-/

namespace Framing

variable {α β ε σ : Type}

/-- Take frames while there is input, at most `n` of them. -/
def readAll (step : σ → List β → Except ε (σ × List β)) (stuck : ε) :
    ℕ → σ → List β → Except ε σ
  | _, s, [] => .ok s
  | 0, _, _ :: _ => .error stuck
  | n + 1, s, b :: bs =>
    match step s (b :: bs) with
    | .error e => .error e
    | .ok (s', rest) => readAll step stuck n s' rest

variable {step : σ → List β → Except ε (σ × List β)} {stuck : ε} {n : ℕ} {s s' : σ}
variable {input rest : List β}

@[simp] lemma readAll_nil : readAll step stuck n s [] = .ok s := by
  cases n <;> rfl

lemma readAll_step (hne : input ≠ []) (hstep : step s input = .ok (s', rest)) :
    readAll step stuck (n + 1) s input = readAll step stuck n s' rest := by
  cases input with
  | nil => exact absurd rfl hne
  | cons b bs => rw [readAll, hstep]

lemma readAll_error {e : ε} (hne : input ≠ []) (hstep : step s input = .error e) :
    readAll step stuck (n + 1) s input = .error e := by
  cases input with
  | nil => exact absurd rfl hne
  | cons b bs => rw [readAll, hstep]

/-- The frames that are put are taken one after another, in their order. -/
lemma readAll_flatMap {put : α → List β} (upd : σ → α → Except ε σ) (xs : List α)
    (hne : ∀ x ∈ xs, put x ≠ [])
    (hread : ∀ x ∈ xs, ∀ s rest,
      step s (put x ++ rest) = (upd s x).map fun s' => (s', rest))
    (hn : (xs.flatMap put).length ≤ n) :
    readAll step stuck n s (xs.flatMap put) = xs.foldlM upd s := by
  induction xs generalizing n s with
  | nil => simp [pure, Except.pure]
  | cons x xs ih =>
    have hx := hne x List.mem_cons_self
    have hlen := List.length_pos_iff.2 hx
    have hstep := hread x List.mem_cons_self s (xs.flatMap put)
    rw [List.flatMap_cons] at hn ⊢
    rw [List.length_append] at hn
    obtain ⟨k, rfl⟩ : ∃ k, n = k + 1 := Nat.exists_eq_succ_of_ne_zero (by omega)
    have happ : put x ++ xs.flatMap put ≠ [] := by
      intro h
      exact hx (List.append_eq_nil_iff.1 h).1
    rw [List.foldlM_cons]
    cases hupd : upd s x with
    | error e =>
      rw [hupd] at hstep
      exact readAll_error happ hstep
    | ok s' =>
      rw [hupd] at hstep
      rw [readAll_step happ hstep]
      apply ih
      · intro y hy
        exact hne y (List.mem_cons_of_mem x hy)
      · intro y hy
        exact hread y (List.mem_cons_of_mem x hy)
      · omega

end Framing
