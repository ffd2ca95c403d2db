import Mathlib.Data.List.Basic
import Mathlib.Tactic.Basic

/-!
# Programs that may abort

Rules for what a program over a state does from one state: it returns, or it aborts and leaves the
state it had reached.
-/

namespace Aborting

variable {ε σ α β : Type} {x : EStateM ε σ α} {f : α → EStateM ε σ β} {s : σ}
variable {Q P : α → σ → Prop} {R : β → σ → Prop} {E F : ε → σ → Prop}

/-- From `s` the program returns with `Q`, or it aborts with `E`. -/
def Meets (x : EStateM ε σ α) (s : σ) (Q : α → σ → Prop) (E : ε → σ → Prop) : Prop :=
  match x s with
  | .ok a s' => Q a s'
  | .error e s' => E e s'

/-- From `s` the program returns with `Q`. -/
def Returns (x : EStateM ε σ α) (s : σ) (Q : α → σ → Prop) : Prop := Meets x s Q fun _ _ => False

/-- If the program returns from `s`, it returns with `Q`. -/
def Ensures (x : EStateM ε σ α) (s : σ) (Q : α → σ → Prop) : Prop := Meets x s Q fun _ _ => True

/-! ## The steps of a program -/

lemma meets_pure {a : α} : Meets (pure a : EStateM ε σ α) s Q E ↔ Q a s := Iff.rfl

lemma meets_throw {e : ε} : Meets (throw e : EStateM ε σ α) s Q E ↔ E e s := Iff.rfl

lemma meets_get {P : σ → σ → Prop} : Meets (get : EStateM ε σ σ) s P E ↔ P s s := Iff.rfl

lemma meets_modify {g : σ → σ} {P : PUnit → σ → Prop} :
    Meets (modify g : EStateM ε σ PUnit) s P E ↔ P ⟨⟩ (g s) := Iff.rfl

lemma meets_bind : Meets (x >>= f) s R E ↔ Meets x s (fun a s' => Meets (f a) s' R E) E := by
  unfold Meets
  show (match EStateM.bind x f s with | .ok a s' => R a s' | .error e s' => E e s') ↔ _
  unfold EStateM.bind
  cases x s <;> rfl

lemma Meets.mono (h : Meets x s Q E) (hq : ∀ a s', Q a s' → P a s') (he : ∀ e s', E e s' → F e s') :
    Meets x s P F := by
  unfold Meets at h ⊢
  cases hx : x s with
  | ok a s' =>
    rw [hx] at h
    exact hq a s' h
  | error e s' =>
    rw [hx] at h
    exact he e s' h

/-- A program that returns, followed by another. -/
lemma Returns.bind (h : Returns x s Q) (hf : ∀ a s', Q a s' → Meets (f a) s' R E) :
    Meets (x >>= f) s R E :=
  meets_bind.mpr (Meets.mono h hf fun _ _ hfalse => hfalse.elim)

lemma Meets.bind (h : Meets x s Q E) (hf : ∀ a s', Q a s' → Meets (f a) s' R E) :
    Meets (x >>= f) s R E :=
  meets_bind.mpr (h.mono hf fun _ _ he => he)

lemma Returns.mono (h : Returns x s Q) (hq : ∀ a s', Q a s' → P a s') : Returns x s P :=
  Meets.mono h hq fun _ _ hfalse => hfalse

lemma Returns.meets (h : Returns x s Q) : Meets x s Q E :=
  Meets.mono h (fun _ _ hq => hq) fun _ _ hfalse => hfalse.elim

lemma Meets.and (hq : Meets x s Q E) (hp : Meets x s P F) :
    Meets x s (fun a s' => Q a s' ∧ P a s') fun e s' => E e s' ∧ F e s' := by
  unfold Meets at hq hp ⊢
  cases hx : x s with
  | ok a s' =>
    rw [hx] at hq hp
    exact ⟨hq, hp⟩
  | error e s' =>
    rw [hx] at hq hp
    exact ⟨hq, hp⟩

/-- What the program does from this state is part of what is known of its end. -/
lemma Meets.self (h : Meets x s Q E) :
    Meets x s (fun a s' => Q a s' ∧ x s = .ok a s') fun e s' => E e s' ∧ x s = .error e s' := by
  unfold Meets at h ⊢
  cases hx : x s with
  | ok a s' =>
    rw [hx] at h
    exact ⟨h, rfl⟩
  | error e s' =>
    rw [hx] at h
    exact ⟨h, rfl⟩

lemma Ensures.mono (h : Ensures x s Q) (hq : ∀ a s', Q a s' → P a s') : Ensures x s P :=
  Meets.mono h hq fun _ _ htrue => htrue

lemma Ensures.bind (h : Ensures x s Q) (hf : ∀ a s', Q a s' → Ensures (f a) s' R) :
    Ensures (x >>= f) s R :=
  Meets.bind h hf

lemma Ensures.and (hq : Ensures x s Q) (hp : Ensures x s P) :
    Ensures x s fun a s' => Q a s' ∧ P a s' :=
  Meets.mono (Meets.and hq hp) (fun _ _ h => h) fun _ _ _ => trivial

lemma Returns.ensures (h : Returns x s Q) : Ensures x s Q :=
  Meets.mono h (fun _ _ hq => hq) fun _ _ _ => trivial

lemma Returns.ok (h : Returns x s Q) : ∃ a s', x s = .ok a s' ∧ Q a s' := by
  unfold Returns Meets at h
  cases hx : x s with
  | ok a s' =>
    rw [hx] at h
    exact ⟨a, s', rfl, h⟩
  | error e s' =>
    rw [hx] at h
    exact h.elim

/-- What a program returns, as a postcondition. -/
lemma ensures_self : Ensures x s fun a s' => x s = .ok a s' := by
  unfold Ensures Meets
  cases x s with
  | ok a s' => rfl
  | error e s' => trivial

lemma Meets.of_ok {a : α} {s' : σ} (h : Meets x s Q E) (hx : x s = .ok a s') : Q a s' := by
  unfold Meets at h
  rwa [hx] at h

lemma Ensures.of_ok {a : α} {s' : σ} (h : Ensures x s Q) (hx : x s = .ok a s') : Q a s' :=
  Meets.of_ok h hx

/-! ## Results -/

/-- The state that a program ends in, whether it returns or aborts. -/
def after : EStateM.Result ε σ α → σ
  | .ok _ s => s
  | .error _ s => s

def returned : EStateM.Result ε σ α → Bool
  | .ok _ _ => true
  | .error _ _ => false

lemma ok_after (h : returned (x s) = true) : ∃ a, x s = .ok a (after (x s)) := by
  cases hx : x s with
  | ok a s' => exact ⟨a, rfl⟩
  | error e s' =>
    rw [hx] at h
    cases h

/-- What a program returns, if it does. -/
def answered : EStateM.Result ε σ α → Option α
  | .ok a _ => some a
  | .error _ _ => none

lemma ok_of_answered {a : α} (h : answered (x s) = some a) : x s = .ok a (after (x s)) := by
  cases hx : x s with
  | ok a' s' =>
    rw [hx] at h
    cases h
    rfl
  | error e s' =>
    rw [hx] at h
    cases h

lemma Meets.after {K : σ → Prop} (h : Meets x s (fun _ s' => K s') fun _ s' => K s') :
    K (after (x s)) := by
  unfold Meets at h
  cases hx : x s with
  | ok a s' =>
    rw [hx] at h
    exact h
  | error e s' =>
    rw [hx] at h
    exact h

/-! ## Programs without a state -/

/-- A sequence of two steps returns what the second one returns from what the first one does. -/
lemma ok_of_bind {x : Except ε α} {f : α → Except ε β} {b : β} (h : x >>= f = .ok b) :
    ∃ a, x = .ok a ∧ f a = .ok b := by
  cases x with
  | ok a => exact ⟨a, rfl, h⟩
  | error e => cases h

/-! ## Loops -/

/-- A counting loop with an accumulator keeps an invariant. -/
lemma Meets.foldRange {n : ℕ} {g : β → ℕ → EStateM ε σ β} {b : β} (I : ℕ → β → σ → Prop)
    (h : I 0 b s)
    (hstep : ∀ i < n, ∀ b s, I i b s → Meets (g b i) s (fun b' s' => I (i + 1) b' s') E) :
    Meets ((List.range n).foldlM g b) s (I n) E := by
  induction n with
  | zero => exact h
  | succ n ih =>
    rw [List.range_succ, List.foldlM_append]
    refine (ih fun i hi => hstep i (Nat.lt_succ_of_lt hi)).bind fun b' s' h' => ?_
    rw [List.foldlM_cons]
    exact (hstep n (Nat.lt_succ_self n) b' s' h').bind fun _ _ h'' => h''

/-- A counting loop keeps an invariant. -/
lemma Meets.forRange {n : ℕ} {g : ℕ → EStateM ε σ PUnit} (I : ℕ → σ → Prop) (h : I 0 s)
    (hstep : ∀ i < n, ∀ s, I i s → Meets (g i) s (fun _ s' => I (i + 1) s') E) :
    Meets (forM (List.range n) g) s (fun _ s' => I n s') E := by
  induction n with
  | zero => exact h
  | succ n ih =>
    rw [List.range_succ, List.forM_append]
    refine (ih fun i hi => hstep i (Nat.lt_succ_of_lt hi)).bind fun _ s' h' => ?_
    rw [List.forM_cons]
    exact (hstep n (Nat.lt_succ_self n) s' h').bind fun _ _ h'' => h''

end Aborting
