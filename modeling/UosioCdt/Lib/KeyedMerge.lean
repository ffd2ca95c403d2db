import Mathlib.Data.List.Basic
import Mathlib.Data.List.Perm.Basic
import Mathlib.Tactic.Basic
import Mathlib.Tactic.ByContra

/-!
# Merging lists of keyed definitions

A list of definitions is merged into another by appending those whose key is missing. A definition
whose key is present must pass a test `same` against the one that is there; otherwise the merge is
refused. `same` need be neither symmetric nor transitive.
-/

namespace KeyedMerge

variable {α κ : Type} [DecidableEq κ] (key : α → κ) (same : α → α → Prop)

/-- Every definition of `b` passes the test against those of `a` with its key. -/
def Accepts (a b : List α) : Prop := ∀ x ∈ a, ∀ y ∈ b, key x = key y → same x y

/-- The definitions of `b` whose key `a` does not have. -/
def missing (a b : List α) : List α := b.filter fun y => ∀ x ∈ a, key x ≠ key y

def join (a b : List α) : List α := a ++ missing key a b

/-- The lists are merged into `a`, one after the other. -/
def joinAll (a : List α) (bs : List (List α)) : List α := bs.foldl (join key) a

/-- None of the merges is refused. -/
def AcceptsAll : List α → List (List α) → Prop
  | _, [] => True
  | a, b :: bs => Accepts key same a b ∧ AcceptsAll (join key a b) bs

/-- The definitions whose key no earlier list has pass the test against all that come later. -/
def FirstsPass : List α → List (List α) → Prop
  | _, [] => True
  | seen, a :: bs =>
    (∀ b ∈ bs, Accepts key same (missing key seen a) b) ∧ FirstsPass (seen ++ a) bs

/-- Definitions of one key pass the test against each other, and two lists that have a key have the
same definitions for it. -/
structure Consistent (xs : List (List α)) : Prop where
  passes : ∀ x ∈ xs, ∀ y ∈ xs, Accepts key same x y
  shared : ∀ x ∈ xs, ∀ y ∈ xs, ∀ o ∈ x, (∃ p ∈ y, key p = key o) → o ∈ y

variable {key same} {a b c x : List α} {bs xs : List (List α)} {o : α}

lemma mem_missing : o ∈ missing key a b ↔ o ∈ b ∧ ∀ x ∈ a, key x ≠ key o := by
  unfold missing
  rw [List.mem_filter, decide_eq_true_iff]

lemma mem_join : o ∈ join key a b ↔ o ∈ a ∨ o ∈ b ∧ ∀ x ∈ a, key x ≠ key o := by
  unfold join
  rw [List.mem_append, mem_missing]

lemma joinAll_cons : joinAll key a (b :: bs) = joinAll key (join key a b) bs := rfl

lemma mem_joinAll_of_mem (h : o ∈ a) : o ∈ joinAll key a bs := by
  induction bs generalizing a with
  | nil => exact h
  | cons b bs ih =>
    rw [joinAll_cons]
    exact ih (mem_join.mpr (.inl h))

/-- Nothing is added under a key that the first list has. -/
lemma mem_joinAll_of_key (hkey : ∃ x ∈ a, key x = key o) : o ∈ joinAll key a bs ↔ o ∈ a := by
  induction bs generalizing a with
  | nil => exact Iff.rfl
  | cons b bs ih =>
    obtain ⟨x, hx, hxo⟩ := hkey
    rw [joinAll_cons, ih ⟨x, mem_join.mpr (.inl hx), hxo⟩, mem_join]
    exact or_iff_left fun h => h.2 x hx hxo

/-! ## What the first lists decide -/

omit [DecidableEq κ] in
lemma accepts_append : Accepts key same (a ++ c) b ↔
    Accepts key same a b ∧ Accepts key same c b := by
  unfold Accepts
  simp only [List.mem_append, or_imp, forall_and]

/-- What is missing depends on the keys only. -/
lemma missing_congr (hkeys : ∀ k, (∃ x ∈ a, key x = k) ↔ ∃ x ∈ c, key x = k) :
    missing key a b = missing key c b := by
  unfold missing
  refine List.filter_congr fun y _ => decide_eq_decide.mpr ?_
  have hy := not_congr (hkeys (key y))
  push Not at hy
  exact hy

/-- A sequence of merges into an accumulator with the keys of `seen`. -/
lemma acceptsAll_iff {seen : List α}
    (hkeys : ∀ k, (∃ x ∈ a, key x = k) ↔ ∃ x ∈ seen, key x = k) :
    AcceptsAll key same a bs ↔
      (∀ b ∈ bs, Accepts key same a b) ∧ FirstsPass key same seen bs := by
  induction bs generalizing a seen with
  | nil => exact ⟨fun _ => ⟨fun b hb => absurd hb List.not_mem_nil, trivial⟩, fun _ => trivial⟩
  | cons b bs ih =>
    have hnext : ∀ k, (∃ x ∈ join key a b, key x = k) ↔ ∃ x ∈ seen ++ b, key x = k := by
      intro k
      constructor
      · rintro ⟨x, hx, rfl⟩
        rcases mem_join.mp hx with hx | ⟨hx, -⟩
        · obtain ⟨y, hy, hyx⟩ := (hkeys _).mp ⟨x, hx, rfl⟩
          exact ⟨y, List.mem_append_left _ hy, hyx⟩
        · exact ⟨x, List.mem_append_right _ hx, rfl⟩
      · rintro ⟨x, hx, rfl⟩
        by_cases hkey : ∃ y ∈ a, key y = key x
        · obtain ⟨y, hy, hyx⟩ := hkey
          exact ⟨y, mem_join.mpr (.inl hy), hyx⟩
        · push Not at hkey
          rcases List.mem_append.mp hx with hx | hx
          · obtain ⟨y, hy, hyx⟩ := (hkeys _).mpr ⟨x, hx, rfl⟩
            exact absurd hyx (hkey y hy)
          · exact ⟨x, mem_join.mpr (.inr ⟨hx, hkey⟩), rfl⟩
    rw [AcceptsAll, FirstsPass, ih hnext, missing_congr fun k => (hkeys k).symm, List.forall_mem_cons]
    unfold join
    simp only [accepts_append, forall_and]
    tauto

/-- A sequence of merges is refused exactly when a first definition fails a test. -/
theorem acceptsAll_iff_firstsPass :
    AcceptsAll key same a bs ↔ FirstsPass key same [] (a :: bs) := by
  have hnil : missing key [] a = a := by
    unfold missing
    simp
  have hkeys : ∀ k, (∃ x ∈ a, key x = k) ↔ ∃ x ∈ a, key x = k := fun _ => Iff.rfl
  rw [acceptsAll_iff hkeys, FirstsPass, hnil, List.nil_append]

/-! ## Consistent lists -/

lemma Consistent.acceptsAll (h : Consistent key same xs) (ha : ∀ o ∈ a, ∃ x ∈ xs, o ∈ x)
    (hbs : ∀ b ∈ bs, b ∈ xs) : AcceptsAll key same a bs := by
  induction bs generalizing a with
  | nil => trivial
  | cons b bs ih =>
    have hb := hbs b List.mem_cons_self
    refine ⟨?_, ih ?_ fun c hc => hbs c (List.mem_cons_of_mem _ hc)⟩
    · intro x hx y hy
      obtain ⟨z, hz, hxz⟩ := ha x hx
      exact h.passes z hz b hb x hxz y hy
    · intro o ho
      rcases mem_join.mp ho with ho | ⟨ho, -⟩
      · exact ha o ho
      · exact ⟨b, hb, ho⟩

/-- The result of consistent lists has all their definitions. -/
lemma Consistent.mem_joinAll (h : Consistent key same xs) (ha : a ∈ xs) (hbs : ∀ b, b ∈ bs ↔ b ∈ xs) :
    o ∈ joinAll key a bs ↔ ∃ x ∈ xs, o ∈ x := by
  suffices hgen : ∀ ys a', (∀ b ∈ ys, b ∈ xs) → (∀ p ∈ a', ∃ x ∈ xs, p ∈ x) →
      (∀ x ∈ xs, ∀ p ∈ x, (∃ q ∈ a', key q = key p) → p ∈ a') →
      (o ∈ joinAll key a' ys ↔ o ∈ a' ∨ ∃ x ∈ ys, o ∈ x) by
    rw [hgen bs a (fun b hb => (hbs b).mp hb) (fun p hp => ⟨a, ha, hp⟩)
      (fun x hx p hp hkey => h.shared x hx a ha p hp hkey)]
    constructor
    · rintro (ho | ⟨x, hx, ho⟩)
      · exact ⟨a, ha, ho⟩
      · exact ⟨x, (hbs x).mp hx, ho⟩
    · rintro ⟨x, hx, ho⟩
      exact .inr ⟨x, (hbs x).mpr hx, ho⟩
  intro ys
  induction ys with
  | nil => intro a' _ _ _; simp [joinAll]
  | cons b ys ih =>
    intro a' hys hfrom hfull
    have hb := hys b List.mem_cons_self
    rw [joinAll_cons, ih _ (fun c hc => hys c (List.mem_cons_of_mem _ hc))]
    · rw [mem_join, List.exists_mem_cons_iff]
      constructor
      · rintro ((ho | ⟨ho, -⟩) | ho)
        · exact .inl ho
        · exact .inr (.inl ho)
        · exact .inr (.inr ho)
      · rintro (ho | ho | ho)
        · exact .inl (.inl ho)
        · by_cases hkey : ∃ q ∈ a', key q = key o
          · exact .inl (.inl (hfull b hb o ho hkey))
          · push Not at hkey
            exact .inl (.inr ⟨ho, hkey⟩)
        · exact .inr ho
    · intro p hp
      rcases mem_join.mp hp with hp | ⟨hp, -⟩
      · exact hfrom p hp
      · exact ⟨b, hb, hp⟩
    · -- a key of the accumulator has all its definitions there
      rintro x hx p hp ⟨q, hq, hqp⟩
      rw [mem_join]
      by_cases hkey : ∃ q ∈ a', key q = key p
      · exact .inl (hfull x hx p hp hkey)
      · push Not at hkey
        rcases mem_join.mp hq with hq | ⟨hq, -⟩
        · exact absurd hqp (hkey q hq)
        · exact .inr ⟨h.shared x hx b hb p hp ⟨q, hq, hqp⟩, hkey⟩

end KeyedMerge
