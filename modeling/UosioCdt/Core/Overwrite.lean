import UosioCdt.Core.Serialize

/-!
# Old data in the destination of `operator>>`

Two runs on the same bytes with different destinations. They always fail or stop together; which
types can show the old data in the value (`Ty.keepsOld`) depends on where an `optional` or a
`binary_extension` is read in place.
-/

namespace UosioCdt.Core

/-! ## Types that keep old data -/

/-- The type can be read at the end of the stream. -/
def Ty.readsEnd : Ty → Bool
  | .prim p => p.size = 0
  | .array t n => n = 0 || t.readsEnd
  | .pair a b => a.readsEnd && b.readsEnd
  | .empty => true
  | .field a rest => a.readsEnd && rest.readsEnd
  | .aggregate _ fields => fields.readsEnd
  | .fixedBytes size => size = 0
  | .binaryExtension _ => true
  | _ => false

/-- Some bytes leave old data in the destination, whatever follows them: an `optional` is read in
place. -/
def Ty.keepsInside : Ty → Bool
  | .seq _ t => t.keepsInside
  | .array t n => n ≠ 0 && t.keepsInside
  | .cArray t n => n.toNat ≠ 0 && t.keepsInside
  | .optional _ => true
  | .field a rest => a.keepsInside || rest.keepsInside
  | .aggregate _ fields => fields.keepsInside
  | _ => false

/-- Some bytes leave old data in the destination: an `optional` is read in place, or a
`binary_extension` is and what follows it can be read at the end of the stream. -/
def Ty.keepsOld : Ty → Bool
  | .seq _ t => t.keepsOld
  | .array t n => n ≠ 0 && t.keepsOld
  | .cArray t n => n.toNat ≠ 0 && t.keepsOld
  | .optional _ => true
  | .field a rest => a.keepsInside || rest.keepsOld || (a.keepsOld && rest.readsEnd)
  | .aggregate _ fields => fields.keepsOld
  | .binaryExtension _ => true
  | _ => false

/-- The decoded value is a function of the bytes. -/
def Ty.Overwrites (lt : KeyOrder) (t : Ty) : Prop :=
  ∀ (bs : List UInt8) (d₁ d₂ : t.Val), t.read lt d₁ bs = t.read lt d₂ bs

/-- At this place the reader may stop with old data in the value. -/
def Ty.Weak (t : Ty) (s : List UInt8) : Prop :=
  t.keepsInside = true ∨ (t.keepsOld = true ∧ s = [])

/-- `keepsInside` is the case of `keepsOld` without an extension at the end. -/
lemma Ty.keepsOld_of_keepsInside {t : Ty} (h : t.keepsInside = true) : t.keepsOld = true := by
  induction t with
  | seq kind t ih => exact ih h
  | array t n ih =>
    simp only [keepsInside, Bool.and_eq_true] at h
    simp only [keepsOld, Bool.and_eq_true]
    exact ⟨h.1, ih h.2⟩
  | cArray t n ih =>
    simp only [keepsInside, Bool.and_eq_true] at h
    simp only [keepsOld, Bool.and_eq_true]
    exact ⟨h.1, ih h.2⟩
  | optional t => rfl
  | field a rest iha ihr =>
    simp only [keepsInside, Bool.or_eq_true] at h
    simp only [keepsOld, Bool.or_eq_true]
    exact .inl (h.imp id ihr)
  | aggregate id fields ih => exact ih h
  | _ => cases h

/-! ## Two runs -/

section runs

variable {α β : Type} {W V : List UInt8 → Prop}

/-- The runs fail together, or stop at the same place with the same value unless `W` holds there. -/
def SameOr (W : List UInt8 → Prop) : Option (α × List UInt8) → Option (α × List UInt8) → Prop
  | none, none => True
  | some (x, s), some (y, s') => s' = s ∧ (x = y ∨ W s)
  | _, _ => False

lemma SameOr.refl (o : Option (α × List UInt8)) : SameOr W o o := by
  cases o with
  | none => trivial
  | some r => exact ⟨rfl, .inl rfl⟩

lemma SameOr.mono {o₁ o₂ : Option (α × List UInt8)} (h : SameOr W o₁ o₂) (hWV : ∀ s, W s → V s) :
    SameOr V o₁ o₂ := by
  match o₁, o₂, h with
  | none, none, _ => trivial
  | some (x, s), some (y, _), ⟨rfl, hxy⟩ => exact ⟨rfl, hxy.imp_right (hWV s)⟩

/-- Runs that differ in their values at most stop together. -/
lemma SameOr.stop {o₁ o₂ : Option (α × List UInt8)} (h : SameOr W o₁ o₂) :
    SameOr (fun _ => True) o₁ o₂ :=
  h.mono fun _ _ => trivial

/-- Runs that never differ are equal. -/
lemma SameOr.eq {o₁ o₂ : Option (α × List UInt8)} (h : SameOr (fun _ => False) o₁ o₂) : o₁ = o₂ := by
  match o₁, o₂, h with
  | none, none, _ => rfl
  | some (x, s), some (y, _), ⟨rfl, hxy⟩ => rw [hxy.resolve_right not_false]

/-- Two runs go on where two others have stopped. -/
lemma SameOr.bind {r₁ r₂ : Reader α} {f₁ f₂ : α → Reader β} {bs : List UInt8}
    (h : SameOr W (r₁ bs) (r₂ bs)) (hsame : ∀ x s, SameOr V (f₁ x s) (f₂ x s))
    (hdiff : ∀ x y s, W s → SameOr V (f₁ x s) (f₂ y s)) :
    SameOr V ((r₁ >>= f₁) bs) ((r₂ >>= f₂) bs) := by
  change SameOr V ((r₁ bs).bind fun r => f₁ r.1 r.2) ((r₂ bs).bind fun r => f₂ r.1 r.2)
  match r₁ bs, r₂ bs, h with
  | none, none, _ => trivial
  | some (x, s), some (y, _), ⟨rfl, hxy⟩ =>
    rcases hxy with rfl | hW
    · exact hsame x s
    · exact hdiff x y s hW

/-- The values may be converted. -/
lemma SameOr.map {r₁ r₂ : Reader α} {bs : List UInt8} (h : SameOr W (r₁ bs) (r₂ bs)) (f : α → β) :
    SameOr W ((r₁ >>= fun x => pure (f x)) bs) ((r₂ >>= fun x => pure (f x)) bs) :=
  h.bind (fun _ _ => .refl _) fun _ _ _ hW => ⟨rfl, .inr hW⟩

/-- The reader keeps the places where `W` holds. -/
def Keeps (W : List UInt8 → Prop) (r : Reader α) : Prop :=
  ∀ s v s', W s → r s = some (v, s') → W s'

/-- Runs that stop together from a place where `W` holds. -/
lemma SameOr.of_keeps {r₁ r₂ : Reader α} {s : List UInt8} (hW : W s) (hr : Keeps W r₁)
    (h : SameOr (fun _ => True) (r₁ s) (r₂ s)) (f g : α → β) :
    SameOr W ((r₁ >>= fun x => pure (f x)) s) ((r₂ >>= fun x => pure (g x)) s) := by
  have hkeep := hr s
  change SameOr W ((r₁ s).bind fun r => some (f r.1, r.2)) ((r₂ s).bind fun r => some (g r.1, r.2))
  match r₁ s, r₂ s, h, hkeep with
  | none, none, _, _ => trivial
  | some (x, s'), some (y, _), ⟨rfl, _⟩, hkeep => exact ⟨rfl, .inr (hkeep x s' hW rfl)⟩

/-- A value in front of the others. -/
lemma SameOr.cons {γ δ : Type} {r₁ r₂ : Reader α} {q₁ q₂ : Reader γ} {bs : List UInt8}
    (f : α → γ → δ) (h : SameOr W (r₁ bs) (r₂ bs)) (hq : ∀ s, SameOr W (q₁ s) (q₂ s))
    (hkeep : Keeps W q₁) :
    SameOr W ((r₁ >>= fun x => q₁ >>= fun y => pure (f x y)) bs)
      ((r₂ >>= fun x => q₂ >>= fun y => pure (f x y)) bs) :=
  h.bind (fun x s => (hq s).map (f x)) fun _ _ s hW => .of_keeps hW hkeep (hq s).stop _ _

lemma Keeps.cons {γ δ : Type} {r : Reader α} {q : Reader γ} (f : α → γ → δ) (hr : Keeps W r)
    (hq : Keeps W q) : Keeps W (r >>= fun x => q >>= fun y => pure (f x y)) := by
  intro s v s' hW h
  change (r s).bind (fun a => (q a.2).bind fun b => some (f a.1 b.1, b.2)) = _ at h
  simp only [Option.bind_eq_some_iff, Option.some.injEq, Prod.mk.injEq] at h
  obtain ⟨a, ha, b, hb, -, rfl⟩ := h
  exact hq a.2 b.1 b.2 (hr s a.1 a.2 hW ha) hb

/-! ## Loops -/

lemma keeps_readEach {read : α → Reader α} (h : ∀ x, Keeps W (read x)) (l : List α) :
    Keeps W (readEach read l) := by
  induction l with
  | nil =>
    intro s v s' hW heq
    obtain ⟨-, rfl⟩ := Prod.mk.inj (Option.some.inj heq)
    exact hW
  | cons x xs ih => exact Keeps.cons List.cons (h x) ih

lemma keeps_readArray {read : α → Reader α} (h : ∀ x, Keeps W (read x)) (n : ℕ) (v : Fin n → α) :
    Keeps W (readArray read n v) := by
  induction n with
  | zero =>
    intro s v s' hW heq
    obtain ⟨-, rfl⟩ := Prod.mk.inj (Option.some.inj heq)
    exact hW
  | succ n ih =>
    exact Keeps.cons (fun x xs => (Fin.cons x xs : Fin (n + 1) → α)) (h _) (ih _)

/-- Two runs of the loop over containers of one size differ only where their elements do. -/
lemma sameOr_readEach {read : α → Reader α} (h : ∀ x y s, SameOr W (read x s) (read y s))
    (hkeep : ∀ x, Keeps W (read x)) {l₁ l₂ : List α} (hlen : l₁.length = l₂.length)
    (bs : List UInt8) : SameOr W (readEach read l₁ bs) (readEach read l₂ bs) := by
  induction l₁ generalizing l₂ bs with
  | nil =>
    obtain rfl := List.length_eq_zero_iff.mp hlen.symm
    exact .refl _
  | cons x xs ih =>
    obtain ⟨y, ys, rfl⟩ := List.exists_cons_of_length_eq_add_one hlen.symm
    exact SameOr.cons List.cons (h x y bs) (fun s => ih (Nat.succ.inj hlen) s)
      (keeps_readEach hkeep xs)

lemma sameOr_readArray {read : α → Reader α} (h : ∀ x y s, SameOr W (read x s) (read y s))
    (hkeep : ∀ x, Keeps W (read x)) (n : ℕ) (v w : Fin n → α) (bs : List UInt8) :
    SameOr W (readArray read n v bs) (readArray read n w bs) := by
  induction n generalizing bs with
  | zero => exact Subsingleton.elim v w ▸ .refl _
  | succ n ih =>
    exact SameOr.cons (fun x xs => (Fin.cons x xs : Fin (n + 1) → α)) (h _ _ bs)
      (fun s => ih _ _ s) (keeps_readArray hkeep n _)

lemma length_resize (n : ℕ) (dflt : α) (old : List α) : (resize n dflt old).length = n := by
  rw [resize, List.length_append, List.length_take, List.length_replicate]
  omega

/-- A container is resized to the same size in both runs. -/
lemma sameOr_seq {read : α → Reader α} {dflt : α}
    (h : ∀ x y s, SameOr W (read x s) (read y s)) (hkeep : ∀ x, Keeps W (read x))
    (d₁ d₂ : List α) (bs : List UInt8) :
    SameOr W ((readSize >>= fun s => readEach read (resize s dflt d₁)) bs)
      ((readSize >>= fun s => readEach read (resize s dflt d₂)) bs) := by
  refine SameOr.bind (.refl (W := fun _ => False) _) (fun n s => ?_) fun _ _ _ h => h.elim
  exact sameOr_readEach h hkeep (by rw [length_resize, length_resize]) s

lemma sameOr_cArray {read : α → Reader α} (h : ∀ x y s, SameOr W (read x s) (read y s))
    (hkeep : ∀ x, Keeps W (read x)) (n : ℕ) (v w : Fin n → α) (bs : List UInt8) :
    SameOr W
      ((readSize >>= fun s => checkThat (n = s) >>= fun _ => readArray read n v) bs)
      ((readSize >>= fun s => checkThat (n = s) >>= fun _ => readArray read n w) bs) := by
  refine SameOr.bind (.refl (W := fun _ => False) _) (fun m s => ?_) fun _ _ _ h => h.elim
  refine SameOr.bind (.refl (W := fun _ => False) _) (fun _ s => ?_) fun _ _ _ h => h.elim
  exact sameOr_readArray h hkeep n v w s

/-- An `optional` in the destination shows when the flag is cleared. -/
lemma sameOr_optional (hW : ∀ s, W s) (r : Reader α) (d₁ d₂ : Option α) (bs : List UInt8) :
    SameOr W
      ((readBytes 1 >>= fun valid => if valid = [0] then return d₁
        else r >>= fun x => return some x) bs)
      ((readBytes 1 >>= fun valid => if valid = [0] then return d₂
        else r >>= fun x => return some x) bs) := by
  refine SameOr.bind (.refl (W := fun _ => False) _) (fun valid s => ?_) fun _ _ _ h => h.elim
  split
  · exact ⟨rfl, .inr (hW s)⟩
  · exact .refl _

/-- A `binary_extension` in the destination shows at the end of the stream. -/
lemma sameOr_extension (hW : W []) (r : Reader α) (d₁ d₂ : Option α) (bs : List UInt8) :
    SameOr W
      ((remaining >>= fun n => if n ≠ 0 then r >>= fun x => return some x else return d₁) bs)
      ((remaining >>= fun n => if n ≠ 0 then r >>= fun x => return some x else return d₂) bs) := by
  cases bs with
  | nil => exact ⟨rfl, .inr hW⟩
  | cons b bs => exact .refl _

end runs

end UosioCdt.Core
