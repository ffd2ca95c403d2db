import UosioCdt.Native.Crt

/-!
# Theorems: the native runtime

The streams hold what has been pushed as long as it is no more than their buffers hold, and the
memory is that which the region has as long as every call asks for one page.
-/

namespace UosioCdt.Native

/-! ## What has been pushed -/

/-- The characters pushed to each stream since its last `clear`. -/
abbrev Pushed := OutputStreamKind → List UInt8

/-- `text` is pushed to the stream `which`. -/
def Pushed.add (f : Pushed) (which : OutputStreamKind) (text : List UInt8) : Pushed :=
  fun k => if k = which ∧ k ≠ .none then f k ++ text else f k

/-- What has been pushed when the call is over. -/
def StreamCall.pushed (f : Pushed) : StreamCall → Pushed
  | .push which c => f.add which [c]
  | .printsL cstr which => f.add which cstr
  | .prints cstr which => f.add which (cstr.takeWhile (· ≠ 0))
  | .clear which => fun k => if k = which then [] else f k

/-- The buffers have room for it. -/
def Pushed.Fits (f : Pushed) : Prop := ∀ k, (f k).length ≤ outputSize

/-- No push of the run writes outside of its buffer, and after every call the streams have captured
what has been pushed. -/
def Captures (m : Crt) (f : Pushed) : List StreamCall → Prop
  | [] => m.captured = f
  | call :: calls => m.captured = f ∧ ∃ m', call.run m = some m' ∧ Captures m' (call.pushed f) calls

/-- After every call of the run the buffers have room for what has been pushed. -/
def AlwaysFits (f : Pushed) : List StreamCall → Prop
  | [] => True
  | call :: calls => (call.pushed f).Fits ∧ AlwaysFits (call.pushed f) calls

lemma Pushed.add_nil (f : Pushed) (which : OutputStreamKind) : f.add which [] = f := by
  funext k
  unfold add
  split
  · exact List.append_nil _
  · rfl

lemma Pushed.add_add (f : Pushed) (which : OutputStreamKind) (s t : List UInt8) :
    (f.add which s).add which t = f.add which (s ++ t) := by
  funext k
  unfold add
  split
  · exact List.append_assoc _ _ _
  · rfl

/-- A stream that has no room does not get it from a longer text. -/
lemma Pushed.Fits.of_append {f : Pushed} {s t : List UInt8} (h : (f.add which (s ++ t)).Fits) :
    (f.add which s).Fits := by
  intro k
  have hk := h k
  unfold add at hk ⊢
  split at hk
  · rename_i hkind
    rw [if_pos hkind]
    rw [List.length_append, List.length_append] at hk
    rw [List.length_append]
    omega
  · rename_i hkind
    rwa [if_neg hkind]

/-- A stream never has more than its buffer holds. -/
lemma Crt.fits_captured (m : Crt) : Pushed.Fits m.captured := by
  intro k
  cases k with
  | stdOut => exact le_of_eq_of_le (FixedBuffer.length_contents _) m.stdOut.index_le
  | stdErr => exact le_of_eq_of_le (FixedBuffer.length_contents _) m.stdErr.index_le
  | none => exact Nat.zero_le _

/-! ## One call -/

/-- The result of a call that ends with `f` pushed: there is one when the buffers have room for `f`,
and not otherwise. -/
def EndsWith (r : Option Crt) (f : Pushed) : Prop :=
  (f.Fits → ∃ m', r = some m' ∧ m'.captured = f) ∧ (¬ f.Fits → r = none)

lemma endsWith_some {m : Crt} {f : Pushed} (h : m.captured = f) : EndsWith (some m) f :=
  ⟨fun _ => ⟨m, rfl, h⟩, fun hfits => absurd (h ▸ m.fits_captured) hfits⟩

lemma endsWith_none {f : Pushed} (h : ¬ f.Fits) : EndsWith none f :=
  ⟨fun hfits => absurd hfits h, fun _ => rfl⟩

/-- One call after another, the second of which pushes more. -/
lemma EndsWith.bind {r : Option Crt} {f f' : Pushed} {next : Crt → Option Crt} (h : EndsWith r f)
    (hmore : f'.Fits → f.Fits) (hnext : ∀ m', m'.captured = f → EndsWith (next m') f') :
    EndsWith (r.bind next) f' := by
  by_cases hfits : f.Fits
  · obtain ⟨m', rfl, hm'⟩ := h.1 hfits
    exact hnext m' hm'
  · rw [h.2 hfits]
    exact endsWith_none (mt hmore hfits)

lemma Crt.captured_putc (m : Crt) (c : UInt8) : (m.putc c).captured = m.captured := by
  unfold putc
  split
  · rfl
  · funext k
    cases k <;> rfl

/-- A stream without room. -/
lemma Pushed.not_fits_add {f : Pushed} {which : OutputStreamKind} {c : UInt8} (hwhich : which ≠ .none)
    (h : outputSize ≤ (f which).length) : ¬ (f.add which [c]).Fits := by
  intro hfits
  have hk := hfits which
  rw [add, if_pos ⟨rfl, hwhich⟩, List.length_append, List.length_singleton] at hk
  omega

lemma Crt.pushTo_endsWith (m : Crt) (which : OutputStreamKind) (c : UInt8) :
    EndsWith (m.pushTo which c) (Pushed.add m.captured which [c]) := by
  cases which with
  | stdOut =>
    -- the buffer asserts in front of the write, so a character without room has no result
    by_cases hroom : m.stdOut.contents.length < outputSize
    · obtain ⟨s, hs, hcontents⟩ := FixedBuffer.push_some hroom c
      rw [pushTo, hs]
      apply endsWith_some
      funext k
      cases k <;> simp [captured, Pushed.add, hcontents]
    · rw [pushTo, FixedBuffer.push_none (Nat.not_lt.mp hroom)]
      exact endsWith_none (Pushed.not_fits_add OutputStreamKind.noConfusion (Nat.not_lt.mp hroom))
  | stdErr =>
    by_cases hroom : m.stdErr.contents.length < outputSize
    · obtain ⟨s, hs, hcontents⟩ := FixedBuffer.push_some hroom c
      rw [pushTo, hs]
      apply endsWith_some
      funext k
      cases k <;> simp [captured, Pushed.add, hcontents]
    · rw [pushTo, FixedBuffer.push_none (Nat.not_lt.mp hroom)]
      exact endsWith_none (Pushed.not_fits_add OutputStreamKind.noConfusion (Nat.not_lt.mp hroom))
  | none =>
    apply endsWith_some
    funext k
    cases k <;> simp [Pushed.add]

/-- The first character of a text, and the rest. -/
lemma EndsWith.cons {m : Crt} {which : OutputStreamKind} {c : UInt8} {text : List UInt8}
    {rest : Crt → Option Crt}
    (hrest : ∀ m', EndsWith (rest m') (Pushed.add m'.captured which text)) :
    EndsWith ((m.pushTo which c).bind fun m' => rest (m'.putc c))
      (Pushed.add m.captured which (c :: text)) := by
  refine (m.pushTo_endsWith which c).bind ?_ ?_
  · intro hfits
    rw [← List.singleton_append] at hfits
    exact hfits.of_append
  · intro m' hm'
    have hend := hrest (m'.putc c)
    rwa [Crt.captured_putc, hm', Pushed.add_add] at hend

lemma Crt.printsL_endsWith (m : Crt) (cstr : List UInt8) (which : OutputStreamKind) :
    EndsWith (m.printsL cstr which) (Pushed.add m.captured which cstr) := by
  induction cstr generalizing m with
  | nil => exact endsWith_some (Pushed.add_nil _ _).symm
  | cons c cstr ih => exact EndsWith.cons fun m' => ih m'

lemma Crt.prints_endsWith (m : Crt) (cstr : List UInt8) (which : OutputStreamKind) :
    EndsWith (m.prints cstr which) (Pushed.add m.captured which (cstr.takeWhile (· ≠ 0))) := by
  induction cstr generalizing m with
  | nil => exact endsWith_some (Pushed.add_nil _ _).symm
  | cons c cstr ih =>
    rw [prints]
    by_cases hc : c = 0
    · rw [if_pos hc, List.takeWhile_cons_of_neg (by simpa using hc)]
      exact endsWith_some (Pushed.add_nil _ _).symm
    · rw [if_neg hc, List.takeWhile_cons_of_pos (by simpa using hc)]
      exact EndsWith.cons fun m' => ih m'

lemma StreamCall.run_endsWith (m : Crt) (call : StreamCall) :
    EndsWith (call.run m) (call.pushed m.captured) := by
  cases call with
  | push which c => exact m.pushTo_endsWith which c
  | printsL cstr which => exact m.printsL_endsWith cstr which
  | prints cstr which => exact m.prints_endsWith cstr which
  | clear which =>
    apply endsWith_some
    funext k
    cases which <;> cases k <;> rfl

/-! ## Runs -/

lemma Crt.captures_iff_alwaysFits (m : Crt) (calls : List StreamCall) :
    Captures m m.captured calls ↔ AlwaysFits m.captured calls := by
  induction calls generalizing m with
  | nil => exact ⟨fun _ => trivial, fun _ => rfl⟩
  | cons call calls ih =>
    have hcall := call.run_endsWith m
    constructor
    · rintro ⟨-, m', hrun, hcaptures⟩
      -- a push without room has no result, and this call has one
      have hfits : (call.pushed m.captured).Fits := by
        by_contra hfits
        rw [hcall.2 hfits] at hrun
        cases hrun
      obtain ⟨m'', hrun', hm''⟩ := hcall.1 hfits
      obtain rfl := Option.some.inj (hrun.symm.trans hrun')
      rw [← hm''] at hfits hcaptures
      rw [AlwaysFits, ← hm'']
      exact ⟨hfits, (ih m').mp hcaptures⟩
    · rintro ⟨hfits, hrest⟩
      obtain ⟨m', hrun, hm'⟩ := hcall.1 hfits
      rw [← hm'] at hrest
      refine ⟨rfl, m', hrun, ?_⟩
      rw [← hm']
      exact (ih m').mpr hrest

/-- The streams capture what has been pushed as long as it is at most 2048 characters since the last
`clear`, and not longer. -/
theorem captures_iff (disableOutput : Bool) (calls : List StreamCall) :
    Captures (.start disableOutput) (fun _ => []) calls ↔ AlwaysFits (fun _ => []) calls := by
  have hstart : (Crt.start disableOutput).captured = fun _ => [] := by
    funext k
    cases k <;> rfl
  rw [← hstart]
  exact (Crt.start disableOutput).captures_iff_alwaysFits calls

/-- One text of 2049 characters. -/
theorem exists_overflow : ¬ ∀ (disableOutput : Bool) (calls : List StreamCall),
    Captures (.start disableOutput) (fun _ => []) calls := by
  intro h
  obtain ⟨-, m', hrun, -⟩ := h false [.printsL (List.replicate 2049 120) .stdOut]
  have hend := (Crt.start false).printsL_endsWith (List.replicate 2049 120) .stdOut
  have hfull : ¬ (Pushed.add (Crt.start false).captured .stdOut (List.replicate 2049 120)).Fits := by
    intro hfits
    have hk := hfits .stdOut
    rw [Pushed.add, if_pos ⟨rfl, OutputStreamKind.noConfusion⟩, List.length_append,
      List.length_replicate] at hk
    exact absurd hk (by unfold outputSize; omega)
  change (Crt.start false).printsL _ _ = some m' at hrun
  rw [hend.2 hfull] at hrun
  cases hrun

/-! ## Memory -/

/-- The pages granted lie in the region, and `_current_memory` is their number. -/
def NativeMemory.BoundedAt (m : NativeMemory) (granted : ℕ) : Prop :=
  granted * 65536 ≤ regionSize.toNat ∧ m.currentMemory.toNat = granted

/-- The memory is bounded before and behind every call. A call that asserts grants nothing. -/
def NativeMemory.AlwaysBounded (m : NativeMemory) (granted : ℕ) : List UInt64 → Prop
  | [] => m.BoundedAt granted
  | size :: sizes => m.BoundedAt granted ∧
      (m.growMemory size = none → m.AlwaysBounded granted sizes) ∧
      ∀ r m', m.growMemory size = some (r, m') → m'.AlwaysBounded (granted + size.toNat) sizes

/-- Every call that does not assert asks for one page, in front of the last page of the region. -/
def NativeMemory.AlwaysOnePage (m : NativeMemory) : List UInt64 → Prop
  | [] => True
  | size :: sizes => (m.refuses size = false → size = 1 ∧ m.pages < 1600) ∧
      (m.growMemory size = none → m.AlwaysOnePage sizes) ∧
      ∀ r m', m.growMemory size = some (r, m') → m'.AlwaysOnePage sizes

namespace NativeMemory

variable {m m' : NativeMemory} {granted : ℕ} {size r : UInt64}

lemma growMemory_some (h : m.growMemory size = some (r, m')) :
    m.refuses size = false ∧ m' = ⟨m.heapPtr + size * 64 * 1024, m.pages + 1⟩ := by
  unfold growMemory at h
  split at h
  · cases h
  · rename_i hrefuses
    cases h
    exact ⟨Bool.eq_false_iff.mpr hrefuses, rfl⟩

/-- A call that is granted keeps the bound when it asks for one page. -/
lemma BoundedAt.next_iff (h : m.BoundedAt granted) (hgrow : m.growMemory size = some (r, m')) :
    m'.BoundedAt (granted + size.toNat) ↔ size = 1 ∧ m.pages < 1600 := by
  obtain ⟨hbound, hpages⟩ := h
  obtain ⟨-, rfl⟩ := growMemory_some hgrow
  have hregion : regionSize.toNat = 1600 * 65536 := by decide
  have hone : size = 1 ↔ size.toNat = 1 := by
    rw [← UInt64.toNat_inj]
    rfl
  -- the calls are counted, whatever they ask for
  have hsum : (m.pages + 1).toNat = granted + 1 := by
    rw [UInt64.toNat_add, show m.pages.toNat = granted from hpages]
    show (granted + 1) % 2 ^ 64 = _
    omega
  have hlt : m.pages < 1600 ↔ granted < 1600 := by
    rw [UInt64.lt_iff_toNat_lt, show m.pages.toNat = granted from hpages]
    rfl
  unfold BoundedAt currentMemory
  rw [hone, hlt, hsum]
  omega

lemma BoundedAt.alwaysBounded_iff (h : m.BoundedAt granted) (sizes : List UInt64) :
    m.AlwaysBounded granted sizes ↔ m.AlwaysOnePage sizes := by
  induction sizes generalizing m granted with
  | nil => exact ⟨fun _ => trivial, fun _ => h⟩
  | cons size sizes ih =>
    constructor
    · rintro ⟨-, hsame, hnext⟩
      -- the bound behind this call is the one in front of the next
      have hhead : ∀ r m', m.growMemory size = some (r, m') →
          m'.BoundedAt (granted + size.toNat) := by
        intro r m' hgrow
        have hall := hnext r m' hgrow
        cases sizes with
        | nil => exact hall
        | cons => exact hall.1
      refine ⟨fun hrefuses => ?_, fun hnone => (ih h).mp (hsame hnone), fun r m' hgrow => ?_⟩
      · have hgrow : m.growMemory size
            = some (m.pages + 1, ⟨m.heapPtr + size * 64 * 1024, m.pages + 1⟩) :=
          if_neg (Bool.eq_false_iff.mp hrefuses)
        exact (h.next_iff hgrow).mp (hhead _ _ hgrow)
      · exact (ih (hhead r m' hgrow)).mp (hnext r m' hgrow)
    · rintro ⟨hpage, hsame, hnext⟩
      refine ⟨h, fun hnone => (ih h).mpr (hsame hnone), fun r m' hgrow => ?_⟩
      have hbounded := (h.next_iff hgrow).mpr (hpage (growMemory_some hgrow).1)
      exact (ih hbounded).mpr (hnext r m' hgrow)

/-- The memory stays in the region and `_current_memory` counts its pages as long as every call that
is granted asks for one page, for 1599 calls. The page that is there from the start counts. -/
theorem alwaysBounded_iff_onePage (heap : UInt64) (sizes : List UInt64) :
    (start heap).AlwaysBounded 1 sizes ↔ (start heap).AlwaysOnePage sizes := by
  have hstart : (start heap).BoundedAt 1 := ⟨by decide, rfl⟩
  exact hstart.alwaysBounded_iff sizes

/-- Two pages are counted as one. -/
theorem exists_miscounted : ¬ ∀ (heap : UInt64) (sizes : List UInt64),
    (start heap).AlwaysBounded 1 sizes := by
  intro h
  obtain ⟨-, -, hnext⟩ := h 0x10000 [2]
  exact absurd (hnext 2 ⟨0x30000, 2⟩ (by decide)).2 (by decide)

end NativeMemory

end UosioCdt.Native
