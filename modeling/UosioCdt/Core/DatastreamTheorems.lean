import UosioCdt.Core.Datastream
import Mathlib.Algebra.Group.Nat.Defs
import Mathlib.Data.UInt
import Mathlib.Tactic.ByContra
import Mathlib.Tactic.Tauto

/-!
# The bounds of a datastream

Which calls stay in the buffer (`StreamOp.Guarded`): the checks bound a call whose position is
inside the buffer, except a `write` of 2^31 bytes or more, and they let some calls pass whose
position `skip` or `seekp` has moved outside.
-/

namespace UosioCdt.Core

/-- A buffer in the address space. -/
structure Buffer where
  start : UInt32
  len : UInt32
  fits : start.toNat + len.toNat < 2 ^ 32

/-- A fresh stream over the buffer. -/
def Buffer.stream (b : Buffer) : Datastream := Datastream.mk' b.start b.len

/-- Every accessed offset lies in `[0, len)`. -/
def Access.Within (b : Buffer) (a : Access) : Prop := ∀ i < a.size, a.addr + i - b.start < b.len

/-- The stream is over the buffer. -/
structure Datastream.Over (ds : Datastream) (b : Buffer) : Prop where
  start_eq : ds.start = b.start
  end_eq : ds.end_ = b.start + b.len

lemma Buffer.over_stream (b : Buffer) : b.stream.Over b := ⟨rfl, rfl⟩

/-- The position is inside the buffer and the length below 2^31, or such that the check refuses
the call; an empty access is always fine. -/
def StreamOp.Guarded (ds : Datastream) : StreamOp → Prop
  | .skip _ | .seekp _ => True
  | .read _ s => s = 0 ∨ ds.valid = true ∨ ds.remaining < s
  | .write _ s =>
    s = 0 ∨ (ds.valid = true ∧ (s < 2 ^ 31 ∨ 2 ^ 31 ≤ ds.remaining)) ∨
      (ds.valid = false ∧ ds.remaining.toBitVec.slt s.toBitVec)
  | .put _ | .get _ => ds.start ≤ ds.pos

/-- Every call of the sequence is guarded where it is made. -/
def GuardedRun (ds : Datastream) (mem : Mem) : List StreamOp → Prop
  | [] => True
  | op :: ops => op.Guarded ds ∧
    match op.call ds mem with
    | some (ds', mem') => GuardedRun ds' mem' ops
    | none => GuardedRun ds mem ops

section bounds

variable {b : Buffer} {ds : Datastream} {mem : Mem}

/-! ## Positions -/

/-- The distance of two addresses. -/
lemma toNat_sub' (x y : UInt32) :
    (x - y).toNat = if y.toNat ≤ x.toNat then x.toNat - y.toNat
      else 2 ^ 32 + x.toNat - y.toNat := by
  have hx := x.toNat_lt
  have hy := y.toNat_lt
  rw [UInt32.toNat_sub]
  split <;> omega

/-- An access is inside the buffer when it is empty or begins and ends there. -/
lemma Access.within_iff (a : Access) :
    a.Within b ↔ a.size = 0 ∨
      (b.start.toNat ≤ a.addr.toNat ∧
        a.addr.toNat + a.size.toNat ≤ b.start.toNat + b.len.toNat) := by
  have hfits := b.fits
  have haddr := a.addr.toNat_lt
  have hsize := a.size.toNat_lt
  constructor
  · intro h
    by_cases hzero : a.size = 0
    · exact .inl hzero
    refine .inr ?_
    have hpos : 0 < a.size.toNat := by
      rw [Nat.pos_iff_ne_zero]
      exact fun h0 => hzero (UInt32.toNat_inj.mp h0)
    have hfirst := h 0 (UInt32.lt_iff_toNat_lt.mpr hpos)
    rw [UInt32.add_zero, UInt32.lt_iff_toNat_lt, toNat_sub'] at hfirst
    by_contra hcon
    -- the first offset behind the buffer
    have hstart : b.start.toNat ≤ a.addr.toNat := by
      by_contra hlt
      rw [if_neg hlt] at hfirst
      omega
    rw [if_pos hstart] at hfirst
    have hi : (b.start + b.len - a.addr).toNat
        = b.start.toNat + b.len.toNat - a.addr.toNat := by
      rw [toNat_sub', UInt32.toNat_add, Nat.mod_eq_of_lt hfits]
      split <;> omega
    have hlast := h (b.start + b.len - a.addr) (by rw [UInt32.lt_iff_toNat_lt, hi]; omega)
    have hend : a.addr + (b.start + b.len - a.addr) - b.start = b.len := by
      rw [UInt32.add_comm a.addr, UInt32.sub_add_cancel, UInt32.add_comm b.start,
        UInt32.add_sub_cancel]
    rw [hend] at hlast
    exact UInt32.lt_irrefl _ hlast
  · rintro (hzero | ⟨hlo, hhi⟩) i hi
    · rw [hzero] at hi
      exact absurd (UInt32.lt_iff_toNat_lt.mp hi) (Nat.not_lt_zero _)
    · rw [UInt32.lt_iff_toNat_lt] at hi ⊢
      have hsum : (a.addr + i).toNat = a.addr.toNat + i.toNat := by
        rw [UInt32.toNat_add, Nat.mod_eq_of_lt (by omega)]
      rw [toNat_sub', hsum, if_pos (by omega)]
      omega

/-! ## One call -/

section onBuffer

variable (hover : ds.Over b)
include hover

lemma valid_iff : ds.valid = true ↔
    b.start.toNat ≤ ds.pos.toNat ∧ ds.pos.toNat ≤ b.start.toNat + b.len.toNat := by
  rw [Datastream.valid, Bool.and_eq_true, decide_eq_true_iff, decide_eq_true_iff, ge_iff_le,
    hover.start_eq, hover.end_eq, UInt32.le_iff_toNat_le, UInt32.le_iff_toNat_le,
    UInt32.toNat_add, Nat.mod_eq_of_lt b.fits]
  exact and_comm

lemma toNat_remaining : ds.remaining.toNat =
    if ds.pos.toNat ≤ b.start.toNat + b.len.toNat then b.start.toNat + b.len.toNat - ds.pos.toNat
    else 2 ^ 32 + (b.start.toNat + b.len.toNat) - ds.pos.toNat := by
  rw [Datastream.remaining, hover.end_eq, toNat_sub', UInt32.toNat_add, Nat.mod_eq_of_lt b.fits]

lemma lt_end_iff : ds.pos < ds.end_ ↔ ds.pos.toNat < b.start.toNat + b.len.toNat := by
  rw [hover.end_eq, UInt32.lt_iff_toNat_lt, UInt32.toNat_add, Nat.mod_eq_of_lt b.fits]

/-- A read that its check lets pass is in the buffer exactly when it is guarded. -/
lemma read_within_iff (d s : UInt32) :
    (ds.remaining ≥ s → Access.Within b ⟨ds.pos, s⟩) ↔ StreamOp.Guarded ds (.read d s) := by
  have hrem := toNat_remaining hover
  have hpos := ds.pos.toNat_lt
  have hs := s.toNat_lt
  have hfits := b.fits
  rw [Access.within_iff, StreamOp.Guarded, valid_iff hover, ge_iff_le, UInt32.le_iff_toNat_le,
    UInt32.lt_iff_toNat_lt]
  by_cases hzero : s = 0
  · simp [hzero]
  have hspos : 0 < s.toNat := by
    rw [Nat.pos_iff_ne_zero]
    exact fun h0 => hzero (UInt32.toNat_inj.mp h0)
  simp only [hzero, false_or]
  split at hrem <;> omega

/-- `put` and `get` access the buffer unless the position is before it. -/
lemma byte_within_iff :
    (ds.pos < ds.end_ → Access.Within b ⟨ds.pos, 1⟩) ↔ ds.start ≤ ds.pos := by
  rw [Access.within_iff, lt_end_iff hover, hover.start_eq, UInt32.le_iff_toNat_le]
  have hone : (1 : UInt32).toNat = 1 := rfl
  have hne : ¬ (1 : UInt32) = 0 := by decide
  simp only [hone, hne, false_or]
  omega

/-- A write that its check lets pass is in the buffer exactly when it is guarded. -/
lemma write_within_iff (d s : UInt32) :
    (s.toBitVec.sle ds.remaining.toBitVec → Access.Within b ⟨ds.pos, s⟩) ↔
      StreamOp.Guarded ds (.write d s) := by
  have hrem := toNat_remaining hover
  have hpos := ds.pos.toNat_lt
  have hs := s.toNat_lt
  have hr := ds.remaining.toNat_lt
  have hfits := b.fits
  have hhalf : ((2 : UInt32) ^ 31).toNat = 2 ^ 31 := rfl
  have hvalid := valid_iff hover
  rw [Access.within_iff, StreamOp.Guarded, ← Bool.not_eq_true, hvalid, UInt32.lt_iff_toNat_lt,
    UInt32.le_iff_toNat_le, hhalf, BitVec.sle_iff_toInt_le, BitVec.slt_iff_toInt_lt,
    BitVec.toInt_eq_toNat_cond, BitVec.toInt_eq_toNat_cond, UInt32.toNat_toBitVec,
    UInt32.toNat_toBitVec]
  by_cases hzero : s = 0
  · simp [hzero]
  have hspos : 0 < s.toNat := by
    rw [Nat.pos_iff_ne_zero]
    exact fun h0 => hzero (UInt32.toNat_inj.mp h0)
  simp only [hzero, false_or]
  split at hrem <;> split <;> split <;> omega

/-- A call that does not fail stays in the buffer exactly when it is guarded. -/
lemma call_within_iff (op : StreamOp) :
    ((op.call ds mem).isSome → (op.access ds).Within b) ↔ op.Guarded ds := by
  have hempty : Access.Within b ⟨ds.pos, 0⟩ := Access.within_iff _ |>.mpr (.inl rfl)
  cases op with
  | skip s => simp [StreamOp.access, StreamOp.Guarded, hempty]
  | seekp p => simp [StreamOp.access, StreamOp.Guarded, hempty]
  | read d s =>
    rw [← read_within_iff hover d s, StreamOp.call, Datastream.read, Datastream.remaining,
      Option.isSome_ite, StreamOp.access]
  | write d s =>
    rw [← write_within_iff hover d s, StreamOp.call, Datastream.write, Datastream.remaining,
      Option.isSome_ite, StreamOp.access]
  | put c =>
    rw [StreamOp.Guarded, ← byte_within_iff hover, StreamOp.call, Datastream.put,
      Option.isSome_ite, StreamOp.access]
  | get c =>
    rw [StreamOp.Guarded, ← byte_within_iff hover, StreamOp.call, Datastream.get,
      Option.isSome_ite, StreamOp.access]

/-- A call leaves the ends of the stream. -/
lemma over_call {op : StreamOp} {ds' : Datastream} {mem' : Mem}
    (h : op.call ds mem = some (ds', mem')) : ds'.Over b := by
  obtain ⟨hstart, hend⟩ := hover
  cases op <;>
    simp only [StreamOp.call, Datastream.skip, Datastream.seekp, Datastream.read,
      Datastream.write, Datastream.put, Datastream.get, Option.ite_none_right_eq_some,
      Option.some.injEq, Prod.mk.injEq] at h <;>
    grind [Datastream.Over]

end onBuffer

end bounds

/-! ## Runs -/

/-- The calls on a fresh stream stay in the buffer exactly when all of them are guarded. -/
theorem accesses_within_iff (b : Buffer) (mem : Mem) (ops : List StreamOp) :
    (∀ a ∈ accesses b.stream mem ops, a.Within b) ↔ GuardedRun b.stream mem ops := by
  have hrun : ∀ (ds : Datastream) (mem : Mem), ds.Over b →
      ((∀ a ∈ accesses ds mem ops, a.Within b) ↔ GuardedRun ds mem ops) := by
    induction ops with
    | nil => exact fun _ _ _ => by simp [accesses, GuardedRun]
    | cons op ops ih =>
      intro ds mem hover
      have hcall := @call_within_iff _ _ mem hover op
      rw [accesses, GuardedRun, ← hcall]
      cases h : op.call ds mem with
      | none => simpa using ih ds mem hover
      | some r =>
        simp only [List.forall_mem_cons, Option.isSome_some, forall_const]
        exact and_congr_right fun _ => ih r.1 r.2 (over_call hover h)
  exact hrun b.stream mem b.over_stream

/-- Behind the end of a buffer, `read` reads what follows. -/
theorem exists_access_outside :
    ¬ ∀ (b : Buffer) (mem : Mem) (ops : List StreamOp),
      ∀ a ∈ accesses b.stream mem ops, a.Within b := by
  intro h
  have hwithin := h ⟨1024, 4, by decide⟩ (fun _ => 0) [.skip 5, .read 0 1] ⟨1029, 1⟩ (by decide)
  exact absurd (hwithin 0 (by decide)) (by decide)

end UosioCdt.Core
