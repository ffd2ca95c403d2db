import UosioCdt.Core.Extensions

/-!
# Values that their packed size bounds

The lengths that `Ty.Proper` asks for are the lengths of containers. Where every element writes a
byte they are bounded by the number of bytes, so that a value that fits into a buffer is proper.
-/

namespace UosioCdt.Core

/-- The only thing to ask of the values are lengths, and the bytes bound these. -/
def Ty.boundedBySize : Ty → Bool
  | .seq _ t => !t.writesNothing && t.boundedBySize
  | .array t _ => t.boundedBySize
  | .cArray t _ => t.boundedBySize
  | .optional t => t.boundedBySize
  | .pair a b => a.boundedBySize && b.boundedBySize
  | .field a rest => a.boundedBySize && rest.boundedBySize
  | .aggregate _ fields => fields.boundedBySize
  | .set _ | .map _ _ | .variant _ _ | .fixedBytes _ | .binaryExtension _ => false
  | _ => true

section

variable {lt : KeyOrder} {t : Ty}

lemma serialize_field (a rest : Ty) (v : a.Val × rest.Val) :
    (Ty.field a rest).serialize v = a.serialize v.1 ++ rest.serialize v.2 := by
  change (a.writes v.1 ++ rest.writes v.2).flatten = _
  rw [List.flatten_append]
  rfl

lemma serialize_seq (kind : SeqKind) (t : Ty) (v : List t.Val) :
    (Ty.seq kind t).serialize v = (sizeWrites v.length).flatten ++ v.flatMap t.serialize := by
  change (sizeWrites v.length ++ v.flatMap t.writes).flatten = _
  rw [List.flatten_append, Ty.flatten_flatMap_writes]

lemma length_le_string (v : List UInt8) : v.length ≤ (Ty.string.serialize v).length := by
  change v.length ≤ (sizeWrites v.length ++ if v.length ≠ 0 then [v] else []).flatten.length
  rw [List.flatten_append, List.length_append]
  split
  · rw [List.flatten_singleton]
    omega
  · omega

lemma length_le_bytes (v : List UInt8) : v.length ≤ (Ty.bytes.serialize v).length := by
  change v.length ≤ (sizeWrites v.length ++ [v]).flatten.length
  rw [List.flatten_append, List.length_append, List.flatten_singleton]
  omega

lemma length_le_flatMap (h : t.writesNothing = false) (v : List t.Val) :
    v.length ≤ (v.flatMap t.serialize).length := by
  induction v with
  | nil => exact Nat.zero_le _
  | cons x xs ih =>
    have hne : t.serialize x ≠ [] := by
      rw [Ne, t.serialize_eq_nil_iff, h]
      exact Bool.false_ne_true
    have hpos := List.length_pos_iff.mpr hne
    rw [List.flatMap_cons, List.length_append, List.length_cons]
    omega

lemma length_serialize_le {v : List t.Val} {x : t.Val} (hx : x ∈ v) :
    (t.serialize x).length ≤ (v.flatMap t.serialize).length := by
  obtain ⟨s, s', rfl⟩ := List.append_of_mem hx
  simp only [List.flatMap_append, List.flatMap_cons, List.length_append]
  omega

lemma length_array_le {n : ℕ} (v : Fin n → t.Val) (i : Fin n) :
    (t.serialize (v i)).length ≤ ((List.ofFn v).flatMap t.writes).flatten.length := by
  rw [Ty.flatten_flatMap_writes]
  exact length_serialize_le (List.mem_ofFn.mpr ⟨i, rfl⟩)

/-- A value that fits into a buffer is proper. -/
lemma Ty.proper_of_length (h : t.boundedBySize = true) {v : t.Val}
    (hlen : (t.serialize v).length < 2 ^ 31) : t.Proper lt v := by
  induction t with
  | string =>
    change List.length v < 2 ^ 32
    have hle := length_le_string v
    omega
  | bytes =>
    change List.length v < 2 ^ 32
    have hle := length_le_bytes v
    omega
  | seq kind t ih =>
    rw [boundedBySize, Bool.and_eq_true, Bool.not_eq_true'] at h
    rw [show (Ty.seq kind t).serialize v = _ from serialize_seq kind t v, List.length_append] at hlen
    have hcount := length_le_flatMap h.1 v
    refine ⟨by omega, fun x hx => ih h.2 ?_⟩
    have hle := length_serialize_le hx
    omega
  | array t n ih =>
    exact fun i => ih h ((length_array_le v i).trans_lt hlen)
  | cArray t n ih =>
    intro i
    change (sizeWrites n.toNat ++ (List.ofFn v).flatMap t.writes).flatten.length < 2 ^ 31 at hlen
    rw [List.flatten_append, List.length_append] at hlen
    have hle := length_array_le v i
    exact ih h (by omega)
  | optional t ih =>
    intro x hx
    obtain rfl : v = some x := hx
    change ([1] :: t.writes x).flatten.length < 2 ^ 31 at hlen
    rw [List.flatten_cons, List.length_append] at hlen
    refine ih h ?_
    rw [serialize]
    omega
  | pair a b iha ihb =>
    rw [boundedBySize, Bool.and_eq_true] at h
    change (a.writes v.1 ++ b.writes v.2).flatten.length < 2 ^ 31 at hlen
    rw [List.flatten_append, List.length_append] at hlen
    exact ⟨iha h.1 (by rw [serialize]; omega), ihb h.2 (by rw [serialize]; omega)⟩
  | field a rest iha ihr =>
    rw [boundedBySize, Bool.and_eq_true] at h
    rw [show (Ty.field a rest).serialize v = _ from serialize_field a rest v,
      List.length_append] at hlen
    exact ⟨iha h.1 (by omega), ihr h.2 (by omega)⟩
  | aggregate id fields ih => exact ih h hlen
  | set | map | variant | fixedBytes | binaryExtension => exact absurd h Bool.false_ne_true
  | _ => exact trivial

/-- A buffer with the bytes of a value and no others. -/
lemma unpack_serialize {v : t.Val} (h : t.Proper lt v) : t.unpack lt (t.serialize v) = some v := by
  have hread := t.roundTrips lt v h []
  rw [List.append_nil] at hread
  rw [Ty.unpack, hread]
  rfl

end

end UosioCdt.Core
