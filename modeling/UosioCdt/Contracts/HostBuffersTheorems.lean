import UosioCdt.Contracts.HostBuffers
import UosioCdt.Core.RoundTrip

/-!
# Theorems: buffers that the host fills

A buffer for the full size is filled with the whole value. `get_active_producers` passes a number of
elements where the host expects a number of bytes, so only that many bytes arrive.
-/

namespace UosioCdt.Contracts

open UosioCdt.Core LittleEndian

/-! ## Filling a buffer -/

namespace HostBuffer

variable (h : HostBuffer)

lemma toNat_report_zero : (h.report 0).toNat = h.bytes.length := by
  unfold report
  rw [if_pos rfl]
  exact UInt32.toNat_ofNat_of_lt' h.length_lt

/-- A call with room for everything reports the full size. -/
lemma toNat_report {len : UInt32} (hlen : h.bytes.length ≤ len.toNat) :
    (h.report len).toNat = h.bytes.length := by
  by_cases hzero : len = 0
  · rw [hzero]
    exact h.toNat_report_zero
  · unfold report
    rw [if_neg hzero]
    exact h.returned_eq len hlen

/-- A call with room for everything puts the whole value in front. -/
lemma fill_eq (buffer : List UInt8) {len : UInt32} (hlen : h.bytes.length ≤ len.toNat) :
    h.fill buffer len = h.bytes ++ buffer.drop h.bytes.length := by
  simp only [fill, min_eq_right hlen, List.take_length]

/-- A buffer of the reported size holds the value and nothing else. -/
lemma fill_report (memory : ℕ → UInt8) :
    h.fill (newBuffer memory (h.report 0).toNat) (h.report 0) = h.bytes := by
  have hsize := h.toNat_report_zero
  rw [h.fill_eq _ (le_of_eq hsize.symm), hsize, List.drop_of_length_le, List.append_nil]
  simp [newBuffer]

end HostBuffer

/-! ## The wrappers that fill the whole buffer -/

/-- The size of an action is positive as an `int` unless there are no bytes, which do not decode. -/
lemma getAction_eq (lt : KeyOrder) (h : HostBuffer) (memory : ℕ → UInt8)
    (hlt : h.bytes.length < 2 ^ 31) : getAction lt h memory = action.unpack lt h.bytes := by
  have hsize := h.toNat_report_zero
  -- the second call reports the same size, which is what is checked
  have hagain : h.report 0 = h.report (h.report 0) := by
    apply UInt32.toNat_inj.1
    rw [h.toNat_report (le_of_eq hsize.symm), hsize]
  have hpos : (0#32).slt (h.report 0).toBitVec = true ↔ 0 < h.bytes.length := by
    rw [BitVec.slt_iff_toInt_lt, BitVec.toInt_zero, BitVec.toInt_eq_toNat_of_lt]
    · rw [← hsize]
      exact Int.natCast_pos
    · have hword : (h.report 0).toBitVec.toNat = h.bytes.length := hsize
      omega
  unfold getAction
  simp only [h.fill_report, if_pos hagain]
  by_cases hempty : 0 < h.bytes.length
  · rw [if_pos (hpos.2 hempty)]
  · rw [if_neg (mt hpos.1 hempty)]
    have hnil : h.bytes = [] := List.eq_nil_of_length_eq_zero (by omega)
    rw [hnil]
    rfl

lemma unpackActionData_eq (lt : KeyOrder) (t : Ty) (h : HostBuffer) (memory : ℕ → UInt8) :
    unpackActionData lt t h memory = t.unpack lt h.bytes := by
  unfold unpackActionData
  simp only [h.fill_report]

/-- Primitive fields are read into any destination as they were written. -/
lemma reads_primFields (lt : KeyOrder) (ps : List Prim) (old v : (primFields ps).Val) :
    Reads ((primFields ps).read lt old) ((primFields ps).serialize v) v := by
  induction ps with
  | nil => exact .pure ()
  | cons p ps ih =>
    have hp : Reads p.read ((Ty.prim p).serialize v.1) v.1 := reads_prim v.1
    have hrest := (ih old.2 v.2).map fun xs => (v.1, xs)
    have hpair := hp.bind (f := fun x => do
      let xs ← (primFields ps).read lt old.2
      return (x, xs)) hrest
    have hbytes : (primFields (p :: ps)).serialize v =
        (Ty.prim p).serialize v.1 ++ (primFields ps).serialize v.2 := List.flatten_append
    rw [hbytes]
    exact hpair

lemma length_primFields (ps : List Prim) (v : (primFields ps).Val) :
    ((primFields ps).serialize v).length = (ps.map Prim.size).sum := by
  induction ps with
  | nil => rfl
  | cons p ps ih =>
    have hbytes : (primFields (p :: ps)).serialize v =
        p.bytes v.1 ++ (primFields ps).serialize v.2 := by
      show ([p.bytes v.1] ++ (primFields ps).writes v.2).flatten = _
      rw [List.flatten_append, List.flatten_singleton]
      rfl
    have hp : (p.bytes v.1).length = p.size := Prim.length_bytes p v.1
    rw [hbytes, List.length_append, hp, ih, List.map_cons, List.sum_cons]

/-- The packed parameters are smaller than the class. -/
lemma getBlockchainParameters_eq (lt : KeyOrder) (h : HostBuffer) (memory : ℕ → UInt8)
    (params v : blockchainParameters.Val) (hbytes : h.bytes = blockchainParameters.serialize v) :
    getBlockchainParameters lt h memory params = some v := by
  -- the fields have 68 bytes, the class that they are read into has more
  have hlength : h.bytes.length = 68 := by
    rw [hbytes]
    exact length_primFields parameterFields v
  have hroom : h.bytes.length ≤ (UInt32.ofNat sizeofBlockchainParameters).toNat := by
    rw [hlength]
    decide
  have hsize := h.toNat_report hroom
  have hcheck : h.report (UInt32.ofNat sizeofBlockchainParameters) ≤
      UInt32.ofNat sizeofBlockchainParameters := by
    rw [UInt32.le_iff_toNat_le, hsize]
    exact hroom
  unfold getBlockchainParameters
  simp only [if_pos hcheck, h.fill_eq _ hroom, hsize, List.take_left]
  have hread : Reads (blockchainParameters.read lt params) h.bytes v := by
    rw [hbytes]
    exact reads_primFields lt parameterFields params v
  have hall := hread []
  rw [List.append_nil] at hall
  rw [hall]
  rfl

/-! ## The active producers -/

lemma length_nameBytes (n : Name) : (nameBytes n).length = 8 := length_toBytes 8 n.value.toNat

lemma length_flatMap_nameBytes (l : List Name) : (l.flatMap nameBytes).length = 8 * l.length := by
  induction l with
  | nil => rfl
  | cons n l ih =>
    rw [List.flatMap_cons, List.length_append, length_nameBytes, ih, List.length_cons]
    omega

/-- Names in memory are read back. -/
lemma namesIn_flatMap (l : List Name) : namesIn l.length (l.flatMap nameBytes) = l := by
  induction l with
  | nil => rfl
  | cons n l ih =>
    have hlt : n.value.toNat < 256 ^ 8 := n.value.toNat_lt
    have hword : BitVec.ofNat 64 (ofBytes (nameBytes n)) = n.value.toBitVec := by
      unfold nameBytes
      rw [ofBytes_toBytes, Nat.mod_eq_of_lt hlt]
      show BitVec.ofNat 64 n.value.toBitVec.toNat = _
      rw [BitVec.ofNat_toNat, BitVec.setWidth_eq]
    rw [List.length_cons, List.flatMap_cons, namesIn, List.take_left' (length_nameBytes n),
      List.drop_left' (length_nameBytes n), ih, hword]

/-- The names that memory is read as have the bytes of the memory. -/
lemma flatMap_namesIn (n : ℕ) (bytes : List UInt8) (hlen : bytes.length = 8 * n) :
    (namesIn n bytes).flatMap nameBytes = bytes := by
  induction n generalizing bytes with
  | zero =>
    have hnil : bytes = [] := List.eq_nil_of_length_eq_zero (by omega)
    rw [hnil]
    rfl
  | succ n ih =>
    have htake : (bytes.take 8).length = 8 := by
      rw [List.length_take]
      omega
    have hdrop : (bytes.drop 8).length = 8 * n := by
      rw [List.length_drop]
      omega
    have hlt : ofBytes (bytes.take 8) < 2 ^ 64 := by
      have hbound := ofBytes_lt (bytes.take 8)
      rw [htake] at hbound
      exact hbound
    have hback := toBytes_ofBytes (bytes.take 8)
    rw [htake] at hback
    have hname : nameBytes ⟨⟨BitVec.ofNat 64 (ofBytes (bytes.take 8))⟩⟩ = bytes.take 8 := by
      show toBytes 8 (BitVec.ofNat 64 (ofBytes (bytes.take 8))).toNat = _
      rw [BitVec.toNat_ofNat, Nat.mod_eq_of_lt hlt, hback]
    rw [namesIn, List.flatMap_cons, hname, ih _ hdrop, List.take_append_drop]

lemma namesIn_eq_iff (l : List Name) (bytes : List UInt8) (hlen : bytes.length = 8 * l.length) :
    namesIn l.length bytes = l ↔ bytes = l.flatMap nameBytes := by
  constructor
  · intro heq
    have hback := flatMap_namesIn l.length bytes hlen
    rw [heq] at hback
    exact hback.symm
  · intro heq
    rw [heq]
    exact namesIn_flatMap l

/-- Default constructed names are zeros. -/
lemma flatMap_replicate (n : ℕ) :
    (List.replicate n (⟨0⟩ : Name)).flatMap nameBytes = List.replicate (8 * n) 0 := by
  induction n with
  | zero => rfl
  | succ n ih =>
    have hname : nameBytes ⟨0⟩ = List.replicate 8 0 := by decide
    rw [List.replicate_succ, List.flatMap_cons, ih, hname, List.replicate_append_replicate]
    congr 1
    omega

/-- Only as many bytes arrive as there are producers. -/
lemma getActiveProducers_eq_iff (h : HostBuffer) (producers : List Name)
    (hbytes : h.bytes = producers.flatMap nameBytes) :
    getActiveProducers h = producers ↔ ∀ b ∈ h.bytes.drop producers.length, b = 0 := by
  -- the size is divided by that of a name, and the quotient is passed as a number of bytes
  have hlength : h.bytes.length = 8 * producers.length := by
    rw [hbytes]
    exact length_flatMap_nameBytes producers
  have hlt := h.length_lt
  have hcount : (h.report 0 / 8).toNat = producers.length := by
    rw [UInt32.toNat_div, h.toNat_report_zero, hlength]
    show 8 * producers.length / 8 = _
    omega
  have hword : (UInt32.ofNat producers.length).toNat = producers.length := by
    apply UInt32.toNat_ofNat_of_lt'
    show producers.length < 2 ^ 32
    omega
  -- what is in the vector behind the second call
  have hdata : h.fill (List.replicate (8 * producers.length) 0) (UInt32.ofNat producers.length) =
      h.bytes.take producers.length ++ List.replicate (7 * producers.length) 0 := by
    have hmin : min (UInt32.ofNat producers.length).toNat h.bytes.length = producers.length := by
      rw [hword]
      omega
    simp only [HostBuffer.fill, hmin, List.drop_replicate]
    congr 2
    omega
  have hlen : (h.bytes.take producers.length ++
      List.replicate (7 * producers.length) (0 : UInt8)).length = 8 * producers.length := by
    rw [List.length_append, List.length_replicate, List.length_take]
    omega
  have hresult : getActiveProducers h = namesIn producers.length
      (h.bytes.take producers.length ++ List.replicate (7 * producers.length) 0) := by
    simp only [getActiveProducers, hcount, List.length_replicate, flatMap_replicate, hdata]
  rw [hresult, namesIn_eq_iff _ _ hlen, ← hbytes]
  calc h.bytes.take producers.length ++ List.replicate (7 * producers.length) 0 = h.bytes
      ↔ h.bytes.take producers.length ++ List.replicate (7 * producers.length) 0 =
          h.bytes.take producers.length ++ h.bytes.drop producers.length := by
        rw [List.take_append_drop]
    _ ↔ h.bytes.drop producers.length = List.replicate (7 * producers.length) 0 := by
        rw [List.append_cancel_left_eq]
        exact eq_comm
    _ ↔ ∀ b ∈ h.bytes.drop producers.length, b = 0 := by
        rw [List.eq_replicate_iff, List.length_drop, hlength]
        exact and_iff_right (by omega)

/-! ## All wrappers -/

/-- The wrappers return what the bytes of the host decode to exactly when all bytes of the active
producers are zero but as many as there are producers. -/
theorem Host.decodes_iff (host : Host) (lt : KeyOrder) :
    host.Decodes lt ↔
      ∀ b ∈ (host.producers.flatMap nameBytes).drop host.producers.length, b = 0 := by
  have hproducers := getActiveProducers_eq_iff host.activeProducers host.producers
    host.activeProducers_eq
  rw [← host.activeProducers_eq]
  constructor
  · intro h
    exact hproducers.1 h.getActiveProducers_eq
  · intro h
    refine ⟨hproducers.2 h, ?_, ?_, ?_⟩
    · intro memory
      exact getAction_eq lt host.action memory host.action_lt
    · intro t memory
      exact Contracts.unpackActionData_eq lt t host.actionData memory
    · intro memory params
      exact Contracts.getBlockchainParameters_eq lt host.blockchainParameters memory params
        host.parameters host.blockchainParameters_eq

/-- One producer whose name does not fit in a byte, in front of an empty action. -/
def oneProducer : Host where
  producers := [⟨256⟩]
  activeProducers := ⟨nameBytes ⟨256⟩, fun _ => 8, by decide, fun _ _ => rfl⟩
  activeProducers_eq := rfl
  action := ⟨List.replicate 18 0, fun _ => 18, by decide, fun _ _ => rfl⟩
  action_lt := by decide
  actionData := ⟨[], fun _ => 0, by decide, fun _ _ => rfl⟩
  parameters := blockchainParameters.default
  blockchainParameters := ⟨List.replicate 68 0, fun _ => 68, by decide, fun _ _ => rfl⟩
  blockchainParameters_eq := by decide

/-- One of the eight bytes of the name arrives, and it is zero. -/
theorem exists_not_decodes : ∃ (host : Host) (lt : KeyOrder), ¬ host.Decodes lt := by
  refine ⟨oneProducer, unsignedOrder, ?_⟩
  intro h
  have heq : getActiveProducers oneProducer.activeProducers = [⟨0⟩] := by decide
  rw [h.getActiveProducers_eq] at heq
  exact absurd heq (by decide)

end UosioCdt.Contracts
