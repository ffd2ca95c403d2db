import UosioCdt.Dispatch.Writer

/-!
# Reading a function body back

The binary format of the instructions the dispatcher uses, as a decoder: `decodeBody` takes the
content of a body apart, and `decodeBody_encode` says that it recovers what was written.
-/

namespace UosioCdt.Dispatch

open Leb128 StructuredCode

/-- One instruction and the bytes behind it. -/
def decodeInstr : List UInt8 → Option (Instr × List UInt8)
  | [] => none
  | b :: rest =>
    if b = OPCODE_CALL then
      (decodeU 32 rest).map fun p => (.op (.call (UInt32.ofNat p.1)), p.2)
    else if b = OPCODE_GET_LOCAL then
      (decodeU 32 rest).map fun p => (.op (.getLocal (UInt32.ofNat p.1)), p.2)
    else if b = OPCODE_I64_EQ then some (.op .i64Eq, rest)
    else if b = OPCODE_I64_NE then some (.op .i64Ne, rest)
    else if b = OPCODE_I32_CONST then
      (decodeS 32 rest).bind fun p => if p.1 = 0 then some (.op .i32Zero, p.2) else none
    else if b = OPCODE_I64_CONST then
      (decodeS 64 rest).map fun p => (.op (.i64Const ⟨BitVec.ofInt 64 p.1⟩), p.2)
    else if b = OPCODE_IF then
      match rest with
      | t :: rest => if t = blockTypeNone then some (.if_, rest) else none
      | [] => none
    else if b = OPCODE_ELSE then some (.else_, rest)
    else if b = OPCODE_END then some (.end_, rest)
    else none

/-- The instructions of a byte sequence, `fuel` at most. -/
def decodeInstrs : ℕ → List UInt8 → Option (List Instr)
  | _, [] => some []
  | 0, _ :: _ => none
  | fuel + 1, b :: bs =>
    (decodeInstr (b :: bs)).bind fun p => (decodeInstrs fuel p.2).map (p.1 :: ·)

/-- The instructions of a body without local declarations. -/
def decodeBody (content : List UInt8) : Option (List Instr) :=
  (decodeU 32 content).bind fun p => if p.1 = 0 then decodeInstrs p.2.length p.2 else none

/-- An instruction is read back as it was written. -/
lemma decodeInstr_encode (i : Instr) (rest : List UInt8) :
    decodeInstr (encodeInstr i ++ rest) = some (i, rest) := by
  have hu (n : UInt32) : decodeU 32 (encodeU n.toNat ++ rest) = some (n.toNat, rest) :=
    decodeU_encodeU n.toNat_lt rest
  have hzero : decodeS 32 (encodeU 0 ++ rest) = some (0, rest) := by
    rw [encodeU_of_lt (by decide)]
    rfl
  cases i with
  | if_ => rfl
  | else_ => rfl
  | end_ => rfl
  | op p =>
    cases p with
    | call index =>
      simp only [encodeInstr, List.cons_append, decodeInstr, if_true, hu, Option.map_some,
        UInt32.ofNat_toNat]
    | getLocal index =>
      simp only [encodeInstr, List.cons_append, decodeInstr, hu, Option.map_some,
        UInt32.ofNat_toNat]
      rfl
    | i64Eq => rfl
    | i64Ne => rfl
    | i32Zero =>
      simp only [encodeInstr, List.cons_append, decodeInstr, hzero]
      rfl
    | i64Const value =>
      have hs : decodeS 64 (encodeS value.toBitVec.toInt ++ rest)
          = some (value.toBitVec.toInt, rest) :=
        decodeS_encodeS (BitVec.le_toInt _) BitVec.toInt_lt rest
      simp only [encodeInstr, List.cons_append, decodeInstr, hs, Option.map_some,
        BitVec.ofInt_toInt]
      rfl

lemma encodeInstr_ne_nil (i : Instr) : encodeInstr i ≠ [] := by
  rcases i with (_ | _ | _ | _ | _ | _) | _ | _ | _ <;> simp [encodeInstr]

/-- A sequence of instructions is read back as it was written. -/
lemma decodeInstrs_encode (instrs : List Instr) {fuel : ℕ}
    (h : instrs.length ≤ fuel) : decodeInstrs fuel (instrs.flatMap encodeInstr) = some instrs := by
  induction instrs generalizing fuel with
  | nil => simp [decodeInstrs]
  | cons i instrs ih =>
    obtain ⟨n, rfl⟩ : ∃ n, fuel = n + 1 := ⟨fuel - 1, by simp only [List.length_cons] at h; omega⟩
    obtain ⟨b, bs, hb⟩ := List.exists_cons_of_ne_nil (encodeInstr_ne_nil i)
    have hhead := decodeInstr_encode i (instrs.flatMap encodeInstr)
    rw [hb, List.cons_append] at hhead
    rw [List.flatMap_cons, hb, List.cons_append, decodeInstrs, hhead, Option.bind_some,
      ih (by simp only [List.length_cons] at h; omega), Option.map_some]

lemma length_le_length_flatMap (instrs : List Instr) :
    instrs.length ≤ (instrs.flatMap encodeInstr).length := by
  induction instrs with
  | nil => simp
  | cons i instrs ih =>
    have hpos : 0 < (encodeInstr i).length := List.length_pos_iff.mpr (encodeInstr_ne_nil i)
    rw [List.flatMap_cons, List.length_append, List.length_cons]
    omega

/-- The content of a body decodes to the instructions written into it. -/
theorem decodeBody_encode (instrs : List Instr) :
    decodeBody (encodeU 0 ++ instrs.flatMap encodeInstr) = some instrs := by
  rw [decodeBody, decodeU_encodeU (by decide), Option.bind_some, if_pos rfl]
  exact decodeInstrs_encode instrs (length_le_length_flatMap instrs)

/-- The content is a structurally valid function body. -/
def ValidBody (content : List UInt8) : Prop :=
  ∃ instrs, decodeBody content = some instrs ∧ IsBody instrs

lemma validBody_encode_iff (instrs : List Instr) :
    ValidBody (encodeU 0 ++ instrs.flatMap encodeInstr) ↔ IsBody instrs := by
  rw [ValidBody, decodeBody_encode]
  simp

end UosioCdt.Dispatch
