import UosioCdt.Object.Metadata

/-!
# Theorems: link metadata survives the object file

What the writer puts into the custom sections is what the reader finds in them, for a module with
at most one ABI.
-/

namespace UosioCdt.Object

open Framing Leb128

/-! ## Numbers -/

lemma decodeULEB128_cons {value shift : ℕ} {b : UInt8} {rest : Bytes} (hshift : shift < 64)
    (hfit : value + b.toNat % 128 * 2 ^ shift < 2 ^ 64) :
    decodeULEB128 value shift (b :: rest) =
      if 128 ≤ b.toNat then decodeULEB128 (value + b.toNat % 128 * 2 ^ shift) (shift + 7) rest
      else .ok (value + b.toNat % 128 * 2 ^ shift, rest) := by
  have hslice : b.toNat % 128 * 2 ^ shift % 2 ^ 64 / 2 ^ shift = b.toNat % 128 := by
    rw [Nat.mod_eq_of_lt (by omega), Nat.mul_div_cancel _ (Nat.two_pow_pos shift)]
  have hgo : ¬ (64 ≤ shift ∨
      b.toNat % 128 * 2 ^ shift % 2 ^ 64 / 2 ^ shift ≠ b.toNat % 128) := by
    rw [not_or, not_not]
    exact ⟨by omega, hslice⟩
  rw [decodeULEB128]
  simp only [if_neg hgo, Nat.mod_eq_of_lt hfit]

/-- The bytes that only fill up add nothing. -/
lemma decodeULEB128_pad {value shift k : ℕ} {rest : Bytes} (hvalue : value < 2 ^ 64)
    (hshift : shift + 7 * k < 64) :
    decodeULEB128 value shift (List.replicate k 0x80 ++ 0 :: rest) = .ok (value, rest) := by
  induction k generalizing shift with
  | zero =>
    have h0 : (0 : UInt8).toNat = 0 := rfl
    rw [List.replicate_zero, List.nil_append, decodeULEB128_cons (by omega) (by rw [h0]; omega),
      h0]
    simp
  | succ k ih =>
    have h128 : (0x80 : UInt8).toNat = 128 := rfl
    rw [List.replicate_succ, List.cons_append,
      decodeULEB128_cons (by omega) (by rw [h128]; omega), h128, if_pos (le_refl 128)]
    simp only [Nat.mod_self, Nat.zero_mul, Nat.add_zero]
    exact ih (by omega)

/-- The round trip of `LEB128.h`, in the middle of a number and in front of any bytes. -/
lemma decodeULEB128_encode {v padTo value shift : ℕ} (rest : Bytes)
    (hfit : value + v * 2 ^ shift < 2 ^ 64) (hshift : shift + 7 * (padTo - 1) < 64) :
    decodeULEB128 value shift (encodeULEB128 v padTo ++ rest) =
      .ok (value + v * 2 ^ shift, rest) := by
  induction v using Nat.strongRecOn generalizing padTo value shift with
  | ind v ih =>
    by_cases hv : v < 128
    · have hmod : v % 128 = v := Nat.mod_eq_of_lt hv
      rw [encodeULEB128, if_pos hv]
      by_cases hpad : 1 < padTo
      · have hb : (group true v).toNat % 128 = v := by
          rw [toNat_group_true hv]
          omega
        rw [if_pos hpad, List.cons_append, decodeULEB128_cons (by omega) (by rw [hb]; exact hfit),
          toNat_group_true hv, if_pos (by omega), Nat.add_mod_right, hmod, List.append_assoc]
        exact decodeULEB128_pad hfit (by omega)
      · have hb : (group false v).toNat % 128 = v := by
          rw [toNat_group_false hv, hmod]
        rw [if_neg hpad, List.cons_append, decodeULEB128_cons (by omega) (by rw [hb]; exact hfit),
          toNat_group_false hv, if_neg (by omega), hmod]
        rfl
    · have hlow : v % 128 < 128 := Nat.mod_lt _ (by decide)
      have hsplit : v * 2 ^ shift = v % 128 * 2 ^ shift + v / 128 * 2 ^ (shift + 7) := by
        have hpow : 2 ^ (shift + 7) = 128 * 2 ^ shift := by
          rw [Nat.pow_add, Nat.mul_comm]
        rw [hpow, ← Nat.mul_assoc, ← Nat.add_mul]
        congr 1
        omega
      have hb : (group true (v % 128)).toNat % 128 = v % 128 := by
        rw [toNat_group_true hlow]
        omega
      -- there is another group, so its place is below 64 bits
      have hnext : shift + 7 < 64 := by
        have hone : 1 * 2 ^ (shift + 7) ≤ v / 128 * 2 ^ (shift + 7) :=
          Nat.mul_le_mul_right _ (by omega)
        exact (Nat.pow_lt_pow_iff_right (by decide)).1 (show 2 ^ (shift + 7) < 2 ^ 64 by omega)
      rw [encodeULEB128, if_neg hv, List.cons_append,
        decodeULEB128_cons (by omega) (by rw [hb]; omega), hb, toNat_group_true hlow,
        if_pos (by omega), ih (v / 128) (by omega) (by omega) (by omega), hsplit, Nat.add_assoc]

lemma readULEB128_encode {v padTo : ℕ} (rest : Bytes) (hv : v < 2 ^ 64) (hpad : padTo ≤ 9) :
    readULEB128 (encodeULEB128 v padTo ++ rest) = .ok (v, rest) := by
  have h : decodeULEB128 0 0 (encodeULEB128 v padTo ++ rest) = .ok (0 + v * 2 ^ 0, rest) :=
    decodeULEB128_encode rest (by omega) (by omega)
  rw [readULEB128, h]
  simp

lemma encodeULEB128_ne_nil (v padTo : ℕ) : encodeULEB128 v padTo ≠ [] := by
  rw [encodeULEB128]
  split
  · split <;> simp
  · simp

lemma encodeULEB128_of_lt {v : ℕ} (h : v < 128) : encodeULEB128 v 0 = [group false v] := by
  rw [encodeULEB128, if_pos h, if_neg (by decide)]

/-! ## Strings -/

lemma readString_emitString {s : Bytes} (rest : Bytes) (hs : s.length < 2 ^ 32) :
    readString (emitString s ++ rest) = .ok (s, rest) := by
  have hlen : readULEB128 (encodeULEB128 s.length 0 ++ (s ++ rest)) = .ok (s.length, s ++ rest) :=
    readULEB128_encode _ (by omega) (by omega)
  unfold readString emitString
  rw [List.append_assoc, hlen]
  have hfit : ¬ (s ++ rest).length < s.length := by
    rw [List.length_append]
    omega
  show (do
    if (s ++ rest).length < s.length % 2 ^ 32 then throw "EOF while reading string"
    return ((s ++ rest).take (s.length % 2 ^ 32), (s ++ rest).drop (s.length % 2 ^ 32))) = _
  rw [Nat.mod_eq_of_lt hs, if_neg hfit]
  simp [pure, Except.pure]

/-- A list of strings is read back behind those that are there already. -/
lemma readNames_flatMap {strings names : List Bytes} (hs : ∀ s ∈ strings, s.length < 2 ^ 32) :
    readNames names (strings.flatMap emitString) = .ok (names ++ strings) := by
  unfold readNames
  rw [readAll_flatMap (fun names s => .ok (names ++ [s])) strings _ _ (le_refl _)]
  · clear hs
    induction strings generalizing names with
    | nil => simp [pure, Except.pure]
    | cons s strings ih =>
      rw [List.foldlM_cons]
      show strings.foldlM _ (names ++ [s]) = _
      rw [ih, List.append_assoc, List.singleton_append]
  · intro s _ h
    exact encodeULEB128_ne_nil _ _ (List.append_eq_nil_iff.1 h).1
  · intro s hmem names rest
    rw [readString_emitString rest (hs s hmem)]
    rfl

/-! ## Sections -/

/-- The payload of a custom section. -/
def payload (sec : Bytes × Bytes) : Bytes := writeString sec.1 ++ sec.2

/-- Its size is a word of 32 bits. -/
def Fits (sec : Bytes × Bytes) : Prop := (payload sec).length < 2 ^ 32

instance (sec : Bytes × Bytes) : Decidable (Fits sec) :=
  inferInstanceAs (Decidable ((payload sec).length < 2 ^ 32))

/-- A custom section in the file. -/
def putSection (sec : Bytes × Bytes) : Bytes :=
  0 :: encodeULEB128 (payload sec).length 5 ++ payload sec

lemma writeCustomSection_eq (sec : Bytes × Bytes) :
    writeCustomSection sec =
      if Fits sec then .ok (putSection sec)
      else .error "section size does not fit in a uint32_t" := by
  unfold writeCustomSection
  show (if (payload sec).length % 2 ^ 32 ≠ (payload sec).length then _ else _) = _
  by_cases hfit : Fits sec
  · rw [if_pos hfit, if_neg (not_not.2 (Nat.mod_eq_of_lt hfit))]
    rfl
  · rw [if_neg hfit]
    unfold Fits at hfit
    rw [if_pos (by omega)]

/-- Sections are written as they are, unless one is too large. -/
lemma writeCustomSections_eq (secs : List (Bytes × Bytes)) :
    writeCustomSections secs =
      if ∀ sec ∈ secs, Fits sec then .ok (secs.flatMap putSection)
      else .error "section size does not fit in a uint32_t" := by
  induction secs with
  | nil => rfl
  | cons sec secs ih =>
    rw [writeCustomSections, writeCustomSection_eq, ih]
    simp only [List.forall_mem_cons]
    by_cases hfit : Fits sec
    · by_cases hall : ∀ sec ∈ secs, Fits sec
      · rw [if_pos hfit, if_pos hall, if_pos ⟨hfit, hall⟩]
        rfl
      · have hnot : ¬ (Fits sec ∧ ∀ sec ∈ secs, Fits sec) := fun h => hall h.2
        rw [if_pos hfit, if_neg hall, if_neg hnot]
        rfl
    · have hnot : ¬ (Fits sec ∧ ∀ sec ∈ secs, Fits sec) := fun h => hfit h.1
      rw [if_neg hfit, if_neg hnot]
      rfl

/-- The reader finds the name and the contents of a section that was written. -/
lemma readSection_put {sec : Bytes × Bytes} (rest : Bytes) (hfit : Fits sec) :
    readSection (putSection sec ++ rest) = .ok (⟨0, sec.1, sec.2⟩, rest) := by
  unfold Fits at hfit
  have hname : sec.1.length < 2 ^ 32 := by
    unfold payload writeString at hfit
    simp only [List.length_append] at hfit
    omega
  have hpos : (payload sec).length ≠ 0 := by
    intro h
    exact encodeULEB128_ne_nil _ _ (List.append_eq_nil_iff.1
      (List.append_eq_nil_iff.1 (List.length_eq_zero_iff.1 h)).1).1
  have hsize : readVaruint32 (encodeULEB128 (payload sec).length 5 ++ (payload sec ++ rest)) =
      .ok ((payload sec).length, payload sec ++ rest) := by
    unfold readVaruint32
    rw [readULEB128_encode _ (by omega) (by omega)]
    show (do
      if 2 ^ 32 ≤ (payload sec).length then throw "LEB is outside Varuint32 range"
      return ((payload sec).length, payload sec ++ rest)) = _
    rw [if_neg (by omega)]
    rfl
  have hstring : readString (payload sec ++ rest) = .ok (sec.1, sec.2 ++ rest) := by
    unfold payload
    rw [List.append_assoc]
    exact readString_emitString _ hname
  -- the contents are what the size leaves behind the name
  have hrest : ((payload sec).length + 2 ^ 32 -
      ((payload sec ++ rest).length - (sec.2 ++ rest).length)) % 2 ^ 32 = sec.2.length := by
    unfold payload at hfit ⊢
    simp only [List.length_append] at hfit ⊢
    omega
  have hroom : ¬ (payload sec ++ rest).length < (payload sec).length := by
    rw [List.length_append]
    omega
  unfold putSection
  rw [List.cons_append, List.cons_append, List.append_assoc]
  unfold readSection
  simp only [hsize, hstring, hrest, bind, Except.bind, pure, Except.pure, if_neg hpos,
    if_neg hroom, if_true, List.take_left', List.drop_left']

/-- The sections of an object file are parsed one after another. -/
lemma readSections_put (others : OtherSections) {secs : List (Bytes × Bytes)}
    (hfit : ∀ sec ∈ secs, Fits sec) :
    readSections others (secs.flatMap putSection) =
      secs.foldlM (fun obj sec => parseSection others obj ⟨0, sec.1, sec.2⟩)
        ⟨[], [], [], []⟩ := by
  unfold readSections
  apply readAll_flatMap
  · intro sec _ h
    cases h
  · intro sec hmem obj rest
    rw [readSection_put rest (hfit sec hmem)]
    show (do return (← parseSection others obj ⟨0, sec.1, sec.2⟩, rest)) = _
    cases parseSection others obj ⟨0, sec.1, sec.2⟩ <;> rfl
  · exact le_refl _

/-! ## Attributes -/

variable (others : OtherSections) {obj : WasmObjectFile} {M : List Function}

/-- The strings of a section for an attribute. -/
def stringsOf (M : List Function) (attr : Function → Option Bytes) (value : Function → Bytes) :
    List Bytes := (M.filter fun F => (attr F).isSome).map value

lemma flatMap_emitString (attr : Function → Option Bytes) (value : Function → Bytes) :
    (M.flatMap fun F => if (attr F).isSome then emitString (value F) else []) =
      (stringsOf M attr value).flatMap emitString := by
  unfold stringsOf
  induction M with
  | nil => rfl
  | cons F M ih =>
    rw [List.flatMap_cons, ih]
    cases hattr : (attr F).isSome <;> simp [hattr]

/-- The values of an attribute that the functions carry. -/
lemma stringsOf_getD (attr : Function → Option Bytes) :
    stringsOf M attr (fun F => (attr F).getD []) = M.filterMap attr := by
  unfold stringsOf
  induction M with
  | nil => rfl
  | cons F M ih =>
    cases hattr : attr F with
    | none => simp [hattr, ih]
    | some s => simp [hattr, ih]

lemma stringsOf_eq_nil {attr : Function → Option Bytes} {value : Function → Bytes} :
    stringsOf M attr value = [] ↔ (M.any fun F => (attr F).isSome) = false := by
  unfold stringsOf
  rw [List.map_eq_nil_iff, List.filter_eq_nil_iff, List.any_eq_false]

/-- A section for an attribute is parsed when it was emitted, and its strings are not too long. -/
lemma foldlM_emitSection {name : String} {attr : Function → Option Bytes}
    {value : Function → Bytes} {f : WasmObjectFile → List Bytes → Except String WasmObjectFile}
    (hfit : ∀ sec ∈ emitSection M name attr value, Fits sec) (hnone : f obj [] = .ok obj)
    (hparse : ∀ strings, strings ≠ [] → (∀ s ∈ strings, s.length < 2 ^ 32) →
      parseSection others obj ⟨0, bytes name, strings.flatMap emitString⟩ = f obj strings) :
    (emitSection M name attr value).foldlM
      (fun obj sec => parseSection others obj ⟨0, sec.1, sec.2⟩) obj =
      f obj (stringsOf M attr value) := by
  unfold emitSection at hfit ⊢
  cases hany : M.any fun F => (attr F).isSome with
  | false =>
    rw [if_neg (by simp), stringsOf_eq_nil.2 hany, hnone]
    rfl
  | true =>
    rw [hany, if_pos rfl, flatMap_emitString] at hfit
    rw [if_pos rfl, flatMap_emitString, List.foldlM_cons]
    have hne : stringsOf M attr value ≠ [] := by
      intro h
      rw [stringsOf_eq_nil.1 h] at hany
      cases hany
    -- no string is longer than the section it is in
    have hlen : ∀ s ∈ stringsOf M attr value, s.length < 2 ^ 32 := by
      intro s hs
      have hsec := hfit _ List.mem_cons_self
      have hle := (List.sublist_flatten_of_mem (List.mem_map_of_mem (f := emitString) hs)).length_le
      rw [← List.flatMap_def] at hle
      have hstring : (emitString s).length = (encodeULEB128 s.length 0).length + s.length :=
        List.length_append
      unfold Fits payload at hsec
      simp only [List.length_append] at hsec
      omega
    rw [hparse _ hne hlen]
    cases f obj (stringsOf M attr value) <;> rfl

lemma parseAllowedSection_strings {strings : List Bytes} (hlen : ∀ s ∈ strings, s.length < 2 ^ 32) :
    obj.parseAllowedSection (strings.flatMap emitString) =
      .ok { obj with allowedImports := obj.allowedImports ++ strings } := by
  unfold WasmObjectFile.parseAllowedSection
  rw [readNames_flatMap hlen]
  rfl

lemma parseActionsSection_strings {strings : List Bytes} (hlen : ∀ s ∈ strings, s.length < 2 ^ 32) :
    obj.parseActionsSection (strings.flatMap emitString) =
      .ok { obj with actions := obj.actions ++ strings } := by
  unfold WasmObjectFile.parseActionsSection
  rw [readNames_flatMap hlen]
  rfl

lemma parseNotifySection_strings {strings : List Bytes} (hlen : ∀ s ∈ strings, s.length < 2 ^ 32) :
    obj.parseNotifySection (strings.flatMap emitString) =
      .ok { obj with notify := obj.notify ++ strings } := by
  unfold WasmObjectFile.parseNotifySection
  rw [readNames_flatMap hlen]
  rfl

/-- What becomes of the strings of the section for the ABI: it has room for one. -/
def withAbi (obj : WasmObjectFile) : List Bytes → Except String WasmObjectFile
  | [] => .ok obj
  | [abi] => .ok { obj with uosioAbi := abi }
  | _ :: _ :: _ => .error "uosio abi section ended prematurely"

lemma parseUosioABISection_strings {strings : List Bytes} (hne : strings ≠ [])
    (hlen : ∀ s ∈ strings, s.length < 2 ^ 32) :
    obj.parseUosioABISection (strings.flatMap emitString) = withAbi obj strings := by
  cases strings with
  | nil => exact absurd rfl hne
  | cons abi rest =>
    unfold WasmObjectFile.parseUosioABISection
    rw [List.flatMap_cons, readString_emitString _ (hlen abi List.mem_cons_self)]
    cases rest with
    | nil => rfl
    | cons abi' rest =>
      -- bytes are left behind the first string
      have hmore : (abi' :: rest).flatMap emitString ≠ [] := by
        intro h
        rw [List.flatMap_cons] at h
        exact encodeULEB128_ne_nil _ _
          (List.append_eq_nil_iff.1 (List.append_eq_nil_iff.1 h).1).1
      show (do
        if (abi' :: rest).flatMap emitString ≠ [] then throw "uosio abi section ended prematurely"
        return { obj with uosioAbi := abi }) = _
      rw [if_pos hmore]
      rfl

lemma withAbi_keeps {strings : List Bytes} {obj' : WasmObjectFile}
    (h : withAbi obj strings = .ok obj') :
    obj'.allowedImports = obj.allowedImports ∧ obj'.actions = obj.actions ∧
      obj'.notify = obj.notify := by
  match strings with
  | [] =>
    cases h
    exact ⟨rfl, rfl, rfl⟩
  | [abi] =>
    cases h
    exact ⟨rfl, rfl, rfl⟩

/-- Reading the sections one after another. -/
def parseSections (secs : List (Bytes × Bytes)) (obj : WasmObjectFile) :
    Except String WasmObjectFile :=
  secs.foldlM (fun obj sec => parseSection others obj ⟨0, sec.1, sec.2⟩) obj

lemma parseSections_append (secs secs' : List (Bytes × Bytes)) (obj : WasmObjectFile) :
    parseSections others (secs ++ secs') obj =
      (parseSections others secs obj).bind (parseSections others secs') :=
  List.foldlM_append

/-- The sections of a module, read one after another. -/
lemma parseSections_emitEndOfAsmFile (hfit : ∀ sec ∈ emitEndOfAsmFile M, Fits sec) :
    parseSections others (emitEndOfAsmFile M) ⟨[], [], [], []⟩ =
      (withAbi ⟨stringsOf M Function.wasmImport Function.name, [], [], []⟩
        (M.filterMap Function.wasmAbi)).map fun obj =>
          { obj with
            actions := M.filterMap Function.wasmAction
            notify := M.filterMap Function.wasmNotify } := by
  unfold emitEndOfAsmFile at hfit ⊢
  simp only [List.forall_mem_append] at hfit
  obtain ⟨⟨⟨himports, habi⟩, hactions⟩, hnotify⟩ := hfit
  have hImports : parseSections others
      (emitSection M ".imports" Function.wasmImport Function.name) ⟨[], [], [], []⟩ =
        .ok ⟨stringsOf M Function.wasmImport Function.name, [], [], []⟩ := by
    apply foldlM_emitSection others
      (f := fun obj strings => .ok { obj with allowedImports := obj.allowedImports ++ strings })
      himports rfl
    intro strings _ hlen
    exact parseAllowedSection_strings hlen
  have hAbi (obj : WasmObjectFile) : parseSections others
      (emitSection M ".uosio_abi" Function.wasmAbi (fun F => F.wasmAbi.getD [])) obj =
        withAbi obj (M.filterMap Function.wasmAbi) := by
    rw [← stringsOf_getD]
    apply foldlM_emitSection others habi rfl
    intro strings hne hlen
    exact parseUosioABISection_strings hne hlen
  have hActions (obj : WasmObjectFile) : parseSections others
      (emitSection M ".uosio_actions" Function.wasmAction (fun F => F.wasmAction.getD [])) obj =
        .ok { obj with actions := obj.actions ++ M.filterMap Function.wasmAction } := by
    rw [← stringsOf_getD]
    apply foldlM_emitSection others
      (f := fun obj strings => .ok { obj with actions := obj.actions ++ strings }) hactions
    · rw [List.append_nil]
    · intro strings _ hlen
      exact parseActionsSection_strings hlen
  have hNotify (obj : WasmObjectFile) : parseSections others
      (emitSection M ".uosio_notify" Function.wasmNotify (fun F => F.wasmNotify.getD [])) obj =
        .ok { obj with notify := obj.notify ++ M.filterMap Function.wasmNotify } := by
    rw [← stringsOf_getD]
    apply foldlM_emitSection others
      (f := fun obj strings => .ok { obj with notify := obj.notify ++ strings }) hnotify
    · rw [List.append_nil]
    · intro strings _ hlen
      exact parseNotifySection_strings hlen
  -- only the section of the ABI can be rejected, and it leaves the lists alone
  rw [parseSections_append, parseSections_append, parseSections_append, hImports]
  show ((parseSections _ _ _).bind _).bind _ = _
  rw [hAbi]
  cases hwith : withAbi ⟨stringsOf M Function.wasmImport Function.name, [], [], []⟩
      (M.filterMap Function.wasmAbi) with
  | error e => rfl
  | ok obj =>
    obtain ⟨-, hacts, hnots⟩ := withAbi_keeps hwith
    show (parseSections _ _ _).bind _ = _
    rw [hActions]
    show parseSections _ _ _ = _
    rw [hNotify, hacts]
    show Except.ok { obj with
        actions := [] ++ M.filterMap Function.wasmAction
        notify := obj.notify ++ M.filterMap Function.wasmNotify } = _
    rw [hnots]
    rfl

/-- The metadata of a module comes back from the object file, as long as at most one function has
an ABI. The list of imports is that of the names of the functions. -/
theorem readSections_written (M : List Function)
    (hone : (M.filterMap Function.wasmAbi).length ≤ 1) :
    match writeCustomSections (emitEndOfAsmFile M) with
    | .ok file => readSections others file = .ok
        { allowedImports := (M.filter fun F => F.wasmImport.isSome).map Function.name
          uosioAbi := (M.filterMap Function.wasmAbi).headD []
          actions := M.filterMap Function.wasmAction
          notify := M.filterMap Function.wasmNotify }
    | .error e => e = "section size does not fit in a uint32_t" ∧
        ∃ sec ∈ emitEndOfAsmFile M, 2 ^ 32 ≤ (writeString sec.1 ++ sec.2).length := by
  rw [writeCustomSections_eq]
  by_cases hfit : ∀ sec ∈ emitEndOfAsmFile M, Fits sec
  · rw [if_pos hfit]
    show readSections others _ = _
    rw [readSections_put others hfit]
    have hparse := parseSections_emitEndOfAsmFile others hfit
    unfold parseSections at hparse
    rw [hparse]
    match M.filterMap Function.wasmAbi, hone with
    | [], _ => rfl
    | [abi], _ => rfl
  · rw [if_neg hfit]
    simp only [not_forall, exists_prop, Fits, not_lt] at hfit
    exact ⟨rfl, hfit⟩

/-- A module with an import, an action and an ABI. -/
theorem readSections_written_token :
    ∃ file, writeCustomSections (emitEndOfAsmFile
        [⟨bytes "prints", some (bytes "true"), none, none, none⟩,
          ⟨bytes "abi", none, some (bytes "types"), none, none⟩,
          ⟨bytes "transfer", none, none, some (bytes "transfer:_transfer"), none⟩]) = .ok file ∧
      readSections (fun _ => .ok ()) file = .ok
        { allowedImports := [bytes "prints"]
          uosioAbi := bytes "types"
          actions := [bytes "transfer:_transfer"]
          notify := [] } := by
  have hfit : ∀ sec ∈ emitEndOfAsmFile
      [⟨bytes "prints", some (bytes "true"), none, none, none⟩,
        ⟨bytes "abi", none, some (bytes "types"), none, none⟩,
        ⟨bytes "transfer", none, none, some (bytes "transfer:_transfer"), none⟩], Fits sec := by
    simp [emitEndOfAsmFile, emitSection, emitString, Fits, payload, writeString,
      encodeULEB128_of_lt, bytes]
  have h := readSections_written (fun _ => .ok ())
    [⟨bytes "prints", some (bytes "true"), none, none, none⟩,
      ⟨bytes "abi", none, some (bytes "types"), none, none⟩,
      ⟨bytes "transfer", none, none, some (bytes "transfer:_transfer"), none⟩] (by decide)
  rw [writeCustomSections_eq, if_pos hfit] at h ⊢
  exact ⟨_, rfl, h⟩

/-- Two functions with an ABI: the reader takes the first string for the whole section. -/
theorem readSections_two_abis (M : List Function)
    (htwo : 2 ≤ (M.filterMap Function.wasmAbi).length)
    (hfit : ∀ sec ∈ emitEndOfAsmFile M, Fits sec) :
    readSections others ((emitEndOfAsmFile M).flatMap putSection) =
      .error "uosio abi section ended prematurely" := by
  rw [readSections_put others hfit]
  have hparse := parseSections_emitEndOfAsmFile others hfit
  unfold parseSections at hparse
  rw [hparse]
  match M.filterMap Function.wasmAbi, htwo with
  | _ :: _ :: _, _ => rfl

/-- The list of imports is not that of the strings of the attribute, and two ABIs are rejected. -/
theorem exists_metadata_lost :
    (∃ (M : List Function) (file : Bytes) (obj : WasmObjectFile),
      writeCustomSections (emitEndOfAsmFile M) = .ok file ∧
        readSections (fun _ => .ok ()) file = .ok obj ∧
        obj.allowedImports ≠ M.filterMap Function.wasmImport) ∧
    ∃ (M : List Function) (file : Bytes) (e : String),
      writeCustomSections (emitEndOfAsmFile M) = .ok file ∧
        readSections (fun _ => .ok ()) file = .error e := by
  have himport : ∀ sec ∈ emitEndOfAsmFile
      [⟨bytes "prints", some (bytes "true"), none, none, none⟩], Fits sec := by
    simp [emitEndOfAsmFile, emitSection, emitString, Fits, payload, writeString,
      encodeULEB128_of_lt, bytes]
  have habis : ∀ sec ∈ emitEndOfAsmFile
      [⟨bytes "f", none, some (bytes "abi"), none, none⟩,
        ⟨bytes "g", none, some (bytes "abi"), none, none⟩], Fits sec := by
    simp [emitEndOfAsmFile, emitSection, emitString, Fits, payload, writeString,
      encodeULEB128_of_lt, bytes]
  constructor
  · refine ⟨[⟨bytes "prints", some (bytes "true"), none, none, none⟩],
      (emitEndOfAsmFile
        [⟨bytes "prints", some (bytes "true"), none, none, none⟩]).flatMap putSection,
      ⟨[bytes "prints"], [], [], []⟩, ?_, ?_, ?_⟩
    · rw [writeCustomSections_eq, if_pos himport]
    · rw [readSections_put _ himport]
      have hparse := parseSections_emitEndOfAsmFile (fun _ => .ok ()) himport
      unfold parseSections at hparse
      rw [hparse]
      rfl
    · decide
  · refine ⟨[⟨bytes "f", none, some (bytes "abi"), none, none⟩,
        ⟨bytes "g", none, some (bytes "abi"), none, none⟩],
      (emitEndOfAsmFile
        [⟨bytes "f", none, some (bytes "abi"), none, none⟩,
          ⟨bytes "g", none, some (bytes "abi"), none, none⟩]).flatMap putSection,
      "uosio abi section ended prematurely", ?_, ?_⟩
    · rw [writeCustomSections_eq, if_pos habis]
    · exact readSections_two_abis _ _ (by decide) habis

end UosioCdt.Object
