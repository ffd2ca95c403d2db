import UosioCdt.Core.Serialize

/-!
# Serialization round trips

`Reads r bs x`: in front of any further bytes the reader takes exactly `bs` and gives `x`. Each
operator of the source is read back by its counterpart, so every packed value is unpacked.
-/

namespace UosioCdt.Core

open LittleEndian

/-- The reader takes the bytes off every stream that begins with them, and gives the value. -/
def Reads {α : Type} (r : Reader α) (bs : List UInt8) (x : α) : Prop :=
  ∀ rest, r (bs ++ rest) = some (x, rest)

section reads

variable {α β : Type}

lemma Reads.pure (x : α) : Reads (pure x : Reader α) [] x := fun _ => rfl

/-- One reader behind another. -/
lemma Reads.bind {r : Reader α} {f : α → Reader β} {bs cs : List UInt8} {x : α} {y : β}
    (hr : Reads r bs x) (hf : Reads (f x) cs y) : Reads (r >>= f) (bs ++ cs) y := by
  intro rest
  change (r (bs ++ cs ++ rest)).bind _ = _
  rw [List.append_assoc, hr (cs ++ rest)]
  exact hf rest

/-- A reader whose value is only converted. -/
lemma Reads.map {r : Reader α} {bs : List UInt8} {x : α} (hr : Reads r bs x) (f : α → β) :
    Reads (r >>= fun x => Pure.pure (f x)) bs (f x) := by
  have h : Reads (r >>= fun x => Pure.pure (f x)) (bs ++ []) (f x) := hr.bind (.pure (f x))
  rwa [List.append_nil] at h

/-! ## The parts of the format -/

lemma reads_readBytes {bs : List UInt8} {n : ℕ} (h : bs.length = n) : Reads (readBytes n) bs bs := by
  intro rest
  subst h
  simp [readBytes]

lemma flatten_singletons (bs : List UInt8) : (bs.map fun b => [b]).flatten = bs := by
  induction bs with
  | nil => rfl
  | cons b bs ih => rw [List.map_cons, List.flatten_cons, ih, List.singleton_append]

lemma reads_readSize {n : ℕ} (h : n < 2 ^ 32) : Reads readSize (sizeWrites n).flatten n := by
  have hn : (UInt32.ofNat n).toNat = n := UInt32.toNat_ofNat_of_lt' h
  rw [sizeWrites, flatten_singletons]
  have hmap := Reads.map (Varint.readUnsigned_writeUnsigned (UInt32.ofNat n)) UInt32.toNat
  rwa [hn] at hmap

lemma reads_readWord (raw : BitVec 64) : Reads readWord (wordWrites raw).flatten raw := by
  have hmap := Reads.map (reads_readBytes (length_toBytes 8 raw.toNat))
    fun bs => BitVec.ofNat 64 (ofBytes bs)
  have hlt : raw.toNat < 256 ^ 8 := raw.isLt
  have hback : BitVec.ofNat 64 (ofBytes (toBytes 8 raw.toNat)) = raw := by
    rw [ofBytes_toBytes, Nat.mod_eq_of_lt hlt, BitVec.ofNat_toNat, BitVec.setWidth_eq]
  rw [hback] at hmap
  rw [wordWrites, List.flatten_cons, List.flatten_nil, List.append_nil]
  exact hmap

lemma Prim.length_bytes (p : Prim) (v : p.Val) : (p.bytes v).length = p.size := by
  cases p with
  | int n => exact length_toBytes n _
  | bool => rfl

lemma Prim.ofBytes_bytes (p : Prim) (v : p.Val) : p.ofBytes (p.bytes v) = v := by
  cases p with
  | int n =>
    have hint (w : BitVec (8 * n)) :
        BitVec.ofNat (8 * n) (LittleEndian.ofBytes (toBytes n w.toNat)) = w := by
      have hlt : w.toNat < 256 ^ n := by
        have h : w.toNat < 2 ^ (8 * n) := w.isLt
        rwa [Nat.pow_mul] at h
      rw [LittleEndian.ofBytes_toBytes, Nat.mod_eq_of_lt hlt, BitVec.ofNat_toNat,
        BitVec.setWidth_eq]
    exact hint v
  | bool => cases v <;> rfl

lemma Prim.reads_read (p : Prim) (v : p.Val) : Reads p.read (p.bytes v) v := by
  have hmap := Reads.map (reads_readBytes (p.length_bytes v)) p.ofBytes
  rwa [p.ofBytes_bytes] at hmap

/-! ## Loops -/

/-- Fresh elements of a container are read one after another. -/
lemma reads_readEach {read : α → Reader α} {dflt : α} {serialize : α → List UInt8} {l : List α}
    (h : ∀ x ∈ l, Reads (read dflt) (serialize x) x) :
    Reads (readEach read (List.replicate l.length dflt)) (l.flatMap serialize) l := by
  induction l with
  | nil => exact .pure _
  | cons x xs ih =>
    have hxs := ih fun y hy => h y (List.mem_cons_of_mem _ hy)
    exact (h x List.mem_cons_self).bind (hxs.map (x :: ·))

lemma reads_readArray {read : α → Reader α} {dflt : α} {serialize : α → List UInt8} {n : ℕ}
    {v : Fin n → α} (h : ∀ i, Reads (read dflt) (serialize (v i)) (v i)) :
    Reads (readArray read n fun _ => dflt) ((List.ofFn v).flatMap serialize) v := by
  induction n with
  | zero =>
    have hv : v = fun _ => dflt := funext fun i => i.elim0
    subst hv
    exact .pure _
  | succ n ih =>
    have hxs := (ih (v := Fin.tail v) fun i => h i.succ).map fun xs =>
      (Fin.cons (v 0) xs : Fin (n + 1) → α)
    have hcons : (Fin.cons (v 0) (Fin.tail v) : Fin (n + 1) → α) = v := Fin.cons_self_tail v
    rw [hcons] at hxs
    rw [List.ofFn_succ]
    exact (h 0).bind hxs

/-- A new greatest element goes to the end. -/
lemma emplace_append {lt : α → α → Bool} {s : List α} {x : α} (h : ∀ y ∈ s, lt y x = true) :
    emplace lt x s = s ++ [x] := by
  induction s with
  | nil => rfl
  | cons y s ih =>
    rw [emplace, if_pos (h y List.mem_cons_self), ih fun z hz => h z (List.mem_cons_of_mem _ hz)]
    rfl

/-- The elements of a set or map are read in their order. -/
lemma reads_readEmplace {lt : α → α → Bool} {read : Reader α} {serialize : α → List UInt8}
    {l : List α} (h : ∀ x ∈ l, Reads read (serialize x) x) (hsorted : l.Pairwise (lt · · = true))
    (s : List α) (hs : ∀ y ∈ s, ∀ x ∈ l, lt y x = true) :
    Reads (readEmplace lt read l.length s) (l.flatMap serialize) (s ++ l) := by
  induction l generalizing s with
  | nil =>
    rw [List.append_nil]
    exact .pure s
  | cons x xs ih =>
    obtain ⟨hhead, htail⟩ := List.pairwise_cons.mp hsorted
    have hlast : emplace lt x s = s ++ [x] := emplace_append fun y hy => hs y hy x List.mem_cons_self
    have hrest := ih (fun y hy => h y (List.mem_cons_of_mem _ hy)) htail (emplace lt x s) (by
      intro y hy z hz
      rw [hlast, List.mem_append, List.mem_singleton] at hy
      rcases hy with hy | rfl
      · exact hs y hy z (List.mem_cons_of_mem _ hz)
      · exact hhead z hz)
    have hbind : Reads (readEmplace lt read (x :: xs).length s) (serialize x ++ xs.flatMap serialize)
        (emplace lt x s ++ xs) := (h x List.mem_cons_self).bind hrest
    rw [hlast, List.append_assoc] at hbind
    exact hbind

lemma reads_bind_type {r : UInt32 → Reader β} (type : UInt32) {bs : List UInt8} {y : β}
    (h : Reads (r type) bs y) :
    Reads (Varint.readUnsigned >>= r) (Varint.writeUnsigned type ++ bs) y :=
  Reads.bind (fun rest => Varint.readUnsigned_writeUnsigned type rest) h

lemma reads_checkThat {c : Bool} (hc : c = true) : Reads (checkThat c) [] () := fun rest => by
  simp [checkThat, hc]

lemma reads_check {c : Bool} {r : Reader α} {bs : List UInt8} {x : α} (hc : c = true)
    (h : Reads r bs x) : Reads (checkThat c >>= fun _ => r) bs x :=
  (reads_checkThat hc).bind h

end reads

/-! ## Values that a type can have -/

/-- What the C++ types promise of their values: fewer than 2^32 elements in a container, the keys of
a set or map in their order, and `fixed_bytes` built from bytes. There are no binary extensions. -/
def Ty.Proper (lt : KeyOrder) : (t : Ty) → t.Val → Prop
  | .string, (v : List UInt8) => v.length < 2 ^ 32
  | .bytes, (v : List UInt8) => v.length < 2 ^ 32
  | .seq _ t, (v : List t.Val) => v.length < 2 ^ 32 ∧ ∀ x ∈ v, t.Proper lt x
  | .set t, (v : List t.Val) =>
    v.length < 2 ^ 32 ∧ v.Pairwise (lt t · · = true) ∧ ∀ x ∈ v, t.Proper lt x
  | .map k v, (m : List (k.Val × v.Val)) =>
    m.length < 2 ^ 32 ∧ m.Pairwise (fun x y => lt k x.1 y.1 = true) ∧
      ∀ x ∈ m, k.Proper lt x.1 ∧ v.Proper lt x.2
  | .array t _, (v : Fin _ → t.Val) => ∀ i, t.Proper lt (v i)
  | .cArray t _, (v : Fin _ → t.Val) => ∀ i, t.Proper lt (v i)
  | .optional t, (v : Option t.Val) => ∀ x, v = some x → t.Proper lt x
  | .variant _ alts, (v : Σ i : Fin _, (alts i).Val) =>
    (v.1 : ℕ) < 2 ^ 31 ∧ (alts v.1).Proper lt v.2
  | .pair a b, (v : a.Val × b.Val) => a.Proper lt v.1 ∧ b.Proper lt v.2
  | .field a rest, (v : a.Val × rest.Val) => a.Proper lt v.1 ∧ rest.Proper lt v.2
  | .aggregate _ fields, v => fields.Proper lt v
  | .fixedBytes _, (v : FixedBytes _) => ∃ arr h, v = FixedBytes.ofByteArray arr h
  | .binaryExtension _, _ => False
  | _, _ => True

lemma Ty.flatten_flatMap_writes (t : Ty) (l : List t.Val) :
    (l.flatMap t.writes).flatten = l.flatMap t.serialize := by
  rw [List.flatMap_def, List.flatten_flatten, List.map_map, List.flatMap_def]
  rfl

lemma resize_nil {α : Type} (n : ℕ) (dflt : α) : resize n dflt [] = List.replicate n dflt := by
  simp [resize]

lemma resize_zero {α : Type} (dflt : α) (old : List α) : resize 0 dflt old = [] := by
  simp [resize]

/-! ## The round trip -/

lemma reads_asset (a : Asset) : Reads Asset.read a.writes.flatten a := by
  rw [Asset.writes, List.flatten_append]
  exact (reads_readWord a.amount).bind
    ((reads_readWord a.symbol.value.toBitVec).map fun raw => (⟨a.amount, ⟨⟨raw⟩⟩⟩ : Asset))

/-- The alternative with the written index is chosen. -/
lemma deserialize_ofNat {n : ℕ} {β : Fin n → Type} (read : (i : Fin n) → Reader (β i)) {i : Fin n}
    (hi : (i : ℕ) < 2 ^ 31) :
    deserialize read (UInt32.ofNat i) = (read i >>= fun x => pure (⟨i, x⟩ : Σ i, β i)) := by
  have hint : (UInt32.ofNat i).toBitVec.toInt = (i : ℕ) := by
    have hlt : (i : ℕ) < UInt32.size := hi.trans (by decide)
    have hnat : (UInt32.ofNat i).toBitVec.toNat = i := UInt32.toNat_ofNat_of_lt' hlt
    rw [BitVec.toInt_eq_toNat_cond, hnat]
    simp
    omega
  have hfind : (List.finRange n).find? (fun j : Fin n => decide (((j : ℕ) : ℤ)
      = (UInt32.ofNat i).toBitVec.toInt)) = some i := by
    rw [hint]
    have hsome : ((List.finRange n).find? fun j : Fin n =>
        decide (((j : ℕ) : ℤ) = (i : ℕ))).isSome := by
      rw [List.find?_isSome]
      exact ⟨i, List.mem_finRange i, by simp⟩
    obtain ⟨j, hj⟩ := Option.isSome_iff_exists.mp hsome
    have hji : j = i := by
      have heq := List.find?_some hj
      simpa [Fin.ext_iff] using heq
    rw [hj, hji]
  simp only [deserialize, hfind]

lemma reads_deserialize {n : ℕ} {β : Fin n → Type} {read : (i : Fin n) → Reader (β i)}
    {i : Fin n} (hi : (i : ℕ) < 2 ^ 31) {bs : List UInt8} {x : β i} (h : Reads (read i) bs x) :
    Reads (deserialize read (UInt32.ofNat i)) bs ⟨i, x⟩ := by
  rw [deserialize_ofNat read hi]
  exact h.map fun x => (⟨i, x⟩ : Σ i, β i)

section operators

variable {lt : KeyOrder} {t k : Ty}

/-- Every value `x` with the property is read back by its type. -/
def Ty.RoundTrips (lt : KeyOrder) (t : Ty) (x : t.Val) : Prop :=
  Reads (t.read lt t.default) (t.serialize x) x

lemma reads_prim {p : Prim} (v : p.Val) : Reads p.read [p.bytes v].flatten v := by
  rw [List.flatten_singleton]
  exact p.reads_read v

lemma reads_unsignedInt (v : UInt32) :
    Reads Varint.readUnsigned ((Varint.writeUnsigned v).map fun b => [b]).flatten v := by
  rw [flatten_singletons]
  exact Varint.readUnsigned_writeUnsigned v

lemma reads_signedInt (v : BitVec 32) :
    Reads Varint.readSigned ((Varint.writeSigned v).map fun b => [b]).flatten v := by
  rw [flatten_singletons]
  exact Varint.readSigned_writeSigned v

lemma reads_string (v : List UInt8) (h : v.length < 2 ^ 32) :
    Reads (readSize >>= readBytes)
      (sizeWrites v.length ++ if v.length ≠ 0 then [v] else []).flatten v := by
  have hbytes : (if v.length ≠ 0 then [v] else []).flatten = v := by
    split
    · simp
    · rename_i hzero
      rw [List.length_eq_zero_iff.mp (not_not.mp hzero)]
      rfl
  rw [List.flatten_append, hbytes]
  exact (reads_readSize h).bind (reads_readBytes rfl)

lemma reads_bytes (v : List UInt8) (h : v.length < 2 ^ 32) :
    Reads (readSize >>= readBytes) (sizeWrites v.length ++ [v]).flatten v := by
  rw [List.flatten_append, List.flatten_singleton]
  exact (reads_readSize h).bind (reads_readBytes rfl)

lemma reads_seq (v : List t.Val) (hlen : v.length < 2 ^ 32) (h : ∀ x ∈ v, t.RoundTrips lt x) :
    Reads (readSize >>= fun s => readEach (t.read lt) (resize s t.default []))
      (sizeWrites v.length ++ v.flatMap t.writes).flatten v := by
  rw [List.flatten_append, t.flatten_flatMap_writes]
  refine (reads_readSize hlen).bind ?_
  rw [resize_nil]
  exact reads_readEach h

lemma reads_set (v : List t.Val) (hlen : v.length < 2 ^ 32)
    (hsorted : v.Pairwise (lt t · · = true)) (h : ∀ x ∈ v, t.RoundTrips lt x) :
    Reads (readSize >>= fun s => readEmplace (lt t) (t.read lt t.default) s [])
      (sizeWrites v.length ++ v.flatMap t.writes).flatten v := by
  rw [List.flatten_append, t.flatten_flatMap_writes]
  exact (reads_readSize hlen).bind (reads_readEmplace h hsorted [] (by simp))

lemma reads_pair (v : k.Val × t.Val) (hk : k.RoundTrips lt v.1) (ht : t.RoundTrips lt v.2) :
    Reads (do
      let x ← k.read lt k.default
      let y ← t.read lt t.default
      return (x, y)) (k.writes v.1 ++ t.writes v.2).flatten v := by
  rw [List.flatten_append]
  exact Reads.bind hk (Reads.map ht (v.1, ·))

lemma reads_map (m : List (k.Val × t.Val)) (hlen : m.length < 2 ^ 32)
    (hsorted : m.Pairwise (fun x y => lt k x.1 y.1 = true))
    (h : ∀ x ∈ m, k.RoundTrips lt x.1 ∧ t.RoundTrips lt x.2) :
    Reads (readSize >>= fun s => readEmplace (fun x y => lt k x.1 y.1) (do
        let x ← k.read lt k.default
        let y ← t.read lt t.default
        return (x, y)) s [])
      (sizeWrites m.length ++ m.flatMap fun i => k.writes i.1 ++ t.writes i.2).flatten m := by
  have hflat : (m.flatMap fun i => k.writes i.1 ++ t.writes i.2).flatten
      = m.flatMap fun i => (k.writes i.1 ++ t.writes i.2).flatten := by
    rw [List.flatMap_def, List.flatten_flatten, List.map_map, List.flatMap_def]
    rfl
  rw [List.flatten_append, hflat]
  exact (reads_readSize hlen).bind (reads_readEmplace
    (fun x hx => reads_pair x (h x hx).1 (h x hx).2) hsorted [] (by simp))

lemma reads_array {n : ℕ} (v : Fin n → t.Val) (h : ∀ i, t.RoundTrips lt (v i)) :
    Reads (readArray (t.read lt) n fun _ => t.default) ((List.ofFn v).flatMap t.writes).flatten
      v := by
  rw [t.flatten_flatMap_writes]
  exact reads_readArray h

lemma reads_cArray {n : UInt32} (v : Fin n.toNat → t.Val) (h : ∀ i, t.RoundTrips lt (v i)) :
    Reads (readSize >>= fun s => checkThat (n.toNat = s) >>= fun _ =>
        readArray (t.read lt) n.toNat fun _ => t.default)
      (sizeWrites n.toNat ++ (List.ofFn v).flatMap t.writes).flatten v := by
  rw [List.flatten_append, t.flatten_flatMap_writes]
  exact (reads_readSize n.toNat_lt).bind (reads_check (by simp) (reads_readArray h))

/-- The bytes of one element of an array. -/
lemma take_drop_flatMap {α : Type} {bytes : α → List UInt8} {size : ℕ}
    (hsize : ∀ x, (bytes x).length = size) {n : ℕ} (v : Fin n → α) (i : Fin n) :
    (((List.ofFn v).flatMap bytes).drop (i * size)).take size = bytes (v i) := by
  induction n with
  | zero => exact i.elim0
  | succ n ih =>
    rw [List.ofFn_succ, List.flatMap_cons]
    refine Fin.cases ?_ (fun j => ?_) i
    · rw [Fin.val_zero, Nat.zero_mul, List.drop_zero, List.take_left' (hsize _)]
    · have hj := ih (fun j => v j.succ) j
      have hlen : (bytes (v 0)).length ≤ j.succ * size := by
        rw [hsize, Fin.val_succ]
        exact Nat.le_mul_of_pos_left _ (Nat.succ_pos _)
      have hdrop : (j.succ : ℕ) * size - (bytes (v 0)).length = j * size := by
        rw [hsize, Fin.val_succ, Nat.succ_mul, Nat.add_sub_cancel]
      rw [List.drop_append, List.drop_eq_nil_of_le hlen, List.nil_append, hdrop, hj]

lemma reads_cArrayPrim {p : Prim} {n : UInt32} (v : Fin n.toNat → p.Val) :
    Reads (readSize >>= fun s => checkThat (n.toNat = s) >>= fun _ => do
        let bs ← readBytes (n.toNat * p.size)
        return fun i : Fin n.toNat => p.ofBytes ((bs.drop (i * p.size)).take p.size))
      (sizeWrites n.toNat ++ [(List.ofFn v).flatMap p.bytes]).flatten v := by
  have hlen : ((List.ofFn v).flatMap p.bytes).length = n.toNat * p.size := by
    rw [List.length_flatMap]
    simp only [p.length_bytes, List.map_const', List.length_ofFn, List.sum_replicate_nat]
  have hmap := Reads.map (reads_readBytes hlen) fun bs (i : Fin n.toNat) =>
    p.ofBytes ((bs.drop (i * p.size)).take p.size)
  have hback : (fun i : Fin n.toNat => p.ofBytes
      ((((List.ofFn v).flatMap p.bytes).drop (i * p.size)).take p.size)) = v := by
    funext i
    rw [take_drop_flatMap p.length_bytes, p.ofBytes_bytes]
  rw [hback] at hmap
  rw [List.flatten_append, List.flatten_singleton]
  exact (reads_readSize n.toNat_lt).bind (reads_check (by simp) hmap)

lemma reads_optional (v : Option t.Val) (h : ∀ x, v = some x → t.RoundTrips lt x) :
    Reads (do
      let valid ← readBytes 1
      if valid = [0] then return none
      else do
        let x ← t.read lt t.default
        return some x)
      (match v with
        | some x => [1] :: t.writes x
        | none => [[0]]).flatten v := by
  cases v with
  | none => exact Reads.bind (reads_readBytes (show [(0 : UInt8)].length = 1 from rfl)) (.pure none)
  | some x =>
    have hread : Reads (do let x ← t.read lt t.default; return some x) (t.serialize x) (some x) :=
      Reads.map (h x rfl) some
    exact Reads.bind (reads_readBytes (show [1].length = 1 from rfl)) hread

lemma reads_variant {n : ℕ} {alts : Fin (n + 1) → Ty} (v : Σ i : Fin (n + 1), (alts i).Val)
    (hindex : (v.1 : ℕ) < 2 ^ 31) (h : (alts v.1).RoundTrips lt v.2) :
    Reads (Varint.readUnsigned >>= deserialize fun i => (alts i).read lt (alts i).default)
      (sizeWrites v.1 ++ (alts v.1).writes v.2).flatten v := by
  rw [List.flatten_append, sizeWrites, flatten_singletons]
  exact reads_bind_type (UInt32.ofNat v.1) (reads_deserialize hindex h)

lemma reads_extendedAsset (v : ExtendedAsset) :
    Reads (do
      let quantity ← Asset.read
      let raw ← readWord
      return (⟨quantity, ⟨⟨raw⟩⟩⟩ : ExtendedAsset))
      (v.quantity.writes ++ wordWrites v.contract.value.toBitVec).flatten v := by
  rw [List.flatten_append]
  exact (reads_asset v.quantity).bind ((reads_readWord v.contract.value.toBitVec).map
    fun raw => (⟨v.quantity, ⟨⟨raw⟩⟩⟩ : ExtendedAsset))

/-- `public_key` and `signature`: a type and some bytes. -/
lemma reads_key {α : Type} {n : ℕ} (type : UInt32) (data : Fin n → UInt8)
    (f : UInt32 → (Fin n → UInt8) → α) :
    Reads (do
      let type ← Varint.readUnsigned
      let bs ← readBytes n
      return f type (arrayOf n 0 bs))
      ((Varint.writeUnsigned type).map (fun b => [b]) ++ [List.ofFn data]).flatten
      (f type data) := by
  have harray : Reads (do let bs ← readBytes n; return f type (arrayOf n 0 bs))
      (List.ofFn data) (f type data) := by
    have hmap := Reads.map (reads_readBytes (List.length_ofFn (f := data)))
      fun bs => f type (arrayOf n 0 bs)
    have hback : arrayOf n 0 (List.ofFn data) = data := by
      funext i
      simp [arrayOf]
    rwa [hback] at hmap
  rw [List.flatten_append, flatten_singletons, List.flatten_singleton]
  exact reads_bind_type type harray

lemma reads_fixedBytes {size : ℕ} {arr : List UInt8} (h : arr.length = size) :
    Reads (fun bs => if h : bs.length ≥ size then
        some (FixedBytes.ofByteArray (bs.take size) (List.length_take_of_le h), bs.drop size)
      else none)
      [(FixedBytes.ofByteArray arr h).extractAsByteArray].flatten
      (FixedBytes.ofByteArray arr h) := by
  intro rest
  subst h
  rw [FixedBytes.extract_ofByteArray, List.flatten_singleton]
  simp

end operators

/-- Every type reads what it has written. -/
theorem Ty.roundTrips (lt : KeyOrder) (t : Ty) (v : t.Val) (h : t.Proper lt v) :
    t.RoundTrips lt v := by
  induction t with
  | prim p => exact reads_prim v
  | unsignedInt => exact reads_unsignedInt v
  | signedInt => exact reads_signedInt v
  | string => exact reads_string v h
  | bytes => exact reads_bytes v h
  | seq kind t ih => exact reads_seq v h.1 fun x hx => ih x (h.2 x hx)
  | set t ih => exact reads_set v h.1 h.2.1 fun x hx => ih x (h.2.2 x hx)
  | map k t ihk iht =>
    exact reads_map v h.1 h.2.1 fun x hx => ⟨ihk x.1 (h.2.2 x hx).1, iht x.2 (h.2.2 x hx).2⟩
  | array t n ih => exact reads_array v fun i => ih _ (h i)
  | cArray t n ih => exact reads_cArray v fun i => ih _ (h i)
  | cArrayPrim p n => exact reads_cArrayPrim v
  | optional t ih => exact reads_optional v fun x hx => ih x (h x hx)
  | variant n alts ih => exact reads_variant v h.1 (ih v.1 v.2 h.2)
  | pair a b iha ihb => exact reads_pair v (iha v.1 h.1) (ihb v.2 h.2)
  | empty => exact .pure ()
  | field a rest iha ihr => exact reads_pair v (iha v.1 h.1) (ihr v.2 h.2)
  | aggregate id fields ih => exact ih v h
  | name => exact (reads_readWord _).map fun raw => (⟨⟨raw⟩⟩ : Name)
  | symbolCode => exact (reads_readWord _).map fun raw => (⟨⟨raw⟩⟩ : SymbolCode)
  | symbol => exact (reads_readWord _).map fun raw => (⟨⟨raw⟩⟩ : Symbol)
  | asset => exact reads_asset v
  | extendedAsset => exact reads_extendedAsset v
  | publicKey => exact reads_key v.type v.data PublicKey.mk
  | signature => exact reads_key v.type v.data Signature.mk
  | fixedBytes size =>
    obtain ⟨arr, hlen, rfl⟩ := h
    exact reads_fixedBytes hlen
  | binaryExtension t ih => exact h.elim

/-! ## Packing -/

/-- The size pass counts the bytes. -/
lemma toNat_packSize {ws : List (List UInt8)} (h : ws.flatten.length < 2 ^ 31) :
    (packSize ws).toNat = ws.flatten.length := by
  have hfold : ∀ size : UInt32, size.toNat + ws.flatten.length < 2 ^ 31 →
      (ws.foldl (fun size w => size + UInt32.ofNat w.length) size).toNat
        = size.toNat + ws.flatten.length := by
    clear h
    induction ws with
    | nil => simp
    | cons w ws ih =>
      intro size hsize
      rw [List.flatten_cons, List.length_append] at hsize
      have hstep : (size + UInt32.ofNat w.length).toNat = size.toNat + w.length := by
        rw [UInt32.toNat_add, UInt32.toNat_ofNat']
        omega
      rw [List.foldl_cons, ih _ (by rw [hstep]; omega), hstep, List.flatten_cons,
        List.length_append, Nat.add_assoc]
  have hzero := hfold 0 (by simpa using h)
  rwa [UInt32.toNat_zero, Nat.zero_add] at hzero

/-- The write pass fills the space that is left. -/
lemma packInto_eq {cap : UInt32} (hcap : cap.toNat < 2 ^ 31) (ws : List (List UInt8))
    (written : List UInt8) (h : written.length + ws.flatten.length = cap.toNat) :
    packInto cap ws written = some (written ++ ws.flatten) := by
  induction ws generalizing written with
  | nil => simp [packInto]
  | cons w ws ih =>
    rw [List.flatten_cons, List.length_append] at h
    have hleft : (cap - UInt32.ofNat written.length).toNat = cap.toNat - written.length := by
      rw [UInt32.toNat_sub, UInt32.toNat_ofNat']
      omega
    have hw : (UInt32.ofNat w.length).toNat = w.length := by
      rw [UInt32.toNat_ofNat']
      omega
    have hcheck : (UInt32.ofNat w.length).toBitVec.sle
        (cap - UInt32.ofNat written.length).toBitVec = true := by
      rw [BitVec.sle_iff_toInt_le, BitVec.toInt_eq_toNat_cond, BitVec.toInt_eq_toNat_cond,
        UInt32.toNat_toBitVec, UInt32.toNat_toBitVec, hw, hleft]
      split <;> split <;> omega
    rw [packInto, if_pos hcheck, ih (written ++ w) (by rw [List.length_append]; omega),
      List.flatten_cons, List.append_assoc]

/-- A value of less than 2^31 bytes is packed into them. -/
lemma Ty.pack_eq {t : Ty} {v : t.Val} (h : (t.serialize v).length < 2 ^ 31) :
    t.pack v = some (t.serialize v) := by
  have hsize : (packSize (t.writes v)).toNat = (t.serialize v).length := toNat_packSize h
  have hinto := packInto_eq (hsize ▸ h) (t.writes v) [] (by rw [hsize, List.length_nil]; simp [serialize])
  rw [List.nil_append] at hinto
  rw [pack, hinto]
  simp [serialize, hsize]

/-- Unpacking the packed bytes of a value, with any bytes behind them, gives the value and leaves
those. -/
theorem Ty.read_pack (lt : KeyOrder) (t : Ty) (v : t.Val) (h : t.Proper lt v)
    (hsize : (t.serialize v).length < 2 ^ 31) (rest : List UInt8) :
    ∃ bytes, t.pack v = some bytes ∧ t.read lt t.default (bytes ++ rest) = some (v, rest) :=
  ⟨t.serialize v, pack_eq hsize, t.roundTrips lt v h rest⟩

/-- The order of unsigned integers. -/
def unsignedOrder : KeyOrder
  | .prim (.int _), x, y => BitVec.ult x y
  | _, _, _ => false

/-- Sets of bytes in a vector of optionals. -/
def nestedTy : Ty := .seq .vector (.optional (.set (.prim (.int 1))))

/-- The set of 1 and 7, and nothing. -/
def nestedVal : nestedTy.Val :=
  ([some ([1#8, 7#8] : List (BitVec 8)), none] : List (Option (List (BitVec 8))))

lemma proper_nestedVal : nestedTy.Proper unsignedOrder nestedVal := by
  have hset : (Ty.set (.prim (.int 1))).Proper unsignedOrder ([1#8, 7#8] : List (BitVec 8)) := by
    refine ⟨by decide, ?_, fun _ _ => trivial⟩
    exact List.pairwise_pair.mpr rfl
  refine ⟨by decide, fun (x : Option (List (BitVec 8))) hx s hs => ?_⟩
  have hmem : x ∈ [some [1#8, 7#8], none] := hx
  rw [List.mem_cons, List.mem_singleton] at hmem
  rcases hmem with rfl | rfl
  · obtain rfl := Option.some.inj hs
    exact hset
  · cases hs

theorem Ty.read_pack_nested :
    ∃ bytes, nestedTy.pack nestedVal = some bytes ∧
      nestedTy.read unsignedOrder nestedTy.default (bytes ++ [9]) = some (nestedVal, [9]) :=
  Ty.read_pack unsignedOrder nestedTy nestedVal proper_nestedVal (by decide) [9]

end UosioCdt.Core
