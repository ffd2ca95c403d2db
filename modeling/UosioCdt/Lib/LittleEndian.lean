import Mathlib.Data.List.Lex
import Mathlib.Tactic.Ring

/-!
# Fixed-width integers as bytes

`toBytes n v` is the little-endian writing of `v` in `n` bytes and `ofBytes` its reading; the
big-endian writing is its reverse, and `bigEndian` the reading of that.
-/

namespace LittleEndian

/-- The lowest `n` bytes of a number, lowest first. -/
def toBytes : ℕ → ℕ → List UInt8
  | 0, _ => []
  | n + 1, v => UInt8.ofNat v :: toBytes n (v / 256)

/-- The number with these bytes, lowest first. -/
def ofBytes : List UInt8 → ℕ
  | [] => 0
  | b :: bs => b.toNat + 256 * ofBytes bs

@[simp] lemma length_toBytes (n v : ℕ) : (toBytes n v).length = n := by
  induction n generalizing v with
  | zero => rfl
  | succ n ih => rw [toBytes, List.length_cons, ih]

/-- Reading back what was written. -/
theorem ofBytes_toBytes (n v : ℕ) : ofBytes (toBytes n v) = v % 256 ^ n := by
  induction n generalizing v with
  | zero => simp [toBytes, ofBytes, Nat.mod_one]
  | succ n ih =>
    have hsplit : v % 256 ^ (n + 1) = v % 256 + 256 * (v / 256 % 256 ^ n) := by
      rw [Nat.pow_succ, Nat.mul_comm (256 ^ n) 256, Nat.mod_mul]
    rw [toBytes, ofBytes, ih, UInt8.toNat_ofNat', hsplit]

/-- Writing back what was read. -/
theorem toBytes_ofBytes (bs : List UInt8) : toBytes bs.length (ofBytes bs) = bs := by
  induction bs with
  | nil => rfl
  | cons b bs ih =>
    have hb := b.toNat_lt
    have hlow : UInt8.ofNat (b.toNat + 256 * ofBytes bs) = b := by
      apply UInt8.toNat_inj.mp
      rw [UInt8.toNat_ofNat']
      omega
    have hhigh : (b.toNat + 256 * ofBytes bs) / 256 = ofBytes bs := by omega
    rw [List.length_cons, ofBytes, toBytes, hlow, hhigh, ih]

lemma ofBytes_lt (bs : List UInt8) : ofBytes bs < 256 ^ bs.length := by
  induction bs with
  | nil => simp [ofBytes]
  | cons b bs ih =>
    have hb := b.toNat_lt
    rw [ofBytes, List.length_cons, Nat.pow_succ]
    omega

lemma toBytes_add (m n v : ℕ) : toBytes (m + n) v = toBytes m v ++ toBytes n (v / 256 ^ m) := by
  induction m generalizing v with
  | zero => rw [Nat.zero_add, Nat.pow_zero, Nat.div_one, toBytes, List.nil_append]
  | succ m ih =>
    rw [Nat.succ_add, toBytes, ih, toBytes, List.cons_append, Nat.div_div_eq_div_mul,
      ← Nat.pow_succ']

lemma ofBytes_append (bs cs : List UInt8) :
    ofBytes (bs ++ cs) = ofBytes bs + 256 ^ bs.length * ofBytes cs := by
  induction bs with
  | nil => rw [List.nil_append, ofBytes, List.length_nil, Nat.pow_zero, Nat.one_mul, Nat.zero_add]
  | cons b bs ih =>
    rw [List.cons_append, ofBytes, ih, ofBytes, List.length_cons]
    ring

lemma ofBytes_replicate_zero (k : ℕ) : ofBytes (List.replicate k 0) = 0 := by
  induction k with
  | zero => rfl
  | succ k ih => rw [List.replicate_succ, ofBytes, ih, UInt8.toNat_zero]

/-- The bytes of a number are zero when the number is, as far as it is written. -/
lemma forall_mem_toBytes_iff (n v : ℕ) : (∀ x ∈ toBytes n v, x = 0) ↔ v % 256 ^ n = 0 := by
  rw [← ofBytes_toBytes]
  constructor
  · intro hzero
    have hall : toBytes n v = List.replicate n 0 :=
      List.eq_replicate_iff.mpr ⟨length_toBytes n v, hzero⟩
    rw [hall, ofBytes_replicate_zero]
  · intro hvalue
    have hback := toBytes_ofBytes (toBytes n v)
    have hzeros := toBytes_ofBytes (List.replicate n 0)
    rw [length_toBytes, hvalue] at hback
    rw [List.length_replicate, ofBytes_replicate_zero, hback] at hzeros
    intro x hx
    rw [hzeros] at hx
    exact List.eq_of_mem_replicate hx

/-! ## Highest byte first -/

/-- The number with these bytes, highest first. -/
def bigEndian (bs : List UInt8) : ℕ := ofBytes bs.reverse

lemma bigEndian_append (q g : List UInt8) :
    bigEndian (q ++ g) = bigEndian q * 256 ^ g.length + bigEndian g := by
  rw [bigEndian, List.reverse_append, ofBytes_append, List.length_reverse, bigEndian, bigEndian]
  ring

lemma bigEndian_lt (bs : List UInt8) : bigEndian bs < 256 ^ bs.length := by
  rw [← List.length_reverse]
  exact ofBytes_lt bs.reverse

lemma bigEndian_replicate_zero (k : ℕ) : bigEndian (List.replicate k 0) = 0 := by
  rw [bigEndian, List.reverse_replicate, ofBytes_replicate_zero]

lemma bigEndian_reverse_toBytes (n v : ℕ) : bigEndian (toBytes n v).reverse = v % 256 ^ n := by
  rw [bigEndian, List.reverse_reverse, ofBytes_toBytes]

/-- Of two lists of one length the greater one is the greater number. -/
lemma bigEndian_lt_iff {bs cs : List UInt8} (h : bs.length = cs.length) :
    bigEndian bs < bigEndian cs ↔ bs < cs := by
  induction bs generalizing cs with
  | nil =>
    obtain rfl := List.length_eq_zero_iff.mp h.symm
    simp
  | cons b bs ih =>
    obtain ⟨c, cs, rfl⟩ := List.exists_cons_of_length_eq_add_one h.symm
    have hlen : bs.length = cs.length := Nat.succ.inj h
    have hbs := bigEndian_lt bs
    have hcs := bigEndian_lt cs
    have hhead (x : UInt8) (xs : List UInt8) :
        bigEndian (x :: xs) = x.toNat * 256 ^ xs.length + bigEndian xs := by
      have happend := bigEndian_append [x] xs
      rwa [List.singleton_append, show bigEndian [x] = x.toNat from rfl] at happend
    rw [List.cons_lt_cons_iff, ← ih hlen, hhead, hhead, hlen, UInt8.lt_iff_toNat_lt,
      ← UInt8.toNat_inj]
    rw [hlen] at hbs
    -- the rest is below one unit of the first byte
    rcases Nat.lt_trichotomy b.toNat c.toNat with hlt | heq | hgt
    · have hunit : (b.toNat + 1) * 256 ^ cs.length ≤ c.toNat * 256 ^ cs.length :=
        Nat.mul_le_mul_right _ hlt
      rw [Nat.add_mul, Nat.one_mul] at hunit
      exact iff_of_true (by omega) (.inl hlt)
    · rw [heq]
      simp
    · have hunit : (c.toNat + 1) * 256 ^ cs.length ≤ b.toNat * 256 ^ cs.length :=
        Nat.mul_le_mul_right _ hgt
      rw [Nat.add_mul, Nat.one_mul] at hunit
      refine iff_of_false (by omega) ?_
      rintro (hlt | ⟨heq, -⟩)
      · omega
      · omega

end LittleEndian
