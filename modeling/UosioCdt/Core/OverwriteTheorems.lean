import UosioCdt.Core.Overwrite
import UosioCdt.Core.RoundTrip

/-!
# When decoding overwrites its destination

* `Ty.sameOr_weak`: two runs on the same bytes fail or stop together, with the same value except
  at the places of `Ty.Weak`;
* `Ty.leaks_weak`: at these places some bytes leave old data in the value;
* `Ty.overwrites_iff`: the decoded value is a function of the bytes for exactly the types that do
  not keep old data.
-/

namespace UosioCdt.Core

/-! ## At the end of the stream -/

section atEnd

variable {α β : Type} {c e : Bool}

/-- At the end of the stream the reader succeeds, without taking bytes, if `c` holds. -/
def AtEnd (r : Reader α) (c : Bool) : Prop :=
  (r []).map Prod.snd = if c then some [] else none

lemma AtEnd.pure (x : α) : AtEnd (pure x) true := rfl

lemma AtEnd.bind {r : Reader α} {f : α → Reader β} (hr : AtEnd r c) (hf : ∀ x, AtEnd (f x) e) :
    AtEnd (r >>= f) (c && e) := by
  change ((r []).bind fun r => f r.1 r.2).map Prod.snd = _
  unfold AtEnd at hr
  match c, hro : r [], hr with
  | false, none, _ => rfl
  | true, some (x, _), rfl => exact hf x

lemma AtEnd.bind_fails {r : Reader α} {f : α → Reader β} (hr : AtEnd r false) :
    AtEnd (r >>= f) false := by
  have hnone : r [] = none := Option.map_eq_none_iff.mp hr
  change ((r []).bind fun r => f r.1 r.2).map Prod.snd = _
  rw [hnone]
  rfl

/-- A reader that fails at the end of the stream. -/
lemma AtEnd.eq_none {r : Reader α} (h : AtEnd r false) : r [] = none := Option.map_eq_none_iff.mp h

/-- A reader that succeeds at the end of the stream. -/
lemma AtEnd.exists_eq_some {r : Reader α} (h : AtEnd r true) : ∃ v, r [] = some (v, []) := by
  obtain ⟨⟨v, _⟩, hv, rfl⟩ := Option.map_eq_some_iff.mp h
  exact ⟨v, hv⟩

lemma AtEnd.keeps {r : Reader α} (h : AtEnd r c) : Keeps (· = []) r := by
  rintro _ v s' rfl hv
  cases c with
  | false =>
    rw [h.eq_none] at hv
    cases hv
  | true =>
    obtain ⟨w, hw⟩ := h.exists_eq_some
    rw [hw] at hv
    exact (Prod.mk.inj (Option.some.inj hv)).2.symm

lemma SameOr.of_atEnd {W : List UInt8 → Prop} {r₁ r₂ : Reader α} (h₁ : AtEnd r₁ c)
    (h₂ : AtEnd r₂ c) (hW : c = true → W []) : SameOr W (r₁ []) (r₂ []) := by
  cases c with
  | false =>
    rw [h₁.eq_none, h₂.eq_none]
    trivial
  | true =>
    obtain ⟨x, hx⟩ := h₁.exists_eq_some
    obtain ⟨y, hy⟩ := h₂.exists_eq_some
    rw [hx, hy]
    exact ⟨rfl, .inr (hW rfl)⟩

lemma atEnd_readBytes (n : ℕ) : AtEnd (readBytes n) (n = 0) := by
  cases n <;> rfl

lemma atEnd_readWord : AtEnd readWord false := rfl

lemma atEnd_readArray {read : α → Reader α} (h : ∀ x, AtEnd (read x) c) (n : ℕ) (v : Fin n → α) :
    AtEnd (readArray read n v) (n = 0 || c) := by
  induction n with
  | zero => rfl
  | succ n ih =>
    have hall := (h (v 0)).bind fun x => (ih (Fin.tail v)).bind fun xs =>
      AtEnd.pure (Fin.cons x xs : Fin (n + 1) → α)
    have hc : (c && ((n = 0 || c) && true)) = (n + 1 = 0 || c) := by
      cases c <;> simp
    rwa [hc] at hall

end atEnd

/-- Which types can be read at the end of the stream. -/
lemma Ty.atEnd_read (lt : KeyOrder) (t : Ty) (d : t.Val) : AtEnd (t.read lt d) t.readsEnd := by
  induction t with
  | prim p =>
    have hbind := (atEnd_readBytes p.size).bind fun bs => AtEnd.pure (p.ofBytes bs)
    rwa [Bool.and_true] at hbind
  | unsignedInt => rfl
  | signedInt => rfl
  | optional t => rfl
  | array t n ih => exact atEnd_readArray ih n d
  | pair a b iha ihb =>
    have hbind := (iha a.default).bind fun x => (ihb b.default).bind fun y => AtEnd.pure (x, y)
    rwa [Bool.and_true] at hbind
  | empty => rfl
  | field a rest iha ihr =>
    have hbind := (iha d.1).bind fun x => (ihr d.2).bind fun y => AtEnd.pure (x, y)
    rwa [Bool.and_true] at hbind
  | aggregate id fields ih => exact ih d
  | fixedBytes size => cases size <;> rfl
  | binaryExtension t => rfl
  | asset => exact atEnd_readWord.bind_fails
  | extendedAsset => exact AtEnd.bind_fails (atEnd_readWord.bind_fails (f := fun _ => _))
  | variant n alts => rfl
  | _ => exact AtEnd.bind_fails rfl

/-! ## Two runs differ at weak places only -/

lemma Ty.keeps_weak (lt : KeyOrder) (t : Ty) (d : t.Val) : Keeps t.Weak (t.read lt d) := by
  rintro s v s' (hin | ⟨hold, hs⟩) heq
  · exact .inl hin
  · exact .inr ⟨hold, (t.atEnd_read lt d).keeps s v s' hs heq⟩

/-- The fields are read one after another; the others may end the stream behind the first. -/
lemma sameOr_field {lt : KeyOrder} {a rest : Ty}
    (ha : ∀ d₁ d₂ bs, SameOr a.Weak (a.read lt d₁ bs) (a.read lt d₂ bs))
    (hr : ∀ d₁ d₂ bs, SameOr rest.Weak (rest.read lt d₁ bs) (rest.read lt d₂ bs))
    (d₁ d₂ : a.Val × rest.Val) (bs : List UInt8) :
    SameOr (a.field rest).Weak ((a.field rest).read lt d₁ bs) ((a.field rest).read lt d₂ bs) := by
  have hlast (s : List UInt8) (h : rest.Weak s) : (a.field rest).Weak s := by
    refine h.imp (fun hin => ?_) fun hold => ⟨?_, hold.2⟩
    · simp [Ty.keepsInside, hin]
    · simp [Ty.keepsOld, hold.1]
  refine SameOr.bind (ha d₁.1 d₂.1 bs) (fun x s => ?_) fun x y s hs => ?_
  · exact ((hr d₁.2 d₂.2 s).map fun xs => ((x, xs) : a.Val × rest.Val)).mono hlast
  · rcases hs with hin | ⟨hold, rfl⟩
    · have hall : (a.field rest).Weak = fun _ => True := by
        funext s
        simp [Ty.Weak, Ty.keepsInside, hin]
      rw [hall]
      exact .of_keeps trivial (fun _ _ _ _ _ => trivial) (hr d₁.2 d₂.2 s).stop
        (fun xs => ((x, xs) : a.Val × rest.Val)) _
    · -- the first field has read to the end of the stream
      have hend (d : rest.Val) (z : a.Val) :=
        (rest.atEnd_read lt d).bind fun xs => AtEnd.pure ((z, xs) : a.Val × rest.Val)
      refine .of_atEnd (hend d₁.2 x) (hend d₂.2 y) fun hc => .inr ⟨?_, rfl⟩
      rw [Bool.and_true] at hc
      simp [Ty.keepsOld, hold, hc]

/-- Two runs on the same bytes fail or stop together, and their values differ at weak places only. -/
theorem Ty.sameOr_weak (lt : KeyOrder) (t : Ty) (d₁ d₂ : t.Val) (bs : List UInt8) :
    SameOr t.Weak (t.read lt d₁ bs) (t.read lt d₂ bs) := by
  induction t generalizing bs with
  | seq kind t ih => exact sameOr_seq (W := t.Weak) ih (t.keeps_weak lt) d₁ d₂ bs
  | array t n ih =>
    by_cases hn : n = 0
    · have hd : d₁ = d₂ := funext fun i => absurd i.isLt (by omega)
      exact hd ▸ .refl _
    · refine (sameOr_readArray ih (t.keeps_weak lt) n d₁ d₂ bs).mono fun s hs => ?_
      simpa [Weak, keepsInside, keepsOld, hn] using hs
  | cArray t n ih =>
    by_cases hn : n.toNat = 0
    · have hd : d₁ = d₂ := funext fun i => absurd i.isLt (by omega)
      exact hd ▸ .refl _
    · refine (sameOr_cArray ih (t.keeps_weak lt) n.toNat d₁ d₂ bs).mono fun s hs => ?_
      simpa [Weak, keepsInside, keepsOld, hn] using hs
  | optional t => exact sameOr_optional (fun _ => .inl rfl) _ d₁ d₂ bs
  | field a rest iha ihr => exact sameOr_field iha ihr d₁ d₂ bs
  | aggregate id fields ih => exact ih d₁ d₂ bs
  | binaryExtension t => exact sameOr_extension (.inr ⟨rfl, rfl⟩) _ d₁ d₂ bs
  | _ => exact .refl _

/-! ## Bytes that every destination takes -/

section takes

variable {α β : Type}

/-- The reader takes the bytes off every stream that begins with them. -/
def Takes (r : Reader α) (bs : List UInt8) : Prop :=
  ∀ rest, ∃ v, r (bs ++ rest) = some (v, rest)

lemma Reads.takes {r : Reader α} {bs : List UInt8} {x : α} (h : Reads r bs x) : Takes r bs :=
  fun rest => ⟨x, h rest⟩

lemma Takes.pure (x : α) : Takes (pure x : Reader α) [] := (Reads.pure x).takes

lemma Takes.bind {r : Reader α} {f : α → Reader β} {bs cs : List UInt8} (hr : Takes r bs)
    (hf : ∀ x, Takes (f x) cs) : Takes (r >>= f) (bs ++ cs) := by
  intro rest
  obtain ⟨x, hx⟩ := hr (cs ++ rest)
  obtain ⟨y, hy⟩ := hf x rest
  refine ⟨y, ?_⟩
  change (r (bs ++ cs ++ rest)).bind _ = _
  rw [List.append_assoc, hx]
  exact hy

lemma Takes.map {r : Reader α} {bs : List UInt8} (hr : Takes r bs) (f : α → β) :
    Takes (r >>= fun x => Pure.pure (f x)) bs := by
  have h := hr.bind fun x => Takes.pure (f x)
  rwa [List.append_nil] at h

/-- The value that was read decides how the reader goes on. -/
lemma Reads.bind_takes {r : Reader α} {f : α → Reader β} {bs cs : List UInt8} {x : α}
    (hr : Reads r bs x) (hf : Takes (f x) cs) : Takes (r >>= f) (bs ++ cs) := by
  intro rest
  obtain ⟨y, hy⟩ := hf rest
  refine ⟨y, ?_⟩
  change (r (bs ++ cs ++ rest)).bind _ = _
  rw [List.append_assoc, hr]
  exact hy

lemma takes_readBytes (n : ℕ) : Takes (readBytes n) (List.replicate n 0) :=
  (reads_readBytes List.length_replicate).takes

lemma reads_readUnsigned_zero : Reads Varint.readUnsigned [0] 0 := fun _ => rfl

lemma reads_readSize_zero : Reads readSize [0] 0 := fun _ => rfl

lemma takes_readWord : Takes readWord (List.replicate 8 0) := (takes_readBytes 8).map _

lemma takes_asset : Takes Asset.read (List.replicate 8 0 ++ List.replicate 8 0) :=
  takes_readWord.bind fun _ => takes_readWord.map _

lemma takes_readArray {read : α → Reader α} {bs : List UInt8} (h : ∀ d, Takes (read d) bs) (n : ℕ)
    (v : Fin n → α) : Takes (readArray read n v) (List.replicate n bs).flatten := by
  induction n with
  | zero => exact .pure v
  | succ n ih =>
    rw [List.replicate_succ, List.flatten_cons]
    exact (h (v 0)).bind fun x => (ih (Fin.tail v)).map fun xs =>
      (Fin.cons x xs : Fin (n + 1) → α)

lemma takes_cArray {n : UInt32} {r : Reader α} {bs : List UInt8} (h : Takes r bs) :
    Takes (readSize >>= fun s => checkThat (n.toNat = s) >>= fun _ => r)
      ((sizeWrites n.toNat).flatten ++ bs) :=
  have hcheck : Takes (checkThat (n.toNat = n.toNat) >>= fun _ => r) ([] ++ bs) :=
    (reads_checkThat (by simp)).bind_takes h
  (reads_readSize n.toNat_lt).bind_takes hcheck

end takes

/-- Some bytes are taken whatever the destination holds. -/
lemma Ty.exists_takes (lt : KeyOrder) (t : Ty) : ∃ bs, ∀ d, Takes (t.read lt d) bs := by
  have hzero {β : Type} (f : ℕ → Reader β) {bs : List UInt8} (h : Takes (f 0) bs) :
      Takes (readSize >>= f) ([0] ++ bs) := reads_readSize_zero.bind_takes h
  induction t with
  | prim p => exact ⟨_, fun _ => (takes_readBytes p.size).map _⟩
  | unsignedInt => exact ⟨[0], fun _ => reads_readUnsigned_zero.takes⟩
  | signedInt => exact ⟨[0], fun _ rest => ⟨_, rfl⟩⟩
  | string => exact ⟨_, fun _ => hzero readBytes (takes_readBytes 0)⟩
  | bytes => exact ⟨_, fun _ => hzero readBytes (takes_readBytes 0)⟩
  | seq kind t ih =>
    have hnone (d : List t.Val) : Takes (readEach (t.read lt) (resize 0 t.default d)) [] :=
      resize_zero t.default d ▸ .pure _
    exact ⟨_, fun d => hzero (fun s => readEach (t.read lt) (resize s t.default d)) (hnone d)⟩
  | set t ih =>
    exact ⟨_, fun _ => hzero (fun s => readEmplace _ (t.read lt t.default) s []) (.pure _)⟩
  | map k v ihk ihv => exact ⟨_, fun _ => hzero (fun s => readEmplace _ _ s []) (.pure _)⟩
  | array t n ih =>
    obtain ⟨bs, hbs⟩ := ih
    exact ⟨_, takes_readArray hbs n⟩
  | cArray t n ih =>
    obtain ⟨bs, hbs⟩ := ih
    exact ⟨_, fun d => takes_cArray (takes_readArray hbs n.toNat d)⟩
  | cArrayPrim p n => exact ⟨_, fun _ => takes_cArray ((takes_readBytes _).map _)⟩
  | optional t ih => exact ⟨[0], fun d rest => ⟨d, rfl⟩⟩
  | variant n alts ih =>
    obtain ⟨bs, hbs⟩ := ih 0
    have hfirst : Takes (deserialize (fun i => (alts i).read lt (alts i).default) 0) bs := by
      have heq := deserialize_ofNat (fun i => (alts i).read lt (alts i).default) (i := 0) (by simp)
      exact heq ▸ (hbs _).map _
    exact ⟨_, fun _ => reads_readUnsigned_zero.bind_takes hfirst⟩
  | pair a b iha ihb =>
    obtain ⟨bs, hbs⟩ := iha
    obtain ⟨cs, hcs⟩ := ihb
    exact ⟨_, fun _ => (hbs _).bind fun x => (hcs _).map (x, ·)⟩
  | empty => exact ⟨[], fun _ => .pure _⟩
  | field a rest iha ihr =>
    obtain ⟨bs, hbs⟩ := iha
    obtain ⟨cs, hcs⟩ := ihr
    exact ⟨_, fun d => (hbs d.1).bind fun x => (hcs d.2).map (x, ·)⟩
  | aggregate id fields ih => exact ih
  | name => exact ⟨_, fun _ => takes_readWord.map _⟩
  | symbolCode => exact ⟨_, fun _ => takes_readWord.map _⟩
  | symbol => exact ⟨_, fun _ => takes_readWord.map _⟩
  | asset => exact ⟨_, fun _ => takes_asset⟩
  | extendedAsset => exact ⟨_, fun _ => takes_asset.bind fun _ => takes_readWord.map _⟩
  | publicKey => exact ⟨_, fun _ => reads_readUnsigned_zero.bind_takes ((takes_readBytes 33).map _)⟩
  | signature => exact ⟨_, fun _ => reads_readUnsigned_zero.bind_takes ((takes_readBytes 65).map _)⟩
  | fixedBytes size =>
    exact ⟨_, fun _ => (reads_fixedBytes (List.length_replicate (a := (0 : UInt8)))).takes⟩
  | binaryExtension t ih =>
    obtain ⟨bs, hbs⟩ := ih
    refine ⟨bs, fun d rest => ?_⟩
    cases hrest : bs ++ rest with
    | nil => exact ⟨d, by rw [(List.append_eq_nil_iff.mp hrest).2]; rfl⟩
    | cons b cs =>
      obtain ⟨x, hx⟩ := hbs t.default rest
      refine ⟨some x, ?_⟩
      rw [hrest] at hx
      change (t.read lt t.default (b :: cs)).bind _ = _
      rw [hx]
      rfl

/-! ## Bytes that leave old data -/

section leaks

variable {α β : Type} {W V : List UInt8 → Prop}

/-- Some bytes are read into two destinations with two values, if what follows them satisfies `W`. -/
def Leaks (W : List UInt8 → Prop) (read : α → Reader α) : Prop :=
  ∃ bs d₁ d₂, ∀ rest, W rest → ∃ v₁ v₂, v₁ ≠ v₂ ∧
    read d₁ (bs ++ rest) = some (v₁, rest) ∧ read d₂ (bs ++ rest) = some (v₂, rest)

lemma Leaks.mono {read : α → Reader α} (h : Leaks W read) (hVW : ∀ s, V s → W s) :
    Leaks V read := by
  obtain ⟨bs, d₁, d₂, h⟩ := h
  exact ⟨bs, d₁, d₂, fun rest hV => h rest (hVW rest hV)⟩

lemma leaks_of_not {read : α → Reader α} (d : α) (hW : ∀ s, ¬ W s) : Leaks W read :=
  ⟨[], d, d, fun s hs => (hW s hs).elim⟩

lemma eq_bind_pair {γ δ : Type} {r : Reader α} {q : Reader γ} {s s' s'' : List UInt8} {x : α}
    {y : γ} (f : α → γ → δ) (hr : r s = some (x, s')) (hq : q s' = some (y, s'')) :
    (r >>= fun x => q >>= fun y => pure (f x y)) s = some (f x y, s'') := by
  change ((r s).bind fun a => (q a.2).bind fun b => some (f a.1 b.1, b.2)) = _
  rw [hr, Option.bind_some, hq]
  rfl

/-- The first of two parts leaks, and the bytes of the second follow. -/
lemma Leaks.first {γ : Type} {read : α → Reader α} {q : γ → Reader γ} (h : Leaks W read)
    {cs : List UInt8} (d : γ) (hcs : ∀ rest, V rest → W (cs ++ rest))
    (hq : ∀ rest, V rest → ∃ y, q d (cs ++ rest) = some (y, rest)) :
    Leaks V fun v : α × γ => read v.1 >>= fun x => q v.2 >>= fun y => pure (x, y) := by
  obtain ⟨bs, d₁, d₂, h⟩ := h
  refine ⟨bs ++ cs, (d₁, d), (d₂, d), fun rest hV => ?_⟩
  obtain ⟨v₁, v₂, hne, h₁, h₂⟩ := h (cs ++ rest) (hcs rest hV)
  obtain ⟨y, hy⟩ := hq rest hV
  rw [List.append_assoc]
  exact ⟨(v₁, y), (v₂, y), fun heq => hne (Prod.mk.inj heq).1, eq_bind_pair Prod.mk h₁ hy,
    eq_bind_pair Prod.mk h₂ hy⟩

/-- The second of two parts leaks behind the bytes of the first. -/
lemma Leaks.second {γ δ : Type} {q : γ → Reader γ} (h : Leaks W q) {r : δ → Reader α}
    {cs : List UInt8} (hr : ∀ d, Takes (r d) cs) {f : α → γ → δ}
    (hf : ∀ x₁ x₂ y₁ y₂, f x₁ y₁ = f x₂ y₂ → y₁ = y₂) {part : δ → γ}
    (hpart : Function.Surjective part) :
    Leaks W fun v => r v >>= fun x => q (part v) >>= fun y => pure (f x y) := by
  obtain ⟨bs, e₁, e₂, h⟩ := h
  obtain ⟨d₁, rfl⟩ := hpart e₁
  obtain ⟨d₂, rfl⟩ := hpart e₂
  refine ⟨cs ++ bs, d₁, d₂, fun rest hW => ?_⟩
  obtain ⟨y₁, y₂, hne, h₁, h₂⟩ := h rest hW
  obtain ⟨x₁, hx₁⟩ := hr d₁ (bs ++ rest)
  obtain ⟨x₂, hx₂⟩ := hr d₂ (bs ++ rest)
  rw [List.append_assoc]
  exact ⟨f x₁ y₁, f x₂ y₂, fun heq => hne (hf x₁ x₂ y₁ y₂ heq), eq_bind_pair f hx₁ h₁,
    eq_bind_pair f hx₂ h₂⟩

lemma leaks_readArray {read : α → Reader α} (h : Leaks W read) {cs : List UInt8}
    (hr : ∀ d, Takes (read d) cs) (n : ℕ) : Leaks W (readArray read (n + 1)) := by
  obtain ⟨bs, d₁, d₂, hbs⟩ := id h
  induction n with
  | zero =>
    refine ⟨bs, fun _ => d₁, fun _ => d₂, fun rest hW => ?_⟩
    obtain ⟨v₁, v₂, hne, h₁, h₂⟩ := hbs rest hW
    have hlast (v : Fin 1 → α) : readArray read 0 (Fin.tail v) rest = some (Fin.tail v, rest) := rfl
    exact ⟨_, _, fun heq => hne (Fin.cons_injective2 heq).1,
      eq_bind_pair (fun x xs => (Fin.cons x xs : Fin 1 → α)) h₁ (hlast _),
      eq_bind_pair (fun x xs => (Fin.cons x xs : Fin 1 → α)) h₂ (hlast _)⟩
  | succ n ih =>
    exact ih.second (fun v => hr (v 0)) (f := fun x xs => (Fin.cons x xs : Fin (n + 2) → α))
      (fun _ _ _ _ heq => (Fin.cons_injective2 heq).2) fun xs => ⟨Fin.cons d₁ xs, Fin.tail_cons _ _⟩

/-- A container with one element. -/
lemma leaks_seq {read : α → Reader α} (h : Leaks W read) (dflt : α) :
    Leaks W fun v : List α => readSize >>= fun s => readEach read (resize s dflt v) := by
  obtain ⟨bs, d₁, d₂, h⟩ := h
  refine ⟨1 :: bs, [d₁], [d₂], fun rest hW => ?_⟩
  obtain ⟨v₁, v₂, hne, h₁, h₂⟩ := h rest hW
  have hone (d v : α) (hv : read d (bs ++ rest) = some (v, rest)) :
      (readSize >>= fun s => readEach read (resize s dflt [d])) (1 :: bs ++ rest)
        = some ([v], rest) :=
    eq_bind_pair List.cons hv (q := readEach read []) rfl
  exact ⟨[v₁], [v₂], fun heq => hne (List.head_eq_of_cons_eq heq), hone d₁ v₁ h₁, hone d₂ v₂ h₂⟩

lemma leaks_cArray {read : α → Reader α} (n : UInt32)
    (h : Leaks W (readArray read n.toNat)) :
    Leaks W fun v : Fin n.toNat → α => readSize >>= fun s => checkThat (n.toNat = s) >>= fun _ =>
      readArray read n.toNat v := by
  obtain ⟨bs, d₁, d₂, h⟩ := h
  refine ⟨(sizeWrites n.toNat).flatten ++ bs, d₁, d₂, fun rest hW => ?_⟩
  obtain ⟨v₁, v₂, hne, h₁, h₂⟩ := h rest hW
  have hsize (r : Reader (Fin n.toNat → α)) (s : List UInt8) :
      (readSize >>= fun s => checkThat (n.toNat = s) >>= fun _ => r)
        ((sizeWrites n.toNat).flatten ++ s) = r s := by
    change (readSize _).bind _ = _
    rw [reads_readSize n.toNat_lt s, Option.bind_some]
    exact congrArg (Option.bind · _) (reads_checkThat (by simp) s)
  rw [List.append_assoc]
  exact ⟨v₁, v₂, hne, (hsize _ _).trans h₁, (hsize _ _).trans h₂⟩

end leaks

lemma leaks_field {lt : KeyOrder} {a rest : Ty} (ha : Leaks a.Weak (a.read lt))
    (hr : Leaks rest.Weak (rest.read lt)) :
    Leaks (a.field rest).Weak ((a.field rest).read lt) := by
  obtain ⟨as, has⟩ := a.exists_takes lt
  obtain ⟨cs, hcs⟩ := rest.exists_takes lt
  by_cases hin : a.keepsInside = true
  · exact ha.first rest.default (fun _ _ => .inl hin) fun s _ => hcs rest.default s
  by_cases hrest : rest.keepsOld = true
  · have hsnd : Function.Surjective (Prod.snd : a.Val × rest.Val → rest.Val) :=
      fun y => ⟨(a.default, y), rfl⟩
    refine (hr.second (fun v => has v.1) (fun _ _ _ _ heq => (Prod.mk.inj heq).2) hsnd).mono
      fun s hs => ?_
    simpa [Ty.Weak, Ty.keepsInside, Ty.keepsOld, hin, hrest] using hs
  · -- an extension at the end of the first field, with nothing needed behind it
    have hrin : ¬ rest.keepsInside = true := fun h => hrest (Ty.keepsOld_of_keepsInside h)
    have hweak (s : List UInt8) (hs : (a.field rest).Weak s) :
        a.keepsOld = true ∧ rest.readsEnd = true ∧ s = [] := by
      simpa [Ty.Weak, Ty.keepsInside, Ty.keepsOld, hin, hrest, hrin, and_assoc] using hs
    have hempty (s : List UInt8) (hs : (a.field rest).Weak s) :
        ∃ y, rest.read lt rest.default ([] ++ s) = some (y, s) := by
      obtain ⟨-, hend, rfl⟩ := hweak s hs
      have hat := rest.atEnd_read lt rest.default
      rw [hend] at hat
      exact hat.exists_eq_some
    have hfirst (s : List UInt8) (hs : (a.field rest).Weak s) : a.Weak ([] ++ s) :=
      .inr ⟨(hweak s hs).1, (hweak s hs).2.2⟩
    exact ha.first rest.default hfirst hempty

/-- At a weak place some bytes leave old data in the value. -/
theorem Ty.leaks_weak (lt : KeyOrder) (t : Ty) : Leaks t.Weak (t.read lt) := by
  induction t with
  | seq kind t ih => exact leaks_seq ih t.default
  | array t n ih =>
    obtain ⟨cs, hcs⟩ := t.exists_takes lt
    cases n with
    | zero =>
      refine leaks_of_not (Ty.default _) fun s hs => ?_
      simp [Weak, keepsInside, keepsOld] at hs
    | succ n =>
      refine (leaks_readArray ih hcs n).mono fun s hs => ?_
      simpa [Weak, keepsInside, keepsOld] using hs
  | cArray t n ih =>
    obtain ⟨cs, hcs⟩ := t.exists_takes lt
    refine leaks_cArray n ?_
    cases hn : n.toNat with
    | zero =>
      refine leaks_of_not (fun _ => t.default) fun s hs => ?_
      simp [Weak, keepsInside, keepsOld, hn] at hs
    | succ m =>
      refine (leaks_readArray ih hcs m).mono fun s hs => ?_
      simpa [Weak, keepsInside, keepsOld, hn] using hs
  | optional t =>
    exact ⟨[0], none, some t.default, fun rest _ =>
      ⟨none, some t.default, (Option.some_ne_none _).symm, rfl, rfl⟩⟩
  | field a rest iha ihr => exact leaks_field iha ihr
  | aggregate id fields ih => exact ih
  | binaryExtension t =>
    refine ⟨[], none, some t.default, ?_⟩
    rintro _ (hin | ⟨-, rfl⟩)
    · cases hin
    · exact ⟨none, some t.default, (Option.some_ne_none _).symm, rfl, rfl⟩
  | _ => exact leaks_of_not (Ty.default _) fun s hs => by simp [Weak, keepsInside, keepsOld] at hs

/-! ## Which types are overwritten -/

/-- Decoding overwrites every destination exactly for the types that do not keep old data. -/
theorem Ty.overwrites_iff (lt : KeyOrder) (t : Ty) : t.Overwrites lt ↔ t.keepsOld = false := by
  constructor
  · intro h
    by_contra hold
    obtain ⟨bs, d₁, d₂, hleak⟩ := t.leaks_weak lt
    obtain ⟨v₁, v₂, hne, h₁, h₂⟩ := hleak [] (.inr ⟨Bool.of_not_eq_false hold, rfl⟩)
    rw [h _ d₁ d₂, h₂] at h₁
    exact hne (Prod.mk.inj (Option.some.inj h₁)).1.symm
  · intro hold bs d₁ d₂
    refine ((t.sameOr_weak lt d₁ d₂ bs).mono fun s hs => ?_).eq
    have hkeeps : t.keepsOld = true := hs.elim keepsOld_of_keepsInside And.left
    rw [hold] at hkeeps
    cases hkeeps

/-- An `optional` keeps its value when the cleared flag is read. -/
theorem not_forall_overwrites : ¬ ∀ (lt : KeyOrder) (t : Ty), t.Overwrites lt := by
  intro h
  have hsame := h (fun _ _ _ => false) (.optional (.prim (.int 4))) [0] none (some 7#32)
  cases hsame

end UosioCdt.Core
