import UosioCdt.Core.RoundTrip

/-!
# Binary extensions

A `binary_extension` is written with its value or with the default of its type, and is read only if
bytes remain. `Ty.presenceAgrees` says of a value that each of its extensions holds a value exactly
if bytes are written from it on, and `Ty.settles` that this decides what is read back.
-/

namespace UosioCdt.Core

/-! ## What a value writes -/

/-- No value of the type writes a byte. -/
def Ty.writesNothing : Ty → Bool
  | .prim p => p.size = 0
  | .array t n => n = 0 || t.writesNothing
  | .pair a b => a.writesNothing && b.writesNothing
  | .empty => true
  | .field a rest => a.writesNothing && rest.writesNothing
  | .aggregate _ fields => fields.writesNothing
  | .fixedBytes size => size = 0
  | .binaryExtension t => t.writesNothing
  | _ => false

/-- A property of each element of a list, given whether bytes follow it: those of the elements behind
it, if these write any, or those behind the list. -/
def eachAgrees {α : Type} (agrees : α → Bool → Bool) (writes : Bool) : List α → Bool → Bool
  | [], _ => true
  | x :: xs, follows =>
    agrees x ((writes && !xs.isEmpty) || follows) && eachAgrees agrees writes xs follows

/-- Each extension holds a value exactly if bytes are written from it on: its own ones, or others that
follow. -/
def Ty.presenceAgrees : (t : Ty) → t.Val → Bool → Bool
  | .seq _ t, (v : List t.Val), follows =>
    eachAgrees t.presenceAgrees (!t.writesNothing) v follows
  | .map k t, (m : List (k.Val × t.Val)), follows =>
    eachAgrees (fun i => t.presenceAgrees i.2) (!(k.writesNothing && t.writesNothing)) m follows
  | .array t _, (v : Fin _ → t.Val), follows =>
    eachAgrees t.presenceAgrees (!t.writesNothing) (List.ofFn v) follows
  | .cArray t _, (v : Fin _ → t.Val), follows =>
    eachAgrees t.presenceAgrees (!t.writesNothing) (List.ofFn v) follows
  | .optional t, (v : Option t.Val), follows =>
    match v with
    | some x => t.presenceAgrees x follows
    | none => true
  | .variant _ alts, (v : Σ i : Fin _, (alts i).Val), follows =>
    (alts v.1).presenceAgrees v.2 follows
  | .pair a b, (v : a.Val × b.Val), follows =>
    a.presenceAgrees v.1 (!b.writesNothing || follows) && b.presenceAgrees v.2 follows
  | .field a rest, (v : a.Val × rest.Val), follows =>
    a.presenceAgrees v.1 (!rest.writesNothing || follows) && rest.presenceAgrees v.2 follows
  | .aggregate _ fields, v, follows => fields.presenceAgrees v follows
  | .binaryExtension t, (v : Option t.Val), follows =>
    match v with
    | some x => (!t.writesNothing || follows) && t.presenceAgrees x follows
    | none => t.writesNothing && !follows
  | _, _, _ => true

/-- What the C++ types promise of their values, binary extensions included. They have no `operator<`,
so there are none in the elements of a set and in the keys of a map, and no key is below itself. -/
def Ty.Extended (lt : KeyOrder) : (t : Ty) → t.Val → Prop
  | .seq _ t, (v : List t.Val) => v.length < 2 ^ 32 ∧ ∀ x ∈ v, t.Extended lt x
  | .map k t, (m : List (k.Val × t.Val)) =>
    m.length < 2 ^ 32 ∧ m.Pairwise (fun x y => lt k x.1 y.1 = true) ∧
      ∀ x ∈ m, lt k x.1 x.1 = false ∧ k.Proper lt x.1 ∧ t.Extended lt x.2
  | .array t _, (v : Fin _ → t.Val) => ∀ i, t.Extended lt (v i)
  | .cArray t _, (v : Fin _ → t.Val) => ∀ i, t.Extended lt (v i)
  | .optional t, (v : Option t.Val) => ∀ x, v = some x → t.Extended lt x
  | .variant _ alts, (v : Σ i : Fin _, (alts i).Val) =>
    (v.1 : ℕ) < 2 ^ 31 ∧ (alts v.1).Extended lt v.2
  | .pair a b, (v : a.Val × b.Val) => a.Extended lt v.1 ∧ b.Extended lt v.2
  | .field a rest, (v : a.Val × rest.Val) => a.Extended lt v.1 ∧ rest.Extended lt v.2
  | .aggregate _ fields, v => fields.Extended lt v
  | .binaryExtension t, (v : Option t.Val) => ∀ x, v = some x → t.Extended lt x
  | t, v => t.Proper lt v

lemma writeGroups_ne_nil (val : UInt64) : Varint.writeGroups val ≠ [] := by
  rw [Varint.writeGroups, Varint.writeLoop]
  split <;> exact List.cons_ne_nil _ _

lemma unsigned_append_ne_nil (n : UInt32) (ws : List (List UInt8)) :
    ((Varint.writeUnsigned n).map (fun b => [b]) ++ ws).flatten ≠ [] := by
  rw [List.flatten_append, flatten_singletons]
  exact List.append_ne_nil_of_left_ne_nil (writeGroups_ne_nil _) _

lemma wordWrites_append_ne_nil (raw : BitVec 64) (ws : List (List UInt8)) :
    (wordWrites raw ++ ws).flatten ≠ [] := by
  rw [wordWrites, List.singleton_append, List.flatten_cons, LittleEndian.toBytes]
  exact List.cons_ne_nil _ _

lemma asset_append_ne_nil (a : Asset) (ws : List (List UInt8)) :
    (a.writes ++ ws).flatten ≠ [] := by
  rw [Asset.writes, List.append_assoc]
  exact wordWrites_append_ne_nil _ _

lemma prim_eq_nil_iff {p : Prim} (v : p.Val) : [p.bytes v].flatten = [] ↔ p.size = 0 := by
  rw [List.flatten_singleton, ← List.length_eq_zero_iff, p.length_bytes]

lemma fixedBytes_eq_nil_iff {size : ℕ} (d : FixedBytes size) :
    [d.extractAsByteArray].flatten = [] ↔ size = 0 := by
  rw [List.flatten_singleton, ← List.length_eq_zero_iff, d.length_extract]

/-- Elements that write alike. -/
lemma flatMap_eq_nil_iff {α : Type} {serialize : α → List UInt8} {writes : Bool}
    (h : ∀ x, serialize x = [] ↔ writes = false) (l : List α) :
    l.flatMap serialize = [] ↔ (writes && !l.isEmpty) = false := by
  rw [List.flatMap_eq_nil_iff]
  cases l with
  | nil => simp
  | cons x xs =>
    simp only [h, List.isEmpty_cons, Bool.not_false, Bool.and_true]
    exact ⟨fun hall => hall x List.mem_cons_self, fun hnone _ _ => hnone⟩

lemma array_eq_nil_iff {t : Ty} {n : ℕ} (v : Fin n → t.Val)
    (h : ∀ x, t.serialize x = [] ↔ t.writesNothing = true) :
    ((List.ofFn v).flatMap t.writes).flatten = [] ↔ (n = 0 || t.writesNothing) = true := by
  have hwrites : ∀ x, t.serialize x = [] ↔ (!t.writesNothing) = false := fun x => by
    rw [h x, Bool.not_eq_false']
  rw [t.flatten_flatMap_writes, flatMap_eq_nil_iff hwrites]
  cases n with
  | zero => simp
  | succ n => simp [List.ofFn_succ]

/-- A value writes no byte when its type does not. -/
lemma Ty.serialize_eq_nil_iff (t : Ty) (v : t.Val) :
    t.serialize v = [] ↔ t.writesNothing = true := by
  induction t with
  | prim p =>
    rw [writesNothing, decide_eq_true_iff]
    exact prim_eq_nil_iff v
  | unsignedInt =>
    refine iff_of_false ?_ Bool.false_ne_true
    show ((Varint.writeUnsigned v).map fun b => [b]).flatten ≠ []
    rw [flatten_singletons]
    exact writeGroups_ne_nil _
  | signedInt =>
    refine iff_of_false ?_ Bool.false_ne_true
    show ((Varint.writeSigned v).map fun b => [b]).flatten ≠ []
    rw [flatten_singletons]
    exact writeGroups_ne_nil _
  | string => exact iff_of_false (unsigned_append_ne_nil _ _) Bool.false_ne_true
  | bytes => exact iff_of_false (unsigned_append_ne_nil _ _) Bool.false_ne_true
  | seq kind t ih => exact iff_of_false (unsigned_append_ne_nil _ _) Bool.false_ne_true
  | set t ih => exact iff_of_false (unsigned_append_ne_nil _ _) Bool.false_ne_true
  | map k t ihk iht => exact iff_of_false (unsigned_append_ne_nil _ _) Bool.false_ne_true
  | array t n ih => exact array_eq_nil_iff v ih
  | cArray t n ih => exact iff_of_false (unsigned_append_ne_nil _ _) Bool.false_ne_true
  | cArrayPrim p n => exact iff_of_false (unsigned_append_ne_nil _ _) Bool.false_ne_true
  | optional t ih =>
    refine iff_of_false ?_ Bool.false_ne_true
    cases v <;> exact List.cons_ne_nil _ _
  | variant n alts ih => exact iff_of_false (unsigned_append_ne_nil _ _) Bool.false_ne_true
  | pair a b iha ihb =>
    show (a.writes v.1 ++ b.writes v.2).flatten = [] ↔ _
    rw [List.flatten_append, List.append_eq_nil_iff, writesNothing, Bool.and_eq_true]
    exact and_congr (iha v.1) (ihb v.2)
  | empty => exact iff_of_true rfl rfl
  | field a rest iha ihr =>
    show (a.writes v.1 ++ rest.writes v.2).flatten = [] ↔ _
    rw [List.flatten_append, List.append_eq_nil_iff, writesNothing, Bool.and_eq_true]
    exact and_congr (iha v.1) (ihr v.2)
  | aggregate id fields ih => exact ih v
  | name => exact iff_of_false (wordWrites_append_ne_nil _ []) Bool.false_ne_true
  | symbolCode => exact iff_of_false (wordWrites_append_ne_nil _ []) Bool.false_ne_true
  | symbol => exact iff_of_false (wordWrites_append_ne_nil _ []) Bool.false_ne_true
  | asset => exact iff_of_false (wordWrites_append_ne_nil _ _) Bool.false_ne_true
  | extendedAsset => exact iff_of_false (asset_append_ne_nil _ _) Bool.false_ne_true
  | publicKey => exact iff_of_false (unsigned_append_ne_nil v.type _) Bool.false_ne_true
  | signature => exact iff_of_false (unsigned_append_ne_nil v.type _) Bool.false_ne_true
  | fixedBytes size =>
    rw [writesNothing, decide_eq_true_iff]
    exact fixedBytes_eq_nil_iff v
  | binaryExtension t ih => exact ih _

/-! ## Readers that tell a value from others -/

/-- In front of `rest` the reader takes the bytes and gives the value if the condition holds, and
otherwise it never gives this value. -/
structure Settles {α : Type} (r : Reader α) (bs : List UInt8) (x : α) (rest : List UInt8)
    (condition : Bool) : Prop where
  gives : condition = true → r (bs ++ rest) = some (x, rest)
  never : condition = false → ∀ s, r (bs ++ rest) ≠ some (x, s)

section settles

variable {α β : Type} {r : Reader α} {f : α → Reader β} {bs cs rest : List UInt8} {x : α} {y : β}
  {c d : Bool}

lemma reader_bind_eq_some {s u : List UInt8} :
    (r >>= f) s = some (y, u) ↔ ∃ a t, r s = some (a, t) ∧ f a t = some (y, u) := by
  show (r s).bind (fun p => f p.1 p.2) = _ ↔ _
  rw [Option.bind_eq_some_iff]
  constructor
  · rintro ⟨⟨a, t⟩, hr, hf⟩
    exact ⟨a, t, hr, hf⟩
  · rintro ⟨a, t, hr, hf⟩
    exact ⟨⟨a, t⟩, hr, hf⟩

lemma Reads.settles (h : Reads r bs x) (rest : List UInt8) : Settles r bs x rest true :=
  ⟨fun _ => h rest, fun hc => absurd hc (by decide)⟩

/-- One reader behind another, where the last value tells the first one. -/
lemma Settles.bind (hr : Settles r bs x (cs ++ rest) c) (hf : Settles (f x) cs y rest d)
    (htell : ∀ a t u, f a t = some (y, u) → a = x) :
    Settles (r >>= f) (bs ++ cs) y rest (c && d) := by
  constructor
  · intro hcd
    rw [Bool.and_eq_true] at hcd
    rw [reader_bind_eq_some, List.append_assoc]
    exact ⟨x, cs ++ rest, hr.gives hcd.1, hf.gives hcd.2⟩
  · intro hcd u hread
    rw [reader_bind_eq_some, List.append_assoc] at hread
    obtain ⟨a, t, ha, hy⟩ := hread
    obtain rfl := htell a t u hy
    -- the first reader did give its value, so the condition that fails is the second one
    cases c with
    | false => exact hr.never rfl t ha
    | true =>
      obtain rfl : t = cs ++ rest := by
        have hgives := ha.symm.trans (hr.gives rfl)
        exact (Prod.mk.inj (Option.some.inj hgives)).2
      exact hf.never hcd u hy

lemma Reads.bind_settles (hr : Reads r bs x) (hf : Settles (f x) cs y rest d) :
    Settles (r >>= f) (bs ++ cs) y rest d := by
  have hbind (s : List UInt8) : (r >>= f) (bs ++ s) = f x s := by
    show (r (bs ++ s)).bind (fun p => f p.1 p.2) = _
    rw [hr s]
    rfl
  constructor
  · intro hd
    rw [List.append_assoc, hbind]
    exact hf.gives hd
  · intro hd u
    rw [List.append_assoc, hbind]
    exact hf.never hd u

/-- A reader whose value is only converted. -/
lemma Settles.map {g : α → β} (hg : Function.Injective g) (hr : Settles r bs x rest c) :
    Settles (r >>= fun a => pure (g a)) bs (g x) rest c := by
  constructor
  · intro hc
    exact reader_bind_eq_some.mpr ⟨x, rest, hr.gives hc, rfl⟩
  · intro hc u hread
    obtain ⟨a, t, ha, hpure⟩ := reader_bind_eq_some.mp hread
    obtain ⟨hga, -⟩ := Prod.mk.inj (Option.some.inj hpure)
    rw [hg hga] at ha
    exact hr.never hc t ha

/-- Whether bytes follow, behind bytes that are there or not. -/
lemma follows_append {w : Bool} (h : bs = [] ↔ w = false) :
    (!(bs ++ rest).isEmpty) = (w || !rest.isEmpty) := by
  cases bs with
  | nil => rw [h.mp rfl, List.nil_append, Bool.false_or]
  | cons b bs =>
    have hw : w = true := by
      rw [← Bool.not_eq_false, ← h]
      exact List.cons_ne_nil b bs
    rw [hw]
    rfl

/-! ## Loops -/

section loops

variable {read : α → Reader α} {dflt : α} {serialize : α → List UInt8} {agrees : α → Bool → Bool}
  {w : Bool}

lemma settles_readEach {l : List α} (hwrites : ∀ x, serialize x = [] ↔ w = false)
    (h : ∀ x ∈ l, ∀ rest : List UInt8,
      Settles (read dflt) (serialize x) x rest (agrees x (!rest.isEmpty))) (rest : List UInt8) :
    Settles (readEach read (List.replicate l.length dflt)) (l.flatMap serialize) l rest
      (eachAgrees agrees w l (!rest.isEmpty)) := by
  induction l with
  | nil => exact (Reads.pure []).settles rest
  | cons x xs ih =>
    have hx := h x List.mem_cons_self (xs.flatMap serialize ++ rest)
    rw [follows_append (flatMap_eq_nil_iff hwrites xs)] at hx
    have hxs := ih fun y hy => h y (List.mem_cons_of_mem x hy)
    refine hx.bind (hxs.map (List.cons_injective (a := x))) fun a t u hread => ?_
    obtain ⟨ys, _, _, hpure⟩ := reader_bind_eq_some.mp hread
    exact (List.cons.inj (Prod.mk.inj (Option.some.inj hpure)).1).1

lemma settles_readArray {n : ℕ} {v : Fin n → α} (hwrites : ∀ x, serialize x = [] ↔ w = false)
    (h : ∀ i, ∀ rest : List UInt8,
      Settles (read dflt) (serialize (v i)) (v i) rest (agrees (v i) (!rest.isEmpty)))
    (rest : List UInt8) :
    Settles (readArray read n fun _ => dflt) ((List.ofFn v).flatMap serialize) v rest
      (eachAgrees agrees w (List.ofFn v) (!rest.isEmpty)) := by
  induction n with
  | zero =>
    have hv : v = fun _ => dflt := funext fun i => i.elim0
    subst hv
    exact (Reads.pure _).settles rest
  | succ n ih =>
    have hx := h 0 ((List.ofFn fun i => v i.succ).flatMap serialize ++ rest)
    rw [follows_append (flatMap_eq_nil_iff hwrites _)] at hx
    have hxs := ih (v := Fin.tail v) fun i => h i.succ
    have hcons : Function.Injective fun xs => (Fin.cons (v 0) xs : Fin (n + 1) → α) := by
      intro xs ys hxy
      have htail := congrArg Fin.tail hxy
      rwa [Fin.tail_cons, Fin.tail_cons] at htail
    have hmap := hxs.map hcons
    rw [show (Fin.cons (v 0) (Fin.tail v) : Fin (n + 1) → α) = v from Fin.cons_self_tail v] at hmap
    rw [List.ofFn_succ]
    refine hx.bind hmap fun a t u hread => ?_
    obtain ⟨ys, _, _, hpure⟩ := reader_bind_eq_some.mp hread
    have hv := (Prod.mk.inj (Option.some.inj hpure)).1
    rw [← hv]
    rfl

end loops

/-! ## Maps -/

lemma mem_emplace {lt : α → α → Bool} {s : List α} {z : α} (hz : z ∈ s) : z ∈ emplace lt x s := by
  induction s with
  | nil => cases hz
  | cons w s ih =>
    rw [emplace]
    split
    · rcases List.mem_cons.mp hz with rfl | hz
      · exact List.mem_cons_self
      · exact List.mem_cons_of_mem _ (ih hz)
    · split
      · exact List.mem_cons_of_mem _ hz
      · exact hz

/-- What is emplaced stays. -/
lemma mem_readEmplace {lt : α → α → Bool} {n : ℕ} {s s' : List α} {z : α} (hz : z ∈ s)
    {bs cs : List UInt8} (h : readEmplace lt r n s bs = some (s', cs)) : z ∈ s' := by
  induction n generalizing s bs with
  | zero =>
    obtain ⟨rfl, -⟩ := Prod.mk.inj (Option.some.inj h)
    exact hz
  | succ n ih =>
    obtain ⟨a, t, -, hrest⟩ := reader_bind_eq_some.mp h
    exact ih (mem_emplace hz) hrest

section maps

variable {less : α → α → Bool} {readKey : Reader α} {readValue : Reader β}
  {serializeKey : α → List UInt8} {serializeValue : β → List UInt8} {agrees : β → Bool → Bool}
  {w : Bool}

/-- An entry is a key and a value behind it. -/
lemma readEntries_succ (n : ℕ) (s : List (α × β)) :
    readEmplace (fun i j => less i.1 j.1) (do
        let key ← readKey
        let value ← readValue
        return (key, value)) (n + 1) s = (do
      let key ← readKey
      let value ← readValue
      readEmplace (fun i j => less i.1 j.1) (do
        let key ← readKey
        let value ← readValue
        return (key, value)) n (emplace (fun i j => less i.1 j.1) (key, value) s)) := by
  rw [readEmplace]
  simp only [bind_assoc, pure_bind]

/-- The entries of a map are read in their order, and an entry with another value stays in it. -/
lemma settles_readEntries {m : List (α × β)}
    (hwrites : ∀ i : α × β, serializeKey i.1 ++ serializeValue i.2 = [] ↔ w = false)
    (hsorted : m.Pairwise fun i j => less i.1 j.1 = true)
    (h : ∀ i ∈ m, less i.1 i.1 = false ∧ Reads readKey (serializeKey i.1) i.1 ∧
      ∀ rest : List UInt8,
        Settles readValue (serializeValue i.2) i.2 rest (agrees i.2 (!rest.isEmpty)))
    (s : List (α × β)) (hs : ∀ i ∈ s, ∀ j ∈ m, less i.1 j.1 = true) (rest : List UInt8) :
    Settles (readEmplace (fun i j => less i.1 j.1) (do
        let key ← readKey
        let value ← readValue
        return (key, value)) m.length s)
      (m.flatMap fun i => serializeKey i.1 ++ serializeValue i.2) (s ++ m) rest
      (eachAgrees (fun i => agrees i.2) w m (!rest.isEmpty)) := by
  induction m generalizing s with
  | nil =>
    rw [List.append_nil]
    exact (Reads.pure s).settles rest
  | cons i m ih =>
    obtain ⟨hhead, htail⟩ := List.pairwise_cons.mp hsorted
    obtain ⟨hirrefl, hkey, hvalue⟩ := h i List.mem_cons_self
    have hlast (b : β) : emplace (fun i j => less i.1 j.1) (i.1, b) s = s ++ [(i.1, b)] :=
      emplace_append fun j hj => hs j hj i List.mem_cons_self
    have hvalue := hvalue (m.flatMap (fun i => serializeKey i.1 ++ serializeValue i.2) ++ rest)
    rw [follows_append (flatMap_eq_nil_iff hwrites m)] at hvalue
    have hrest := ih htail (fun j hj => h j (List.mem_cons_of_mem i hj)) (s ++ [i]) (by
      intro j hj k hk
      rw [List.mem_append, List.mem_singleton] at hj
      rcases hj with hj | rfl
      · exact hs j hj k (List.mem_cons_of_mem i hk)
      · exact hhead k hk)
    rw [List.append_assoc, List.singleton_append, ← hlast i.2] at hrest
    have hbytes : ((i :: m).flatMap fun i => serializeKey i.1 ++ serializeValue i.2)
        = serializeKey i.1 ++ (serializeValue i.2
          ++ m.flatMap fun i => serializeKey i.1 ++ serializeValue i.2) := by
      rw [List.flatMap_cons, List.append_assoc]
    rw [List.length_cons, readEntries_succ, hbytes]
    refine Reads.bind_settles hkey (Settles.bind hvalue hrest fun b t u hother => ?_)
    -- the entry with the other value is in the map that was read, but its key is there only once
    have hmem : (i.1, b) ∈ s ++ i :: m := by
      refine mem_readEmplace ?_ hother
      rw [hlast b]
      exact List.mem_append_right s List.mem_cons_self
    rw [List.mem_append, List.mem_cons] at hmem
    rcases hmem with hmem | hmem | hmem
    · exact absurd (hs _ hmem i List.mem_cons_self) (by rw [hirrefl]; decide)
    · exact (Prod.ext_iff.mp hmem).2
    · exact absurd (hhead _ hmem) (by rw [hirrefl]; decide)

end maps

end settles

/-! ## The operators -/

section operators

variable {lt : KeyOrder} {t k : Ty}

/-- The type reads this value back, in front of any bytes, exactly if its presence agrees. -/
def Ty.SettlesOn (lt : KeyOrder) (t : Ty) (x : t.Val) : Prop := ∀ rest : List UInt8,
  Settles (t.read lt t.default) (t.serialize x) x rest (t.presenceAgrees x (!rest.isEmpty))

lemma Ty.not_writesNothing_iff (t : Ty) (x : t.Val) :
    t.serialize x = [] ↔ (!t.writesNothing) = false := by
  rw [t.serialize_eq_nil_iff, Bool.not_eq_false']

lemma settles_seq {v : List t.Val} (hlen : v.length < 2 ^ 32) (h : ∀ x ∈ v, t.SettlesOn lt x)
    (rest : List UInt8) :
    Settles (readSize >>= fun s => readEach (t.read lt) (resize s t.default []))
      (sizeWrites v.length ++ v.flatMap t.writes).flatten v rest
      (eachAgrees t.presenceAgrees (!t.writesNothing) v (!rest.isEmpty)) := by
  rw [List.flatten_append, t.flatten_flatMap_writes]
  refine (reads_readSize hlen).bind_settles ?_
  rw [resize_nil]
  exact settles_readEach t.not_writesNothing_iff h rest

lemma settles_map {m : List (k.Val × t.Val)} (hlen : m.length < 2 ^ 32)
    (hsorted : m.Pairwise fun x y => lt k x.1 y.1 = true)
    (h : ∀ x ∈ m, lt k x.1 x.1 = false ∧ k.RoundTrips lt x.1 ∧ t.SettlesOn lt x.2)
    (rest : List UInt8) :
    Settles (readSize >>= fun s => readEmplace (fun x y => lt k x.1 y.1) (do
        let x ← k.read lt k.default
        let y ← t.read lt t.default
        return (x, y)) s [])
      (sizeWrites m.length ++ m.flatMap fun i => k.writes i.1 ++ t.writes i.2).flatten m rest
      (eachAgrees (fun i => t.presenceAgrees i.2) (!(k.writesNothing && t.writesNothing)) m
        (!rest.isEmpty)) := by
  have hflat : (m.flatMap fun i => k.writes i.1 ++ t.writes i.2).flatten
      = m.flatMap fun i => k.serialize i.1 ++ t.serialize i.2 := by
    rw [List.flatMap_def, List.flatten_flatten, List.map_map, List.flatMap_def]
    congr 2
    funext i
    exact List.flatten_append
  have hwrites : ∀ i : k.Val × t.Val, k.serialize i.1 ++ t.serialize i.2 = []
      ↔ (!(k.writesNothing && t.writesNothing)) = false := fun i => by
    rw [List.append_eq_nil_iff, k.serialize_eq_nil_iff, t.serialize_eq_nil_iff,
      Bool.not_eq_false', Bool.and_eq_true]
  rw [List.flatten_append, hflat]
  exact (reads_readSize hlen).bind_settles
    (settles_readEntries hwrites hsorted h [] (by simp) rest)

lemma settles_array {n : ℕ} {v : Fin n → t.Val} (h : ∀ i, t.SettlesOn lt (v i))
    (rest : List UInt8) :
    Settles (readArray (t.read lt) n fun _ => t.default)
      ((List.ofFn v).flatMap t.writes).flatten v rest
      (eachAgrees t.presenceAgrees (!t.writesNothing) (List.ofFn v) (!rest.isEmpty)) := by
  rw [t.flatten_flatMap_writes]
  exact settles_readArray t.not_writesNothing_iff h rest

lemma settles_cArray {n : UInt32} {v : Fin n.toNat → t.Val} (h : ∀ i, t.SettlesOn lt (v i))
    (rest : List UInt8) :
    Settles (readSize >>= fun s => checkThat (n.toNat = s) >>= fun _ =>
        readArray (t.read lt) n.toNat fun _ => t.default)
      (sizeWrites n.toNat ++ (List.ofFn v).flatMap t.writes).flatten v rest
      (eachAgrees t.presenceAgrees (!t.writesNothing) (List.ofFn v) (!rest.isEmpty)) := by
  rw [List.flatten_append]
  exact (reads_readSize n.toNat_lt).bind_settles
    ((reads_checkThat (by simp)).bind_settles (settles_array h rest))

lemma settles_optional {v : Option t.Val} (h : ∀ x, v = some x → t.SettlesOn lt x)
    (rest : List UInt8) :
    Settles (do
      let valid ← readBytes 1
      if valid = [0] then return none
      else do
        let x ← t.read lt t.default
        return some x)
      (match v with
        | some x => [1] :: t.writes x
        | none => [[0]]).flatten v rest
      (Ty.presenceAgrees (.optional t) v (!rest.isEmpty)) := by
  cases v with
  | none =>
    exact (Reads.bind (reads_readBytes (show [(0 : UInt8)].length = 1 from rfl))
      (.pure none)).settles rest
  | some x =>
    have hread : Settles (do let x ← t.read lt t.default; return some x) (t.serialize x) (some x)
        rest (t.presenceAgrees x (!rest.isEmpty)) :=
      (h x rfl rest).map (Option.some_injective t.Val)
    exact Reads.bind_settles (reads_readBytes (show [(1 : UInt8)].length = 1 from rfl)) hread

lemma settles_variant {n : ℕ} {alts : Fin (n + 1) → Ty} {v : Σ i : Fin (n + 1), (alts i).Val}
    (hindex : (v.1 : ℕ) < 2 ^ 31) (h : (alts v.1).SettlesOn lt v.2) (rest : List UInt8) :
    Settles (Varint.readUnsigned >>= deserialize fun i => (alts i).read lt (alts i).default)
      (sizeWrites v.1 ++ (alts v.1).writes v.2).flatten v rest
      ((alts v.1).presenceAgrees v.2 (!rest.isEmpty)) := by
  have hsize : Reads Varint.readUnsigned (Varint.writeUnsigned (UInt32.ofNat v.1))
      (UInt32.ofNat v.1) := fun s => Varint.readUnsigned_writeUnsigned _ s
  rw [List.flatten_append, sizeWrites, flatten_singletons]
  refine hsize.bind_settles ?_
  rw [deserialize_ofNat _ hindex]
  exact (h rest).map sigma_mk_injective

/-- Two values one behind the other: bytes follow the first one if the second one writes any. -/
lemma settles_pair {v : k.Val × t.Val} (hk : k.SettlesOn lt v.1) (ht : t.SettlesOn lt v.2)
    (rest : List UInt8) :
    Settles (do
      let x ← k.read lt k.default
      let y ← t.read lt t.default
      return (x, y)) (k.writes v.1 ++ t.writes v.2).flatten v rest
      (k.presenceAgrees v.1 (!t.writesNothing || !rest.isEmpty)
        && t.presenceAgrees v.2 (!rest.isEmpty)) := by
  have hfirst := hk (t.serialize v.2 ++ rest)
  rw [follows_append (t.not_writesNothing_iff v.2)] at hfirst
  have hsecond := (ht rest).map (Prod.mk_right_injective v.1)
  rw [List.flatten_append]
  refine hfirst.bind hsecond fun a u s hread => ?_
  obtain ⟨b, _, _, hpure⟩ := reader_bind_eq_some.mp hread
  exact congrArg Prod.fst (Prod.mk.inj (Option.some.inj hpure)).1

section presence

variable {α : Type} {r : Reader α}

/-- At the end of the bytes there is no value. -/
lemma readPresent_nil : (do
    if (← remaining) ≠ 0 then do
      let x ← r
      return some x
    else return none : Reader (Option α)) [] = some (none, []) := rfl

/-- Before the end there is a value. -/
lemma readPresent_of_ne_nil {s : List UInt8} (hs : s ≠ []) : (do
    if (← remaining) ≠ 0 then do
      let x ← r
      return some x
    else return none : Reader (Option α)) s = (r >>= fun x => pure (some x)) s := by
  have hlen : s.length ≠ 0 := by rwa [ne_eq, List.length_eq_zero_iff]
  show (if s.length ≠ 0 then (r >>= fun x => pure (some x) : Reader _) else pure none) s = _
  rw [if_pos hlen]

end presence

/-- An extension is read if bytes are there, whether it was written with a value or not. -/
lemma settles_binaryExtension {v : Option t.Val} (h : ∀ x, v = some x → t.SettlesOn lt x)
    (rest : List UInt8) :
    Settles (do
      if (← remaining) ≠ 0 then do
        let x ← t.read lt t.default
        return some x
      else return none)
      (t.serialize (v.getD t.default)) v rest
      (Ty.presenceAgrees (.binaryExtension t) v (!rest.isEmpty)) := by
  have hempty : t.serialize (v.getD t.default) ++ rest = []
      ↔ (!t.writesNothing || !rest.isEmpty) = false := by
    rw [← follows_append (t.not_writesNothing_iff _), Bool.not_eq_false', List.isEmpty_iff]
  cases v with
  | none =>
    have habsent : Ty.presenceAgrees (.binaryExtension t) (none : Option t.Val) (!rest.isEmpty)
        = !(!t.writesNothing || !rest.isEmpty) := by
      show (t.writesNothing && !(!rest.isEmpty)) = _
      simp only [Bool.not_or, Bool.not_not]
    rw [habsent]
    constructor
    · intro hnone
      have hnil := hempty.mpr (by rwa [Bool.not_eq_true'] at hnone)
      rw [hnil, (List.append_eq_nil_iff.mp hnil).2]
      exact readPresent_nil
    · intro hsome u hread
      have hne : t.serialize ((none : Option t.Val).getD t.default) ++ rest ≠ [] := by
        rwa [ne_eq, hempty, Bool.not_eq_false, ← Bool.not_eq_false']
      rw [readPresent_of_ne_nil hne] at hread
      obtain ⟨x, _, _, hpure⟩ := reader_bind_eq_some.mp hread
      cases (Prod.mk.inj (Option.some.inj hpure)).1
  | some x =>
    have hread := (h x rfl rest).map (Option.some_injective t.Val)
    show Settles _ _ _ _ ((!t.writesNothing || !rest.isEmpty) && t.presenceAgrees x (!rest.isEmpty))
    by_cases hnil : t.serialize x ++ rest = []
    · rw [hempty.mp hnil, Bool.false_and]
      refine ⟨fun hc => absurd hc (by decide), fun _ u hother => ?_⟩
      rw [show t.serialize ((some x).getD t.default) ++ rest = [] from hnil, readPresent_nil]
        at hother
      cases (Prod.mk.inj (Option.some.inj hother)).1
    · have hbytes : (!t.writesNothing || !rest.isEmpty) = true := by
        rwa [← Bool.not_eq_false, ← hempty]
      rw [hbytes, Bool.true_and]
      have hthere := readPresent_of_ne_nil (r := t.read lt t.default) hnil
      exact ⟨fun hc => hthere.trans (hread.gives hc),
        fun hc u hother => hread.never hc u (hthere.symm.trans hother)⟩

end operators

/-- Every value is read back exactly if its presence agrees. -/
theorem Ty.settles (lt : KeyOrder) (t : Ty) (v : t.Val) (h : t.Extended lt v) :
    t.SettlesOn lt v := by
  induction t with
  | prim p => exact (roundTrips lt _ v h).settles
  | unsignedInt => exact (roundTrips lt _ v h).settles
  | signedInt => exact (roundTrips lt _ v h).settles
  | string => exact (roundTrips lt _ v h).settles
  | bytes => exact (roundTrips lt _ v h).settles
  | seq kind t ih => exact settles_seq h.1 fun x hx => ih x (h.2 x hx)
  | set t ih => exact (roundTrips lt _ v h).settles
  | map k t ihk iht =>
    exact settles_map h.1 h.2.1 fun x hx =>
      ⟨(h.2.2 x hx).1, roundTrips lt k x.1 (h.2.2 x hx).2.1, iht x.2 (h.2.2 x hx).2.2⟩
  | array t n ih => exact settles_array fun i => ih _ (h i)
  | cArray t n ih => exact settles_cArray fun i => ih _ (h i)
  | cArrayPrim p n => exact (roundTrips lt _ v h).settles
  | optional t ih => exact settles_optional fun x hx => ih x (h x hx)
  | variant n alts ih => exact settles_variant h.1 (ih v.1 v.2 h.2)
  | pair a b iha ihb => exact settles_pair (iha v.1 h.1) (ihb v.2 h.2)
  | empty => exact (roundTrips lt _ v h).settles
  | field a rest iha ihr => exact settles_pair (iha v.1 h.1) (ihr v.2 h.2)
  | aggregate id fields ih => exact ih v h
  | name => exact (roundTrips lt _ v h).settles
  | symbolCode => exact (roundTrips lt _ v h).settles
  | symbol => exact (roundTrips lt _ v h).settles
  | asset => exact (roundTrips lt _ v h).settles
  | extendedAsset => exact (roundTrips lt _ v h).settles
  | publicKey => exact (roundTrips lt _ v h).settles
  | signature => exact (roundTrips lt _ v h).settles
  | fixedBytes size => exact (roundTrips lt _ v h).settles
  | binaryExtension t ih => exact settles_binaryExtension fun x hx => ih x (h x hx)

/-! ## Packing and unpacking -/

lemma Ty.SettlesOn.unpack_pack {lt : KeyOrder} {t : Ty} {v : t.Val} (h : t.SettlesOn lt v)
    (hsize : (t.serialize v).length < 2 ^ 31) :
    (t.pack v).bind (t.unpack lt) = some v ↔ t.presenceAgrees v false = true := by
  rw [pack_eq hsize, Option.bind_some, unpack]
  constructor
  · intro hread
    obtain ⟨⟨x, s⟩, hx, rfl⟩ := Option.map_eq_some_iff.mp hread
    rw [← Bool.not_eq_false]
    intro hnot
    rw [← List.append_nil (t.serialize x)] at hx
    exact (h []).never hnot s hx
  · intro hagrees
    have hread := (h []).gives hagrees
    rw [List.append_nil] at hread
    rw [hread]
    rfl

/-- Extensions of these types as the last fields. -/
def Ty.extensions : List Ty → Ty
  | [] => .empty
  | t :: ts => .field (.binaryExtension t) (extensions ts)

/-- A struct of these fields and extensions behind them. -/
def Ty.structOf (id : ℕ) (fields exts : List Ty) : Ty :=
  .aggregate id (fields.foldr .field (.extensions exts))

/-- `has_value()` of each extension. -/
def hasValues : (exts : List Ty) → (Ty.extensions exts).Val → List Bool
  | [], _ => []
  | _ :: ts, (v : Option _ × (Ty.extensions ts).Val) => v.1.isSome :: hasValues ts v.2

/-- The extensions behind the fields. -/
def lastValues (exts : List Ty) :
    (fields : List Ty) → (fields.foldr .field (.extensions exts) : Ty).Val → (Ty.extensions exts).Val
  | [], v => v
  | _ :: ts, (v : _ × (ts.foldr .field (.extensions exts) : Ty).Val) => lastValues exts ts v.2

/-- For every type and value: unpacking the packed bytes gives the value exactly if each of its
extensions holds a value when bytes are written from it on, and none otherwise. -/
theorem Ty.unpack_pack_iff (lt : KeyOrder) (t : Ty) (v : t.Val) (h : t.Extended lt v)
    (hsize : (t.serialize v).length < 2 ^ 31) :
    (t.pack v).bind (t.unpack lt) = some v ↔ t.presenceAgrees v false = true :=
  (t.settles lt v h).unpack_pack hsize

/-- An integer and an extension with a value. -/
theorem Ty.unpack_pack_iff_present :
    let t : Ty := structOf 0 [.prim (.int 4)] [.prim (.int 4)]
    let v : t.Val := ((1#32, some 2#32, ()) : BitVec 32 × Option (BitVec 32) × Unit)
    (t.pack v).bind (t.unpack unsignedOrder) = some v ↔ t.presenceAgrees v false = true := by
  intro t v
  refine Ty.unpack_pack_iff unsignedOrder t v ⟨trivial, fun x _ => trivial, trivial⟩ ?_
  decide

/-- The same struct without a value is read back with the value zero. -/
theorem exists_presence_lost : ¬ ∀ (lt : KeyOrder) (id : ℕ) (fields exts : List Ty)
    (v : (Ty.structOf id fields exts).Val), (Ty.structOf id fields exts).Extended lt v →
    ((Ty.structOf id fields exts).serialize v).length < 2 ^ 31 →
    (∃ m n, hasValues exts (lastValues exts fields v)
      = List.replicate m true ++ List.replicate n false) →
    ((Ty.structOf id fields exts).pack v).bind ((Ty.structOf id fields exts).unpack lt)
      = some v := by
  intro h
  let t : Ty := .structOf 0 [.prim (.int 4)] [.prim (.int 4)]
  let v : t.Val := ((1#32, none, ()) : BitVec 32 × Option (BitVec 32) × Unit)
  have hextended : t.Extended unsignedOrder v := ⟨trivial, fun x _ => trivial, trivial⟩
  have hsize : (t.serialize v).length < 2 ^ 31 := by decide
  have hread := h unsignedOrder 0 [.prim (.int 4)] [.prim (.int 4)] v hextended hsize ⟨0, 1, rfl⟩
  have hagrees := ((t.settles unsignedOrder v hextended).unpack_pack hsize).mp hread
  exact absurd hagrees (by decide)

end UosioCdt.Core
