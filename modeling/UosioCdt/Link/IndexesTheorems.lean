import UosioCdt.Link.Indexes

/-!
# Theorems: the index spaces of a linked contract

The sections of the output number functions, globals, types and slots of the table by their places.
The indices of the linker are these places, so that the calls of the output reach what the object
files call.
-/

namespace UosioCdt.Link

open Dispatch Gc Interning

/-! ## Numbering -/

/-- Numbers are given out in the order of the list. -/
lemma numbered {ι : Type} [DecidableEq ι] {l : List ι} (hl : l.Nodup) (p : ι → Bool)
    (st : Gc.Link.Indexes ι) :
    (l.foldl (fun st x => if p x then st.assign x else st) st).counter
        = st.counter + UInt32.ofNat (l.filter p).length ∧
      (∀ j x, (l.filter p)[j]? = some x →
        (l.foldl (fun st x => if p x then st.assign x else st) st).index x
          = some (st.counter + UInt32.ofNat j)) ∧
      ∀ x, x ∉ l.filter p →
        (l.foldl (fun st x => if p x then st.assign x else st) st).index x = st.index x := by
  induction l generalizing st with
  | nil =>
    refine ⟨(UInt32.add_zero _).symm, fun j x hx => ?_, fun x _ => rfl⟩
    cases hx
  | cons y l ih =>
    obtain ⟨hy, hl⟩ := List.nodup_cons.mp hl
    by_cases hp : p y = true
    · obtain ⟨hcounter, hindex, hothers⟩ := ih hl (st.assign y)
      have hnext : ∀ j, (st.assign y).counter + UInt32.ofNat j
          = st.counter + UInt32.ofNat (j + 1) := by
        intro j
        rw [Nat.add_comm j 1, UInt32.ofNat_add, ← UInt32.add_assoc]
        rfl
      rw [List.foldl_cons, if_pos hp, List.filter_cons_of_pos hp]
      refine ⟨hcounter.trans (hnext _), fun j x hx => ?_, fun x hx => ?_⟩
      · cases j with
        | zero =>
          obtain rfl := Option.some.inj hx
          rw [hothers _ fun hmem => hy (List.mem_filter.mp hmem).1]
          simp [Gc.Link.Indexes.assign]
        | succ j => exact (hindex j x hx).trans (congrArg some (hnext j))
      · rw [hothers x fun hmem => hx (List.mem_cons_of_mem _ hmem)]
        have hne : x ≠ y := fun heq => hx (List.mem_cons.mpr (.inl heq))
        exact Function.update_of_ne hne _ _
    · rw [List.foldl_cons, if_neg hp, List.filter_cons_of_neg hp]
      exact ih hl st

/-- A number leads back to the place in the list. -/
lemma numbered_place {ι : Type} [DecidableEq ι] {l : List ι} (hl : l.Nodup) (p : ι → Bool)
    {c : UInt32} (hc : c.toNat + (l.filter p).length < 2 ^ 32) {x : ι} {i : UInt32}
    (hi : (l.foldl (fun st x => if p x then Gc.Link.Indexes.assign st x else st)
      ⟨c, fun _ => none⟩).index x = some i) :
    ∃ j, (l.filter p)[j]? = some x ∧ i.toNat = c.toNat + j := by
  obtain ⟨-, hindex, hothers⟩ := numbered hl p ⟨c, fun _ => none⟩
  by_cases hx : x ∈ l.filter p
  · obtain ⟨j, hj⟩ := List.mem_iff_getElem?.mp hx
    have hlt := (List.getElem?_eq_some_iff.mp hj).1
    have heq : i = c + UInt32.ofNat j := Option.some.inj (hi.symm.trans (hindex j x hj))
    refine ⟨j, hj, ?_⟩
    rw [heq, UInt32.toNat_add, UInt32.toNat_ofNat']
    omega
  · rw [hothers x hx] at hi
    cases hi

/-- Two lists that are numbered one after the other: a number is the place in both together. -/
lemma numbered_places {ι τ β : Type} [DecidableEq ι] [DecidableEq τ] {l : List ι} {l' : List τ}
    (hl : l.Nodup) (hl' : l'.Nodup) (p : ι → Bool) (p' : τ → Bool) (f : ι → β) (g : τ → β)
    {st : Gc.Link.Indexes ι}
    (hst : st = l.foldl (fun st x => if p x then st.assign x else st) ⟨0, fun _ => none⟩)
    (hlt : ((l.filter p).map f ++ (l'.filter p').map g).length < 2 ^ 32) {i : UInt32} :
    (∀ x, st.index x = some i →
      ((l.filter p).map f ++ (l'.filter p').map g)[i.toNat]? = some (f x)) ∧
    ∀ y, (l'.foldl (fun st y => if p' y then Gc.Link.Indexes.assign st y else st)
        ⟨st.counter, fun _ => none⟩).index y = some i →
      ((l.filter p).map f ++ (l'.filter p').map g)[i.toNat]? = some (g y) := by
  rw [List.length_append, List.length_map, List.length_map] at hlt
  have hcounter : st.counter.toNat = (l.filter p).length := by
    have hsum : st.counter = 0 + UInt32.ofNat (l.filter p).length :=
      hst ▸ (numbered hl p ⟨0, fun _ => none⟩).1
    rw [hsum, UInt32.zero_add, UInt32.toNat_ofNat']
    omega
  constructor
  · intro x hx
    subst hst
    obtain ⟨j, hj, hplace⟩ := numbered_place hl p (c := 0) (by rw [UInt32.toNat_zero]; omega) hx
    have hin := (List.getElem?_eq_some_iff.mp hj).1
    rw [hplace, UInt32.toNat_zero, Nat.zero_add,
      List.getElem?_append_left (by rw [List.length_map]; exact hin), List.getElem?_map]
    exact congrArg (Option.map f) hj
  · intro y hy
    obtain ⟨j, hj, hplace⟩ := numbered_place hl' p' (by rw [hcounter]; exact hlt) hy
    rw [hplace, hcounter, List.getElem?_append_right (by rw [List.length_map]; omega),
      List.length_map, Nat.add_sub_cancel_left, List.getElem?_map]
    exact congrArg (Option.map g) hj

namespace Input

variable {σ κ γ : Type}

/-- What is there stays: the indices that have been given out, and the types. -/
structure Grows (st st' : State σ κ) : Prop where
  table : ∀ func, (st.tableIndex func).isSome → st'.tableIndex func = st.tableIndex func
  typeMap : ∀ n index, (st.typeMap n index).isSome → (st'.typeMap n index).isSome
  types : st.types <+: st'.types

lemma grows_refl (st : State σ κ) : Grows st st :=
  ⟨fun _ _ => rfl, fun _ _ h => h, List.prefix_rfl⟩

lemma Grows.trans {st st' st'' : State σ κ} (h : Grows st st') (h' : Grows st' st'') :
    Grows st st'' where
  table func hfunc := by
    rw [h'.table func (by rwa [h.table func hfunc]), h.table func hfunc]
  typeMap n index hmap := h'.typeMap n index (h.typeMap n index hmap)
  types := h.types.trans h'.types

variable [DecidableEq σ] [DecidableEq κ] [DecidableEq γ] {I : Input σ κ γ}

/-- The functions and globals have numbers of 32 bits. -/
structure Small (I : Input σ κ γ) : Prop where
  functions : I.functionSection.length < 2 ^ 32
  globals : I.globalSection.length < 2 ^ 32

/-- The index of a function is its place in the sections. -/
lemma functionSection_getFunctionIndex (h : I.Small) {sym : σ} {i : UInt32}
    (hi : I.link.getFunctionIndex sym = some i) :
    I.functionSection[i.toNat]? = some (I.target sym, I.lookupType (I.signature (I.target sym))) := by
  obtain ⟨himported, hdefined⟩ := numbered_places I.symbols_nodup I.functions_nodup
    I.link.isImportedFunction I.link.live
    (fun sym => ((.inr sym : κ ⊕ σ), I.lookupType (I.signature (.inr sym))))
    (fun func => (.inl func, I.lookupType (I.signature (.inl func)))) rfl h.functions (i := i)
  unfold Gc.Link.getFunctionIndex at hi
  unfold target functionOf
  cases hk : I.link.kind sym with
  | definedFunction func =>
    rw [hk] at hi
    exact hdefined func hi
  | _ =>
    rw [hk] at hi
    exact himported sym hi

lemma call_getFunctionIndex (h : I.Small) {sym : σ} {i : UInt32}
    (hi : I.link.getFunctionIndex sym = some i) : I.call i = some (I.target sym) := by
  rw [call, functionSection_getFunctionIndex h hi]
  rfl

/-- The index of a global is its place in the sections. -/
lemma globalSection_getGlobalIndex (h : I.Small) {sym : σ} {i : UInt32}
    (hi : I.getGlobalIndex sym = some i) : I.globalSection[i.toNat]? = some (I.targetGlobal sym) := by
  obtain ⟨himported, hdefined⟩ := numbered_places I.symbols_nodup I.globals_nodup
    I.isImportedGlobal I.globalLive Sum.inl Sum.inr rfl h.globals (i := i)
  unfold getGlobalIndex at hi
  unfold targetGlobal
  cases hk : I.link.kind sym with
  | definedGlobal global =>
    rw [hk] at hi
    exact hdefined global hi
  | _ =>
    rw [hk] at hi
    exact himported sym hi

/-! ## The table and the types -/

/-- What `HandleRelocs` and `calculateTypes` keep: a table index from here is the slot of the function,
and a mapped type is the signature of the object file. -/
structure Consistent (I : Input σ κ γ) (st : State σ κ) : Prop where
  next : st.nextIndex = st.indirectFunctions.length + kInitialTableOffset
  kept : ∀ func slot, I.tableIndex func = some slot → st.tableIndex func = some slot
  table : ∀ func slot, st.tableIndex func = some slot → I.tableIndex func = some slot ∨
    I.tableIndex func = none ∧ ∃ j sym, st.indirectFunctions[j]? = some sym ∧
      I.target sym = func ∧ slot = j + kInitialTableOffset
  slots : ∀ j sym, st.indirectFunctions[j]? = some sym →
    st.tableIndex (I.target sym) = some (j + kInitialTableOffset) ∧
      (I.link.getFunctionIndex sym).isSome
  types : ∀ n index type, st.typeMap n index = some type → ∃ file sig,
    I.files[n]? = some file ∧ file.types[index]? = some sig ∧ st.types[type]? = some sig

variable {st : State σ κ}

lemma consistent_initial : I.Consistent I.initial where
  next := rfl
  kept _ _ h := h
  table _ _ h := .inl h
  slots j sym h := by cases h
  types n index type h := by cases h

/-- A function gets a slot of its own. -/
lemma Consistent.addIndirect (h : I.Consistent st) (sym : σ) :
    I.Consistent (I.addIndirect st sym) ∧ Grows st (I.addIndirect st sym) ∧
      ((I.link.getFunctionIndex sym).isSome →
        ((I.addIndirect st sym).tableIndex (I.target sym)).isSome) := by
  unfold Input.addIndirect
  split
  · rename_i hskip
    refine ⟨h, grows_refl st, fun hindex => ?_⟩
    rw [Bool.or_eq_true] at hskip
    rcases hskip with hslot | hnone
    · exact hslot
    · rw [Option.isNone_iff_eq_none] at hnone
      rw [hnone] at hindex
      cases hindex
  · rename_i hnew
    rw [Bool.or_eq_true, not_or, Bool.not_eq_true, Bool.not_eq_true] at hnew
    obtain ⟨hslot, hindex⟩ := hnew
    rw [Option.isSome_eq_false_iff, Option.isNone_iff_eq_none] at hslot
    have hnext := h.next
    have hother : ∀ func slot, st.tableIndex func = some slot → func ≠ I.target sym := by
      intro func slot hfunc heq
      rw [heq, hslot] at hfunc
      cases hfunc
    have hupdate : ∀ func slot, st.tableIndex func = some slot →
        Function.update st.tableIndex (I.target sym) (some st.nextIndex) func = some slot :=
      fun func slot hfunc => (Function.update_of_ne (hother func slot hfunc) _ _).trans hfunc
    have hself : Function.update st.tableIndex (I.target sym) (some st.nextIndex) (I.target sym)
        = some st.nextIndex := Function.update_self _ _ _
    refine ⟨⟨?_, ?_, ?_, ?_, h.types⟩, ⟨?_, fun _ _ hmap => hmap, List.prefix_rfl⟩, fun _ => ?_⟩
    · simp only [List.length_append, List.length_singleton]
      omega
    · exact fun func slot hfunc => hupdate func slot (h.kept func slot hfunc)
    · intro func slot hfunc
      change Function.update st.tableIndex (I.target sym) (some st.nextIndex) func = some slot at hfunc
      by_cases hfn : func = I.target sym
      · rw [hfn, hself] at hfunc
        have hinitial : I.tableIndex func = none := by
          by_contra hne
          obtain ⟨k, hk⟩ := Option.ne_none_iff_exists'.mp hne
          exact hother func k (h.kept func k hk) hfn
        refine .inr ⟨hinitial, st.indirectFunctions.length, sym, ?_, hfn.symm, ?_⟩
        · simp
        · rw [← hnext]
          exact (Option.some.inj hfunc).symm
      · rw [Function.update_of_ne hfn] at hfunc
        rcases h.table func slot hfunc with hold | ⟨hinitial, j, s, hj, hs, hplace⟩
        · exact .inl hold
        · exact .inr ⟨hinitial, j, s, getElem?_of_prefix (List.prefix_append _ _) hj, hs, hplace⟩
    · intro j s hs
      rcases Nat.lt_or_ge j st.indirectFunctions.length with hlt | hge
      · rw [List.getElem?_append_left hlt] at hs
        obtain ⟨hplace, hindexed⟩ := h.slots j s hs
        exact ⟨hupdate _ _ hplace, hindexed⟩
      · rw [List.getElem?_append_right hge, List.getElem?_singleton] at hs
        split at hs
        · rename_i hzero
          obtain rfl := Option.some.inj hs
          refine ⟨hself.trans ?_, ?_⟩
          · rw [hnext, show j = st.indirectFunctions.length by omega]
          · rw [← Option.not_isNone, hindex]
            rfl
        · cases hs
    · intro func hfunc
      obtain ⟨slot, hslot'⟩ := Option.isSome_iff_exists.mp hfunc
      exact (hupdate func slot hslot').trans hslot'.symm
    · exact congrArg Option.isSome hself

/-- A type of the object file is in the type section. -/
lemma Consistent.mapType (h : I.Consistent st) {n index : ℕ} {file : TypedFile σ κ γ}
    {sig : WasmSignature} (hfile : I.files[n]? = some file) (hsig : file.types[index]? = some sig) :
    I.Consistent (mapType st n index sig) ∧ Grows st (mapType st n index sig) ∧
      ((mapType st n index sig).typeMap n index).isSome := by
  have hself : (Input.mapType st n index sig).typeMap n index
      = some ((intern st.types sig).idxOf sig) := by
    simp [Input.mapType]
  have hother : ∀ m k, (m, k) ≠ (n, index) →
      (Input.mapType st n index sig).typeMap m k = st.typeMap m k := by
    intro m k hne
    simp only [Input.mapType]
    by_cases hm : m = n
    · subst hm
      have hk : k ≠ index := fun heq => hne (by rw [heq])
      rw [Function.update_self, Function.update_of_ne hk]
    · rw [Function.update_of_ne hm]
  refine ⟨⟨h.next, h.kept, h.table, h.slots, fun m k type htype => ?_⟩,
    ⟨fun _ _ => rfl, fun m k hmap => ?_, prefix_intern _ _⟩, ?_⟩
  · by_cases heq : (m, k) = (n, index)
    · obtain ⟨rfl, rfl⟩ := Prod.mk.inj heq
      rw [hself] at htype
      obtain rfl := Option.some.inj htype
      exact ⟨file, sig, hfile, hsig, getElem?_intern st.types sig⟩
    · rw [hother m k heq] at htype
      obtain ⟨file', sig', hfile', hsig', hplace⟩ := h.types m k type htype
      exact ⟨file', sig', hfile', hsig', getElem?_of_prefix (prefix_intern _ _) hplace⟩
  · by_cases heq : (m, k) = (n, index)
    · obtain ⟨rfl, rfl⟩ := Prod.mk.inj heq
      rw [hself]
      rfl
    · rw [hother m k heq]
      exact hmap
  · rw [hself]
    rfl

/-! ## The passes -/

/-- The relocation has its slot or its type, once `HandleRelocs` has seen it. -/
def Handled (I : Input σ κ γ) (st : State σ κ) (n : ℕ) (file : TypedFile σ κ γ) (chunk : κ)
    (reloc : Gc.WasmRelocation) : Prop :=
  match reloc.type with
  | .tableIndexI32 | .tableIndexSleb =>
    (I.link.getFunctionIndex (I.link.getSymbol chunk reloc.index)).isSome →
      (st.tableIndex (I.target (I.link.getSymbol chunk reloc.index))).isSome
  | .typeIndexLeb => reloc.index < file.types.length → (st.typeMap n reloc.index).isSome
  | _ => True

lemma Handled.grows {st' : State σ κ} {n : ℕ} {file : TypedFile σ κ γ} {chunk : κ}
    {reloc : Gc.WasmRelocation} (h : I.Handled st n file chunk reloc) (hgrows : Grows st st') :
    I.Handled st' n file chunk reloc := by
  have hslot : ((I.link.getFunctionIndex (I.link.getSymbol chunk reloc.index)).isSome →
      (st.tableIndex (I.target (I.link.getSymbol chunk reloc.index))).isSome) →
      (I.link.getFunctionIndex (I.link.getSymbol chunk reloc.index)).isSome →
      (st'.tableIndex (I.target (I.link.getSymbol chunk reloc.index))).isSome := by
    intro hst hindex
    rw [hgrows.table _ (hst hindex)]
    exact hst hindex
  unfold Handled at h ⊢
  cases htype : reloc.type with
  | tableIndexI32 =>
    rw [htype] at h
    exact hslot h
  | tableIndexSleb =>
    rw [htype] at h
    exact hslot h
  | typeIndexLeb =>
    rw [htype] at h
    exact fun hlt => hgrows.typeMap _ _ (h hlt)
  | _ => trivial

lemma Consistent.handleReloc (h : I.Consistent st) {n : ℕ} {file : TypedFile σ κ γ}
    (hfile : I.files[n]? = some file) (chunk : κ) (reloc : Gc.WasmRelocation) :
    I.Consistent (I.handleReloc n file chunk st reloc) ∧
      Grows st (I.handleReloc n file chunk st reloc) ∧
      I.Handled (I.handleReloc n file chunk st reloc) n file chunk reloc := by
  have hindirect := h.addIndirect (I.link.getSymbol chunk reloc.index)
  unfold Input.handleReloc Handled
  cases htype : reloc.type with
  | tableIndexI32 => exact hindirect
  | tableIndexSleb => exact hindirect
  | typeIndexLeb =>
    cases hsig : file.types[reloc.index]? with
    | none =>
      refine ⟨h, grows_refl st, fun hlt => ?_⟩
      exact absurd hlt (Nat.not_lt.mpr (List.getElem?_eq_none_iff.mp hsig))
    | some sig =>
      obtain ⟨hkept, hgrows, hmapped⟩ := h.mapType hfile hsig
      exact ⟨hkept, hgrows, fun _ => hmapped⟩
  | _ => exact ⟨h, grows_refl st, trivial⟩

/-- All relocations of a live chunk. -/
lemma Consistent.handleRelocs (h : I.Consistent st) {n : ℕ} {file : TypedFile σ κ γ}
    (hfile : I.files[n]? = some file) (chunk : κ) :
    I.Consistent (I.handleRelocs n file st chunk) ∧ Grows st (I.handleRelocs n file st chunk) ∧
      (I.link.live chunk = true → ∀ reloc ∈ I.link.relocations chunk,
        I.Handled (I.handleRelocs n file st chunk) n file chunk reloc) := by
  unfold Input.handleRelocs
  split
  · obtain ⟨hkept, hgrows, hpasses⟩ := foldl_passes (l := I.link.relocations chunk) grows_refl
      (fun _ _ _ => Grows.trans) (fun reloc _ st hst =>
        ⟨(hst.handleReloc hfile chunk reloc).1, (hst.handleReloc hfile chunk reloc).2.1⟩) h
    refine ⟨hkept, hgrows, fun _ reloc hreloc => ?_⟩
    obtain ⟨st', hst', hrest⟩ := hpasses reloc hreloc
    exact (hst'.handleReloc hfile chunk reloc).2.2.grows hrest
  · rename_i hdead
    exact ⟨h, grows_refl st, fun hlive => absurd hlive hdead⟩

/-- All chunks of all object files. -/
lemma consistent_handleFiles : I.Consistent I.handleFiles ∧
    ∀ n file, I.files[n]? = some file → ∀ chunk ∈ fileChunks file, I.link.live chunk = true →
      ∀ reloc ∈ I.link.relocations chunk, I.Handled I.handleFiles n file chunk reloc := by
  have hchunks : ∀ n file, I.files[n]? = some file → ∀ st, I.Consistent st →
      I.Consistent ((fileChunks file).foldl (I.handleRelocs n file) st) ∧
      Grows st ((fileChunks file).foldl (I.handleRelocs n file) st) ∧
      ∀ chunk ∈ fileChunks file, I.link.live chunk = true → ∀ reloc ∈ I.link.relocations chunk,
        I.Handled ((fileChunks file).foldl (I.handleRelocs n file) st) n file chunk reloc := by
    intro n file hfile st hst
    obtain ⟨hkept, hgrows, hpasses⟩ := foldl_passes (l := fileChunks file) grows_refl
      (fun _ _ _ => Grows.trans) (fun chunk _ st hst =>
        ⟨(hst.handleRelocs hfile chunk).1, (hst.handleRelocs hfile chunk).2.1⟩) hst
    refine ⟨hkept, hgrows, fun chunk hchunk hlive reloc hreloc => ?_⟩
    obtain ⟨st', hst', hrest⟩ := hpasses chunk hchunk
    exact ((hst'.handleRelocs hfile chunk).2.2 hlive reloc hreloc).grows hrest
  obtain ⟨hkept, -, hpasses⟩ := foldl_passes (l := I.files.zipIdx) grows_refl
    (fun _ _ _ => Grows.trans) (fun file hfile st hst =>
      ⟨(hchunks file.2 file.1 (List.mem_zipIdx_iff_getElem?.mp hfile) st hst).1,
        (hchunks file.2 file.1 (List.mem_zipIdx_iff_getElem?.mp hfile) st hst).2.1⟩)
    consistent_initial
  refine ⟨hkept, fun n file hfile chunk hchunk hlive reloc hreloc => ?_⟩
  obtain ⟨st', hst', hrest⟩ := hpasses (file, n) (List.mem_zipIdx_iff_getElem?.mpr hfile)
  exact ((hchunks n file hfile st' hst').2.2 chunk hchunk hlive reloc hreloc).grows hrest

/-- The second pass over the types of the files. -/
lemma Consistent.fileTypes (h : I.Consistent st) {n : ℕ} {file : TypedFile σ κ γ}
    (hfile : I.files[n]? = some file) :
    I.Consistent (fileTypes n file st) ∧ Grows st (fileTypes n file st) := by
  have hstep : ∀ sig ∈ file.types.zipIdx, ∀ st : State σ κ, I.Consistent st →
      I.Consistent (if (st.typeMap n sig.2).isSome then Input.mapType st n sig.2 sig.1 else st) ∧
      Grows st (if (st.typeMap n sig.2).isSome then Input.mapType st n sig.2 sig.1 else st) := by
    intro sig hsig st hst
    have hmapped := hst.mapType hfile (List.mem_zipIdx_iff_getElem?.mp hsig)
    split
    · exact ⟨hmapped.1, hmapped.2.1⟩
    · exact ⟨hst, grows_refl st⟩
  obtain ⟨hkept, hgrows, -⟩ := foldl_passes grows_refl (fun _ _ _ => Grows.trans) hstep h
  exact ⟨hkept, hgrows⟩

lemma consistent_calculateTypes :
    I.Consistent I.calculateTypes ∧ Grows I.handleFiles I.calculateTypes := by
  obtain ⟨hkept, hgrows, -⟩ := foldl_passes (l := I.files.zipIdx) grows_refl
    (fun _ _ _ => Grows.trans) (fun file hfile st hst =>
      hst.fileTypes (List.mem_zipIdx_iff_getElem?.mp hfile)) (consistent_handleFiles (I := I)).1
  have hprefix := prefix_internAll (I.files.zipIdx.foldl
      (fun st file => Input.fileTypes file.2 file.1 st) I.handleFiles).types
    (I.importedFunctions.map (fun sym => I.signature (.inr sym)) ++
      I.inputFunctions.map fun func => I.signature (.inl func))
  refine ⟨⟨hkept.next, hkept.kept, hkept.table, hkept.slots, fun n index type htype => ?_⟩,
    ⟨hgrows.table, hgrows.typeMap, hgrows.types.trans hprefix⟩⟩
  obtain ⟨file, sig, hfile, hsig, hplace⟩ := hkept.types n index type htype
  exact ⟨file, sig, hfile, hsig, getElem?_of_prefix hprefix hplace⟩

/-- Every function has a type in the sections, and this is its signature. -/
lemma types_functionSection {func : κ ⊕ σ} {index : Option ℕ}
    (h : (func, index) ∈ I.functionSection) :
    ∃ type, index = some type ∧ I.calculateTypes.types[type]? = some (I.signature func) := by
  have hlookup : ∀ sig ∈ I.importedFunctions.map (fun sym => I.signature (.inr sym)) ++
      I.inputFunctions.map (fun func => I.signature (.inl func)),
      ∃ type, I.lookupType sig = some type ∧ I.calculateTypes.types[type]? = some sig := by
    intro sig hsig
    have hmem : sig ∈ I.calculateTypes.types := mem_internAll hsig
    exact ⟨_, if_pos hmem, List.getElem?_idxOf hmem⟩
  rcases List.mem_append.mp h with h | h
  · obtain ⟨sym, hsym, heq⟩ := List.mem_map.mp h
    obtain ⟨rfl, rfl⟩ := Prod.mk.inj heq
    exact hlookup _ (List.mem_append_left _ (List.mem_map_of_mem hsym))
  · obtain ⟨f, hf, heq⟩ := List.mem_map.mp h
    obtain ⟨rfl, rfl⟩ := Prod.mk.inj heq
    exact hlookup _ (List.mem_append_right _ (List.mem_map_of_mem hf))

/-! ## Calls -/

/-- A relocation of a live chunk of the `n`-th object file. -/
structure Relocates (I : Input σ κ γ) (n : ℕ) (file : TypedFile σ κ γ) (chunk : κ)
    (reloc : Gc.WasmRelocation) : Prop where
  fileAt : I.files[n]? = some file
  inFile : chunk ∈ fileChunks file
  live : I.link.live chunk = true
  inChunk : reloc ∈ I.link.relocations chunk

lemma Relocates.handled {n : ℕ} {file : TypedFile σ κ γ} {chunk : κ} {reloc : Gc.WasmRelocation}
    (h : I.Relocates n file chunk reloc) : I.Handled I.calculateTypes n file chunk reloc :=
  (consistent_handleFiles.2 n file h.fileAt chunk h.inFile h.live reloc h.inChunk).grows
    consistent_calculateTypes.2

/-- A slot is empty when the function had the index zero before, and has the function otherwise. -/
lemma table_getTableIndex {sym : σ} {slot : ℕ} (h : I.getTableIndex sym = some slot) :
    (I.tableIndex (I.target sym) = none ∧ ∃ s i, I.target s = I.target sym ∧
      I.link.getFunctionIndex s = some i ∧ I.table[slot]? = some (some i)) ∨
    (I.tableIndex (I.target sym)).isSome ∧ I.table[slot]? = some none := by
  have hconsistent := (consistent_calculateTypes (I := I)).1
  rcases hconsistent.table _ slot h with hinitial | ⟨hinitial, j, s, hj, hs, rfl⟩
  · refine .inr ⟨by rw [hinitial]; rfl, ?_⟩
    rw [I.tableIndex_eq_zero _ slot hinitial]
    rfl
  · obtain ⟨i, hi⟩ := Option.isSome_iff_exists.mp (hconsistent.slots j s hj).2
    refine .inl ⟨hinitial, s, i, hs, hi, ?_⟩
    rw [table, List.getElem?_append_right (by rw [List.length_replicate]; omega),
      List.length_replicate, Nat.add_sub_cancel, elemSection, List.getElem?_map, hj]
    exact congrArg some hi

omit [DecidableEq σ] [DecidableEq κ] [DecidableEq γ] in
lemma tableIndex_target (I : Input σ κ γ) (sym : σ) :
    I.link.tableIndex sym = I.tableIndex (I.target sym) := I.tableIndex_eq sym

/-- With the indices that the linker gives to the relocations, a direct call runs the function of its
symbol, and a global is the one of its symbol. Where the address of a function is taken, a function
with an index and one that is weak and undefined have a slot of the table. The slot has the function,
so that an indirect call runs it exactly when its signature is the one that the caller's object file
asks for; a function that is weak and undefined has the null slot. -/
theorem indexes_resolve (I : Input σ κ γ) (h : I.Small) :
    (∀ sym i, I.link.getFunctionIndex sym = some i → I.call i = some (I.target sym)) ∧
    (∀ sym i, I.getGlobalIndex sym = some i →
      I.globalSection[i.toNat]? = some (I.targetGlobal sym)) ∧
    ∀ n file chunk reloc, I.Relocates n file chunk reloc →
      (reloc.type = .tableIndexI32 ∨ reloc.type = .tableIndexSleb) →
    ∀ sym, I.link.getSymbol chunk reloc.index = sym →
      ((I.link.getFunctionIndex sym).isSome ∨ (I.link.tableIndex sym).isSome →
        (I.getTableIndex sym).isSome) ∧
      ∀ slot, I.getTableIndex sym = some slot →
      ∀ n' file' chunk' reloc', I.Relocates n' file' chunk' reloc' → reloc'.type = .typeIndexLeb →
      ∀ sig, file'.types[reloc'.index]? = some sig →
        ∃ type, I.typeMap n' reloc'.index = some type ∧ I.callIndirect slot type =
          if I.link.tableIndex sym = none ∧ I.signature (I.target sym) = sig
          then some (I.target sym) else none := by
  refine ⟨fun sym i => call_getFunctionIndex h, fun sym i => globalSection_getGlobalIndex h, ?_⟩
  rintro n file chunk reloc hreloc htable sym rfl
  refine ⟨fun hslot => ?_, fun slot hslot n' file' chunk' reloc' hreloc' htype sig hsig => ?_⟩
  · rcases hslot with hindex | hnull
    · have hhandled := hreloc.handled
      unfold Handled at hhandled
      rcases htable with hkind | hkind
      · rw [hkind] at hhandled
        exact hhandled hindex
      · rw [hkind] at hhandled
        exact hhandled hindex
    · -- the null slot is kept
      rw [I.tableIndex_target] at hnull
      obtain ⟨i, hi⟩ := Option.isSome_iff_exists.mp hnull
      exact Option.isSome_iff_exists.mpr
        ⟨i, (consistent_calculateTypes (I := I)).1.kept _ i hi⟩
  · have hmapped : (I.typeMap n' reloc'.index).isSome := by
      have hhandled := hreloc'.handled
      unfold Handled at hhandled
      rw [htype] at hhandled
      exact hhandled (List.getElem?_eq_some_iff.mp hsig).1
    rw [I.tableIndex_target]
    generalize I.link.getSymbol chunk reloc.index = sym at hslot
    obtain ⟨type, hmapped⟩ := Option.isSome_iff_exists.mp hmapped
    refine ⟨type, hmapped, ?_⟩
    obtain ⟨file'', sig', hfile'', hsig', hplace⟩ :=
      (consistent_calculateTypes (I := I)).1.types n' reloc'.index type hmapped
    obtain rfl := Option.some.inj (hreloc'.fileAt.symm.trans hfile'')
    obtain rfl := Option.some.inj (hsig.symm.trans hsig')
    unfold callIndirect
    rcases table_getTableIndex hslot with ⟨hinitial, s, i, hs, hi, hentry⟩ | ⟨hinitial, hentry⟩
    · have hfunction := functionSection_getFunctionIndex h hi
      obtain ⟨k, hk, hsignature⟩ := types_functionSection (List.mem_of_getElem? hfunction)
      rw [hs] at hfunction hk hsignature
      simp only [hentry, hfunction, hk, hsignature, hplace, hinitial, true_and, Option.join_some,
        Option.bind_eq_bind, Option.bind_some]
    · rw [if_neg fun hnone => by rw [hnone.1] at hinitial; cases hinitial]
      simp only [hentry, Option.join_some, Option.bind_eq_bind, Option.bind_none]

end Input

/-! ## An indirect call of an imported function -/

/-- The symbols are `__wasm_call_ctors`, `apply`, which takes the address of an imported function and
calls it, and `prints`, the imported function. The chunk of `apply` is `true`. -/
def callbackLink : Gc.Link (Fin 3) Bool Unit where
  entry := "apply".toList
  callCtors := 0
  stackPointer := ()
  find name := if name = "apply".toList then some 1 else none
  symbols := [0, 1, 2]
  kind s := if s = 2 then .undefinedFunction else .definedFunction (s = 1)
  isHidden s := s = 0
  isWeak _ := false
  isUsedInRegularObj _ := true
  tableIndex _ := none
  relocations c := if c then [⟨.tableIndexSleb, 2⟩, ⟨.typeIndexLeb, 0⟩] else []
  getSymbol _ index := if index = 2 then 2 else 1
  syntheticFunctions := [false]
  objectFiles :=
    [{ uosioActions := [], uosioNotify := [], functions := [("apply".toList, true)], segments := [],
       initFunctions := [] }]
  find_mem _ s h := by
    clear h
    revert s
    decide
  function_mem s c h := by
    revert s c
    decide
  segment_mem s c h := by
    revert s c
    decide

/-- The type of `prints` is the first one of the object file. -/
def callbackInput : Input (Fin 3) Bool Unit where
  link := callbackLink
  files :=
    [{ uosioActions := [], uosioNotify := [], functions := [("apply".toList, true)], segments := [],
       initFunctions := [], customSections := [], globals := [],
       types := [⟨[0x7f], 0x40⟩, ⟨[0x7e, 0x7e, 0x7e], 0x40⟩] }]
  syntheticGlobals := [()]
  signature func :=
    if func = .inr 2 then ⟨[0x7f], 0x40⟩
    else if func = .inl true then ⟨[0x7e, 0x7e, 0x7e], 0x40⟩
    else ⟨[], 0x40⟩
  tableIndex _ := none
  files_eq := rfl
  symbols_nodup := by decide
  functions_nodup := by decide
  globals_nodup := by decide
  tableIndex_eq _ := rfl
  tableIndex_eq_zero _ _ h := by cases h

theorem indexes_resolve_callback :
    ∃ slot type, callbackInput.getTableIndex 2 = some slot ∧ callbackInput.typeMap 0 0 = some type ∧
      callbackInput.callIndirect slot type = some (.inr 2) := by
  have hlive : callbackInput.link.live true = true := by decide
  obtain ⟨hslot, hcall⟩ := (Input.indexes_resolve callbackInput ⟨by decide, by decide⟩).2.2 0 _ true
    ⟨.tableIndexSleb, 2⟩ ⟨rfl, by decide, hlive, by decide⟩ (.inr rfl) 2 rfl
  obtain ⟨slot, hslot⟩ := Option.isSome_iff_exists.mp (hslot (.inl (by decide)))
  obtain ⟨type, htype, hrun⟩ := hcall slot hslot 0 _ true ⟨.typeIndexLeb, 0⟩
    ⟨rfl, by decide, hlive, by decide⟩ rfl ⟨[0x7f], 0x40⟩ rfl
  exact ⟨slot, type, hslot, htype, hrun⟩

end UosioCdt.Link
