import UosioCdt.Contracts.ActionWrapper
import UosioCdt.Contracts.HostBuffersTheorems
import UosioCdt.Core.BoundedBySize

/-!
# Theorems: an action from its sender to its handler

`Received` is the same for a stub and for `execute_action`: the arguments are read off the data of
the action. When the ignored parameters come last, the handler gets the arguments that were sent,
and the ignored ones stand in its datastream.
-/

namespace UosioCdt.Contracts

open UosioCdt.Core

/-! ## What a handler should receive -/

/-- The ignored parameters come last. -/
def IgnoredLast : List Param → Prop
  | [] => True
  | .value _ :: ps => IgnoredLast ps
  | .ignore _ :: ps => ∀ p ∈ ps, ∃ t, p = .ignore t

/-- The arguments as the handler gets them: an ignored one has no value. -/
def handlerArgs : (ps : List Param) → (deduced ps).Val → (deducedNounwrap ps).Val
  | [], _ => ()
  | .value _ :: ps, (args : Ty.Val _ × (deduced ps).Val) => (args.1, handlerArgs ps args.2)
  | .ignore _ :: ps, (args : Ty.Val _ × (deduced ps).Val) => ((), handlerArgs ps args.2)

/-- The types of the ignored parameters. -/
def ignoredTypes : List Param → List Ty
  | [] => []
  | .value _ :: ps => ignoredTypes ps
  | .ignore t :: ps => t :: ignoredTypes ps

/-- The ignored arguments. -/
def ignoredArgs : (ps : List Param) → (deduced ps).Val → (tuple (ignoredTypes ps)).Val
  | [], _ => ()
  | .value _ :: ps, (args : Ty.Val _ × (deduced ps).Val) => ignoredArgs ps args.2
  | .ignore _ :: ps, (args : Ty.Val _ × (deduced ps).Val) => (args.1, ignoredArgs ps args.2)

/-! ## Reading the arguments -/

section read

variable {lt : KeyOrder} {ps : List Param}

/-- The tuple of the arguments is read in the order of the stub. -/
lemma read_deducedNounwrap (lt : KeyOrder) (ps : List Param) :
    (deducedNounwrap ps).read lt (deducedNounwrap ps).default = readArgs lt ps := by
  induction ps with
  | nil => rfl
  | cons p ps ih =>
    change (do
      let arg ← p.type.read lt p.type.default
      let args ← (deducedNounwrap ps).read lt (deducedNounwrap ps).default
      return (arg, args)) = _
    rw [ih]
    rfl

lemma proper_ignoredArgs {args : (deduced ps).Val} (h : (deduced ps).Proper lt args) :
    (tuple (ignoredTypes ps)).Proper lt (ignoredArgs ps args) := by
  induction ps with
  | nil => trivial
  | cons p ps ih =>
    cases p with
    | value t => exact ih h.2
    | ignore t => exact ⟨h.1, ih h.2⟩

/-- Ignored parameters take no bytes. -/
lemma readArgs_ignored (lt : KeyOrder) (hps : ∀ p ∈ ps, ∃ t, p = .ignore t) (args : (deduced ps).Val)
    (bytes : List UInt8) :
    readArgs lt ps bytes = some (handlerArgs ps args, bytes) ∧
      (deduced ps).serialize args = (tuple (ignoredTypes ps)).serialize (ignoredArgs ps args) := by
  induction ps with
  | nil => exact ⟨rfl, rfl⟩
  | cons p ps ih =>
    obtain ⟨t, rfl⟩ := hps p List.mem_cons_self
    obtain ⟨hread, hbytes⟩ := ih (fun q hq => hps q (List.mem_cons_of_mem _ hq)) args.2
    constructor
    · change (readArgs lt ps bytes).bind _ = _
      rw [hread]
      rfl
    · exact (serialize_field t (deduced ps) args).trans
        ((congrArg (t.serialize args.1 ++ ·) hbytes).trans
          (serialize_field t (tuple (ignoredTypes ps)) (args.1, ignoredArgs ps args.2)).symm)

/-- The arguments are read, and the ignored ones stay in the stream. -/
lemma readArgs_serialize (hlast : IgnoredLast ps) {args : (deduced ps).Val}
    (h : (deduced ps).Proper lt args) :
    readArgs lt ps ((deduced ps).serialize args)
      = some (handlerArgs ps args, (tuple (ignoredTypes ps)).serialize (ignoredArgs ps args)) := by
  induction ps with
  | nil => rfl
  | cons p ps ih =>
    cases p with
    | value t =>
      have hbytes : (deduced (.value t :: ps)).serialize args
          = t.serialize args.1 ++ (deduced ps).serialize args.2 := serialize_field t _ args
      rw [hbytes]
      change (t.read lt t.default _).bind _ = _
      rw [t.roundTrips lt args.1 h.1]
      change (readArgs lt ps _).bind _ = _
      rw [ih hlast h.2]
      rfl
    | ignore t =>
      have hignored : ∀ p ∈ Param.ignore t :: ps, ∃ t, p = .ignore t := by
        intro p hp
        rcases List.mem_cons.mp hp with rfl | hp
        · exact ⟨t, rfl⟩
        · exact hlast p hp
      obtain ⟨hread, hbytes⟩ := readArgs_ignored lt hignored args
        ((deduced (.ignore t :: ps)).serialize args)
      rw [hread, hbytes]

end read

/-! ## Receiving -/

/-- A stub and `execute_action` hand over the same. -/
lemma runStub_eq (lt : KeyOrder) (ps : List Param) (h : HostBuffer) (memory : ℕ → UInt8) :
    runStub lt ps h memory = executeAction lt ps h memory ∧
      runStub lt ps h memory = (readArgs lt ps h.bytes).map fun r => ⟨r.1, r.2⟩ := by
  have hbuff : (if h.report 0 > 0
      then h.fill (newBuffer memory (h.report 0).toNat) (h.report 0) else []) = h.bytes := by
    split
    · exact h.fill_report memory
    · rename_i hzero
      have hsize := h.toNat_report_zero
      have hnat : (h.report 0).toNat = 0 := by
        rw [gt_iff_lt, UInt32.lt_iff_toNat_lt, UInt32.toNat_zero] at hzero
        omega
      rw [hnat] at hsize
      exact (List.eq_nil_of_length_eq_zero hsize.symm).symm
  constructor
  · rw [runStub, executeAction, read_deducedNounwrap]
  · rw [runStub]
    simp only [hbuff]
    cases readArgs lt ps h.bytes <;> rfl

/-- A handler with one parameter. -/
lemma runStub_single {lt : KeyOrder} {t : Ty} {v : t.Val} {h : HostBuffer} (hproper : t.Proper lt v)
    (hbytes : h.bytes = t.serialize v) (memory : ℕ → UInt8) :
    runStub lt [.value t] h memory = some ⟨(v, ()), []⟩ := by
  have hargs : (deduced [.value t]).Proper lt (v, ()) := ⟨hproper, trivial⟩
  have hlast : IgnoredLast [.value t] := trivial
  have hread := readArgs_serialize hlast hargs
  have hserialize : (deduced [.value t]).serialize (v, ()) = t.serialize v ++ [] :=
    serialize_field t .empty (v, ())
  rw [hserialize, List.append_nil] at hread
  rw [(runStub_eq lt _ h memory).2, hbytes, hread]
  rfl

/-! ## Variants -/

/-- The index and the tuple that a `variant_action_wrapper` packs are what a handler reads as a
variant of the tuples. -/
theorem variant_received {n : ℕ} {methods : Fin (n + 1) → List Param}
    (w : VariantActionWrapper methods) (variant : Fin (n + 1)) (hlt : (variant : ℕ) < 2 ^ 31)
    (lt : KeyOrder) (args : (deduced (methods variant)).Val)
    (hproper : (deduced (methods variant)).Proper lt args)
    (hsize : ((Ty.variant n fun i => deduced (methods i)).serialize ⟨variant, args⟩).length
      < 2 ^ 31) :
    ∃ data, w.toAction variant args
        = some (w.codeName, w.actionName, w.permissions, data, ()) ∧
      ∀ h memory, h.bytes = data →
        runStub lt [.value (.variant n fun i => deduced (methods i))] h memory
          = some ⟨(⟨variant, args⟩, ()), []⟩ := by
  refine ⟨(Ty.variant n fun i => deduced (methods i)).serialize ⟨variant, args⟩, ?_, ?_⟩
  · have hpack : (Ty.field .unsignedInt (deduced (methods variant))).pack
        (UInt32.ofNat variant, args)
        = some ((Ty.variant n fun i => deduced (methods i)).serialize ⟨variant, args⟩) :=
      Ty.pack_eq hsize
    rw [VariantActionWrapper.toAction, hpack]
    rfl
  · exact fun h memory hbytes =>
      runStub_single (t := .variant n fun i => deduced (methods i)) (v := ⟨variant, args⟩)
        ⟨hlt, hproper⟩ hbytes memory

/-- A method with a string, and one with an `int`. -/
def twoMethods : Fin 2 → List Param
  | 0 => [.value .string]
  | 1 => [.value (.prim (.int 4))]

theorem variant_received_second :
    ∃ data, (⟨⟨7⟩, ⟨9⟩, []⟩ : VariantActionWrapper twoMethods).toAction 1 (5#32, ())
        = some (⟨9⟩, ⟨7⟩, [], data, ()) ∧
      ∀ h memory, h.bytes = data →
        runStub unsignedOrder [.value (.variant 1 fun i => deduced (twoMethods i))] h memory
          = some ⟨(⟨1, (5#32, ())⟩, ()), []⟩ :=
  variant_received (⟨⟨7⟩, ⟨9⟩, []⟩ : VariantActionWrapper twoMethods) 1 (by decide) unsignedOrder
    (5#32, ()) ⟨trivial, trivial⟩ (by decide)

end UosioCdt.Contracts
