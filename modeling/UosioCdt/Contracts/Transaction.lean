import UosioCdt.Contracts.ActionWrapperTheorems

/-!
# Deferred transactions

`transaction::send` hands the packed transaction to the host. When it fails, the host sends the
action `onerror` with these bytes as they are, and `unpack_sent_trx` gives the transaction back.
-/

namespace UosioCdt.Contracts

open UosioCdt.Core

/-! ## Types -/

/-- `extension` -/
def extension : Ty := tuple [.prim (.int 2), .bytes]

/-- `transaction_header`: `expiration`, `ref_block_num`, `ref_block_prefix`, `max_net_usage_words`,
`max_cpu_usage_ms` and `delay_sec`. -/
def transactionHeader : Ty := .aggregate 3
  (tuple [.prim (.int 4), .prim (.int 2), .prim (.int 4), .unsignedInt, .prim (.int 1),
    .unsignedInt])

/-- `transaction`: the base class, `context_free_actions`, `actions` and
`transaction_extensions`. -/
def transaction : Ty := .aggregate 4
  (tuple [transactionHeader, .seq .vector action, .seq .vector action, .seq .vector extension])

/-- `onerror`: `sender_id` and `sent_trx` -/
def onerror : Ty := .aggregate 5 (tuple [.prim (.int 16), .bytes])

/-! ## Operations -/

/-- `transaction::send`: the bytes for `send_deferred`. -/
def sendTransaction (trx : transaction.Val) : Option (List UInt8) := transaction.pack trx

/-- `action::data_as` -/
def dataAs (lt : KeyOrder) (t : Ty) (act : action.Val) : Option t.Val := t.unpack lt act.2.2.2.1

/-- `onerror::from_current_action` -/
def fromCurrentAction (lt : KeyOrder) (h : HostBuffer) (memory : ℕ → UInt8) :
    Option onerror.Val := unpackActionData lt onerror h memory

/-- `onerror::unpack_sent_trx` -/
def unpackSentTrx (lt : KeyOrder) (e : onerror.Val) : Option transaction.Val :=
  transaction.unpack lt e.2.1

/-- The `context_free_actions` of a transaction. -/
def contextFreeActions (trx : transaction.Val) : List action.Val := trx.2.1

/-- The `actions` of a transaction. -/
def transactionActions (trx : transaction.Val) : List action.Val := trx.2.2.1

/-! ## A transaction that comes back -/

/-- A call of a wrapper with arguments that can be packed. -/
structure WrappedCall (lt : KeyOrder) where
  params : List Param
  wrapper : ActionWrapper params
  args : (deduced params).Val
  proper : (deduced params).Proper lt args
  length_lt : ((deduced params).serialize args).length < 2 ^ 31

lemma WrappedCall.dataAs_eq {lt : KeyOrder} (call : WrappedCall lt) {act : action.Val}
    (h : call.wrapper.toAction call.args = some act) :
    dataAs lt (deduced call.params) act = some call.args := by
  rw [ActionWrapper.toAction, Ty.pack_eq call.length_lt] at h
  obtain rfl := Option.some.inj h
  exact unpack_serialize call.proper

/-- The calls have made these actions, one each. -/
def Makes {lt : KeyOrder} (calls : List (WrappedCall lt)) (acts : List action.Val) : Prop :=
  List.Forall₂ (fun call act => call.wrapper.toAction call.args = some act) calls acts

/-- The arguments of the calls are read from these actions. -/
def ReadFrom {lt : KeyOrder} (calls : List (WrappedCall lt)) (acts : List action.Val) : Prop :=
  List.Forall₂ (fun call act => dataAs lt (deduced call.params) act = some call.args) calls acts

lemma Makes.readFrom {lt : KeyOrder} {calls : List (WrappedCall lt)} {acts : List action.Val}
    (h : Makes calls acts) : ReadFrom calls acts :=
  h.imp fun call _ hact => call.dataAs_eq hact

/-- The handler of `onerror` unpacks the transaction that was sent, and reads from its actions the
arguments of the calls that made them. -/
theorem onerror_unpacks (lt : KeyOrder) (trx : transaction.Val)
    (hsize : (transaction.serialize trx).length < 2 ^ 31) (contextFree calls : List (WrappedCall lt))
    (hcontextFree : Makes contextFree (contextFreeActions trx))
    (hcalls : Makes calls (transactionActions trx)) :
    ∃ bytes, sendTransaction trx = some bytes ∧
      ∀ senderId h memory, h.bytes = onerror.serialize (senderId, bytes, ()) →
        ∃ e sent, fromCurrentAction lt h memory = some e ∧ e.1 = senderId ∧
          unpackSentTrx lt e = some sent ∧ sent = trx ∧
          ReadFrom contextFree (contextFreeActions sent) ∧
          ReadFrom calls (transactionActions sent) := by
  refine ⟨transaction.serialize trx, Ty.pack_eq hsize, fun senderId h memory hbytes => ?_⟩
  refine ⟨(senderId, transaction.serialize trx, ()), trx, ?_, rfl, ?_, rfl, ?_, ?_⟩
  · rw [fromCurrentAction, unpackActionData_eq, hbytes]
    exact unpack_serialize ⟨trivial, hsize.trans (by decide), trivial⟩
  · exact unpack_serialize (Ty.proper_of_length rfl hsize)
  · exact hcontextFree.readFrom
  · exact hcalls.readFrom

/-- A call with the argument 5. -/
def callFive : WrappedCall unsignedOrder where
  params := [.value (.prim (.int 1))]
  wrapper := ⟨⟨7⟩, ⟨9⟩, []⟩
  args := (5#8, ())
  proper := ⟨trivial, trivial⟩
  length_lt := by decide

/-- A call with the argument 6. -/
def callSix : WrappedCall unsignedOrder where
  params := [.value (.prim (.int 2))]
  wrapper := ⟨⟨8⟩, ⟨9⟩, []⟩
  args := (6#16, ())
  proper := ⟨trivial, trivial⟩
  length_lt := by decide

/-- A transaction with a context-free action and an action. -/
def twoActions : transaction.Val :=
  ((0#32, 0#16, 0#32, (0 : UInt32), 0#8, (60 : UInt32), ()),
    [((⟨9⟩ : Name), (⟨8⟩ : Name), [], [6, 0], ())],
    [((⟨9⟩ : Name), (⟨7⟩ : Name), [], [5], ())], [], ())

theorem onerror_unpacks_twoActions :
    ∃ bytes, sendTransaction twoActions = some bytes ∧
      ∀ senderId h memory, h.bytes = onerror.serialize (senderId, bytes, ()) →
        ∃ e sent, fromCurrentAction unsignedOrder h memory = some e ∧ e.1 = senderId ∧
          unpackSentTrx unsignedOrder e = some sent ∧ sent = twoActions ∧
          ReadFrom [callSix] (contextFreeActions sent) ∧
          ReadFrom [callFive] (transactionActions sent) :=
  onerror_unpacks unsignedOrder twoActions (by decide) [callSix] [callFive] (.cons rfl .nil)
    (.cons rfl .nil)

end UosioCdt.Contracts
