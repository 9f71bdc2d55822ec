import MalachiteMempool.Network.Codec

/-! # The message type's own protobuf instance

`NetworkMsg` is a `Protobuf` in its own right, beside the byte path of
`to_network_bytes` and `from_network_bytes`: its proto is the `Any` inside the
batch, which `from_proto` accepts under the type URL of the batch only.
`size_bytes` measures that `Any` too, by `prost`'s separate length computation.
-/

namespace MalachiteMempool

open Wire

/-- `Name::type_url` of the generated type. -/
def Proto.MempoolTransactionBatch.typeUrl : String := "/malachite.mempool.MempoolTransactionBatch"

/-- `encoded_len` of the generated type: fields left out count for nothing. -/
def ProtoAny.encodedLen (any : ProtoAny) : Nat :=
  (if any.typeUrl = "" then 0 else Wire.encodedLen 1 (utf8 any.typeUrl).length) +
    (if any.value = [] then 0 else Wire.encodedLen 2 any.value.length)

namespace Network.NetworkMsg

def fromProto (proto : ProtoAny) : Except ProtoError NetworkMsg :=
  if proto.typeUrl = Proto.MempoolTransactionBatch.typeUrl then .ok (.transactionBatch ⟨proto⟩)
  else .error (.other ("Unknown type URL: " ++ proto.typeUrl))

def toProto : NetworkMsg → Except ProtoError ProtoAny
  | .transactionBatch batch => .ok batch.transactionBatch

def sizeBytes : NetworkMsg → Nat
  | .transactionBatch batch => batch.transactionBatch.encodedLen

end Network.NetworkMsg

open Network.NetworkMsg

/-! ## Round trip -/

/-- Nothing is wrapped or unwrapped, so the type URL of the transaction decides. -/
theorem fromProto_toProto (batch : MempoolTransactionBatch) :
    (toProto (.transactionBatch batch)).bind fromProto =
      if batch.transactionBatch.typeUrl = Proto.MempoolTransactionBatch.typeUrl then
        .ok (.transactionBatch batch)
      else .error (.other ("Unknown type URL: " ++ batch.transactionBatch.typeUrl)) := rfl

/-- A message goes through `to_proto` and `from_proto` exactly when the `Any`
    inside it has the type URL of the batch around it.  What a mempool gossips
    never has. -/
theorem proto_round_trip_iff (batch : MempoolTransactionBatch) :
    ((toProto (.transactionBatch batch)).bind fromProto = .ok (.transactionBatch batch) ↔
      batch.transactionBatch.typeUrl = Proto.MempoolTransactionBatch.typeUrl) ∧
    ∀ (env : Env) (tx : RawTx), .broadcast batch ∈ gossipTx env tx →
      (toProto (.transactionBatch batch)).bind fromProto =
        .error (.other "Unknown type URL: mempool.transaction") := by
  rw [fromProto_toProto]
  constructor
  · constructor
    · intro accepted
      by_contra other
      rw [if_neg other] at accepted
      cases accepted
    · intro same
      exact if_pos same
  · intro env tx gossiped
    obtain rfl := gossipTx_batch gossiped
    have other : (batchOf tx).transactionBatch.typeUrl ≠ Proto.MempoolTransactionBatch.typeUrl := by
      change "mempool.transaction" ≠ _
      decide
    rw [if_neg other, batchOf]
    rfl

/-- A gossiped transaction arrives, and `from_proto` refuses it. -/
theorem gossiped_transaction_refused :
    ∃ bytes, toNetworkBytes (.transactionBatch (batchOf ⟨[7]⟩)) = .ok bytes ∧
      ∃ msg, fromNetworkBytes bytes = .ok msg ∧ msg.toProto.bind fromProto ≠ .ok msg := by
  have encoded : toNetworkBytes (.transactionBatch (batchOf ⟨[7]⟩)) =
      .ok (encodeLen 1 (batchOf ⟨[7]⟩).transactionBatch.encode) := rfl
  have decoded := fromNetworkBytes_toNetworkBytes _ encoded (by decide +kernel)
  refine ⟨_, encoded, _, decoded, ?_⟩
  rw [fromProto_toProto, if_neg (by decide)]
  intro accepted
  cases accepted

/-! ## Size -/

theorem ProtoAny.encodedLen_le (any : ProtoAny) : any.encodedLen ≤ any.encode.length := by
  unfold ProtoAny.encodedLen ProtoAny.encode
  rw [List.length_append]
  apply Nat.add_le_add
  · split
    · exact Nat.zero_le _
    · exact Wire.encodedLen_le (by decide) (by decide) _
  · split
    · exact Nat.zero_le _
    · exact Wire.encodedLen_le (by decide) (by decide) _

theorem ProtoAny.encodedLen_eq (any : ProtoAny) (fits : any.encode.length < 2 ^ 64) :
    any.encodedLen = any.encode.length := by
  unfold ProtoAny.encodedLen
  unfold ProtoAny.encode at fits ⊢
  rw [List.length_append] at fits ⊢
  congr 1
  · split at fits
    · rename_i empty
      simp [empty]
    · rename_i present
      have written := length_le_encodeLen 1 (utf8 any.typeUrl)
      rw [if_neg present, if_neg present]
      exact Wire.encodedLen_eq (by decide) (by decide) (by omega)
  · have written := ProtoAny.length_value_le any.value
    split
    · rfl
    · exact Wire.encodedLen_eq (by decide) (by decide) (by omega)

/-- `size_bytes` is always too small: it leaves out the key and the length that
    put the `Any` into the batch, and nothing else. -/
theorem sizeBytes_too_small (msg : Network.NetworkMsg) :
    ∃ bytes, msg.toNetworkBytes = .ok bytes ∧ msg.sizeBytes ≠ bytes.length ∧
      (bytes.length < 2 ^ 64 → bytes.length = Wire.encodedLen 1 msg.sizeBytes) := by
  obtain ⟨⟨any⟩⟩ := msg
  refine ⟨encodeLen 1 any.encode, rfl, ?_, ?_⟩
  · have measured := any.encodedLen_le
    have wrapped := lt_length_encodeLen 1 any.encode
    exact Nat.ne_of_lt (Nat.lt_of_le_of_lt measured wrapped)
  · intro fits
    have anyFits : any.encode.length < 2 ^ 64 :=
      Nat.lt_of_le_of_lt (length_le_encodeLen 1 any.encode) fits
    change _ = Wire.encodedLen 1 any.encodedLen
    rw [any.encodedLen_eq anyFits]
    exact (Wire.encodedLen_eq (by decide) (by decide) anyFits).symm

/-- An empty batch is two bytes long and measures nothing. -/
theorem empty_batch_size :
    toNetworkBytes (.transactionBatch ⟨ProtoAny.default⟩) = .ok [10, 0] ∧
      sizeBytes (.transactionBatch ⟨ProtoAny.default⟩) = 0 ∧ 0 ≠ [10, 0].length := by
  exact ⟨rfl, rfl, by decide⟩

end MalachiteMempool
