import MalachiteMempool.Lib.Wire
import MalachiteMempool.Mempool

/-! # Network messages as bytes

`NetworkMsg::to_network_bytes` and `from_network_bytes`: the protobuf message of
`malachite.mempool.proto` with one field of type `google.protobuf.Any`, encoded
and decoded as `prost` does.  Fields with their default value are left out, so
an empty batch is an empty nested message, which is not the same as none.
-/

namespace MalachiteMempool

open Wire

/-- `malachitebft_proto::Error`. -/
inductive ProtoError where
  | decode (error : DecodeError)
  | missingField (field : String)
  | other (text : String)
  deriving DecidableEq, Repr

def utf8 (text : String) : Bytes := text.toByteArray.data.toList

def fromUtf8 (bytes : Bytes) : Except DecodeError String :=
  match String.fromUTF8? ⟨bytes.toArray⟩ with
  | some text => .ok text
  | none => .error .invalidString

theorem fromUtf8_utf8 (text : String) : fromUtf8 (utf8 text) = .ok text := by
  have same : (⟨(utf8 text).toArray⟩ : ByteArray) = text.toByteArray := by
    simp only [utf8, Array.toArray_toList]
  have read : String.fromUTF8? text.toByteArray = some text := dif_pos text.isValidUTF8
  rw [fromUtf8, same, read]

namespace ProtoAny

def default : ProtoAny := { typeUrl := "", value := [] }

def encode (any : ProtoAny) : Bytes :=
  (if any.typeUrl = "" then [] else encodeLen 1 (utf8 any.typeUrl)) ++
    (if any.value = [] then [] else encodeLen 2 any.value)

/-- `merge_field`, one level below the batch. -/
def mergeField : Merge ProtoAny := fun tag wireType any buf =>
  if tag = 1 then do
    checkWireType .lengthDelimited wireType
    let (bytes, rest) ← splitLength buf
    let typeUrl ← fromUtf8 bytes
    pure ({ any with typeUrl := typeUrl }, rest)
  else if tag = 2 then do
    checkWireType .lengthDelimited wireType
    let (value, rest) ← splitLength buf
    pure ({ any with value := value }, rest)
  else (skipField 99 wireType tag buf).map (fun rest => (any, rest))

end ProtoAny

namespace Proto

/-- The message of `malachite.mempool.proto`. -/
structure MempoolTransactionBatch where
  transactionBatch : Option ProtoAny
  deriving DecidableEq, Repr

namespace MempoolTransactionBatch

def default : MempoolTransactionBatch := { transactionBatch := none }

def encode (batch : MempoolTransactionBatch) : Bytes :=
  match batch.transactionBatch with
  | some any => encodeLen 1 any.encode
  | none => []

def mergeField : Merge MempoolTransactionBatch := fun tag wireType batch buf =>
  if tag = 1 then do
    checkWireType .lengthDelimited wireType
    let (any, rest) ←
      mergeNested ProtoAny.mergeField (batch.transactionBatch.getD ProtoAny.default) buf
    pure ({ batch with transactionBatch := some any }, rest)
  else (skipField 100 wireType tag buf).map (fun rest => (batch, rest))

end MempoolTransactionBatch

end Proto

namespace MempoolTransactionBatch

def fromProto (proto : Proto.MempoolTransactionBatch) :
    Except ProtoError MempoolTransactionBatch :=
  match proto.transactionBatch with
  | some any => .ok ⟨any⟩
  | none => .error (.missingField "content")

def toProto (batch : MempoolTransactionBatch) : Except ProtoError Proto.MempoolTransactionBatch :=
  .ok { transactionBatch := some batch.transactionBatch }

def fromBytes (bytes : Bytes) : Except ProtoError MempoolTransactionBatch :=
  match decode Proto.MempoolTransactionBatch.mergeField .default bytes with
  | .ok proto => fromProto proto
  | .error e => .error (.decode e)

def toBytes (batch : MempoolTransactionBatch) : Except ProtoError Bytes :=
  batch.toProto.map Proto.MempoolTransactionBatch.encode

end MempoolTransactionBatch

namespace Network.NetworkMsg

def fromNetworkBytes (bytes : Bytes) : Except ProtoError NetworkMsg :=
  (MempoolTransactionBatch.fromBytes bytes).map .transactionBatch

def toNetworkBytes : NetworkMsg → Except ProtoError Bytes
  | .transactionBatch batch => batch.toBytes

end Network.NetworkMsg

/-! ## Round trip -/

theorem ProtoAny.mergeField_typeUrl (any : ProtoAny) (text : String) (bytes rest : Bytes)
    (varint : Varint 10 bytes (utf8 text).length) :
    ProtoAny.mergeField 1 .lengthDelimited any (bytes ++ (utf8 text ++ rest)) =
      .ok ({ any with typeUrl := text }, rest) := by
  simp only [ProtoAny.mergeField, if_true, checkWireType, splitLength_append varint,
    fromUtf8_utf8, bind, Except.bind]
  rfl

theorem ProtoAny.mergeField_value (any : ProtoAny) (value bytes rest : Bytes)
    (varint : Varint 10 bytes value.length) :
    ProtoAny.mergeField 2 .lengthDelimited any (bytes ++ (value ++ rest)) =
      .ok ({ any with value := value }, rest) := by
  have second : ¬ 2 = 1 := by decide
  simp only [ProtoAny.mergeField, if_neg second, if_true, checkWireType,
    splitLength_append varint, bind, Except.bind]
  rfl

theorem ProtoAny.merges_value (typeUrl : String) {value : Bytes} (fits : value.length < 2 ^ 64) :
    Merges ProtoAny.mergeField ⟨typeUrl, []⟩ (if value = [] then [] else encodeLen 2 value)
      ⟨typeUrl, value⟩ := by
  split
  · rename_i empty
    rw [empty]
    exact Merges.nil _
  · rw [← List.append_nil (encodeLen 2 value)]
    refine Merges.encodeLen (by decide) (by decide) fits ?_ (Merges.nil _)
    intro bytes rest varint
    exact ProtoAny.mergeField_value _ value bytes rest varint

theorem ProtoAny.length_value_le (value : Bytes) :
    value.length ≤ (if value = [] then [] else encodeLen 2 value).length := by
  split
  · rename_i empty
    rw [empty]
  · exact length_le_encodeLen 2 value

/-- Both fields come back, whether they were written or left out. -/
theorem ProtoAny.merges_encode (any : ProtoAny) (fits : any.encode.length < 2 ^ 64) :
    Merges ProtoAny.mergeField ProtoAny.default any.encode any := by
  obtain ⟨typeUrl, value⟩ := any
  simp only [ProtoAny.encode, List.length_append] at fits ⊢
  have valueFits : value.length < 2 ^ 64 := by
    have written := ProtoAny.length_value_le value
    omega
  by_cases empty : typeUrl = ""
  · rw [if_pos empty, empty, List.nil_append]
    exact ProtoAny.merges_value "" valueFits
  · rw [if_neg empty] at fits ⊢
    have typeUrlFits : (utf8 typeUrl).length < 2 ^ 64 := by
      have written := length_le_encodeLen 1 (utf8 typeUrl)
      omega
    refine Merges.encodeLen (by decide) (by decide) typeUrlFits ?_
      (ProtoAny.merges_value typeUrl valueFits)
    intro bytes rest varint
    exact ProtoAny.mergeField_typeUrl _ typeUrl bytes rest varint

namespace Proto.MempoolTransactionBatch

theorem decode_encode (any : ProtoAny) (fits : (encodeLen 1 any.encode).length < 2 ^ 64) :
    decode mergeField default (encodeLen 1 any.encode) = .ok { transactionBatch := some any } := by
  have anyFits : any.encode.length < 2 ^ 64 :=
    Nat.lt_of_le_of_lt (length_le_encodeLen 1 any.encode) fits
  rw [← List.append_nil (encodeLen 1 any.encode)]
  refine (Merges.encodeLen (by decide) (by decide) anyFits ?_ (Merges.nil _)).decode
  intro bytes rest varint
  have nested := Merges.nested varint (any.merges_encode anyFits) rest
  simp only [mergeField, if_true, checkWireType, default, Option.getD_none, nested, bind,
    Except.bind]
  rfl

/-- Without field 1 nothing is ever put into the message. -/
theorem decode_without_transactionBatch {tags : List Nat} {bytes : Bytes}
    {batch : MempoolTransactionBatch} (fields : Fields tags bytes) (absent : 1 ∉ tags)
    (decoded : decode mergeField default bytes = .ok batch) : batch = default := by
  have skips : ∀ (tag : Nat) (wireType : WireType) (batch : MempoolTransactionBatch) (buf : Bytes),
      tag ∉ [1] → mergeField tag wireType batch buf =
        (skipField 100 wireType tag buf).map (fun rest => (batch, rest)) := by
    intro tag wireType batch buf unknown
    have other : ¬ tag = 1 := by simpa using unknown
    simp only [mergeField, if_neg other]
  have unknown : ∀ tag ∈ tags, tag ∉ [1] := by
    intro tag among known
    obtain rfl := List.mem_singleton.mp known
    exact absent among
  rw [decode] at decoded
  cases merged : mergeLoop mergeField 0 bytes.length default bytes with
  | error e =>
      rw [merged] at decoded
      cases decoded
  | ok read =>
      rw [merged] at decoded
      obtain rfl := Except.ok.inj decoded
      exact fields.unknown skips unknown merged

end Proto.MempoolTransactionBatch

namespace Network.NetworkMsg

theorem fromNetworkBytes_toNetworkBytes (msg : NetworkMsg) {bytes : Bytes}
    (encoded : msg.toNetworkBytes = .ok bytes) (fits : bytes.length < 2 ^ 64) :
    fromNetworkBytes bytes = .ok msg := by
  obtain ⟨batch⟩ := msg
  obtain rfl := Except.ok.inj encoded
  have decoded := Proto.MempoolTransactionBatch.decode_encode batch.transactionBatch fits
  simp only [fromNetworkBytes, MempoolTransactionBatch.fromBytes,
    Proto.MempoolTransactionBatch.encode, decoded]
  rfl

theorem fromNetworkBytes_missing {tags : List Nat} {bytes : Bytes} (fields : Fields tags bytes)
    (absent : 1 ∉ tags) : ∃ e, fromNetworkBytes bytes = .error e := by
  simp only [fromNetworkBytes, MempoolTransactionBatch.fromBytes]
  cases decoded : decode Proto.MempoolTransactionBatch.mergeField .default bytes with
  | error e => exact ⟨_, rfl⟩
  | ok batch =>
      obtain rfl :=
        Proto.MempoolTransactionBatch.decode_without_transactionBatch fields absent decoded
      exact ⟨_, rfl⟩

end Network.NetworkMsg

open Network.NetworkMsg

/-- A mempool gossips a transaction in a batch of its own. -/
theorem gossipTx_batch {env : Env} {tx : RawTx} {batch : MempoolTransactionBatch}
    (gossiped : .broadcast batch ∈ gossipTx env tx) : batch = batchOf tx := by
  unfold gossipTx at gossiped
  split at gossiped
  · simpa using gossiped
  · cases gossiped

/-- A mempool gossips its transaction while the network actor takes casts, and
    what it gossips reaches `add_tx` of another as it was, without a reply; every
    message survives the network, and a buffer without the batch is never taken
    for one.  Lengths are `usize`, so no buffer has `2 ^ 64` bytes. -/
theorem gossip_transport_preserves_transactions :
    (∀ (env : Env) (tx : RawTx),
      (env.networkUp = true → gossipTx env tx = [.broadcast (batchOf tx)]) ∧
      ∀ batch : MempoolTransactionBatch, .broadcast batch ∈ gossipTx env tx →
        ∃ bytes, toNetworkBytes (.transactionBatch batch) = .ok bytes ∧
          (bytes.length < 2 ^ 64 → ∃ msg, fromNetworkBytes bytes = .ok msg ∧
            ∀ config env channel peer id s,
              handleNetworkEvent config env (.message channel peer id msg) s =
                addTx config env tx none s)) ∧
    (∀ msg : Network.NetworkMsg, ∃ bytes, toNetworkBytes msg = .ok bytes ∧
      (bytes.length < 2 ^ 64 → fromNetworkBytes bytes = .ok msg)) ∧
    (∀ (tags : List Nat) (bytes : Bytes), Fields tags bytes → 1 ∉ tags →
      ∃ e, fromNetworkBytes bytes = .error e) := by
  have roundTrip : ∀ msg : Network.NetworkMsg, ∃ bytes, toNetworkBytes msg = .ok bytes ∧
      (bytes.length < 2 ^ 64 → fromNetworkBytes bytes = .ok msg) := by
    intro msg
    obtain ⟨batch⟩ := msg
    exact ⟨_, rfl, fromNetworkBytes_toNetworkBytes (.transactionBatch batch) rfl⟩
  refine ⟨?_, roundTrip, ?_⟩
  · intro env tx
    refine ⟨fun up => if_pos up, ?_⟩
    intro batch gossiped
    obtain rfl := gossipTx_batch gossiped
    obtain ⟨bytes, encoded, decodes⟩ := roundTrip (.transactionBatch (batchOf tx))
    refine ⟨bytes, encoded, ?_⟩
    intro fits
    exact ⟨_, decodes fits, fun config env channel peer id s => rfl⟩
  · intro tags bytes fields absent
    exact fromNetworkBytes_missing fields absent

/-- A mempool whose network actor takes casts. -/
def Env.online : Env where
  order := IndexedQueue.IterOrder.stored TxHash
  strong := fun _ => 1
  closed := fun _ => false
  networkUp := true

/-- A transaction of one byte is gossiped, an empty batch is two bytes on the
    wire, and field 2 alone is no batch. -/
theorem gossiped_byte_survives :
    gossipTx Env.online ⟨[7]⟩ = [.broadcast (batchOf ⟨[7]⟩)] ∧
    (∃ bytes msg, toNetworkBytes (.transactionBatch (batchOf ⟨[7]⟩)) = .ok bytes ∧
      fromNetworkBytes bytes = .ok msg ∧
      handleNetworkEvent MempoolConfig.default Env.online (.message .mempool ⟨[1]⟩ ⟨[2]⟩ msg)
        State.default = addTx MempoolConfig.default Env.online ⟨[7]⟩ none State.default) ∧
    fromNetworkBytes [10, 0] = .ok (.transactionBatch ⟨{ typeUrl := "", value := [] }⟩) ∧
    ∃ e, fromNetworkBytes [18, 1, 7] = .error e := by
  obtain ⟨gossips, survives, refuses⟩ := gossip_transport_preserves_transactions
  have gossiped := (gossips Env.online ⟨[7]⟩).1 rfl
  refine ⟨gossiped, ?_, ?_, ?_⟩
  · obtain ⟨bytes, encoded, decodes⟩ := (gossips Env.online ⟨[7]⟩).2 (batchOf ⟨[7]⟩)
      (by simp [gossiped])
    have written := Except.ok.inj encoded
    have fits : bytes.length < 2 ^ 64 := by
      rw [← written]
      decide +kernel
    obtain ⟨msg, decoded, handled⟩ := decodes fits
    exact ⟨bytes, msg, encoded, decoded, handled _ _ _ _ _ _⟩
  · obtain ⟨bytes, encoded, decodes⟩ :=
      survives (.transactionBatch ⟨{ typeUrl := "", value := [] }⟩)
    obtain rfl : [10, 0] = bytes := Except.ok.inj encoded
    exact decodes (by decide)
  · have key : Key (encodeKey 2 .lengthDelimited) 2 .lengthDelimited :=
      key_encodeKey (by decide) (by decide)
    have payload : WellFormed (.field .lengthDelimited 2) (encodeVarint 1 ++ [7]) :=
      .lengthDelimited (varint_encodeVarint (by decide))
    exact refuses [2] [18, 1, 7] (.cons key payload .nil) (by decide)

end MalachiteMempool
