import MalachiteMempool.Lib.Grammar
import MalachiteMempool.Network.Codec

/-! # What `from_network_bytes` accepts

A buffer is accepted exactly when it is a sequence of well-formed fields with
the batch among them; unknown fields are skipped down to the recursion limit of
`prost`.  The batch may come in several pieces, and of each field of the `Any`
inside the last one counts, wherever it is.

Two consequences: a message cut short is never taken for a message, and two
messages sent as one are one message.
-/

namespace MalachiteMempool

open Wire

theorem fromUtf8_eq_ok {bytes : Bytes} {text : String} :
    fromUtf8 bytes = .ok text ↔ bytes = utf8 text := by
  constructor
  · intro read
    unfold fromUtf8 at read
    split at read
    · rename_i text' valid
      obtain rfl := Except.ok.inj read
      unfold String.fromUTF8? at valid
      split at valid
      · obtain rfl := Option.some.inj valid
        simp [utf8, String.fromUTF8]
      · cases valid
    · cases read
  · rintro rfl
    exact fromUtf8_utf8 text

/-- A field of the `Any`. -/
inductive AnyField where
  | typeUrl (text : String)
  | value (bytes : Bytes)
  | unknown
  deriving DecidableEq, Repr

namespace AnyField

/-- The bodies of a field, behind its key. -/
def Parses (tag : Nat) (wireType : WireType) (field : AnyField) (body : Bytes) : Prop :=
  match field with
  | .typeUrl text => tag = 1 ∧ wireType = .lengthDelimited ∧
      ∃ length, body = length ++ utf8 text ∧ Varint 10 length (utf8 text).length
  | .value bytes => tag = 2 ∧ wireType = .lengthDelimited ∧
      ∃ length, body = length ++ bytes ∧ Varint 10 length bytes.length
  | .unknown => tag ≠ 1 ∧ tag ≠ 2 ∧ Within 99 (.field wireType tag) body

def apply (any : ProtoAny) : AnyField → ProtoAny
  | .typeUrl text => { any with typeUrl := text }
  | .value bytes => { any with value := bytes }
  | .unknown => any

def text : AnyField → Option String
  | .typeUrl text => some text
  | _ => none

def bytes : AnyField → Option Bytes
  | .value bytes => some bytes
  | _ => none

/-- Of each kind of field the last one counts. -/
theorem foldl_apply (fields : List AnyField) (any : ProtoAny) :
    fields.foldl apply any =
      { typeUrl := (fields.filterMap text).getLast?.getD any.typeUrl
        value := (fields.filterMap bytes).getLast?.getD any.value } := by
  induction fields generalizing any with
  | nil => rfl
  | cons field rest ih =>
      rw [List.foldl_cons, ih]
      cases field with
      | typeUrl text' => simp [apply, text, bytes, List.getLast?_cons]
      | value bytes' => simp [apply, text, bytes, List.getLast?_cons]
      | unknown => simp [apply, text, bytes]

end AnyField

namespace ProtoAny

theorem mergeField_one_eq_ok {wireType : WireType} {any any' : ProtoAny} {buf rest : Bytes} :
    mergeField 1 wireType any buf = .ok (any', rest) ↔ wireType = .lengthDelimited ∧
      ∃ text length, buf = length ++ (utf8 text ++ rest) ∧
        Varint 10 length (utf8 text).length ∧ any' = { any with typeUrl := text } := by
  constructor
  · intro merged
    simp only [mergeField, if_true] at merged
    obtain ⟨_, typed, merged⟩ := bind_eq_ok.mp merged
    obtain ⟨⟨payload, left⟩, taken, merged⟩ := bind_eq_ok.mp merged
    obtain ⟨text, read, same⟩ := bind_eq_ok.mp merged
    obtain ⟨rfl, rfl⟩ := Prod.mk.inj (Except.ok.inj same)
    obtain ⟨length, rfl, varint⟩ := splitLength_eq_ok.mp taken
    obtain rfl := fromUtf8_eq_ok.mp read
    exact ⟨checkWireType_eq_ok.mp typed, text, length, rfl, varint, rfl⟩
  · rintro ⟨rfl, text, length, rfl, varint, rfl⟩
    exact mergeField_typeUrl any text length rest varint

theorem mergeField_two_eq_ok {wireType : WireType} {any any' : ProtoAny} {buf rest : Bytes} :
    mergeField 2 wireType any buf = .ok (any', rest) ↔ wireType = .lengthDelimited ∧
      ∃ value length, buf = length ++ (value ++ rest) ∧
        Varint 10 length value.length ∧ any' = { any with value := value } := by
  constructor
  · intro merged
    have second : ¬ 2 = 1 := by decide
    simp only [mergeField, if_neg second, if_true] at merged
    obtain ⟨_, typed, merged⟩ := bind_eq_ok.mp merged
    obtain ⟨⟨value, left⟩, taken, same⟩ := bind_eq_ok.mp merged
    obtain ⟨rfl, rfl⟩ := Prod.mk.inj (Except.ok.inj same)
    obtain ⟨length, rfl, varint⟩ := splitLength_eq_ok.mp taken
    exact ⟨checkWireType_eq_ok.mp typed, value, length, rfl, varint, rfl⟩
  · rintro ⟨rfl, value, length, rfl, varint, rfl⟩
    exact mergeField_value any value length rest varint

theorem mergeField_other_eq_ok {tag : Nat} {wireType : WireType} {any any' : ProtoAny}
    {buf rest : Bytes} (first : tag ≠ 1) (second : tag ≠ 2) :
    mergeField tag wireType any buf = .ok (any', rest) ↔
      ∃ body, buf = body ++ rest ∧ Within 99 (.field wireType tag) body ∧ any' = any := by
  simp only [mergeField, if_neg first, if_neg second, exceptMap_eq_ok, skipField_eq_ok]
  constructor
  · rintro ⟨left, ⟨body, rfl, within⟩, same⟩
    obtain ⟨rfl, rfl⟩ := Prod.mk.inj same
    exact ⟨body, rfl, within, rfl⟩
  · rintro ⟨body, rfl, within, rfl⟩
    exact ⟨rest, ⟨body, rfl, within⟩, rfl⟩

theorem mergeField_implements : Implements AnyField.Parses AnyField.apply mergeField := by
  intro tag wireType any buf any' rest
  constructor
  · intro merged
    by_cases first : tag = 1
    · subst first
      obtain ⟨typed, text, length, rfl, varint, rfl⟩ := mergeField_one_eq_ok.mp merged
      exact ⟨length ++ utf8 text, .typeUrl text, by simp, ⟨rfl, typed, length, rfl, varint⟩, rfl⟩
    · by_cases second : tag = 2
      · subst second
        obtain ⟨typed, value, length, rfl, varint, rfl⟩ := mergeField_two_eq_ok.mp merged
        exact ⟨length ++ value, .value value, by simp, ⟨rfl, typed, length, rfl, varint⟩, rfl⟩
      · obtain ⟨body, rfl, within, rfl⟩ := (mergeField_other_eq_ok first second).mp merged
        exact ⟨body, .unknown, rfl, ⟨first, second, within⟩, rfl⟩
  · rintro ⟨body, field, rfl, parsed, rfl⟩
    cases field with
    | typeUrl text =>
        obtain ⟨rfl, typed, length, rfl, varint⟩ := parsed
        exact mergeField_one_eq_ok.mpr ⟨typed, text, length, by simp, varint, rfl⟩
    | value value =>
        obtain ⟨rfl, typed, length, rfl, varint⟩ := parsed
        exact mergeField_two_eq_ok.mpr ⟨typed, value, length, by simp, varint, rfl⟩
    | unknown =>
        obtain ⟨first, second, within⟩ := parsed
        exact (mergeField_other_eq_ok first second).mpr ⟨body, rfl, within, rfl⟩

end ProtoAny

/-- A field of the batch. -/
inductive BatchField where
  | transactionBatch (fields : List AnyField)
  | unknown
  deriving DecidableEq, Repr

namespace BatchField

def Parses (tag : Nat) (wireType : WireType) (field : BatchField) (body : Bytes) : Prop :=
  match field with
  | .transactionBatch fields => tag = 1 ∧ wireType = .lengthDelimited ∧
      ∃ length payload, body = length ++ payload ∧ Varint 10 length payload.length ∧
        Sequence AnyField.Parses fields payload
  | .unknown => tag ≠ 1 ∧ Within 100 (.field wireType tag) body

def apply (batch : Proto.MempoolTransactionBatch) : BatchField → Proto.MempoolTransactionBatch
  | .transactionBatch fields =>
      { batch with
        transactionBatch :=
          some (fields.foldl AnyField.apply (batch.transactionBatch.getD ProtoAny.default)) }
  | .unknown => batch

/-- What a field adds to the `Any`. -/
def content : BatchField → List AnyField
  | .transactionBatch fields => fields
  | .unknown => []

/-- The batch is there. -/
def carries : BatchField → Bool
  | .transactionBatch _ => true
  | .unknown => false

/-- The pieces of a batch are read as if they were one. -/
theorem foldl_apply (fields : List BatchField) (batch : Proto.MempoolTransactionBatch) :
    (fields.foldl apply batch).transactionBatch =
      if batch.transactionBatch.isSome || fields.any carries then
        some ((fields.flatMap content).foldl AnyField.apply
          (batch.transactionBatch.getD ProtoAny.default))
      else none := by
  induction fields generalizing batch with
  | nil => cases present : batch.transactionBatch <;> simp [present]
  | cons field rest ih =>
      rw [List.foldl_cons, ih]
      cases field with
      | transactionBatch fields => simp [apply, content, carries]
      | unknown => simp [apply, content, carries]

end BatchField

theorem Proto.MempoolTransactionBatch.mergeField_implements :
    Implements BatchField.Parses BatchField.apply mergeField := by
  intro tag wireType batch buf batch' rest
  constructor
  · intro merged
    by_cases first : tag = 1
    · subst first
      simp only [mergeField, if_true] at merged
      obtain ⟨_, typed, merged⟩ := bind_eq_ok.mp merged
      obtain ⟨⟨any, left⟩, nested, same⟩ := bind_eq_ok.mp merged
      obtain ⟨rfl, rfl⟩ := Prod.mk.inj (Except.ok.inj same)
      obtain ⟨length, payload, fields, rfl, varint, sequence, rfl⟩ :=
        (mergeNested_eq_ok ProtoAny.mergeField_implements).mp nested
      exact ⟨length ++ payload, .transactionBatch fields, by simp,
        ⟨rfl, checkWireType_eq_ok.mp typed, length, payload, rfl, varint, sequence⟩, rfl⟩
    · simp only [mergeField, if_neg first, exceptMap_eq_ok, skipField_eq_ok] at merged
      obtain ⟨left, ⟨body, rfl, within⟩, same⟩ := merged
      obtain ⟨rfl, rfl⟩ := Prod.mk.inj same
      exact ⟨body, .unknown, rfl, ⟨first, within⟩, rfl⟩
  · rintro ⟨body, field, rfl, parsed, rfl⟩
    cases field with
    | transactionBatch fields =>
        obtain ⟨rfl, rfl, length, payload, rfl, varint, sequence⟩ := parsed
        have nested := (sequence.merges ProtoAny.mergeField_implements
          (batch.transactionBatch.getD ProtoAny.default)).nested varint rest
        rw [List.append_assoc]
        simp only [mergeField, if_true, checkWireType, nested, bind, Except.bind]
        rfl
    | unknown =>
        obtain ⟨first, within⟩ := parsed
        simp only [mergeField, if_neg first, exceptMap_eq_ok, skipField_eq_ok]
        exact ⟨rest, ⟨body, rfl, within⟩, rfl⟩

namespace Network.NetworkMsg

theorem fromNetworkBytes_eq_ok {bytes : Bytes} {any : ProtoAny} :
    fromNetworkBytes bytes = .ok (.transactionBatch ⟨any⟩) ↔
      ∃ fields : List BatchField, Sequence BatchField.Parses fields bytes ∧
        (∃ field ∈ fields, field.carries = true) ∧
        any = (fields.flatMap BatchField.content).foldl AnyField.apply ProtoAny.default := by
  have decodes : fromNetworkBytes bytes = .ok (.transactionBatch ⟨any⟩) ↔
      ∃ batch, decode Proto.MempoolTransactionBatch.mergeField .default bytes = .ok batch ∧
        batch.transactionBatch = some any := by
    unfold fromNetworkBytes MempoolTransactionBatch.fromBytes
    cases decode Proto.MempoolTransactionBatch.mergeField .default bytes with
    | error e => simp [Except.map]
    | ok batch =>
        obtain ⟨content⟩ := batch
        cases content <;> simp [Except.map, MempoolTransactionBatch.fromProto]
  rw [decodes]
  simp only [decode_eq_ok Proto.MempoolTransactionBatch.mergeField_implements]
  constructor
  · rintro ⟨batch, ⟨fields, sequence, rfl⟩, isAny⟩
    rw [BatchField.foldl_apply] at isAny
    split at isAny
    · rename_i present
      refine ⟨fields, sequence, ?_, (Option.some.inj isAny).symm⟩
      simpa [Proto.MempoolTransactionBatch.default] using present
    · cases isAny
  · rintro ⟨fields, sequence, present, rfl⟩
    refine ⟨_, ⟨fields, sequence, rfl⟩, ?_⟩
    have carried : (Proto.MempoolTransactionBatch.default.transactionBatch.isSome ||
        fields.any BatchField.carries) = true := by
      simpa [Proto.MempoolTransactionBatch.default] using present
    rw [BatchField.foldl_apply, if_pos carried]
    rfl

/-- A buffer is accepted exactly when it is a sequence of fields with the batch
    among them, and the result has the last type URL and the last value of all
    the pieces of the batch.  Unknown fields are nested 100 levels deep at most,
    and 99 inside the batch. -/
theorem accepts_exactly_grammar (bytes : Bytes) (typeUrl : String) (value : Bytes) :
    fromNetworkBytes bytes = .ok (.transactionBatch ⟨⟨typeUrl, value⟩⟩) ↔
      ∃ fields : List BatchField, Sequence BatchField.Parses fields bytes ∧
        (∃ field ∈ fields, field.carries = true) ∧
        typeUrl = ((fields.flatMap BatchField.content).filterMap AnyField.text).getLast?.getD "" ∧
        value = ((fields.flatMap BatchField.content).filterMap AnyField.bytes).getLast?.getD [] := by
  simp only [fromNetworkBytes_eq_ok, AnyField.foldl_apply, ProtoAny.mk.injEq, ProtoAny.default]

/-- Two values for one field: the second one counts. -/
example : fromNetworkBytes ([10, 4, 18, 2, 1, 2] ++ [10, 3, 18, 1, 3]) =
    .ok (.transactionBatch ⟨⟨"", [3]⟩⟩) := by
  decide +kernel

/-- Behind an empty batch, a hundred groups are skipped and one more is not. -/
example :
    fromNetworkBytes ([10, 0] ++ List.replicate 100 19 ++ List.replicate 100 20) =
      .ok (.transactionBatch ⟨ProtoAny.default⟩) ∧
    fromNetworkBytes ([10, 0] ++ List.replicate 101 19 ++ List.replicate 101 20) =
      .error (.decode .recursionLimit) := by
  decide +kernel

/-! ## Messages cut short -/

/-- Behind the key of the batch there is a length, and all of the payload. -/
theorem Parses_complete {front more payload : Bytes} (fits : payload.length < 2 ^ 64)
    (cut : front ++ more = encodeLen 1 payload) {fields : List BatchField}
    (sequence : Sequence BatchField.Parses fields front) (nonempty : fields ≠ []) : more = [] := by
  have whole : Key (encodeKey 1 .lengthDelimited) 1 .lengthDelimited :=
    key_encodeKey (by decide) (by decide)
  cases sequence with
  | nil => exact absurd rfl nonempty
  | @cons tag wireType field fields bytes body rest key parsed others =>
      have read := key.decodes ((body ++ rest) ++ more)
      rw [← List.append_assoc, cut, encodeLen, whole.decodes] at read
      obtain ⟨rfl, same⟩ := Prod.mk.inj (Except.ok.inj read)
      obtain ⟨rfl, remaining⟩ := Prod.mk.inj same
      cases field with
      | unknown => exact absurd rfl parsed.1
      | transactionBatch content =>
          obtain ⟨_, _, length, inner, rfl, varint, _⟩ := parsed
          have measured : decodeVarint (encodeVarint payload.length ++ payload) =
              .ok (payload.length, payload) := (varint_encodeVarint fits).decodes payload
          have measured' : decodeVarint (length ++ (inner ++ (rest ++ more))) =
              .ok (inner.length, inner ++ (rest ++ more)) := varint.decodes _
          simp only [List.append_assoc] at remaining
          rw [remaining, measured'] at measured
          obtain ⟨sameLength, isPayload⟩ := Prod.mk.inj (Except.ok.inj measured)
          have total := congrArg List.length isPayload
          simp only [List.length_append] at total
          exact List.length_eq_zero_iff.mp (by omega)

/-- Every proper beginning of an encoded message is refused. -/
theorem truncated_message_refused (msg : NetworkMsg) (bytes front : Bytes)
    (encoded : msg.toNetworkBytes = .ok bytes) (fits : bytes.length < 2 ^ 64)
    (cut : front <+: bytes) (shorter : front ≠ bytes) :
    ∃ e, fromNetworkBytes front = .error e := by
  obtain ⟨⟨any⟩⟩ := msg
  obtain rfl := Except.ok.inj encoded
  obtain ⟨more, isWhole⟩ := cut
  have anyFits : any.encode.length < 2 ^ 64 :=
    Nat.lt_of_le_of_lt (length_le_encodeLen 1 any.encode) fits
  cases accepted : fromNetworkBytes front with
  | error e => exact ⟨e, rfl⟩
  | ok other =>
      obtain ⟨⟨other⟩⟩ := other
      obtain ⟨fields, sequence, ⟨field, member, _⟩, _⟩ := fromNetworkBytes_eq_ok.mp accepted
      have nothing := Parses_complete anyFits isWhole sequence (List.ne_nil_of_mem member)
      rw [nothing, List.append_nil] at isWhole
      exact absurd isWhole shorter

/-- The type URL has arrived whole, and the value is missing. -/
theorem truncated_batch_refused :
    ∃ e, fromNetworkBytes [10, 6, 10, 1, 97] = .error e := by
  apply truncated_message_refused (.transactionBatch ⟨⟨"a", [7]⟩⟩) [10, 6, 10, 1, 97, 18, 1, 7]
  · decide +kernel
  · decide
  · exact ⟨[18, 1, 7], rfl⟩
  · decide

/-! ## Messages put together -/

/-- The fields that are written for an `Any`. -/
def written (any : ProtoAny) : List AnyField :=
  (if any.typeUrl = "" then [] else [.typeUrl any.typeUrl]) ++
    (if any.value = [] then [] else [.value any.value])

theorem sequence_encode (any : ProtoAny) (fits : any.encode.length < 2 ^ 64) :
    Sequence AnyField.Parses (written any) any.encode := by
  unfold ProtoAny.encode at fits ⊢
  unfold written
  rw [List.length_append] at fits
  apply Sequence.append
  · split at fits
    · rename_i empty
      rw [if_pos empty, if_pos empty]
      exact .nil
    · rename_i present
      have longer := length_le_encodeLen 1 (utf8 any.typeUrl)
      rw [if_neg present, if_neg present]
      exact Sequence.encodeLen (by decide) (by decide) (by omega)
        (fun length varint => ⟨rfl, rfl, length, rfl, varint⟩)
  · have longer := ProtoAny.length_value_le any.value
    split
    · exact .nil
    · exact Sequence.encodeLen (by decide) (by decide) (by omega)
        (fun length varint => ⟨rfl, rfl, length, rfl, varint⟩)

theorem foldl_written (any later : ProtoAny) :
    (written later).foldl AnyField.apply any =
      { typeUrl := if later.typeUrl = "" then any.typeUrl else later.typeUrl
        value := if later.value = [] then any.value else later.value } := by
  unfold written
  split <;> split <;> rfl

theorem unwritten_is_default {α : Type} [DecidableEq α] (default field : α) :
    (if field = default then default else field) = field := by
  split
  · rename_i same
    exact same.symm
  · rfl

/-- Two messages sent as one are read as one: of each field the later text or
    value counts, unless it is empty and so was not written. -/
theorem joined_messages_merge (first second : MempoolTransactionBatch) (bytes bytes' : Bytes)
    (encoded : toNetworkBytes (.transactionBatch first) = .ok bytes)
    (encoded' : toNetworkBytes (.transactionBatch second) = .ok bytes')
    (fits : (bytes ++ bytes').length < 2 ^ 64) :
    fromNetworkBytes (bytes ++ bytes') = .ok (.transactionBatch ⟨
      { typeUrl := if second.transactionBatch.typeUrl = "" then first.transactionBatch.typeUrl
          else second.transactionBatch.typeUrl
        value := if second.transactionBatch.value = [] then first.transactionBatch.value
          else second.transactionBatch.value }⟩) := by
  obtain ⟨any⟩ := first
  obtain ⟨any'⟩ := second
  obtain rfl := Except.ok.inj encoded
  obtain rfl := Except.ok.inj encoded'
  have piece : ∀ any : ProtoAny, (encodeLen 1 any.encode).length < 2 ^ 64 →
      Sequence BatchField.Parses [.transactionBatch (written any)] (encodeLen 1 any.encode) := by
    intro any small
    have anyFits := Nat.lt_of_le_of_lt (length_le_encodeLen 1 any.encode) small
    exact Sequence.encodeLen (by decide) (by decide) anyFits
      (fun length varint => ⟨rfl, rfl, length, _, rfl, varint, sequence_encode any anyFits⟩)
  change (encodeLen 1 any.encode ++ encodeLen 1 any'.encode).length < 2 ^ 64 at fits
  rw [List.length_append] at fits
  have both := (piece any (by omega)).append (piece any' (by omega))
  refine fromNetworkBytes_eq_ok.mpr ⟨_, both, ⟨_, List.mem_cons_self, rfl⟩, ?_⟩
  simp only [List.singleton_append, List.flatMap_cons, List.flatMap_nil, BatchField.content,
    List.append_nil, List.foldl_append, foldl_written, ProtoAny.default, unwritten_is_default]

theorem joined_types_and_values_merge :
    fromNetworkBytes ([10, 3, 10, 1, 97] ++ [10, 3, 18, 1, 7]) =
      .ok (.transactionBatch ⟨⟨"a", [7]⟩⟩) := by
  apply joined_messages_merge ⟨⟨"a", []⟩⟩ ⟨⟨"", [7]⟩⟩
  · decide +kernel
  · decide +kernel
  · decide

end Network.NetworkMsg

end MalachiteMempool
