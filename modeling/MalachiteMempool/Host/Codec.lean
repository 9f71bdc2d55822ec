import MalachiteMempool.Host.App
import MalachiteMempool.Lib.LittleEndian

/-! # The codec of the host's transactions

A transaction is eight bytes and its hash is the same eight bytes, so the hash
that `check_tx` reports, the hash that a removal request carries and the bytes
in the pool determine one another.
-/

namespace MalachiteMempool.Host

@[simp] theorem toLeBytes_length (value : UInt64) : (toLeBytes value).length = 8 := by
  simp [toLeBytes]

theorem fromLeBytes_toLeBytes (value : UInt64) : fromLeBytes (toLeBytes value) = value := by
  have fits : value.toNat % 256 ^ 8 = value.toNat := Nat.mod_eq_of_lt value.toNat_lt
  calc
    fromLeBytes (toLeBytes value)
      = UInt64.ofNat (LittleEndian.decode (LittleEndian.encode 8 value.toNat)) := rfl
    _ = UInt64.ofNat value.toNat := by rw [LittleEndian.decode_encode, fits]
    _ = value := UInt64.ofNat_toNat

theorem toLeBytes_fromLeBytes {bytes : Bytes} (eight : bytes.length = 8) :
    toLeBytes (fromLeBytes bytes) = bytes := by
  have fits := LittleEndian.decode_lt bytes
  rw [eight] at fits
  have value : (fromLeBytes bytes).toNat = LittleEndian.decode bytes :=
    UInt64.toNat_ofNat_of_lt' fits
  calc
    toLeBytes (fromLeBytes bytes)
      = LittleEndian.encode 8 (fromLeBytes bytes).toNat := rfl
    _ = LittleEndian.encode bytes.length (LittleEndian.decode bytes) := by rw [value, eight]
    _ = bytes := LittleEndian.encode_decode bytes

namespace TestTx

theorem deserialize_eq_ok {bytes : Bytes} {t : TestTx} :
    deserialize bytes = .ok t ↔ bytes = t.serialize.bytes := by
  unfold deserialize
  constructor
  · intro accepted
    split at accepted
    · rename_i eight
      obtain rfl := Except.ok.inj accepted
      exact (toLeBytes_fromLeBytes eight).symm
    · cases accepted
  · rintro rfl
    simp [serialize, fromLeBytes_toLeBytes]

end TestTx

/-- The check accepts or refuses exactly the serialized transactions, under
    their own hash. -/
theorem checkTx_eq_ok {tx : RawTx} {outcome : CheckTxOutcome} :
    checkTx tx = .ok outcome ↔
      ∃ t : TestTx, tx = t.serialize ∧ outcome = ⟨decide (t.id ≠ 9999), t.hash.toTxHash⟩ := by
  constructor
  · intro checked
    unfold checkTx at checked
    split at checked
    · rename_i t accepted
      refine ⟨t, congrArg RawTx.mk (TestTx.deserialize_eq_ok.mp accepted), ?_⟩
      split at checked
      · rename_i refused
        obtain rfl := Except.ok.inj checked
        simp [TestCheckTxOutcome.outcome, refused]
      · rename_i allowed
        obtain rfl := Except.ok.inj checked
        simp [TestCheckTxOutcome.outcome, allowed]
    · cases checked
  · rintro ⟨t, rfl, rfl⟩
    have read : TestTx.deserialize t.serialize.bytes = .ok t := TestTx.deserialize_eq_ok.mpr rfl
    unfold checkTx
    rw [read]
    by_cases refused : t.id = 9999 <;> simp [refused, TestCheckTxOutcome.outcome]

end MalachiteMempool.Host
