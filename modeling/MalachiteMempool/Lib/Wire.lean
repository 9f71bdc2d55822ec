import Mathlib.Algebra.Group.Nat.Defs
import Mathlib.Data.Nat.Log

/-! # The proto3 wire format

Variable-length integers, field keys, length-delimited fields and the loop that
merges the fields of a buffer into a message, as `prost` implements them.
Unknown fields are skipped by their wire type, groups included, down to a
limited nesting depth.

A message type enters through its `Merge`: what one field does to the message
read so far.  `Merges` says that a piece of a buffer turns one message into
another whatever follows it; pieces are put together with `Merges.field`, and
a nested message is one more piece.  `WellFormed` is the grammar of the format,
independent of any message type.
-/

namespace Wire

inductive DecodeError where
  | invalidVarint
  | invalidKey (key : Nat)
  | invalidWireType (value : Nat)
  | invalidTag
  | unexpectedWireType
  | bufferUnderflow
  | delimitedLengthExceeded
  | recursionLimit
  | unexpectedEndGroup
  | invalidString
  deriving DecidableEq, Repr

/-! ## Variable-length integers -/

def encodeVarintLoop : Nat → Nat → List UInt8
  | 0, _ => []
  | room + 1, value =>
      if value < 128 then [UInt8.ofNat value]
      else UInt8.ofNat (value % 128 + 128) :: encodeVarintLoop room (value / 128)

/-- A 64-bit value takes at most ten bytes. -/
def encodeVarint (value : Nat) : List UInt8 := encodeVarintLoop 10 value

def decodeVarintLoop : Nat → List UInt8 → Except DecodeError (Nat × List UInt8)
  | 0, _ => .error .invalidVarint
  | _ + 1, [] => .error .invalidVarint
  | room + 1, byte :: rest =>
      if byte.toNat < 128 then
        -- the tenth byte holds the last of the 64 bits
        if room = 0 ∧ 2 ≤ byte.toNat then .error .invalidVarint else .ok (byte.toNat, rest)
      else do
        let (value, rest) ← decodeVarintLoop room rest
        pure (byte.toNat - 128 + 128 * value, rest)

def decodeVarint (buf : List UInt8) : Except DecodeError (Nat × List UInt8) :=
  decodeVarintLoop 10 buf

/-- The encodings of a value in at most `room` bytes, padded ones included. -/
inductive Varint : Nat → List UInt8 → Nat → Prop where
  | last {room : Nat} {byte : UInt8} (final : byte.toNat < 128) (fits : room = 0 → byte.toNat < 2) :
      Varint (room + 1) [byte] byte.toNat
  | more {room : Nat} {byte : UInt8} {bytes : List UInt8} {value : Nat}
      (continued : 128 ≤ byte.toNat) (rest : Varint room bytes value) :
      Varint (room + 1) (byte :: bytes) (byte.toNat - 128 + 128 * value)

theorem Varint.decodes {room : Nat} {bytes : List UInt8} {value : Nat}
    (varint : Varint room bytes value) (rest : List UInt8) :
    decodeVarintLoop room (bytes ++ rest) = .ok (value, rest) := by
  induction varint with
  | last final fits =>
      rw [List.singleton_append, decodeVarintLoop, if_pos final, if_neg]
      intro ⟨lastRoom, large⟩
      exact Nat.not_lt.mpr large (fits lastRoom)
  | more continued _ ih =>
      simp only [List.cons_append, decodeVarintLoop, if_neg (Nat.not_lt.mpr continued), ih]
      rfl

theorem Varint.nonempty {room : Nat} {bytes : List UInt8} {value : Nat}
    (varint : Varint room bytes value) : 0 < bytes.length := by
  cases varint <;> simp

theorem varint_single {room value : Nat} (small : value < 128) (fits : room = 0 → value < 2) :
    Varint (room + 1) [UInt8.ofNat value] value := by
  have byte : (UInt8.ofNat value).toNat = value := by
    rw [UInt8.toNat_ofNat']
    omega
  have encoded : Varint (room + 1) [UInt8.ofNat value] (UInt8.ofNat value).toNat :=
    .last (by omega) (by rwa [byte])
  rwa [byte] at encoded

theorem varint_encodeVarintLoop {room value : Nat} (fits : value < 2 * 128 ^ room) :
    Varint (room + 1) (encodeVarintLoop (room + 1) value) value := by
  induction room generalizing value with
  | zero =>
      have small : value < 128 := by omega
      rw [encodeVarintLoop, if_pos small]
      exact varint_single small (fun _ => by omega)
  | succ room ih =>
      rw [encodeVarintLoop]
      split
      · rename_i small
        exact varint_single small (fun last => by cases last)
      · have byte : (UInt8.ofNat (value % 128 + 128)).toNat = value % 128 + 128 := by
          rw [UInt8.toNat_ofNat']
          omega
        have rest : value / 128 < 2 * 128 ^ room := by
          rw [Nat.div_lt_iff_lt_mul (by omega)]
          rw [Nat.pow_succ] at fits
          omega
        have split :
            (UInt8.ofNat (value % 128 + 128)).toNat - 128 + 128 * (value / 128) = value := by
          rw [byte]
          omega
        have continued : 128 ≤ (UInt8.ofNat (value % 128 + 128)).toNat := by omega
        have encoded := Varint.more continued (ih rest)
        rwa [split] at encoded

/-- Every 64-bit value is read back. -/
theorem varint_encodeVarint {value : Nat} (fits : value < 2 ^ 64) :
    Varint 10 (encodeVarint value) value :=
  varint_encodeVarintLoop (by omega)

/-! ## Keys and lengths -/

inductive WireType where
  | varint
  | sixtyFourBit
  | lengthDelimited
  | startGroup
  | endGroup
  | thirtyTwoBit
  deriving DecidableEq, Repr

namespace WireType

def code : WireType → Nat
  | varint => 0
  | sixtyFourBit => 1
  | lengthDelimited => 2
  | startGroup => 3
  | endGroup => 4
  | thirtyTwoBit => 5

def ofCode : Nat → Except DecodeError WireType
  | 0 => .ok varint
  | 1 => .ok sixtyFourBit
  | 2 => .ok lengthDelimited
  | 3 => .ok startGroup
  | 4 => .ok endGroup
  | 5 => .ok thirtyTwoBit
  | value => .error (.invalidWireType value)

theorem code_lt (wireType : WireType) : wireType.code < 8 := by
  cases wireType <;> decide

theorem ofCode_code (wireType : WireType) : ofCode wireType.code = .ok wireType := by
  cases wireType <;> rfl

end WireType

def encodeKey (tag : Nat) (wireType : WireType) : List UInt8 :=
  encodeVarint (8 * tag + wireType.code)

def decodeKey (buf : List UInt8) : Except DecodeError (Nat × WireType × List UInt8) := do
  let (key, rest) ← decodeVarint buf
  if 2 ^ 32 ≤ key then throw (.invalidKey key)
  let wireType ← WireType.ofCode (key % 8)
  if key / 8 = 0 then throw .invalidTag
  pure (key / 8, wireType, rest)

/-- The encodings of a key. -/
def Key (bytes : List UInt8) (tag : Nat) (wireType : WireType) : Prop :=
  0 < tag ∧ 8 * tag + wireType.code < 2 ^ 32 ∧ Varint 10 bytes (8 * tag + wireType.code)

theorem Key.decodes {bytes : List UInt8} {tag : Nat} {wireType : WireType}
    (key : Key bytes tag wireType) (rest : List UInt8) :
    decodeKey (bytes ++ rest) = .ok (tag, wireType, rest) := by
  obtain ⟨positive, fits, varint⟩ := key
  have small := wireType.code_lt
  have low : (8 * tag + wireType.code) % 8 = wireType.code := by omega
  have high : (8 * tag + wireType.code) / 8 = tag := by omega
  have read : decodeVarint (bytes ++ rest) = .ok (8 * tag + wireType.code, rest) :=
    varint.decodes rest
  simp only [decodeKey, read, bind, Except.bind, if_neg (Nat.not_le.mpr fits), low, high,
    WireType.ofCode_code, if_neg (Nat.pos_iff_ne_zero.mp positive)]
  rfl

theorem Key.nonempty {bytes : List UInt8} {tag : Nat} {wireType : WireType}
    (key : Key bytes tag wireType) : 0 < bytes.length :=
  key.2.2.nonempty

theorem key_encodeKey {tag : Nat} {wireType : WireType} (positive : 0 < tag)
    (fits : 8 * tag + wireType.code < 2 ^ 32) : Key (encodeKey tag wireType) tag wireType :=
  ⟨positive, fits, varint_encodeVarint (by omega)⟩

/-- `buf.advance(len)`. -/
def advance (len : Nat) (buf : List UInt8) : Except DecodeError (List UInt8) :=
  if buf.length < len then .error .bufferUnderflow else .ok (buf.drop len)

theorem advance_append {bytes : List UInt8} {len : Nat} (isLength : bytes.length = len)
    (rest : List UInt8) : advance len (bytes ++ rest) = .ok rest := by
  subst isLength
  simp [advance]

/-- The bytes of a length-delimited field. -/
def splitLength (buf : List UInt8) : Except DecodeError (List UInt8 × List UInt8) := do
  let (len, rest) ← decodeVarint buf
  if rest.length < len then throw .bufferUnderflow
  pure (rest.take len, rest.drop len)

theorem splitLength_append {bytes payload : List UInt8} (varint : Varint 10 bytes payload.length)
    (rest : List UInt8) : splitLength (bytes ++ (payload ++ rest)) = .ok (payload, rest) := by
  have read : decodeVarint (bytes ++ (payload ++ rest)) = .ok (payload.length, payload ++ rest) :=
    varint.decodes _
  simp [splitLength, read, bind, Except.bind, pure, Except.pure]

def checkWireType (expected actual : WireType) : Except DecodeError Unit :=
  if expected = actual then pure () else throw .unexpectedWireType

/-- A length-delimited field. -/
def encodeLen (tag : Nat) (payload : List UInt8) : List UInt8 :=
  encodeKey tag .lengthDelimited ++ (encodeVarint payload.length ++ payload)

theorem length_le_encodeLen (tag : Nat) (payload : List UInt8) :
    payload.length ≤ (encodeLen tag payload).length := by
  simp only [encodeLen, List.length_append]
  omega

/-! ## Encoded lengths

`prost` computes the length of an encoding without encoding, from the position
of the highest bit. -/

def encodedLenVarint (value : UInt64) : Nat := ((value ||| 1).toNat.log2 * 9 + 73) / 64

def keyLen (tag : Nat) : Nat := encodedLenVarint (UInt64.ofNat (8 * tag))

/-- A length-delimited field with a payload of this length. -/
def encodedLen (tag len : Nat) : Nat := keyLen tag + encodedLenVarint (UInt64.ofNat len) + len

theorem log2_or_one (value : Nat) : (value ||| 1).log2 = value.log2 := by
  rw [Nat.log2_def, Nat.log2_def value, Nat.or_div_two, Nat.or_zero]
  have large : 2 ≤ value ||| 1 ↔ 2 ≤ value := by
    constructor
    · intro bounded
      by_contra small
      have cases : value = 0 ∨ value = 1 := by omega
      rcases cases with rfl | rfl <;> exact absurd bounded (by decide)
    · intro bounded
      exact Nat.le_trans bounded Nat.left_le_or
  simp only [large]

theorem log2_div_two_pow (value k : Nat) : (value / 2 ^ k).log2 = value.log2 - k := by
  rw [Nat.log2_eq_log_two, Nat.log2_eq_log_two, Nat.log_div_base_pow]

/-- The loop writes one byte for every seven bits, as long as there is room. -/
theorem encodeVarintLoop_length (room value : Nat) :
    (encodeVarintLoop (room + 1) value).length = min (room + 1) (value.log2 / 7 + 1) := by
  induction room generalizing value with
  | zero =>
      rw [encodeVarintLoop]
      split <;> simp [encodeVarintLoop]
  | succ room ih =>
      rw [encodeVarintLoop]
      by_cases zero : value = 0
      · simp [zero]
      · have bits := Nat.log2_lt (k := 7) zero
        split
        · rename_i small
          have short := bits.mpr small
          rw [List.length_singleton]
          omega
        · rename_i large
          have long : 7 ≤ value.log2 := Nat.not_lt.mp (mt bits.mp large)
          have rest : (value / 128).log2 = value.log2 - 7 := log2_div_two_pow value 7
          rw [List.length_cons, ih, rest]
          omega

theorem log2_toNat_lt (value : UInt64) : value.toNat.log2 < 64 := by
  by_cases zero : value.toNat = 0
  · rw [zero, Nat.log2_zero]
    decide
  · exact (Nat.log2_lt zero).mpr value.toNat_lt

theorem encodedLenVarint_eq (value : UInt64) :
    encodedLenVarint value = value.toNat.log2 / 7 + 1 := by
  have bits : (value ||| 1).toNat.log2 = value.toNat.log2 := by
    rw [UInt64.toNat_or]
    exact log2_or_one value.toNat
  have bounded := log2_toNat_lt value
  rw [encodedLenVarint, bits]
  omega

theorem encodedLenVarint_ofNat {value : Nat} (fits : value < 2 ^ 64) :
    encodedLenVarint (UInt64.ofNat value) = (encodeVarint value).length := by
  have same : (UInt64.ofNat value).toNat = value := UInt64.toNat_ofNat_of_lt' fits
  have bounded := log2_toNat_lt (UInt64.ofNat value)
  rw [same] at bounded
  rw [encodedLenVarint_eq, same, encodeVarint, encodeVarintLoop_length]
  omega

/-- A length beyond 64 bits is cut off, and never counts for more than is written. -/
theorem encodedLenVarint_ofNat_le (value : Nat) :
    encodedLenVarint (UInt64.ofNat value) ≤ (encodeVarint value).length := by
  rcases Nat.lt_or_ge value (2 ^ 64) with fits | large
  · exact Nat.le_of_eq (encodedLenVarint_ofNat fits)
  · have positive : value ≠ 0 := by omega
    have long : 64 ≤ value.log2 := (Nat.le_log2 positive).mpr large
    have bounded := log2_toNat_lt (UInt64.ofNat value)
    rw [encodedLenVarint_eq, encodeVarint, encodeVarintLoop_length]
    omega

/-- The wire type takes no bits of its own. -/
theorem keyLen_eq {tag : Nat} (positive : 0 < tag) (small : tag < 2 ^ 29) (wireType : WireType) :
    keyLen tag = (encodeKey tag wireType).length := by
  have code := wireType.code_lt
  have eighth : (8 * tag + wireType.code) / 2 ^ 3 = 8 * tag / 2 ^ 3 := by omega
  have whole := log2_div_two_pow (8 * tag) 3
  have coded := log2_div_two_pow (8 * tag + wireType.code) 3
  have three : ∀ value, 8 ≤ value → 3 ≤ value.log2 := by
    intro value large
    exact (Nat.le_log2 (by omega)).mpr large
  have wholeBits := three (8 * tag) (by omega)
  have codedBits := three (8 * tag + wireType.code) (by omega)
  have bits : (8 * tag).log2 = (8 * tag + wireType.code).log2 := by
    rw [eighth, whole] at coded
    omega
  rw [keyLen, encodedLenVarint_ofNat (by omega), encodeKey, encodeVarint, encodeVarint,
    encodeVarintLoop_length, encodeVarintLoop_length, bits]

theorem encodedLen_eq {tag : Nat} (positive : 0 < tag) (small : tag < 2 ^ 29)
    {payload : List UInt8} (fits : payload.length < 2 ^ 64) :
    encodedLen tag payload.length = (encodeLen tag payload).length := by
  rw [encodedLen, keyLen_eq positive small .lengthDelimited, encodedLenVarint_ofNat fits, encodeLen,
    List.length_append, List.length_append]
  omega

theorem encodedLen_le {tag : Nat} (positive : 0 < tag) (small : tag < 2 ^ 29)
    (payload : List UInt8) : encodedLen tag payload.length ≤ (encodeLen tag payload).length := by
  have written := encodedLenVarint_ofNat_le payload.length
  rw [encodedLen, keyLen_eq positive small .lengthDelimited, encodeLen, List.length_append,
    List.length_append]
  omega

/-- A field is longer than its payload. -/
theorem lt_length_encodeLen (tag : Nat) (payload : List UInt8) :
    payload.length < (encodeLen tag payload).length := by
  have prefixed : 0 < (encodeVarint payload.length).length := by
    rw [encodeVarint, encodeVarintLoop_length]
    omega
  rw [encodeLen, List.length_append, List.length_append]
  omega

/-! ## Unknown fields -/

/-- Skip the fields of a group up to its end.  Every turn reads at least one byte
    of a key, so the length of the buffer is fuel enough. -/
def skipGroup (skip : WireType → Nat → List UInt8 → Except DecodeError (List UInt8)) (tag : Nat) :
    Nat → List UInt8 → Except DecodeError (List UInt8)
  | 0, _ => .error .invalidVarint
  | fuel + 1, buf => do
      let (innerTag, innerType, rest) ← decodeKey buf
      if innerType = .endGroup then
        if innerTag = tag then pure rest else throw .unexpectedEndGroup
      else
        let rest ← skip innerType innerTag rest
        skipGroup skip tag fuel rest

/-- `skip_field`, with what is left of the recursion limit. -/
def skipField : Nat → WireType → Nat → List UInt8 → Except DecodeError (List UInt8)
  | 0, _, _, _ => .error .recursionLimit
  | depth + 1, wireType, tag, buf =>
      match wireType with
      | .varint => do
          let (_, rest) ← decodeVarint buf
          pure rest
      | .thirtyTwoBit => advance 4 buf
      | .sixtyFourBit => advance 8 buf
      | .lengthDelimited => do
          let (len, rest) ← decodeVarint buf
          advance len rest
      | .startGroup => skipGroup (skipField depth) tag buf.length buf
      | .endGroup => .error .unexpectedEndGroup

/-- The body of a field, or what follows the opening key of a group. -/
inductive Shape where
  | field (wireType : WireType) (tag : Nat)
  | group (tag : Nat)

/-- The grammar of the format. -/
inductive WellFormed : Shape → List UInt8 → Prop where
  | varint {tag value : Nat} {bytes : List UInt8} (encoded : Varint 10 bytes value) :
      WellFormed (.field .varint tag) bytes
  | thirtyTwoBit {tag : Nat} {bytes : List UInt8} (isLength : bytes.length = 4) :
      WellFormed (.field .thirtyTwoBit tag) bytes
  | sixtyFourBit {tag : Nat} {bytes : List UInt8} (isLength : bytes.length = 8) :
      WellFormed (.field .sixtyFourBit tag) bytes
  | lengthDelimited {tag : Nat} {bytes payload : List UInt8}
      (encoded : Varint 10 bytes payload.length) :
      WellFormed (.field .lengthDelimited tag) (bytes ++ payload)
  | startGroup {tag : Nat} {bytes : List UInt8} (rest : WellFormed (.group tag) bytes) :
      WellFormed (.field .startGroup tag) bytes
  | endGroup {tag : Nat} {bytes : List UInt8} (key : Key bytes tag .endGroup) :
      WellFormed (.group tag) bytes
  | inner {tag innerTag : Nat} {innerType : WireType} {bytes body rest : List UInt8}
      (key : Key bytes innerTag innerType) (field : WellFormed (.field innerType innerTag) body)
      (others : WellFormed (.group tag) rest) : WellFormed (.group tag) (bytes ++ (body ++ rest))

/-- A sequence of fields with these tags. -/
inductive Fields : List Nat → List UInt8 → Prop where
  | nil : Fields [] []
  | cons {tag : Nat} {wireType : WireType} {tags : List Nat} {bytes body rest : List UInt8}
      (key : Key bytes tag wireType) (field : WellFormed (.field wireType tag) body)
      (others : Fields tags rest) : Fields (tag :: tags) (bytes ++ (body ++ rest))

/-- Skipping stops right behind these bytes, if it gets there. -/
def Shape.SkipsOver (bytes : List UInt8) : Shape → Prop
  | .field wireType tag => ∀ depth rest left,
      skipField depth wireType tag (bytes ++ rest) = .ok left → left = rest
  | .group tag => ∀ depth fuel rest left,
      skipGroup (skipField depth) tag fuel (bytes ++ rest) = .ok left → left = rest

/-- Within the recursion limit there is some of it left. -/
theorem exists_depth_of_skipField {depth tag : Nat} {wireType : WireType} {buf left : List UInt8}
    (skipped : skipField depth wireType tag buf = .ok left) : ∃ rest, depth = rest + 1 := by
  cases depth with
  | zero => cases skipped
  | succ rest => exact ⟨rest, rfl⟩

theorem WellFormed.skipsOver {shape : Shape} {bytes : List UInt8}
    (wellFormed : WellFormed shape bytes) : shape.SkipsOver bytes := by
  induction wellFormed with
  | varint encoded =>
      intro depth rest left skipped
      obtain ⟨depth, rfl⟩ := exists_depth_of_skipField skipped
      have read : decodeVarint _ = .ok (_, rest) := encoded.decodes rest
      simp only [skipField, read] at skipped
      exact (Except.ok.inj skipped).symm
  | thirtyTwoBit isLength =>
      intro depth rest left skipped
      obtain ⟨depth, rfl⟩ := exists_depth_of_skipField skipped
      simp only [skipField, advance_append isLength] at skipped
      exact (Except.ok.inj skipped).symm
  | sixtyFourBit isLength =>
      intro depth rest left skipped
      obtain ⟨depth, rfl⟩ := exists_depth_of_skipField skipped
      simp only [skipField, advance_append isLength] at skipped
      exact (Except.ok.inj skipped).symm
  | @lengthDelimited tag bytes payload encoded =>
      intro depth rest left skipped
      obtain ⟨depth, rfl⟩ := exists_depth_of_skipField skipped
      have read : decodeVarint (bytes ++ (payload ++ rest)) =
          .ok (payload.length, payload ++ rest) := encoded.decodes _
      rw [List.append_assoc] at skipped
      simp only [skipField, read] at skipped
      exact (Except.ok.inj ((advance_append rfl rest).symm.trans skipped)).symm
  | startGroup _ ih =>
      intro depth rest left skipped
      obtain ⟨depth, rfl⟩ := exists_depth_of_skipField skipped
      exact ih depth _ rest left skipped
  | endGroup key =>
      intro depth fuel rest left skipped
      cases fuel with
      | zero => cases skipped
      | succ fuel =>
          simp only [skipGroup, key.decodes, bind, Except.bind, if_true] at skipped
          exact (Except.ok.inj skipped).symm
  | @inner tag innerTag innerType bytes body others key field _ skipsField skipsRest =>
      intro depth fuel rest left skipped
      cases fuel with
      | zero => cases skipped
      | succ fuel =>
          have unended : innerType ≠ .endGroup := by
            rintro rfl
            cases field
          simp only [List.append_assoc, skipGroup, key.decodes, bind, Except.bind,
            if_neg unended] at skipped
          cases inside : skipField depth innerType innerTag (body ++ (others ++ rest)) with
          | error e =>
              rw [inside] at skipped
              cases skipped
          | ok next =>
              rw [inside] at skipped
              obtain rfl := skipsField depth _ next inside
              exact skipsRest depth fuel rest left skipped

/-! ## Messages -/

/-- What one field does to the message read so far. -/
abbrev Merge (M : Type) := Nat → WireType → M → List UInt8 → Except DecodeError (M × List UInt8)

section Messages

variable {M : Type} (merge : Merge M)

/-- Merge fields while more than `limit` bytes are left.  Every turn reads at
    least one byte of a key, so the length of the buffer is fuel enough. -/
def mergeLoop (limit : Nat) : Nat → M → List UInt8 → Except DecodeError (M × List UInt8)
  | 0, m, buf => pure (m, buf)
  | fuel + 1, m, buf =>
      if buf.length ≤ limit then pure (m, buf)
      else do
        let (tag, wireType, rest) ← decodeKey buf
        let (m, rest) ← merge tag wireType m rest
        mergeLoop limit fuel m rest

def decode (m : M) (buf : List UInt8) : Except DecodeError M := do
  let (m, _) ← mergeLoop merge 0 buf.length m buf
  pure m

/-- `message::merge`: the nested message has to end where its length says. -/
def mergeNested (m : M) (buf : List UInt8) : Except DecodeError (M × List UInt8) := do
  let (len, rest) ← decodeVarint buf
  if rest.length < len then throw .bufferUnderflow
  let limit := rest.length - len
  let (m, rest) ← mergeLoop merge limit rest.length m rest
  if rest.length ≠ limit then throw .delimitedLengthExceeded
  pure (m, rest)

/-- These bytes turn one message into another, whatever follows them. -/
def Merges (m : M) (bytes : List UInt8) (m' : M) : Prop :=
  ∀ rest fuel, (bytes ++ rest).length ≤ fuel →
    mergeLoop merge rest.length fuel m (bytes ++ rest) = .ok (m', rest)

variable {merge}

theorem Merges.nil (m : M) : Merges merge m [] m := by
  intro rest fuel _
  cases fuel with
  | zero => rfl
  | succ fuel => simp [mergeLoop, pure, Except.pure]

/-- A field in front of other fields. -/
theorem Merges.field {m m' m'' : M} {tag : Nat} {wireType : WireType}
    {bytes body others : List UInt8} (key : Key bytes tag wireType)
    (merged : ∀ rest, merge tag wireType m (body ++ rest) = .ok (m', rest))
    (merges : Merges merge m' others m'') : Merges merge m (bytes ++ (body ++ others)) m'' := by
  intro rest fuel enough
  have positive := key.nonempty
  simp only [List.length_append] at enough
  cases fuel with
  | zero => omega
  | succ fuel =>
      have unfinished : ¬ (bytes ++ (body ++ (others ++ rest))).length ≤ rest.length := by
        simp only [List.length_append]
        omega
      simp only [List.append_assoc, mergeLoop, if_neg unfinished, key.decodes, bind, Except.bind,
        merged]
      refine merges rest fuel ?_
      rw [List.length_append]
      omega

/-- A length-delimited field in front of other fields. -/
theorem Merges.encodeLen {m m' m'' : M} {tag : Nat} {payload others : List UInt8}
    (positive : 0 < tag) (small : tag < 2 ^ 29) (fits : payload.length < 2 ^ 64)
    (merged : ∀ bytes rest, Varint 10 bytes payload.length →
      merge tag .lengthDelimited m (bytes ++ (payload ++ rest)) = .ok (m', rest))
    (merges : Merges merge m' others m'') :
    Merges merge m (encodeLen tag payload ++ others) m'' := by
  have key : Key (encodeKey tag .lengthDelimited) tag .lengthDelimited := by
    refine key_encodeKey positive ?_
    rw [WireType.code]
    omega
  have body : ∀ rest, merge tag .lengthDelimited m
      ((encodeVarint payload.length ++ payload) ++ rest) = .ok (m', rest) := by
    intro rest
    rw [List.append_assoc]
    exact merged _ rest (varint_encodeVarint fits)
  rw [Wire.encodeLen, List.append_assoc]
  exact Merges.field key body merges

theorem Merges.decode {m m' : M} {bytes : List UInt8} (merges : Merges merge m bytes m') :
    decode merge m bytes = .ok m' := by
  have merged := merges [] bytes.length (by simp)
  simp only [List.append_nil, List.length_nil] at merged
  simp [Wire.decode, merged, bind, Except.bind, pure, Except.pure]

theorem Merges.nested {m m' : M} {bytes payload : List UInt8}
    (varint : Varint 10 bytes payload.length) (merges : Merges merge m payload m')
    (rest : List UInt8) : mergeNested merge m (bytes ++ (payload ++ rest)) = .ok (m', rest) := by
  have read : decodeVarint (bytes ++ (payload ++ rest)) = .ok (payload.length, payload ++ rest) :=
    varint.decodes _
  have merged := merges rest (payload ++ rest).length (Nat.le_refl _)
  have limit : (payload ++ rest).length - payload.length = rest.length := by simp
  have enough : ¬ (payload ++ rest).length < payload.length := by simp
  have exactly : ¬ rest.length ≠ rest.length := by simp
  simp only [mergeNested, read, bind, Except.bind, if_neg enough, limit, merged, if_neg exactly]
  rfl

/-- Fields that the message does not know leave it as it is, however the loop ends. -/
theorem Fields.unknown {known : List Nat} {depth : Nat}
    (skips : ∀ tag wireType m buf, tag ∉ known →
      merge tag wireType m buf = (skipField depth wireType tag buf).map (fun rest => (m, rest)))
    {tags : List Nat} {bytes : List UInt8} (fields : Fields tags bytes)
    (unknown : ∀ tag ∈ tags, tag ∉ known) {limit fuel : Nat} {m m' : M} {left : List UInt8}
    (merged : mergeLoop merge limit fuel m bytes = .ok (m', left)) : m' = m := by
  induction fields generalizing fuel with
  | nil =>
      cases fuel with
      | zero => exact (Prod.mk.inj (Except.ok.inj merged)).1.symm
      | succ fuel =>
          rw [mergeLoop, List.length_nil, if_pos (Nat.zero_le limit)] at merged
          exact (Prod.mk.inj (Except.ok.inj merged)).1.symm
  | @cons tag wireType tags bytes body rest key field _ ih =>
      cases fuel with
      | zero => exact (Prod.mk.inj (Except.ok.inj merged)).1.symm
      | succ fuel =>
          rw [mergeLoop] at merged
          split at merged
          · exact (Prod.mk.inj (Except.ok.inj merged)).1.symm
          · have isUnknown := unknown tag List.mem_cons_self
            simp only [key.decodes, bind, Except.bind, skips _ _ _ _ isUnknown] at merged
            cases skipped : skipField depth wireType tag (body ++ rest) with
            | error e =>
                rw [skipped] at merged
                cases merged
            | ok next =>
                -- the skipped bytes are the body, so the other fields come next
                obtain rfl := field.skipsOver depth _ next skipped
                rw [skipped] at merged
                exact ih (fun other among => unknown other (List.mem_cons_of_mem tag among)) merged

end Messages

end Wire
