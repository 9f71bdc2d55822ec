import MalachiteMempool.Lib.Wire

/-! # What the wire format accepts

The reading functions of the wire format are exact: each succeeds on a buffer
precisely when the buffer begins with a piece of the grammar, and then stops
right behind it.

The grammar of skipped fields has the recursion limit in it.  The fields that a
message knows are described by a type `α` of field values: `parses` says which
bodies stand for which value, `apply` what a value does to a message.  A merge
function `Implements` the two when it does just that to the next field, and then
the loop over a whole buffer reads exactly the sequences of fields, and applies
their values one after the other.
-/

namespace Wire

/-- One step of a computation that may fail. -/
theorem bind_eq_ok {ε α β : Type} {x : Except ε α} {f : α → Except ε β} {b : β} :
    (x >>= f) = .ok b ↔ ∃ a, x = .ok a ∧ f a = .ok b := by
  cases x with
  | error e => simp [bind, Except.bind]
  | ok a => simp [bind, Except.bind]

theorem exceptMap_eq_ok {ε α β : Type} {x : Except ε α} {f : α → β} {b : β} :
    x.map f = .ok b ↔ ∃ a, x = .ok a ∧ f a = b := by
  cases x with
  | error e => simp [Except.map]
  | ok a => simp [Except.map]

/-! ## Integers, keys and lengths -/

theorem Varint.of_decodes {room : Nat} {buf rest : List UInt8} {value : Nat}
    (decoded : decodeVarintLoop room buf = .ok (value, rest)) :
    ∃ bytes, buf = bytes ++ rest ∧ Varint room bytes value := by
  induction room generalizing buf value with
  | zero => cases decoded
  | succ room ih =>
      cases buf with
      | nil => cases decoded
      | cons byte others =>
          rw [decodeVarintLoop] at decoded
          split at decoded
          · rename_i final
            split at decoded
            · cases decoded
            · rename_i fits
              obtain ⟨rfl, rfl⟩ := Prod.mk.inj (Except.ok.inj decoded)
              refine ⟨[byte], rfl, .last final ?_⟩
              intro lastRoom
              by_contra large
              exact fits ⟨lastRoom, Nat.not_lt.mp large⟩
          · rename_i continued
            obtain ⟨⟨high, left⟩, inner, same⟩ := bind_eq_ok.mp decoded
            obtain ⟨rfl, rfl⟩ := Prod.mk.inj (Except.ok.inj same)
            obtain ⟨bytes, rfl, varint⟩ := ih inner
            exact ⟨byte :: bytes, rfl, .more (Nat.not_lt.mp continued) varint⟩

theorem decodeVarint_eq_ok {buf rest : List UInt8} {value : Nat} :
    decodeVarint buf = .ok (value, rest) ↔
      ∃ bytes, buf = bytes ++ rest ∧ Varint 10 bytes value := by
  constructor
  · exact Varint.of_decodes
  · rintro ⟨bytes, rfl, varint⟩
    exact varint.decodes rest

theorem WireType.ofCode_eq_ok {code : Nat} {wireType : WireType} :
    WireType.ofCode code = .ok wireType ↔ wireType.code = code := by
  constructor
  · intro read
    unfold WireType.ofCode at read
    split at read
    all_goals cases read
    all_goals rfl
  · rintro rfl
    exact wireType.ofCode_code

theorem decodeKey_eq_ok {buf rest : List UInt8} {tag : Nat} {wireType : WireType} :
    decodeKey buf = .ok (tag, wireType, rest) ↔
      ∃ bytes, buf = bytes ++ rest ∧ Key bytes tag wireType := by
  constructor
  · intro decoded
    obtain ⟨⟨key, left⟩, read, checked⟩ := bind_eq_ok.mp decoded
    obtain ⟨bytes, rfl, varint⟩ := decodeVarint_eq_ok.mp read
    dsimp only at checked
    split at checked
    · cases checked
    · rename_i small
      obtain ⟨wireType', typed, tagged⟩ := bind_eq_ok.mp checked
      have code := WireType.ofCode_eq_ok.mp typed
      split at tagged
      · cases tagged
      · rename_i positive
        obtain ⟨rfl, same⟩ := Prod.mk.inj (Except.ok.inj tagged)
        obtain ⟨rfl, rfl⟩ := Prod.mk.inj same
        have value : 8 * (key / 8) + wireType'.code = key := by omega
        refine ⟨bytes, rfl, Nat.pos_of_ne_zero positive, ?_, ?_⟩
        · rw [value]
          exact Nat.not_le.mp small
        · rwa [value]
  · rintro ⟨bytes, rfl, key⟩
    exact key.decodes rest

theorem advance_eq_ok {len : Nat} {buf rest : List UInt8} :
    advance len buf = .ok rest ↔ ∃ bytes, buf = bytes ++ rest ∧ bytes.length = len := by
  constructor
  · intro advanced
    unfold advance at advanced
    split at advanced
    · cases advanced
    · rename_i enough
      obtain rfl := Except.ok.inj advanced
      exact ⟨buf.take len, (List.take_append_drop len buf).symm,
        List.length_take_of_le (Nat.not_lt.mp enough)⟩
  · rintro ⟨bytes, rfl, isLength⟩
    exact advance_append isLength rest

theorem splitLength_eq_ok {buf payload rest : List UInt8} :
    splitLength buf = .ok (payload, rest) ↔
      ∃ bytes, buf = bytes ++ (payload ++ rest) ∧ Varint 10 bytes payload.length := by
  constructor
  · intro taken
    obtain ⟨⟨len, left⟩, read, checked⟩ := bind_eq_ok.mp taken
    obtain ⟨bytes, rfl, varint⟩ := decodeVarint_eq_ok.mp read
    dsimp only at checked
    split at checked
    · cases checked
    · rename_i enough
      obtain ⟨rfl, rfl⟩ := Prod.mk.inj (Except.ok.inj checked)
      refine ⟨bytes, by rw [List.take_append_drop], ?_⟩
      rwa [List.length_take_of_le (Nat.not_lt.mp enough)]
  · rintro ⟨bytes, rfl, varint⟩
    exact splitLength_append varint rest

theorem checkWireType_eq_ok {expected actual : WireType} :
    checkWireType expected actual = .ok () ↔ actual = expected := by
  unfold checkWireType
  split
  · rename_i same
    simp [same, pure, Except.pure]
  · rename_i different
    simp [throw, throwThe, MonadExceptOf.throw, Ne.symm different]

/-! ## Skipped fields -/

/-- The grammar of the format down to a recursion limit. -/
inductive Within : Nat → Shape → List UInt8 → Prop where
  | varint {depth tag value : Nat} {bytes : List UInt8} (encoded : Varint 10 bytes value) :
      Within (depth + 1) (.field .varint tag) bytes
  | thirtyTwoBit {depth tag : Nat} {bytes : List UInt8} (isLength : bytes.length = 4) :
      Within (depth + 1) (.field .thirtyTwoBit tag) bytes
  | sixtyFourBit {depth tag : Nat} {bytes : List UInt8} (isLength : bytes.length = 8) :
      Within (depth + 1) (.field .sixtyFourBit tag) bytes
  | lengthDelimited {depth tag : Nat} {bytes payload : List UInt8}
      (encoded : Varint 10 bytes payload.length) :
      Within (depth + 1) (.field .lengthDelimited tag) (bytes ++ payload)
  | startGroup {depth tag : Nat} {bytes : List UInt8} (rest : Within depth (.group tag) bytes) :
      Within (depth + 1) (.field .startGroup tag) bytes
  | endGroup {depth tag : Nat} {bytes : List UInt8} (key : Key bytes tag .endGroup) :
      Within depth (.group tag) bytes
  | inner {depth tag innerTag : Nat} {innerType : WireType} {bytes body rest : List UInt8}
      (key : Key bytes innerTag innerType)
      (field : Within depth (.field innerType innerTag) body)
      (others : Within depth (.group tag) rest) :
      Within depth (.group tag) (bytes ++ (body ++ rest))

/-- Reading these bytes as this shape succeeds and stops right behind them. -/
def Shape.Reads (depth : Nat) (bytes : List UInt8) : Shape → Prop
  | .field wireType tag => ∀ rest, skipField depth wireType tag (bytes ++ rest) = .ok rest
  | .group tag => ∀ fuel rest, bytes.length ≤ fuel →
      skipGroup (skipField depth) tag fuel (bytes ++ rest) = .ok rest

theorem Within.reads {depth : Nat} {shape : Shape} {bytes : List UInt8}
    (within : Within depth shape bytes) : shape.Reads depth bytes := by
  induction within with
  | @varint depth tag value bytes encoded =>
      intro rest
      have read : decodeVarint (bytes ++ rest) = .ok (value, rest) := encoded.decodes rest
      simp only [skipField, read, bind, Except.bind]
      rfl
  | thirtyTwoBit isLength | sixtyFourBit isLength =>
      intro rest
      exact advance_append isLength rest
  | @lengthDelimited depth tag bytes payload encoded =>
      intro rest
      have read : decodeVarint (bytes ++ (payload ++ rest)) =
          .ok (payload.length, payload ++ rest) := encoded.decodes _
      rw [List.append_assoc]
      simp only [skipField, read, bind, Except.bind]
      exact advance_append rfl rest
  | startGroup _ ih =>
      intro rest
      exact ih _ rest (by simp)
  | endGroup key =>
      intro fuel rest enough
      have positive := key.nonempty
      cases fuel with
      | zero => omega
      | succ fuel =>
          simp only [skipGroup, key.decodes, bind, Except.bind, if_true]
          rfl
  | @inner depth tag innerTag innerType bytes body others key field _ readsField readsOthers =>
      intro fuel rest enough
      have positive := key.nonempty
      simp only [List.length_append] at enough
      cases fuel with
      | zero => omega
      | succ fuel =>
          have unended : innerType ≠ .endGroup := by
            rintro rfl
            cases field
          simp only [List.append_assoc, skipGroup, key.decodes, bind, Except.bind, if_neg unended]
          rw [readsField]
          exact readsOthers fuel rest (by omega)

/-- What a group is made of, as long as its fields are. -/
theorem within_of_skipGroup {depth tag fuel : Nat} {buf rest : List UInt8}
    (fields : ∀ wireType innerTag buf rest, skipField depth wireType innerTag buf = .ok rest →
      ∃ bytes, buf = bytes ++ rest ∧ Within depth (.field wireType innerTag) bytes)
    (skipped : skipGroup (skipField depth) tag fuel buf = .ok rest) :
    ∃ bytes, buf = bytes ++ rest ∧ Within depth (.group tag) bytes := by
  induction fuel generalizing buf with
  | zero => cases skipped
  | succ fuel ih =>
      obtain ⟨⟨innerTag, innerType, left⟩, read, turn⟩ := bind_eq_ok.mp skipped
      obtain ⟨key, rfl, isKey⟩ := decodeKey_eq_ok.mp read
      dsimp only at turn
      split at turn
      · rename_i ends
        subst ends
        split at turn
        · rename_i same
          subst same
          obtain rfl := Except.ok.inj turn
          exact ⟨key, rfl, .endGroup isKey⟩
        · cases turn
      · obtain ⟨next, inside, later⟩ := bind_eq_ok.mp turn
        obtain ⟨body, rfl, field⟩ := fields _ _ _ _ inside
        obtain ⟨others, rfl, group⟩ := ih later
        exact ⟨key ++ (body ++ others), by simp, .inner isKey field group⟩

/-- Skipping a field succeeds exactly on a field of the grammar. -/
theorem skipField_eq_ok {depth tag : Nat} {wireType : WireType} {buf rest : List UInt8} :
    skipField depth wireType tag buf = .ok rest ↔
      ∃ bytes, buf = bytes ++ rest ∧ Within depth (.field wireType tag) bytes := by
  constructor
  · intro skipped
    induction depth generalizing wireType tag buf rest with
    | zero => cases skipped
    | succ depth ih =>
        cases wireType with
        | varint =>
            obtain ⟨⟨value, left⟩, read, same⟩ := bind_eq_ok.mp skipped
            obtain rfl := Except.ok.inj same
            obtain ⟨bytes, rfl, varint⟩ := decodeVarint_eq_ok.mp read
            exact ⟨bytes, rfl, .varint varint⟩
        | thirtyTwoBit =>
            obtain ⟨bytes, rfl, isLength⟩ := advance_eq_ok.mp skipped
            exact ⟨bytes, rfl, .thirtyTwoBit isLength⟩
        | sixtyFourBit =>
            obtain ⟨bytes, rfl, isLength⟩ := advance_eq_ok.mp skipped
            exact ⟨bytes, rfl, .sixtyFourBit isLength⟩
        | lengthDelimited =>
            obtain ⟨⟨len, left⟩, read, advanced⟩ := bind_eq_ok.mp skipped
            obtain ⟨bytes, rfl, varint⟩ := decodeVarint_eq_ok.mp read
            obtain ⟨payload, rfl, rfl⟩ := advance_eq_ok.mp advanced
            exact ⟨bytes ++ payload, by simp, .lengthDelimited varint⟩
        | startGroup =>
            obtain ⟨bytes, rfl, group⟩ := within_of_skipGroup (fun _ _ _ _ => ih) skipped
            exact ⟨bytes, rfl, .startGroup group⟩
        | endGroup => cases skipped
  · rintro ⟨bytes, rfl, within⟩
    exact within.reads rest

/-! ## Messages -/

section Messages

variable {M α : Type} (parses : Nat → WireType → α → List UInt8 → Prop) (apply : M → α → M)

/-- The merge function reads the next field, and nothing else, and applies it. -/
def Implements (merge : Merge M) : Prop :=
  ∀ tag wireType m buf m' rest, merge tag wireType m buf = .ok (m', rest) ↔
    ∃ body a, buf = body ++ rest ∧ parses tag wireType a body ∧ m' = apply m a

/-- The sequences of fields with these values. -/
inductive Sequence : List α → List UInt8 → Prop where
  | nil : Sequence [] []
  | cons {tag : Nat} {wireType : WireType} {a : α} {values : List α}
      {bytes body rest : List UInt8} (key : Key bytes tag wireType)
      (field : parses tag wireType a body) (others : Sequence values rest) :
      Sequence (a :: values) (bytes ++ (body ++ rest))

variable {parses apply} {merge : Merge M}

theorem Sequence.append {first second : List α} {bytes bytes' : List UInt8}
    (left : Sequence parses first bytes) (right : Sequence parses second bytes') :
    Sequence parses (first ++ second) (bytes ++ bytes') := by
  induction left with
  | nil => exact right
  | cons key field _ ih =>
      simp only [List.cons_append, List.append_assoc]
      exact .cons key field ih

/-- A single field whose body is a payload behind its length. -/
theorem Sequence.encodeLen {tag : Nat} {a : α} {payload : List UInt8} (positive : 0 < tag)
    (small : tag < 2 ^ 29) (fits : payload.length < 2 ^ 64)
    (field : ∀ length, Varint 10 length payload.length →
      parses tag .lengthDelimited a (length ++ payload)) :
    Sequence parses [a] (encodeLen tag payload) := by
  have key : Key (encodeKey tag .lengthDelimited) tag .lengthDelimited := by
    refine key_encodeKey positive ?_
    rw [WireType.code]
    omega
  have sequence := Sequence.cons key (field _ (varint_encodeVarint fits)) Sequence.nil
  rwa [List.append_nil] at sequence

/-- The loop never stops before the limit. -/
theorem mergeLoop_le {limit fuel : Nat} {m m' : M} {buf rest : List UInt8}
    (enough : buf.length ≤ fuel) (shrinks : ∀ tag wireType m buf m' rest,
      merge tag wireType m buf = .ok (m', rest) → rest.length ≤ buf.length)
    (merged : mergeLoop merge limit fuel m buf = .ok (m', rest)) : rest.length ≤ limit := by
  induction fuel generalizing m buf with
  | zero =>
      obtain ⟨_, rfl⟩ := Prod.mk.inj (Except.ok.inj merged)
      omega
  | succ fuel ih =>
      rw [mergeLoop] at merged
      split at merged
      · rename_i done
        obtain ⟨_, rfl⟩ := Prod.mk.inj (Except.ok.inj merged)
        exact done
      · obtain ⟨⟨tag, wireType, left⟩, read, turn⟩ := bind_eq_ok.mp merged
        obtain ⟨key, rfl, isKey⟩ := decodeKey_eq_ok.mp read
        obtain ⟨⟨next, left'⟩, field, later⟩ := bind_eq_ok.mp turn
        have positive := isKey.nonempty
        have shorter := shrinks _ _ _ _ _ _ field
        rw [List.length_append] at enough
        exact ih (by omega) later

theorem Implements.shrinks (implements : Implements parses apply merge) (tag : Nat)
    (wireType : WireType) (m : M) (buf : List UInt8) (m' : M) (rest : List UInt8)
    (merged : merge tag wireType m buf = .ok (m', rest)) : rest.length ≤ buf.length := by
  obtain ⟨body, a, rfl, _, _⟩ := (implements ..).mp merged
  simp

/-- When the loop stops at the limit, it has read a sequence of fields. -/
theorem sequence_of_mergeLoop (implements : Implements parses apply merge) {fuel : Nat} {m m' : M}
    {buf rest : List UInt8} (enough : buf.length ≤ fuel)
    (merged : mergeLoop merge rest.length fuel m buf = .ok (m', rest)) :
    ∃ values bytes, buf = bytes ++ rest ∧ Sequence parses values bytes ∧
      m' = values.foldl apply m := by
  induction fuel generalizing m buf with
  | zero =>
      obtain ⟨rfl, rfl⟩ := Prod.mk.inj (Except.ok.inj merged)
      exact ⟨[], [], rfl, .nil, rfl⟩
  | succ fuel ih =>
      rw [mergeLoop] at merged
      split at merged
      · obtain ⟨rfl, rfl⟩ := Prod.mk.inj (Except.ok.inj merged)
        exact ⟨[], [], rfl, .nil, rfl⟩
      · obtain ⟨⟨tag, wireType, left⟩, read, turn⟩ := bind_eq_ok.mp merged
        obtain ⟨key, rfl, isKey⟩ := decodeKey_eq_ok.mp read
        obtain ⟨⟨next, left'⟩, field, later⟩ := bind_eq_ok.mp turn
        obtain ⟨body, a, rfl, parsed, rfl⟩ := (implements ..).mp field
        have positive := isKey.nonempty
        simp only [List.length_append] at enough
        obtain ⟨values, others, rfl, sequence, rfl⟩ := ih (by omega) later
        exact ⟨a :: values, key ++ (body ++ others), by simp, .cons isKey parsed sequence, rfl⟩

/-- A sequence of fields merges whatever follows it. -/
theorem Sequence.merges (implements : Implements parses apply merge) {values : List α}
    {bytes : List UInt8} (sequence : Sequence parses values bytes) (m : M) :
    Merges merge m bytes (values.foldl apply m) := by
  induction sequence generalizing m with
  | nil => exact Merges.nil m
  | @cons tag wireType a values bytes body others key field _ ih =>
      refine Merges.field key ?_ (ih (apply m a))
      intro rest
      exact (implements ..).mpr ⟨body, a, rfl, field, rfl⟩

/-- A buffer is decoded exactly when it is a sequence of fields. -/
theorem decode_eq_ok (implements : Implements parses apply merge) {m m' : M} {buf : List UInt8} :
    decode merge m buf = .ok m' ↔
      ∃ values, Sequence parses values buf ∧ m' = values.foldl apply m := by
  constructor
  · intro decoded
    obtain ⟨⟨read, left⟩, merged, same⟩ := bind_eq_ok.mp decoded
    obtain rfl := Except.ok.inj same
    have done := mergeLoop_le (Nat.le_refl _) implements.shrinks merged
    have isEmpty : left = [] := List.length_eq_zero_iff.mp (Nat.le_zero.mp done)
    rw [← Nat.le_zero.mp done] at merged
    obtain ⟨values, bytes, isBuffer, sequence, rfl⟩ :=
      sequence_of_mergeLoop implements (Nat.le_refl _) merged
    rw [isBuffer, isEmpty, List.append_nil]
    exact ⟨values, sequence, rfl⟩
  · rintro ⟨values, sequence, rfl⟩
    exact (sequence.merges implements m).decode

/-- A nested message is a sequence of fields behind its own length. -/
theorem mergeNested_eq_ok (implements : Implements parses apply merge) {m m' : M}
    {buf rest : List UInt8} :
    mergeNested merge m buf = .ok (m', rest) ↔ ∃ bytes payload values,
      buf = bytes ++ (payload ++ rest) ∧ Varint 10 bytes payload.length ∧
        Sequence parses values payload ∧ m' = values.foldl apply m := by
  constructor
  · intro merged
    obtain ⟨⟨len, left⟩, read, checked⟩ := bind_eq_ok.mp merged
    obtain ⟨bytes, rfl, varint⟩ := decodeVarint_eq_ok.mp read
    dsimp only at checked
    split at checked
    · cases checked
    · rename_i enough
      obtain ⟨⟨read, after⟩, inner, ended⟩ := bind_eq_ok.mp checked
      dsimp only at ended
      split at ended
      · cases ended
      · rename_i atLimit
        obtain ⟨rfl, rfl⟩ := Prod.mk.inj (Except.ok.inj ended)
        rw [← Decidable.not_not.mp atLimit] at inner
        obtain ⟨values, payload, rfl, sequence, rfl⟩ :=
          sequence_of_mergeLoop implements (Nat.le_refl _) inner
        refine ⟨bytes, payload, values, rfl, ?_, sequence, rfl⟩
        have length : payload.length = len := by
          have limit := Decidable.not_not.mp atLimit
          rw [List.length_append] at limit enough
          omega
        rwa [length]
  · rintro ⟨bytes, payload, values, rfl, varint, sequence, rfl⟩
    exact (sequence.merges implements m).nested varint rest

end Messages

end Wire
