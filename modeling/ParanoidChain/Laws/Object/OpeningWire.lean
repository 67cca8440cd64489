import ParanoidChain.Laws.Tx.IntentWire
import ParanoidChain.Object.OpeningWire

/-!
# Laws of the opening codec

Bytes decode to an opening exactly when they are its encoding, so an opening kept as bytes is the one
that was written. The same holds of a contract intent, and no byte string is both a contract intent
and an ordinary one: they differ in their first byte.
-/

namespace ParanoidChain

open Lib Lib.Wire

variable {src rest bytes : List Byte}

@[simp] theorem reads_takeInstruction {instruction : Block128 × Block128} :
    Reads takeInstruction src instruction rest ↔ src = encodeInstruction instruction ++ rest := by
  simp only [takeInstruction, reads_bind, reads_takeU128, reads_pure]
  constructor
  · rintro ⟨_, _, rfl, _, _, rfl, rfl, rfl⟩
    simp [encodeInstruction]
  · rintro rfl
    exact ⟨_, _, by simp [encodeInstruction], _, _, rfl, rfl, rfl⟩

namespace ObjectOpening

variable {opening : ObjectOpening}

theorem reads_takeFields : Reads takeFields src opening rest ↔ src = opening.encodeFields ++ rest := by
  simp only [takeFields, reads_bind, reads_takeU128, reads_takeDigest, reads_takeU64, reads_takeByte,
    reads_takeVector fun _ _ _ => reads_takeInstruction, reads_pure]
  constructor
  · rintro ⟨_, _, rfl, _, _, rfl, _, _, rfl, _, _, rfl, _, _, rfl, _, _, rfl, _, _, rfl, _, _, rfl, _, _,
      rfl, _, _, rfl, _, _, rfl, rfl, rfl⟩
    simp [encodeFields]
  · rintro rfl
    exact ⟨_, _, by simp [encodeFields], _, _, rfl, _, _, rfl, _, _, rfl, _, _, rfl, _, _, rfl, _, _,
      rfl, _, _, rfl, _, _, rfl, _, _, rfl, _, _, rfl, rfl, rfl⟩

theorem length_encodeFields (opening : ObjectOpening) :
    opening.encodeFields.length = openingBytes - 10 := by
  simp [encodeFields, encodeInstruction, putU128, putDigest, putU64, List.length_flatMap,
    openingBytes, ruleBytes, programSteps]

theorem toBytes_eq_ok : opening.toBytes = .ok bytes ↔
    opening.validate = .ok () ∧ openingMagic ++ putU16 3 ++ opening.encodeFields = bytes :=
  check_pure_eq_ok

theorem length_toBytes (encoded : opening.toBytes = .ok bytes) : bytes.length = openingBytes := by
  obtain ⟨-, rfl⟩ := toBytes_eq_ok.mp encoded
  simp [length_encodeFields, openingMagic, putU16, openingBytes, ruleBytes, programSteps]

/-- An encoding decodes to the opening it was made from. -/
theorem fromBytes_toBytes (encoded : opening.toBytes = .ok bytes) :
    fromBytes bytes = .ok opening := by
  have length := length_toBytes encoded
  obtain ⟨valid, rfl⟩ := toBytes_eq_ok.mp encoded
  have fields : (openingMagic ++ putU16 3 ++ opening.encodeFields).drop 10 =
      opening.encodeFields := List.drop_left' rfl
  have version : ((openingMagic ++ putU16 3 ++ opening.encodeFields).drop 8).take 2 = putU16 3 := by
    rw [List.append_assoc, List.drop_left' (show openingMagic.length = 8 from rfl),
      List.take_left' (show (putU16 3).length = 2 from rfl)]
  have magic : (openingMagic ++ putU16 3 ++ opening.encodeFields).take 8 = openingMagic := by
    rw [List.append_assoc, List.take_left' (show openingMagic.length = 8 from rfl)]
  have read : takeFields.run opening.encodeFields = .ok (opening, []) :=
    reads_takeFields.mpr (List.append_nil _).symm
  simp only [fromBytes, bind_eq_ok, reject_eq_ok, length, magic, version, fields, read, pure_eq_ok,
    mapError_ok_iff]
  refine ⟨(), by simp, (), ?_, (opening, []), rfl, (), valid, rfl⟩
  rw [putU16, fromLeBytes_toLeBytes (by rfl)]
  simp

/-- Whatever decodes is the encoding of what it decodes to. -/
theorem toBytes_of_fromBytes (decoded : fromBytes bytes = .ok opening) :
    opening.toBytes = .ok bytes := by
  simp only [fromBytes, bind_eq_ok, reject_eq_ok, mapError_ok_iff, pure_eq_ok, not_or, not_not, ne_eq,
    Prod.exists] at decoded
  obtain ⟨-, ⟨length, magic⟩, -, version, _, left, read, _, valid, rfl⟩ := decoded
  have fields := reads_takeFields.mp read
  have all : left = [] := by
    have sizes := congrArg List.length fields
    rw [List.length_drop, List.length_append, length_encodeFields, length] at sizes
    exact List.eq_nil_of_length_eq_zero (by omega)
  have versioned : (bytes.drop 8).take 2 = putU16 3 := by
    have two : ((bytes.drop 8).take 2).length = 2 := by
      simp only [List.length_take, List.length_drop, length]
      decide
    have back := toLeBytes_fromLeBytes (w := 16) (show 16 = 8 * ((bytes.drop 8).take 2).length by
      rw [two])
    rw [two, version] at back
    exact back.symm
  refine toBytes_eq_ok.mpr ⟨valid, ?_⟩
  rw [all, List.append_nil] at fields
  rw [← magic, ← versioned, ← fields, List.append_assoc, ← List.drop_drop (i := 2) (j := 8),
    List.take_append_drop, List.take_append_drop]

theorem fromBytes_eq_ok : fromBytes bytes = .ok opening ↔ opening.toBytes = .ok bytes :=
  ⟨toBytes_of_fromBytes, fromBytes_toBytes⟩

end ObjectOpening

/-! ## Contract intents -/

theorem putU16_injective : Function.Injective putU16 := by
  intro first second same
  have two : 16 = 8 * 2 := rfl
  rw [← fromLeBytes_toLeBytes two first, ← fromLeBytes_toLeBytes two second]
  exact congrArg (fromLeBytes 16) same

namespace ObjectIntent

variable {hashes : TxHashes} {intent : ObjectIntent}

theorem toBytes_eq_ok : intent.toBytes hashes = .ok bytes ↔
    intent.spend.pages.length = 1 ∧ intent.spend.Valid hashes ∧
      ∃ opening, intent.opening.toBytes = .ok opening ∧
        intentMagic ++ opening ++ intent.spend.wire = bytes := by
  simp only [toBytes, bind_eq_ok, reject_eq_ok, mapError_ok_iff, pure_eq_ok, not_not, ne_eq,
    PagedSpendIntent.toBytes_eq_ok]
  constructor
  · rintro ⟨-, single, opening, encoded, _, ⟨valid, rfl⟩, rfl⟩
    exact ⟨single, valid, opening, encoded, rfl⟩
  · rintro ⟨single, valid, opening, encoded, rfl⟩
    exact ⟨(), single, opening, encoded, _, ⟨valid, rfl⟩, rfl⟩

/-- The count of pages is the second field of the bytes of a spend. -/
theorem pageCount_wire (spend : PagedSpendIntent) :
    (spend.wire.drop 1).take 2 = putU16 (BitVec.ofNat 16 spend.pages.length) := by
  simp only [PagedSpendIntent.wire, PagedSpendIntent.wireHead, List.cons_append, List.drop_one,
    List.tail_cons, List.append_assoc]
  exact List.take_left' rfl

theorem fromBytes_toBytes (encoded : intent.toBytes hashes = .ok bytes) :
    fromBytes hashes bytes = .ok intent := by
  obtain ⟨single, valid, opening, encodes, rfl⟩ := toBytes_eq_ok.mp encoded
  have sized : (intentMagic ++ opening).length = intentPrefixBytes := by
    rw [List.length_append, ObjectOpening.length_toBytes encodes, intentPrefixBytes]
  have inner : (intentMagic ++ opening ++ intent.spend.wire).drop intentPrefixBytes =
      intent.spend.wire := List.drop_left' sized
  have outer : ((intentMagic ++ opening ++ intent.spend.wire).take intentPrefixBytes).drop 8 =
      opening := by
    rw [List.take_left' sized]
    exact List.drop_left' rfl
  have whole : (intentMagic ++ opening ++ intent.spend.wire).length =
      intentPrefixBytes + (330 + intent.spend.authorizationBytes.length) := by
    rw [List.length_append, sized, PagedSpendIntent.length_wire, single]
    simp only [txBodyWireSize, txInputs, txOutputs, txInputWireSize, txOutputWireSize]
  have within : intentPrefixBytes + (330 + intent.spend.authorizationBytes.length) ≤
      maxIntentBytes := by
    have short := valid.authorization
    simp only [maxIntentBytes, txBodyWireSize, txInputs, txOutputs, txInputWireSize, txOutputWireSize]
    omega
  simp only [fromBytes, bind_eq_ok, reject_eq_ok, mapError_ok_iff, pure_eq_ok, not_not, ne_eq, inner,
    outer, whole, PagedSpendIntent.fromBytes_eq_ok, pageCount_wire, single, not_or, not_lt]
  refine ⟨(), ⟨by omega, within, ?_⟩, (), rfl, intent.opening,
    ObjectOpening.fromBytes_toBytes encodes, intent.spend, ⟨valid, rfl⟩, rfl⟩
  rw [Bool.not_eq_false, List.isPrefixOf_iff_prefix, List.append_assoc]
  exact List.prefix_append _ _

theorem toBytes_of_fromBytes (decoded : fromBytes hashes bytes = .ok intent) :
    intent.toBytes hashes = .ok bytes := by
  simp only [fromBytes, bind_eq_ok, reject_eq_ok, mapError_ok_iff, pure_eq_ok, not_or, not_not, ne_eq,
    PagedSpendIntent.fromBytes_eq_ok, Bool.not_eq_false, List.isPrefixOf_iff_prefix] at decoded
  obtain ⟨-, ⟨-, -, tail, rfl⟩, -, counted, opening, read, spend, ⟨valid, same⟩, rfl⟩ := decoded
  have inner : (intentMagic ++ tail).drop intentPrefixBytes = tail.drop openingBytes := by
    rw [intentPrefixBytes, List.drop_length_add_append]
  have outer : ((intentMagic ++ tail).take intentPrefixBytes).drop 8 = tail.take openingBytes := by
    rw [intentPrefixBytes, List.take_length_add_append]
    exact List.drop_left' rfl
  rw [outer] at read
  rw [inner] at same counted
  have single : spend.pages.length = 1 := by
    rw [← same, pageCount_wire] at counted
    rw [← valid.toNat_pageCount, putU16_injective counted]
    rfl
  refine toBytes_eq_ok.mpr ⟨single, valid, _, ObjectOpening.toBytes_of_fromBytes read, ?_⟩
  rw [same, List.append_assoc, List.take_append_drop]

theorem fromBytes_eq_ok : fromBytes hashes bytes = .ok intent ↔ intent.toBytes hashes = .ok bytes :=
  ⟨toBytes_of_fromBytes, fromBytes_toBytes⟩

end ObjectIntent

/-! ## The three grammars -/

/-- The codecs of spends, openings and contract intents are bijections between accepted values and
accepted bytes, the grammars of the two kinds of intent are disjoint, and the authorization of a spend
is the suffix of its bytes that the mempool borrows. -/
theorem intent_codecs_bijective_disjoint (hashes : TxHashes) (bytes : List Byte) :
    (∀ intent, PagedSpendIntent.fromBytes hashes bytes = .ok intent ↔
      PagedSpendIntent.toBytes hashes intent = .ok bytes) ∧
    (∀ opening, ObjectOpening.fromBytes bytes = .ok opening ↔
      ObjectOpening.toBytes opening = .ok bytes) ∧
    (∀ intent, ObjectIntent.fromBytes hashes bytes = .ok intent ↔
      ObjectIntent.toBytes hashes intent = .ok bytes) ∧
    (∀ spend intent, PagedSpendIntent.fromBytes hashes bytes = .ok spend →
      ObjectIntent.fromBytes hashes bytes ≠ .ok intent) ∧
    (∀ intent, PagedSpendIntent.fromBytes hashes bytes = .ok intent →
      ∃ offset, pagedSpendAuthorizationWireOffset intent.pages.length = .ok offset ∧
        offset ≤ bytes.length ∧ bytes.drop offset = intent.authorizationBytes) := by
  refine ⟨fun intent => ?_, fun _ => ObjectOpening.fromBytes_eq_ok,
    fun _ => ObjectIntent.fromBytes_eq_ok, fun spend intent spent called => ?_,
    fun intent decoded => ?_⟩
  · rw [PagedSpendIntent.fromBytes_eq_ok, PagedSpendIntent.toBytes_eq_ok]
  · obtain ⟨-, marked⟩ := PagedSpendIntent.fromBytes_eq_ok.mp spent
    obtain ⟨-, -, opening, -, magic⟩ :=
      ObjectIntent.toBytes_eq_ok.mp (ObjectIntent.fromBytes_eq_ok.mp called)
    have heads := congrArg List.head? (marked.trans magic.symm)
    exact absurd (Option.some.inj heads) (by decide)
  · obtain ⟨valid, rfl⟩ := PagedSpendIntent.fromBytes_eq_ok.mp decoded
    refine ⟨_, pagedSpendAuthorizationWireOffset_eq_ok.mpr ⟨valid.pageCount, rfl⟩, ?_, ?_⟩
    · rw [PagedSpendIntent.length_wire]
      omega
    · exact List.drop_left' (PagedSpendIntent.length_wireHead intent)

end ParanoidChain
