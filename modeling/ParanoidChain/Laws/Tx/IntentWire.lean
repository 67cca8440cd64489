import ParanoidChain.Laws.Tx.Wire
import ParanoidChain.Tx.IntentWire

/-!
# Laws of the intent codec

`PagedSpendIntent.wire` is the one encoding of an intent. Whatever decodes was that encoding, and the
encoding of an intent that passes its own checks decodes; the limits of the two directions agree, so
neither side asks for more than the other.
-/

namespace ParanoidChain

open Lib Lib.Wire

variable {src rest bytes : List Byte} {hashes : TxHashes}

/-- Wrapping the error of a field does not change what is read. -/
@[simp] theorem reads_wireField {α : Type} {reader : Reader WireError α} {a : α} :
    Reads (wireField reader) src a rest ↔ Reads reader src a rest := mapError_ok_iff

/-- The page counts that are accepted. -/
theorem validatePageCount_eq_ok {count : Nat} {u : Unit} :
    validatePageCount count = .ok u ↔ 1 ≤ count ∧ count ≤ maxPagedSpendPages := by
  rw [validatePageCount, reject_eq_ok, not_not]

/-- The authorization starts behind the version, the page count, the pages and its own length. -/
theorem pagedSpendAuthorizationWireOffset_eq_ok {count offset : Nat} :
    pagedSpendAuthorizationWireOffset count = .ok offset ↔
      (1 ≤ count ∧ count ≤ maxPagedSpendPages) ∧ 1 + 2 + count * txBodyWireSize + 4 = offset := by
  simp only [pagedSpendAuthorizationWireOffset, bind_eq_ok, validatePageCount_eq_ok, pure_eq_ok,
    exists_const]

namespace TxPage

/-- Pages encode together exactly when each has the shape of a page. -/
theorem mapM_encode_eq_ok {pages : List TxPage} {encoded : List (List Byte)} :
    pages.mapM TxPage.encode = .ok encoded ↔
      (∀ page ∈ pages, validatePageShape page.body 0 = .ok ()) ∧
        pages.map (fun page => encodePageBody page.body) = encoded := by
  have mapped : List.Forall₂ (fun page bytes => encodePageBody page.body = bytes) pages encoded ↔
      pages.map (fun page => encodePageBody page.body) = encoded := by
    rw [← List.forall₂_map_left_iff (R := (· = ·)), List.forall₂_eq_eq_eq]
  simp only [mapM_eq_ok, encode_eq_ok, List.forall₂_and_left, mapped]

end TxPage

namespace PagedSpendIntent

variable {intent : PagedSpendIntent}

/-- The bytes of an intent up to its authorization. -/
def wireHead (intent : PagedSpendIntent) : List Byte :=
  pagedSpendIntentMarker :: (putU16 (BitVec.ofNat 16 intent.pages.length) ++
    intent.pages.flatMap (fun page => encodePageBody page.body) ++
    putU32 (BitVec.ofNat 32 intent.authorizationBytes.length))

/-- The bytes of an intent. -/
def wire (intent : PagedSpendIntent) : List Byte := intent.wireHead ++ intent.authorizationBytes

/-- What both directions ask of an intent. -/
structure Valid (hashes : TxHashes) (intent : PagedSpendIntent) : Prop where
  spend : ∃ facts, validatePagedSpend hashes intent.pages = .ok facts
  shape : ∀ page ∈ intent.pages, validatePageShape page.body 0 = .ok ()
  authorization : intent.authorizationBytes.length ≤ maxTxAuthorizationBytes

namespace Valid

section

variable (valid : intent.Valid hashes)
include valid

theorem pageCount :
    1 ≤ intent.pages.length ∧ intent.pages.length ≤ maxPagedSpendPages := by
  obtain ⟨facts, spend⟩ := valid.spend
  exact (validatePagedSpend_valid spend).pageCount

theorem toNat_pageCount :
    (BitVec.ofNat 16 intent.pages.length).toNat = intent.pages.length := by
  have few : intent.pages.length ≤ 128 := valid.pageCount.2
  rw [toNat_ofNat_of_lt (by omega)]

theorem authorization_small :
    intent.authorizationBytes.length < 2 ^ 32 := by
  have few : intent.authorizationBytes.length ≤ 256 * 1024 := valid.authorization
  omega

theorem toNat_authorization :
    (BitVec.ofNat 32 intent.authorizationBytes.length).toNat = intent.authorizationBytes.length := by
  rw [toNat_ofNat_of_lt valid.authorization_small]

end

end Valid

theorem length_pages (pages : List TxPage) :
    (pages.flatMap fun page => encodePageBody page.body).length = pages.length * txBodyWireSize := by
  simp [List.length_flatMap, length_encodePageBody, transactionWireSize]

/-- The authorization of an encoded intent starts at the computed offset. -/
theorem length_wireHead (intent : PagedSpendIntent) :
    intent.wireHead.length = 1 + 2 + intent.pages.length * txBodyWireSize + 4 := by
  simp only [wireHead, List.length_cons, List.length_append, length_pages, putU16, putU32,
    length_toLeBytes]
  omega

/-- An intent is written without any gap. -/
theorem length_wire (intent : PagedSpendIntent) : intent.wire.length =
    1 + 2 + intent.pages.length * txBodyWireSize + 4 + intent.authorizationBytes.length := by
  rw [wire, List.length_append, length_wireHead]

/-- The limit on the whole is the sum of the limits on its parts. -/
theorem Valid.length_wire_le (valid : intent.Valid hashes) :
    intent.wire.length ≤ maxPagedSpendIntentBytes := by
  have pages := Nat.mul_le_mul_right txBodyWireSize valid.pageCount.2
  have authorization := valid.authorization
  rw [length_wire]
  unfold maxPagedSpendIntentBytes pagedSpendIntentFixedOverhead
  omega

/-- The constructor accepts a valid spend whose authorization is not too long. -/
theorem new_eq_ok {pages : List TxPage} {authorizationBytes : List Byte} :
    new hashes pages authorizationBytes = .ok intent ↔
      (∃ facts, validatePagedSpend hashes pages = .ok facts) ∧
      authorizationBytes.length ≤ maxTxAuthorizationBytes ∧
      (⟨pages, authorizationBytes⟩ : PagedSpendIntent) = intent := by
  simp only [new, bind_eq_ok, reject_eq_ok, pure_eq_ok, not_lt, exists_and_right, exists_const]

/-- Exactly the valid intents encode, each to its own bytes. -/
theorem toBytes_eq_ok :
    intent.toBytes hashes = .ok bytes ↔ intent.Valid hashes ∧ intent.wire = bytes := by
  simp only [toBytes, bind_eq_ok, reject_eq_ok, pure_eq_ok, not_lt, TxPage.mapM_encode_eq_ok]
  constructor
  · rintro ⟨facts, spend, -, authorization, _, ⟨shape, rfl⟩, -, -, rfl⟩
    exact ⟨⟨⟨facts, spend⟩, shape, authorization⟩, by simp [wire, wireHead, List.flatMap]⟩
  · rintro ⟨valid, rfl⟩
    obtain ⟨facts, spend⟩ := valid.spend
    exact ⟨facts, spend, (), valid.authorization, _, ⟨valid.shape, rfl⟩, (),
      valid.authorization_small.not_ge, by simp [wire, wireHead, List.flatMap]⟩

/-- The decoder reads exactly the encodings of valid intents. -/
theorem reads_decode : Reads (decode hashes) src intent rest ↔
    intent.Valid hashes ∧ src = intent.wire ++ rest := by
  simp only [decode, reads_bind, reads_check, reads_wireField, reads_takeU16, reads_takeU32, reads_get,
    reads_take, reject_eq_ok, not_not, not_lt, validatePageCount_eq_ok, new_eq_ok,
    reads_takeList fun _ _ _ => TxPage.reads_decode, reads_takeWord (show 8 = 8 * 1 from rfl)]
  constructor
  · rintro ⟨_, _, rfl, -, _, ⟨rfl, rfl⟩, count, _, rfl, -, _, ⟨-, rfl⟩, _, _, ⟨rfl, rfl⟩, -, _,
      ⟨-, rfl⟩, pages, _, ⟨counted, shape, rfl⟩, length, _, rfl, -, _, ⟨-, rfl⟩, bytes, _,
      ⟨sized, rfl⟩, ⟨spend, authorization, rfl⟩, rfl⟩
    refine ⟨⟨spend, shape, authorization⟩, ?_⟩
    simp only [wire, wireHead, counted, sized, BitVec.ofNat_toNat, BitVec.setWidth_eq]
    simp [toLeBytes, List.range_succ]
  · rintro ⟨valid, rfl⟩
    have split : intent.wire ++ rest = toLeBytes 1 pagedSpendIntentMarker ++
        (putU16 (BitVec.ofNat 16 intent.pages.length) ++
          (intent.pages.flatMap (fun page => encodePageBody page.body) ++
            (putU32 (BitVec.ofNat 32 intent.authorizationBytes.length) ++
              (intent.authorizationBytes ++ rest)))) := by
      simp [wire, wireHead, toLeBytes, List.range_succ]
    refine ⟨pagedSpendIntentMarker, _, split, (), _, ⟨rfl, rfl⟩,
      BitVec.ofNat 16 intent.pages.length, _, rfl, (), _, ⟨?_, rfl⟩, _, _, ⟨rfl, rfl⟩, (), _,
      ⟨?_, rfl⟩, intent.pages, _, ⟨valid.toNat_pageCount.symm, valid.shape, rfl⟩,
      BitVec.ofNat 32 intent.authorizationBytes.length, _, rfl, (), _, ⟨?_, rfl⟩,
      intent.authorizationBytes, _, ⟨valid.toNat_authorization.symm, rfl⟩,
      ⟨valid.spend, valid.authorization, rfl⟩, rfl⟩
    · rw [valid.toNat_pageCount]
      exact valid.pageCount
    · rw [valid.toNat_pageCount, List.length_append, length_pages]
      omega
    · rw [valid.toNat_authorization]
      exact valid.authorization

/-- A whole buffer decodes exactly when it is the encoding of a valid intent. -/
theorem fromBytes_eq_ok : fromBytes hashes bytes = .ok intent ↔
    intent.Valid hashes ∧ intent.wire = bytes := by
  simp only [fromBytes, bind_eq_ok, reject_eq_ok, pure_eq_ok, not_lt, not_not, ne_eq, Prod.exists]
  constructor
  · rintro ⟨-, -, _, _, ran, -, rfl, rfl⟩
    obtain ⟨valid, rfl⟩ := reads_decode.mp ran
    exact ⟨valid, (List.append_nil _).symm⟩
  · rintro ⟨valid, rfl⟩
    exact ⟨(), valid.length_wire_le, intent, [],
      reads_decode.mpr ⟨valid, (List.append_nil _).symm⟩, (), rfl, rfl⟩

end PagedSpendIntent

end ParanoidChain
