import ParanoidChain.Laws.Tx.PagedSpend
import ParanoidChain.Tx.BodyWire

/-!
# Laws of the record codecs

Each decoder has one law: what it reads, from which bytes. The laws of the two body decoders differ
only in the validity they ask for.
-/

namespace ParanoidChain

open Lib Lib.Wire

variable {src rest : List Byte}

/-- A 16-bit word is read from its own two bytes. -/
@[simp] theorem reads_takeU16 {value : U16} :
    Reads takeU16 src value rest ↔ src = putU16 value ++ rest := reads_takeWord rfl

/-- A 32-bit word is read from its own four bytes. -/
@[simp] theorem reads_takeU32 {value : U32} :
    Reads takeU32 src value rest ↔ src = putU32 value ++ rest := reads_takeWord rfl

/-- A 64-bit word is read from its own eight bytes. -/
@[simp] theorem reads_takeU64 {value : U64} :
    Reads takeU64 src value rest ↔ src = putU64 value ++ rest := reads_takeWord rfl

/-- A 128-bit word is read from its own sixteen bytes. -/
@[simp] theorem reads_takeU128 {value : U128} :
    Reads takeU128 src value rest ↔ src = putU128 value ++ rest := reads_takeWord rfl

@[simp] theorem reads_takeDigest {value : Digest} :
    Reads takeDigest src value rest ↔ src = putDigest value ++ rest := reads_takeWord rfl

/-- One byte is itself. -/
theorem reads_takeByte {byte : Byte} :
    Reads (takeWord WireError.truncated 8 1) src byte rest ↔ src = byte :: rest := by
  have single : toLeBytes 1 byte = [byte] := by
    simp [toLeBytes, List.range_succ]
  rw [reads_takeWord (show 8 = 8 * 1 from rfl), single, List.singleton_append]

/-- A flag is one byte, and only zero and one are read. -/
@[simp] theorem reads_takeBool {value : Bool} :
    Reads takeBool src value rest ↔ src = putBool value ++ rest := by
  simp only [takeBool, reads_bind, reads_takeByte, putBool]
  constructor
  · rintro ⟨byte, middle, rfl, read⟩
    split at read
    · obtain ⟨rfl, rfl⟩ := reads_pure.mp read
      simp [*]
    · split at read
      · obtain ⟨rfl, rfl⟩ := reads_pure.mp read
        simp [*]
      · simp at read
  · rintro rfl
    refine ⟨_, _, rfl, ?_⟩
    cases value <;> simp

namespace TxInput

@[simp] theorem reads_decode {input : TxInput} :
    Reads decode src input rest ↔ src = input.encode ++ rest := by
  simp only [decode, reads_bind, reads_takeU32, reads_takeU64, reads_pure]
  constructor
  · rintro ⟨_, _, rfl, _, _, rfl, _, _, rfl, rfl, rfl⟩
    simp [encode]
  · rintro rfl
    exact ⟨_, _, by simp [encode], _, _, rfl, _, _, rfl, rfl, rfl⟩

@[simp] theorem length_encode (input : TxInput) : input.encode.length = txInputWireSize := by
  simp [encode, putU32, putU64, txInputWireSize]

end TxInput

namespace TxOutput

@[simp] theorem reads_decode {output : TxOutput} :
    Reads decode src output rest ↔ src = output.encode ++ rest := by
  simp only [decode, reads_bind, reads_takeU32, reads_takeU64, reads_takeDigest, reads_pure]
  constructor
  · rintro ⟨_, _, rfl, _, _, rfl, _, _, rfl, rfl, rfl⟩
    simp [encode]
  · rintro rfl
    exact ⟨_, _, by simp [encode], _, _, rfl, _, _, rfl, rfl, rfl⟩

@[simp] theorem length_encode (output : TxOutput) : output.encode.length = txOutputWireSize := by
  simp [encode, putU32, putU64, putDigest, txOutputWireSize]

end TxOutput

/-! ## Bodies -/

/-- The fields of a body are read exactly from its encoding, valid or not. -/
theorem reads_decodeFields {body : TxBody} :
    Reads decodeFields src body rest ↔ src = encodePageBody body ++ rest := by
  simp only [decodeFields, reads_bind, reads_takeDigest, reads_takeU64, reads_takeU16, reads_takeBool,
    reads_takeVector fun _ _ _ => TxInput.reads_decode,
    reads_takeVector fun _ _ _ => TxOutput.reads_decode, reads_pure]
  constructor
  · rintro ⟨_, _, rfl, _, _, rfl, _, _, rfl, _, _, rfl, _, _, rfl, _, _, rfl, _, _, rfl, rfl, rfl⟩
    simp [encodePageBody]
  · rintro rfl
    exact ⟨_, _, by simp [encodePageBody], _, _, rfl, _, _, rfl, _, _, rfl, _, _, rfl, _, _, rfl, _, _,
      rfl, rfl, rfl⟩

theorem length_encodePageBody (body : TxBody) :
    (encodePageBody body).length = transactionWireSize := by
  simp [encodePageBody, putDigest, putU64, putU16, putBool, List.length_flatMap, transactionWireSize,
    txBodyWireSize, txInputs, txOutputs]
  omega

/-- The two grammars have the same bytes: an encoding determines the body. -/
theorem encodePageBody_append_inj {first second : TxBody} {rest' : List Byte}
    (same : encodePageBody first ++ rest = encodePageBody second ++ rest') :
    first = second ∧ rest = rest' := by
  have read : Reads decodeFields (encodePageBody first ++ rest) first rest :=
    reads_decodeFields.mpr rfl
  have other : Reads decodeFields (encodePageBody first ++ rest) second rest' :=
    reads_decodeFields.mpr same
  simpa using Except.ok.inj (read.symm.trans other)

namespace TxBody

/-- Only a body with valid semantics is read. -/
theorem reads_decode {body : TxBody} :
    Reads decode src body rest ↔
      validateBodySemanticsNoHash body = .ok () ∧ src = encodePageBody body ++ rest := by
  simp only [decode, reads_bind, reads_decodeFields, reads_check, reads_pure, mapError_ok_iff]
  constructor
  · rintro ⟨_, _, rfl, _, _, ⟨valid, rfl⟩, rfl, rfl⟩
    exact ⟨valid, rfl⟩
  · rintro ⟨valid, rfl⟩
    exact ⟨_, _, rfl, _, _, ⟨valid, rfl⟩, rfl, rfl⟩

/-- Only a body with valid semantics is written. -/
theorem encode_eq_some {body : TxBody} {bytes : List Byte} :
    body.encode = some bytes ↔
      validateBodySemanticsNoHash body = .ok () ∧ encodePageBody body = bytes := by
  unfold encode
  cases valid : validateBodySemanticsNoHash body <;> simp [Except.toOption]

end TxBody

namespace Transaction

theorem reads_decode {tx : Transaction} :
    Reads decode src tx rest ↔
      validateBodySemanticsNoHash tx.body = .ok () ∧ src = encodePageBody tx.body ++ rest := by
  simp only [decode, reads_bind, TxBody.reads_decode, reads_pure]
  constructor
  · rintro ⟨body, _, ⟨valid, rfl⟩, rfl, rfl⟩
    exact ⟨valid, rfl⟩
  · rintro ⟨valid, rfl⟩
    exact ⟨tx.body, _, ⟨valid, rfl⟩, rfl, rfl⟩

end Transaction

namespace TxPage

/-- A page is made from a body that has the shape of one. -/
theorem new_eq_ok {body : TxBody} {page : TxPage} :
    TxPage.new body = .ok page ↔ validatePageShape body 0 = .ok () ∧ ⟨body⟩ = page :=
  check_pure_eq_ok

/-- Only a body with the shape of a page is read as a page. -/
theorem reads_decode {page : TxPage} :
    Reads decode src page rest ↔
      validatePageShape page.body 0 = .ok () ∧ src = encodePageBody page.body ++ rest := by
  have read {body : TxBody} {middle : List Byte} :
      Reads decodePageBody src body middle ↔ src = encodePageBody body ++ middle := by
    rw [← reads_decodeFields]
    exact mapError_ok_iff
  simp only [decode, reads_bind, read, reads_check, new_eq_ok]
  constructor
  · rintro ⟨body, _, rfl, ⟨shape, rfl⟩, rfl⟩
    exact ⟨shape, rfl⟩
  · rintro ⟨shape, rfl⟩
    exact ⟨page.body, _, rfl, ⟨shape, rfl⟩, rfl⟩

/-- Only a page with the shape of one is written. -/
theorem encode_eq_ok {page : TxPage} {bytes : List Byte} :
    page.encode = .ok bytes ↔
      validatePageShape page.body 0 = .ok () ∧ encodePageBody page.body = bytes :=
  check_pure_eq_ok

end TxPage

end ParanoidChain
