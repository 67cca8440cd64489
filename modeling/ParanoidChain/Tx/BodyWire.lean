import ParanoidChain.Tx.PublicLogic

/-!
# Wire format of bodies and pages

A transaction and a page have the same 323 bytes and different validity rules: a transaction must be
canonical on its own, a page must have the shape of a page and is balanced with its group. An
encoder that asserts returns nothing where the assertion fails.
-/

namespace ParanoidChain

open Lib Lib.Wire

/-- `encode_page_body`: the fields of a body in order. -/
def encodePageBody (body : TxBody) : List Byte :=
  putDigest body.epochAnchor ++ putU64 body.fee ++ putDigest body.inputOwner.bytes ++
    body.inputs.toList.flatMap TxInput.encode ++ body.outputs.toList.flatMap TxOutput.encode ++
    putU16 body.validityBitmap ++ putBool body.isCoinbase

/-- The fields of a body, read in the same order by both decoders. -/
def decodeFields : Reader WireError TxBody := do
  let epochAnchor ← takeDigest
  let fee ← takeU64
  let inputOwner ← takeDigest
  let inputs ← takeVector TxInput.decode txInputs
  let outputs ← takeVector TxOutput.decode txOutputs
  let validityBitmap ← takeU16
  let isCoinbase ← takeBool
  return { epochAnchor, fee, inputOwner := ⟨inputOwner⟩, inputs, outputs, validityBitmap, isCoinbase }

namespace TxBody

/-- `TxBody::encode`. -/
def encode (body : TxBody) : Option (List Byte) :=
  if (validateBodySemanticsNoHash body).toOption.isSome then some (encodePageBody body) else none

/-- `TxBody::decode`. -/
def decode : Reader WireError TxBody := do
  let body ← decodeFields
  check ((validateBodySemanticsNoHash body).mapError fun _ => WireError.nonCanonicalBody)
  return body

end TxBody

namespace Transaction

def encode (tx : Transaction) : Option (List Byte) := tx.body.encode

def decode : Reader WireError Transaction := do
  let body ← TxBody.decode
  return ⟨body⟩

end Transaction

/-- `decode_page_body`. -/
def decodePageBody : Reader PagedSpendError TxBody := fun src =>
  (decodeFields.run src).mapError .wire

namespace TxPage

/-- `TxPage::encode`. -/
def encode (page : TxPage) : Except PagedSpendError (List Byte) := do
  validatePageShape page.body 0
  return encodePageBody page.body

/-- `TxPage::decode`. -/
def decode : Reader PagedSpendError TxPage := do
  let body ← decodePageBody
  check (TxPage.new body)

end TxPage

end ParanoidChain
