import ParanoidChain.Lib.Wire
import ParanoidChain.Tx.Types

/-!
# Wire format of records

Fixed-width little-endian fields in declaration order. A decoder reads off a cursor; an encoder
returns the bytes it appends.
-/

namespace ParanoidChain

open Lib Lib.Wire

inductive WireError where
  | truncated
  | trailingBytes
  | invalidBool
  | badMarker
  | nonCanonicalBody
  | lengthOverflow
  deriving DecidableEq, Repr

def txInputWireSize : Nat := 4 + 8 + 8
def txOutputWireSize : Nat := 4 + 8 + 32
def txBodyWireSize : Nat :=
  32 + 8 + 32 + txInputs * txInputWireSize + txOutputs * txOutputWireSize + 2 + 1
def transactionWireSize : Nat := txBodyWireSize

def putU16 (value : U16) : List Byte := toLeBytes 2 value
def putU32 (value : U32) : List Byte := toLeBytes 4 value
def putU64 (value : U64) : List Byte := toLeBytes 8 value
def putU128 (value : U128) : List Byte := toLeBytes 16 value
def putDigest (value : Digest) : List Byte := toLeBytes 32 value

def takeU16 : Reader WireError U16 := takeWord .truncated 16 2
def takeU32 : Reader WireError U32 := takeWord .truncated 32 4
def takeU64 : Reader WireError U64 := takeWord .truncated 64 8
def takeU128 : Reader WireError U128 := takeWord .truncated 128 16
def takeDigest : Reader WireError Digest := takeWord .truncated 256 32

/-- `bool as u8`. -/
def putBool (value : Bool) : List Byte := [if value then 1 else 0]

def takeBool : Reader WireError Bool := do
  let byte : Byte ← takeWord .truncated 8 1
  if byte = 0 then return false
  else if byte = 1 then return true
  else check (.error .invalidBool)

namespace TxInput

def encode (input : TxInput) : List Byte :=
  putU32 input.slotIndex ++ putU64 input.amount ++ putU64 input.creationId

def decode : Reader WireError TxInput := do
  let slotIndex ← takeU32
  let amount ← takeU64
  let creationId ← takeU64
  return { slotIndex, amount, creationId }

end TxInput

namespace TxOutput

def encode (output : TxOutput) : List Byte :=
  putU32 output.slotIndex ++ putU64 output.amount ++ putDigest output.owner.bytes

def decode : Reader WireError TxOutput := do
  let slotIndex ← takeU32
  let amount ← takeU64
  let owner ← takeDigest
  return { slotIndex, amount, owner := ⟨owner⟩ }

end TxOutput

end ParanoidChain
