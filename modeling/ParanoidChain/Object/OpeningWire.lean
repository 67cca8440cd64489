import ParanoidChain.Object.Opening
import ParanoidChain.Tx.IntentWire

/-!
# Wire format of an opening

The bytes of an opening are fixed in length: a magic, the version, then every field in order. Both
directions validate the opening, so only a valid one has bytes. A contract intent is the magic of the
envelope, the bytes of its opening and the unchanged bytes of the spend.
-/

namespace ParanoidChain

open Lib Lib.Wire

/-- `OPENING_MAGIC`, `NOIDOBJ3`. -/
def openingMagic : List Byte := [0x4e, 0x4f, 0x49, 0x44, 0x4f, 0x42, 0x4a, 0x33]
/-- `INTENT_MAGIC`, `NOIDV2TX`. -/
def intentMagic : List Byte := [0x4e, 0x4f, 0x49, 0x44, 0x56, 0x32, 0x54, 0x58]
def ruleBytes : Nat := 8 + 8 + 8 + 1
def openingBytes : Nat := 8 + 2 + programSteps * 32 + 16 + 4 * 32 + 8 + ruleBytes
def intentPrefixBytes : Nat := intentMagic.length + openingBytes
def maxIntentBytes : Nat := intentPrefixBytes + 7 + txBodyWireSize + maxTxAuthorizationBytes

/-- One instruction, two lanes. -/
def encodeInstruction (instruction : Block128 × Block128) : List Byte :=
  putU128 instruction.1 ++ putU128 instruction.2

def takeInstruction : Reader WireError (Block128 × Block128) := do
  let first ← takeU128
  let second ← takeU128
  return (first, second)

namespace ObjectOpening

/-- The fields of an opening, after its magic and its version. -/
def encodeFields (opening : ObjectOpening) : List Byte :=
  opening.program.toList.flatMap encodeInstruction ++ putU128 opening.state ++
    putDigest opening.claimAuthority.bytes ++ putDigest opening.recoveryAuthority.bytes ++
    putU64 opening.deadline ++
    putDigest opening.claimRecipient.bytes ++ putDigest opening.recoveryRecipient.bytes ++
    putU64 opening.rules.maxFee ++ putU64 opening.rules.minRetained ++
    putU64 opening.rules.maxPayout ++ [opening.rules.modes]

def takeFields : Reader WireError ObjectOpening := do
  let program ← takeVector takeInstruction programSteps
  let state ← takeU128
  let claimAuthority ← takeDigest
  let recoveryAuthority ← takeDigest
  let deadline ← takeU64
  let claimRecipient ← takeDigest
  let recoveryRecipient ← takeDigest
  let maxFee ← takeU64
  let minRetained ← takeU64
  let maxPayout ← takeU64
  let modes : Byte ← takeWord .truncated 8 1
  return {
    program, state, deadline
    claimAuthority := ⟨claimAuthority⟩
    recoveryAuthority := ⟨recoveryAuthority⟩
    claimRecipient := ⟨claimRecipient⟩
    recoveryRecipient := ⟨recoveryRecipient⟩
    rules := { maxFee, minRetained, maxPayout, modes } }

/-- `ObjectOpening::to_bytes`. -/
def toBytes (opening : ObjectOpening) : Except ObjectError (List Byte) := do
  opening.validate
  return openingMagic ++ putU16 3 ++ opening.encodeFields

/-- `ObjectOpening::from_bytes`. The length is checked first, so the fields are always there. -/
def fromBytes (bytes : List Byte) : Except ObjectError ObjectOpening := do
  reject (bytes.length ≠ openingBytes ∨ bytes.take 8 ≠ openingMagic) .encoding
  reject (fromLeBytes 16 ((bytes.drop 8).take 2) ≠ 3) .version
  let (opening, _) ← (takeFields.run (bytes.drop 10)).mapError fun _ => .encoding
  opening.validate
  return opening

end ObjectOpening

/-- `ObjectIntent`: one opening and the spend it explains. -/
structure ObjectIntent where
  opening : ObjectOpening
  spend : PagedSpendIntent
  deriving DecidableEq, Repr

namespace ObjectIntent

/-- `ObjectIntent::to_bytes`. -/
def toBytes (hashes : TxHashes) (intent : ObjectIntent) : Except ObjectError (List Byte) := do
  reject (intent.spend.pages.length ≠ 1) .shape
  let opening ← intent.opening.toBytes
  let spend ← (intent.spend.toBytes hashes).mapError .page
  return intentMagic ++ opening ++ spend

/-- `ObjectIntent::from_bytes`. Extra pages are refused before the spend is decoded. -/
def fromBytes (hashes : TxHashes) (bytes : List Byte) : Except ObjectError ObjectIntent := do
  reject (bytes.length < intentPrefixBytes + 330 ∨ maxIntentBytes < bytes.length ∨
    intentMagic.isPrefixOf bytes = false) .encoding
  let inner := bytes.drop intentPrefixBytes
  reject ((inner.drop 1).take 2 ≠ putU16 1) .shape
  let opening ← ObjectOpening.fromBytes ((bytes.take intentPrefixBytes).drop 8)
  let spend ← (PagedSpendIntent.fromBytes hashes inner).mapError .page
  return { opening, spend }

end ObjectIntent

end ParanoidChain
