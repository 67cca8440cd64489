import ParanoidChain.Tx.BodyWire

/-!
# Wire format of a paged spend

A spend travels with the authorization of its owner: a marker, the number of pages, the pages, the
length of the authorization and its bytes. Both directions validate the group as a whole, so an
intent that has bytes is one the rules of a paged spend accept.
-/

namespace ParanoidChain

open Lib Lib.Wire

def maxTxAuthorizationBytes : Nat := 256 * 1024
def pagedSpendIntentMarker : Byte := 0xA3
def pagedSpendIntentFixedOverhead : Nat := 1 + 2 + 4
def maxPagedSpendIntentBytes : Nat :=
  pagedSpendIntentFixedOverhead + maxPagedSpendPages * txBodyWireSize + maxTxAuthorizationBytes

/-- `PagedSpendIntent`. -/
structure PagedSpendIntent where
  pages : List TxPage
  authorizationBytes : List Byte
  deriving DecidableEq, Repr

/-- `paged_spend_authorization_wire_offset`: at most 128 pages do not overflow. -/
def pagedSpendAuthorizationWireOffset (pageCount : Nat) : Except PagedSpendError Nat := do
  validatePageCount pageCount
  return 1 + 2 + pageCount * txBodyWireSize + 4

/-- A record read inside a spend. -/
def wireField {α : Type} (reader : Reader WireError α) : Reader PagedSpendError α := fun src =>
  (reader.run src).mapError .wire

namespace PagedSpendIntent

/-- `PagedSpendIntent::new`. -/
def new (hashes : TxHashes) (pages : List TxPage) (authorizationBytes : List Byte) :
    Except PagedSpendError PagedSpendIntent := do
  let _ ← validatePagedSpend hashes pages
  reject (maxTxAuthorizationBytes < authorizationBytes.length)
    (.authorizationTooLarge authorizationBytes.length)
  return { pages, authorizationBytes }

/-- `PagedSpendIntent::encode`, `to_bytes`. -/
def toBytes (hashes : TxHashes) (intent : PagedSpendIntent) :
    Except PagedSpendError (List Byte) := do
  let _ ← validatePagedSpend hashes intent.pages
  reject (maxTxAuthorizationBytes < intent.authorizationBytes.length)
    (.authorizationTooLarge intent.authorizationBytes.length)
  let pages ← intent.pages.mapM TxPage.encode
  reject (2 ^ 32 ≤ intent.authorizationBytes.length) (.wire .lengthOverflow)
  return pagedSpendIntentMarker :: (putU16 (BitVec.ofNat 16 intent.pages.length) ++ pages.flatten ++
    putU32 (BitVec.ofNat 32 intent.authorizationBytes.length) ++ intent.authorizationBytes)

/-- `PagedSpendIntent::decode`. The length is compared before any page is read. -/
def decode (hashes : TxHashes) : Reader PagedSpendError PagedSpendIntent := do
  let marker : Byte ← takeWord (.wire .truncated) 8 1
  check (reject (marker ≠ pagedSpendIntentMarker) (.wire .badMarker))
  let pageCount ← wireField takeU16
  check (validatePageCount pageCount.toNat)
  let src ← get
  check (reject (src.length < pageCount.toNat * txBodyWireSize) (.wire .truncated))
  let pages ← takeList TxPage.decode pageCount.toNat
  let authorizationLen ← wireField takeU32
  check (reject (maxTxAuthorizationBytes < authorizationLen.toNat)
    (.authorizationTooLarge authorizationLen.toNat))
  let authorizationBytes ← take (.wire .truncated) authorizationLen.toNat
  check (new hashes pages authorizationBytes)

/-- `PagedSpendIntent::from_bytes`. -/
def fromBytes (hashes : TxHashes) (bytes : List Byte) : Except PagedSpendError PagedSpendIntent := do
  reject (maxPagedSpendIntentBytes < bytes.length) (.intentTooLarge bytes.length)
  let (intent, rest) ← (decode hashes).run bytes
  reject (rest ≠ []) (.wire .trailingBytes)
  return intent

end PagedSpendIntent

end ParanoidChain
