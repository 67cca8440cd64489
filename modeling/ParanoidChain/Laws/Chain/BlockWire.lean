import ParanoidChain.Chain.BlockWire
import ParanoidChain.Laws.Chain.Run
import ParanoidChain.Laws.Tx.Wire

/-!
# The block codec is a bijection

Both decoders of a record read the same bytes, so a body is determined by its encoding, and its
system flag decides which grammar it belongs to: probing cannot misclassify. The block's law is then
assembled from those of its header and its records: `fromBytes` accepts exactly the bytes that
`toBytes` writes for canonical blocks.
-/

namespace ParanoidChain

open Lib Lib.Wire

variable {src rest : List Byte}

namespace BlockHeader

theorem reads_decode {header : BlockHeader} :
    Reads decode src header rest ↔ src = header.encode ++ rest := by
  simp only [decode, reads_bind, reads_takeDigest, reads_takeU64, reads_takeU32, reads_takeU128,
    reads_pure]
  constructor
  · rintro ⟨_, _, rfl, _, _, rfl, _, _, rfl, _, _, rfl, _, _, rfl, _, _, rfl, _, _, rfl, _, _, rfl,
      _, _, rfl, _, _, rfl, _, _, rfl, rfl, rfl⟩
    simp [encode]
  · rintro rfl
    exact ⟨_, _, by simp [encode], _, _, rfl, _, _, rfl, _, _, rfl, _, _, rfl, _, _, rfl, _, _, rfl,
      _, _, rfl, _, _, rfl, _, _, rfl, _, _, rfl, rfl, rfl⟩

theorem length_encode (header : BlockHeader) : header.encode.length = blockHeaderWireSize := by
  simp [encode, putDigest, putU64, putU32, putU128, blockHeaderWireSize]

end BlockHeader

/-! ## Records -/

/-- The shape of a page does not depend on the position the error would name. -/
theorem validatePageShape_position {body : TxBody} {first second : Nat}
    (ok : validatePageShape body first = .ok ()) : validatePageShape body second = .ok () := by
  simp only [validatePageShape, bind_eq_ok, reject_eq_ok, forM_eq_ok] at ok ⊢
  exact ok

/-- A page is never a system record. -/
theorem validatePageShape_user {body : TxBody} {page : Nat}
    (ok : validatePageShape body page = .ok ()) : ¬ body.isCoinbase = true := by
  simp only [validatePageShape, bind_eq_ok, reject_eq_ok] at ok
  obtain ⟨-, -, -, user, -⟩ := ok
  exact user

/-- The pages of a group have their shape. -/
theorem ValidSpend.shape_of_mem {hashes : TxHashes} {pages : List TxPage} {facts : PagedSpendFacts}
    (valid : ValidSpend hashes pages facts) {page : TxPage} (member : page ∈ pages) :
    validatePageShape page.body 0 = .ok () := by
  obtain ⟨index, stored⟩ := List.mem_iff_getElem?.mp member
  exact validatePageShape_position
    (valid.shape (page, index) (List.mem_zipIdx_iff_getElem?.mpr stored))

/-- The user records of a valid stream have the shape of pages. -/
theorem validatePageShape_of_stream {hashes : TxHashes} {txs : List Transaction}
    {facts : BlockPageStreamFacts} (ok : validateBlockPageStream hashes txs = .ok facts)
    {tx : Transaction} (member : tx ∈ txs) (user : ¬ tx.body.isCoinbase = true) :
    validatePageShape tx.body 0 = .ok () := by
  obtain ⟨coinbase, payouts, users, rfl, valid⟩ := validateBlockPageStream_valid ok
  simp only [List.mem_cons, List.mem_append] at member
  obtain rfl | payout | among := member
  · exact absurd (TxBody.bitmap_of_primary valid.primary).1 user
  · exact absurd (TxBody.bitmap_of_payout (valid.payout tx payout)).1 user
  · obtain ⟨groupPages, rfl, groups⟩ := valid.groups
    obtain ⟨segment, inside, listed⟩ := List.mem_flatten.mp among
    obtain ⟨position, rfl⟩ := List.mem_iff_get.mp inside
    have group := groups.get position.isLt (groups.length_eq ▸ position.isLt)
    exact group.shape_of_mem (List.mem_map_of_mem listed)

/-- A record in one of the two grammars. -/
def Transaction.Canonical (tx : Transaction) : Prop :=
  if tx.body.isCoinbase = true then validateBodySemanticsNoHash tx.body = .ok ()
  else validatePageShape tx.body 0 = .ok ()

namespace Block

variable {tx : Transaction}

/-- A page, read where the probe gave no system mint. -/
theorem readPage_eq_ok :
    ((TxPage.decode.run src).mapError pageWireError).map (fun read =>
      (Transaction.mk read.1.body, read.2)) = .ok (tx, rest) ↔
        validatePageShape tx.body 0 = .ok () ∧ src = encodePageBody tx.body ++ rest := by
  change (_ <$> (TxPage.decode.run src).mapError pageWireError) = _ ↔ _
  rw [map_eq_ok]
  simp only [mapError_ok_iff]
  constructor
  · rintro ⟨⟨page, middle⟩, read, same⟩
    obtain ⟨rfl, rfl⟩ := Prod.mk.inj same
    exact TxPage.reads_decode.mp read
  · intro valid
    exact ⟨(⟨tx.body⟩, rest), TxPage.reads_decode.mpr valid, rfl⟩

theorem decodeRecord_run :
    decodeRecord.run src = match Transaction.decode.run src with
      | .ok (system, probe) => if system.body.isCoinbase = true then .ok (system, probe)
        else ((TxPage.decode.run src).mapError pageWireError).map fun read =>
          (Transaction.mk read.1.body, read.2)
      | .error _ => ((TxPage.decode.run src).mapError pageWireError).map fun read =>
          (Transaction.mk read.1.body, read.2) := rfl

/-- Where the probe gives a system mint, that is the record; elsewhere the page is. -/
theorem decodeRecord_eq_ok :
    Reads decodeRecord src tx rest ↔
      tx.body.isCoinbase = true ∧ Reads Transaction.decode src tx rest ∨
        (∀ system probe, Reads Transaction.decode src system probe → system.body.isCoinbase = false) ∧
          validatePageShape tx.body 0 = .ok () ∧ src = encodePageBody tx.body ++ rest := by
  rw [← readPage_eq_ok]
  unfold Reads
  rw [decodeRecord_run]
  cases Transaction.decode.run src with
  | error wrong => simp
  | ok found =>
    obtain ⟨system, probe⟩ := found
    by_cases mint : system.body.isCoinbase = true
    · simp only [mint, if_true, Except.ok.injEq, Prod.mk.injEq]
      constructor
      · rintro ⟨rfl, rfl⟩
        exact .inl ⟨mint, rfl, rfl⟩
      · rintro (⟨-, same⟩ | ⟨none, -⟩)
        · exact same
        · rw [none system probe ⟨rfl, rfl⟩] at mint
          cases mint
    · simp only [mint, Bool.false_eq_true, if_false, Except.ok.injEq, Prod.mk.injEq]
      constructor
      · intro page
        exact .inr ⟨fun _ _ same => same.1 ▸ Bool.not_eq_true _ ▸ mint, page⟩
      · rintro (⟨coinbase, rfl, -⟩ | ⟨-, page⟩)
        · exact absurd coinbase mint
        · exact page

/-- Probing never misclassifies: a record is read by the grammar its system flag belongs to. -/
theorem reads_decodeRecord :
    Reads decodeRecord src tx rest ↔ tx.Canonical ∧ src = encodePageBody tx.body ++ rest := by
  rw [decodeRecord_eq_ok, Transaction.Canonical, Transaction.reads_decode]
  constructor
  · rintro (⟨mint, valid, bytes⟩ | ⟨-, shape, bytes⟩)
    · exact ⟨by rwa [if_pos mint], bytes⟩
    · exact ⟨by rwa [if_neg (validatePageShape_user shape)], bytes⟩
  · rintro ⟨canonical, rfl⟩
    by_cases mint : tx.body.isCoinbase = true
    · exact .inl ⟨mint, by rwa [if_pos mint] at canonical, rfl⟩
    · refine .inr ⟨fun system probe read => ?_, by rwa [if_neg mint] at canonical, rfl⟩
      obtain ⟨-, bytes⟩ := Transaction.reads_decode.mp read
      rw [← (encodePageBody_append_inj bytes).1]
      exact Bool.not_eq_true _ ▸ mint

variable {bytes : List Byte}

theorem encodeRecord_eq_some :
    encodeRecord tx = some bytes ↔ tx.Canonical ∧ encodePageBody tx.body = bytes := by
  unfold encodeRecord Transaction.Canonical Transaction.encode
  split
  · exact TxBody.encode_eq_some
  · rw [toOption_eq_some, TxPage.encode_eq_ok]

variable {txs : List Transaction}

theorem mapM_encodeRecord {records : List (List Byte)} :
    txs.mapM encodeRecord = some records ↔
      (∀ tx ∈ txs, tx.Canonical) ∧ txs.map (fun tx => encodePageBody tx.body) = records := by
  induction txs generalizing records with
  | nil => simp
  | cons tx txs ih =>
    simp only [List.mapM_cons, bind_eq_some, encodeRecord_eq_some, ih,
      pure_eq_some, List.forall_mem_cons, List.map_cons]
    constructor
    · rintro ⟨_, ⟨canonical, rfl⟩, _, ⟨others, rfl⟩, rfl⟩
      exact ⟨⟨canonical, others⟩, rfl⟩
    · rintro ⟨⟨canonical, others⟩, rfl⟩
      exact ⟨_, ⟨canonical, rfl⟩, _, ⟨others, rfl⟩, rfl⟩

/-! ## Blocks -/

/-- What the codec takes for a canonical block. -/
structure Canonical (hashes : TxHashes) (block : Block) : Prop where
  length_le : block.transactions.length ≤ blockMaxTxs
  records : ∀ tx ∈ block.transactions, tx.Canonical
  stream : block.transactions ≠ [] →
    ∃ facts, validateBlockPageStream hashes block.transactions = .ok facts

/-- The bytes of a block. -/
def wireBytes (block : Block) : List Byte :=
  blockWireMarker :: block.header.encode ++ putU32 (BitVec.ofNat 32 block.transactions.length) ++
    block.transactions.flatMap fun tx => encodePageBody tx.body

variable {hashes : TxHashes} {block : Block}

theorem length_wireBytes (block : Block) : block.wireBytes.length =
    blockWireFixedOverhead + block.transactions.length * transactionWireSize := by
  simp [wireBytes, BlockHeader.length_encode, putU32, List.length_flatMap, length_encodePageBody,
    blockWireFixedOverhead]
  omega

/-- The first record of a valid stream is a system mint. -/
theorem coinbase_of_stream {facts : BlockPageStreamFacts}
    (ok : validateBlockPageStream hashes txs = .ok facts) :
    ∀ tx ∈ txs.head?, tx.body.isCoinbase = true := by
  obtain ⟨coinbase, payouts, users, rfl, valid⟩ := validateBlockPageStream_valid ok
  intro tx first
  obtain rfl : coinbase = tx := by simpa using first
  exact (TxBody.bitmap_of_primary valid.primary).1

/-- Encoding asserts that the block is canonical, and no more. -/
theorem toBytes_eq_some :
    block.toBytes hashes = some bytes ↔ block.Canonical hashes ∧ block.wireBytes = bytes := by
  obtain ⟨header, transactions⟩ := block
  cases transactions with
  | nil =>
    have canonical : (Block.mk header []).Canonical hashes :=
      ⟨Nat.zero_le _, by simp, fun some => absurd rfl some⟩
    simp [toBytes, encode, wireBytes, canonical]
  | cons coinbase others =>
    have accepted : (validateBlockPageStream hashes (coinbase :: others)).toOption.isSome = true ↔
        ∃ facts, validateBlockPageStream hashes (coinbase :: others) = .ok facts := by
      simp only [Option.isSome_iff_exists, toOption_eq_some]
    simp only [toBytes, encode, List.head?_cons, Option.map_some, Option.getD_some, List.tail_cons,
      Transaction.encode, ne_eq, reduceCtorEq, not_false_eq_true, if_true, bind_eq_some,
      Lib.guard_eq_some, accepted, TxBody.encode_eq_some, mapM_encodeRecord, pure_eq_some]
    constructor
    · rintro ⟨-, few, -, ⟨facts, stream⟩, _, ⟨valid, rfl⟩, _, ⟨records, rfl⟩, rfl⟩
      have mint := coinbase_of_stream stream coinbase (by simp)
      refine ⟨⟨few, List.forall_mem_cons.mpr ⟨?_, records⟩, fun _ => ⟨facts, stream⟩⟩, ?_⟩
      · rwa [Transaction.Canonical, if_pos mint]
      · simp [wireBytes, List.flatMap_def]
    · rintro ⟨⟨few, records, stream⟩, rfl⟩
      obtain ⟨facts, stream⟩ := stream (by simp)
      have mint := coinbase_of_stream stream coinbase (by simp)
      obtain ⟨first, others⟩ := List.forall_mem_cons.mp records
      rw [Transaction.Canonical, if_pos mint] at first
      refine ⟨(), few, (), ⟨facts, stream⟩, _, ⟨first, rfl⟩, _, ⟨others, rfl⟩, ?_⟩
      simp [wireBytes, List.flatMap_def]

theorem reads_decodeTransactions {count : Nat} :
    Reads (decodeTransactions count) src txs rest ↔
      txs.length = count ∧ (∀ tx ∈ txs, tx.Canonical) ∧
        (∀ tx ∈ txs.head?, tx.body.isCoinbase = true) ∧
        src = txs.flatMap (fun tx => encodePageBody tx.body) ++ rest := by
  cases count with
  | zero =>
    simp only [decodeTransactions, reads_pure, List.length_eq_zero_iff]
    constructor
    · rintro ⟨rfl, rfl⟩
      simp
    · rintro ⟨rfl, -, -, rfl⟩
      simp
  | succ count =>
    simp only [decodeTransactions, decodeCoinbase, reads_bind, Transaction.reads_decode, reads_check,
      reject_eq_ok, reads_pure, reads_takeList fun _ _ _ => reads_decodeRecord, Bool.not_eq_false]
    constructor
    · rintro ⟨coinbase, _, ⟨_, _, ⟨valid, rfl⟩, _, _, ⟨mint, rfl⟩, rfl, rfl⟩, others, _,
        ⟨rfl, canonical, rfl⟩, rfl, rfl⟩
      refine ⟨rfl, List.forall_mem_cons.mpr ⟨?_, canonical⟩, by simpa using mint, by simp⟩
      rwa [Transaction.Canonical, if_pos mint]
    · rintro ⟨size, canonical, mint, rfl⟩
      obtain ⟨coinbase, others, rfl⟩ := List.exists_cons_of_length_eq_add_one size
      obtain ⟨first, canonical⟩ := List.forall_mem_cons.mp canonical
      have mint := mint coinbase (by simp)
      rw [Transaction.Canonical, if_pos mint] at first
      exact ⟨coinbase, _, ⟨coinbase, _, ⟨first, by simp⟩, (), _, ⟨mint, rfl⟩, rfl, rfl⟩, others, _,
        ⟨by simpa using size, canonical, rfl⟩, rfl, rfl⟩

theorem checkStream_eq_ok {count : Nat} {done : Unit} :
    checkStream hashes count txs = .ok done ↔
      (0 < count → ∃ facts, validateBlockPageStream hashes txs = .ok facts) := by
  unfold checkStream
  split
  case isTrue some => simp [some]
  case isFalse none => simp [none]

theorem reads_decode :
    Reads (decode hashes) bytes block rest ↔
      block.Canonical hashes ∧ bytes = block.wireBytes ++ rest := by
  simp only [decode, reads_bind, reads_takeByte, reads_check, reject_eq_ok, not_not, not_lt,
    BlockHeader.reads_decode, reads_takeU32, reads_decodeTransactions, checkStream_eq_ok, reads_pure]
  constructor
  · rintro ⟨_, _, rfl, _, _, ⟨rfl, rfl⟩, header, _, rfl, count, _, rfl, _, _, ⟨few, rfl⟩, txs, _,
      ⟨size, canonical, mint, rfl⟩, _, _, ⟨stream, rfl⟩, rfl, rfl⟩
    refine ⟨⟨size ▸ few, canonical, fun some => stream ?_⟩, ?_⟩
    · rw [← size]
      exact List.length_pos_iff.mpr some
    · simp [wireBytes, size]
  · rintro ⟨⟨few, canonical, stream⟩, rfl⟩
    have count : (BitVec.ofNat 32 block.transactions.length).toNat = block.transactions.length := by
      have : blockMaxTxs = 256 := rfl
      rw [toNat_ofNat_of_lt (by omega)]
    refine ⟨blockWireMarker, _, by simp [wireBytes], (), _, ⟨rfl, rfl⟩, block.header, _, rfl,
      BitVec.ofNat 32 block.transactions.length, _, rfl, (), _, ⟨by rwa [count], rfl⟩,
      block.transactions, _, ⟨count.symm, canonical, ?_, rfl⟩, (), _, ⟨?_, rfl⟩, rfl, rfl⟩
    · intro tx first
      obtain ⟨facts, ok⟩ := stream (by rintro none; simp [none] at first)
      exact coinbase_of_stream ok tx first
    · rw [count]
      exact fun some => stream (List.length_pos_iff.mp some)

theorem fromBytes_eq_ok :
    fromBytes hashes bytes = .ok block ↔ block.Canonical hashes ∧ block.wireBytes = bytes := by
  rw [fromBytes, bind_eq_ok]
  constructor
  · rintro ⟨⟨found, left⟩, read, done⟩
    simp only [bind_eq_ok, reject_eq_ok, pure_eq_ok, not_not] at done
    obtain ⟨-, rfl, rfl⟩ := done
    obtain ⟨canonical, rfl⟩ := reads_decode.mp read
    exact ⟨canonical, (List.append_nil _).symm⟩
  · rintro ⟨canonical, rfl⟩
    refine ⟨(block, []), reads_decode.mpr ⟨canonical, (List.append_nil _).symm⟩, ?_⟩
    simp

/-- The canonical blocks are those with a valid page stream and canonical system records. -/
theorem canonical_of_stream (few : block.transactions.length ≤ blockMaxTxs)
    (stream : block.transactions = [] ∨
      ∃ facts, validateBlockPageStream hashes block.transactions = .ok facts)
    (system : ∀ tx ∈ block.transactions, tx.body.isCoinbase = true →
      validateBodySemanticsNoHash tx.body = .ok ()) : block.Canonical hashes := by
  refine ⟨few, fun tx member => ?_, fun some => stream.resolve_left some⟩
  rw [Transaction.Canonical]
  split
  case isTrue mint => exact system tx member mint
  case isFalse user =>
    obtain none | ⟨facts, ok⟩ := stream
    · simp [none] at member
    · exact validatePageShape_of_stream ok member user

end Block

/-- **The block codec is a bijection** between canonical blocks and accepted byte strings, and the
decoder's probing reads every encoded system mint and every encoded page as what it is. -/
theorem block_codec_bijective (hashes : TxHashes) :
    (∀ (bytes : List Byte) (block : Block), Block.fromBytes hashes bytes = .ok block →
      block.toBytes hashes = some bytes ∧
        canonicalBlockWireLen block.transactions.length = .ok bytes.length) ∧
    (∀ block : Block, block.transactions.length ≤ blockMaxTxs →
      (block.transactions = [] ∨
        ∃ facts, validateBlockPageStream hashes block.transactions = .ok facts) →
      (∀ tx ∈ block.transactions, tx.body.isCoinbase = true →
        validateBodySemanticsNoHash tx.body = .ok ()) →
      ∃ bytes, block.toBytes hashes = some bytes ∧ Block.fromBytes hashes bytes = .ok block) ∧
    (∀ (tx : Transaction) (bytes rest : List Byte), Block.encodeRecord tx = some bytes →
      Block.decodeRecord.run (bytes ++ rest) = .ok (tx, rest)) := by
  refine ⟨fun bytes block read => ?_, fun block few stream system => ?_,
    fun tx bytes rest written => ?_⟩
  · obtain ⟨canonical, rfl⟩ := Block.fromBytes_eq_ok.mp read
    have few := canonical.length_le
    have most : blockMaxTxs = 256 := rfl
    have size : transactionWireSize = 323 := rfl
    have fixed : blockWireFixedOverhead = 217 := rfl
    refine ⟨Block.toBytes_eq_some.mpr ⟨canonical, rfl⟩, ?_⟩
    rw [Block.length_wireBytes, canonicalBlockWireLen]
    simp only [bind_eq_ok, reject_eq_ok, pure_eq_ok, size, fixed]
    exact ⟨(), by omega, (), by omega, (), by omega, trivial⟩
  · have canonical := Block.canonical_of_stream few stream system
    exact ⟨_, Block.toBytes_eq_some.mpr ⟨canonical, rfl⟩, Block.fromBytes_eq_ok.mpr ⟨canonical, rfl⟩⟩
  · obtain ⟨canonical, rfl⟩ := Block.encodeRecord_eq_some.mp written
    exact Block.reads_decodeRecord.mpr ⟨canonical, rfl⟩

/-- A block with a coinbase and a user page is written and read back. -/
theorem block_codec_bijective_paid :
    let page : Transaction := ⟨ChainState.moveBody ⟨0, 5, coinbaseCreationId 1⟩ ⟨2, 4, ⟨9⟩⟩ 1⟩
    let block : Block := ⟨⟨0, 0, 0, 0, 1, .zero, 0, 0, 2, 1, 1⟩, [⟨ChainState.rewardBody 1 6⟩, page]⟩
    ∃ bytes, block.toBytes .sample = some bytes ∧ Block.fromBytes .sample bytes = .ok block ∧
      canonicalBlockWireLen 2 = .ok bytes.length := by
  intro page block
  have stream : (validateBlockPageStream .sample block.transactions).toOption.isSome = true := by
    decide +kernel
  have system : (validateBodySemanticsNoHash (ChainState.rewardBody 1 6)).toOption = some () := by
    decide +kernel
  simp only [Option.isSome_iff_exists, toOption_eq_some] at stream system
  obtain ⟨decodes, encodes, -⟩ := block_codec_bijective .sample
  obtain ⟨bytes, written, read⟩ := encodes block (by decide) (.inr stream) fun tx member minted => by
    simp only [block, List.mem_cons, List.not_mem_nil, or_false] at member
    rcases member with rfl | rfl
    · exact system
    · cases minted
  exact ⟨bytes, written, read, (decodes bytes block read).2⟩

end ParanoidChain
