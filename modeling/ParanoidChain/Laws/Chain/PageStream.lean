import ParanoidChain.Chain.Block
import ParanoidChain.Laws.Tx.PagedSpend

/-!
# What an accepted page stream is

The shape of a block's records once `validate_block_page_stream` has accepted them: one primary
coinbase, then the development payout if there is one, then user pages that fall into balanced
groups. The groups are the cuts behind END pages, and concatenated they are the user pages again.
-/

namespace ParanoidChain

open Lib

variable {hashes : TxHashes} {txs : List Transaction}

/-! ## Cuts -/

section Cuts

variable {α : Type} [PageBody α]

/-- The stream cut after each END page, and the pages behind the last one. -/
def splitGroups : List α → List (List α) × List α
  | [] => ([], [])
  | page :: pages =>
    match splitGroups pages, endsGroup page with
    | (groups, rest), true => ([page] :: groups, rest)
    | (group :: groups, rest), false => ((page :: group) :: groups, rest)
    | ([], rest), false => ([], page :: rest)

/-- The cuts lose no page. -/
theorem flatten_splitGroups (pages : List α) :
    (splitGroups pages).1.flatten ++ (splitGroups pages).2 = pages := by
  induction pages with
  | nil => rfl
  | cons page pages ih =>
    rw [splitGroups]
    rcases cut : splitGroups pages with ⟨groups, rest⟩
    rw [cut] at ih
    cases endsGroup page <;> cases groups <;> simp_all

/-- Without an END page nothing is cut off. -/
theorem splitGroups_of_none {pages : List α} (none : pages.findIdx? endsGroup = none) :
    splitGroups pages = ([], pages) := by
  induction pages with
  | nil => rfl
  | cons page pages ih =>
    simp only [List.findIdx?_cons] at none
    split at none
    · cases none
    · rename_i open_
      rw [splitGroups, ih (by simpa using none)]
      simp [open_]

/-- The first cut is behind the first END page. -/
theorem splitGroups_of_some {pages : List α} {first : Nat}
    (found : pages.findIdx? endsGroup = some first) :
    splitGroups pages = (pages.take (first + 1) :: (splitGroups (pages.drop (first + 1))).1,
      (splitGroups (pages.drop (first + 1))).2) := by
  induction pages generalizing first with
  | nil => simp at found
  | cons page pages ih =>
    rw [List.findIdx?_cons] at found
    split at found
    case isTrue closes =>
      obtain rfl := Option.some.inj found
      rw [splitGroups, closes]
      rfl
    case isFalse stays =>
      obtain ⟨later, next, rfl⟩ := Option.map_eq_some_iff.mp found
      rw [splitGroups, ih next, Bool.eq_false_iff.mpr stays]
      rfl

variable {proofClass : BlockProofClass} {pages : List α}

/-- A pushed group moves the cursor behind it. -/
theorem pushGroup_cursor {group : List α} {found next : Nat × List PagedSpendGroupFacts}
    (pushed : pushGroup hashes proofClass found group = .ok next) :
    next.1 = found.1 + group.length := by
  simp only [pushGroup, bind_eq_ok, pure_eq_ok] at pushed
  obtain ⟨_, -, _, -, rfl⟩ := pushed
  rfl

/-- The loop from a cursor on is the run over the cuts behind it, and ends well when no page is left
over. -/
theorem groupLoop_eq_ok {rounds : Nat} {found done : Nat × List PagedSpendGroupFacts}
    (enough : pages.length ≤ found.1 + rounds) :
    groupLoop hashes proofClass pages rounds found = .ok done ↔
      (splitGroups (pages.drop found.1)).2 = [] ∧
        (splitGroups (pages.drop found.1)).1.foldlM (pushGroup hashes proofClass) found =
          .ok done := by
  induction rounds generalizing found with
  | zero =>
    rw [List.drop_of_length_le (by omega)]
    simp [groupLoop, splitGroups]
  | succ rounds ih =>
    rw [groupLoop]
    split
    case isFalse beyond =>
      rw [List.drop_of_length_le (by omega)]
      simp [splitGroups]
    case isTrue inside =>
      simp only [bind_eq_ok, okOr_eq_ok]
      cases closes : (pages.drop found.1).findIdx? endsGroup with
      | none =>
        rw [splitGroups_of_none closes]
        simp
        omega
      | some first =>
        rw [splitGroups_of_some closes, foldlM_cons_eq_ok]
        simp only [Option.some.injEq, exists_eq_left', List.drop_drop]
        have size := (List.findIdx?_eq_some_iff_getElem.mp closes).1
        constructor
        · rintro ⟨next, pushed, rest⟩
          have cursor := pushGroup_cursor pushed
          rw [List.length_take_of_le (by omega)] at cursor
          rw [ih (by omega), cursor] at rest
          exact ⟨rest.1, next, pushed, rest.2⟩
        · rintro ⟨closed, next, pushed, rest⟩
          have cursor := pushGroup_cursor pushed
          rw [List.length_take_of_le (by omega)] at cursor
          refine ⟨next, pushed, ?_⟩
          rw [ih (by omega), cursor]
          exact ⟨closed, rest⟩

end Cuts

/-- The pages of a group are a valid paged spend with the recorded facts. -/
def ValidGroup (hashes : TxHashes) (pages : List Transaction) (facts : PagedSpendGroupFacts) :
    Prop :=
  ValidSpend hashes (pages.map PageBody.txPage) facts.spend

theorem foldlM_pushGroup {proofClass : BlockProofClass} {groupPages : List (List Transaction)}
    {found done : Nat × List PagedSpendGroupFacts}
    (ran : groupPages.foldlM (pushGroup hashes proofClass) found = .ok done) :
    ∃ groups, done.2 = found.2 ++ groups ∧ List.Forall₂ (ValidGroup hashes) groupPages groups := by
  induction groupPages generalizing found with
  | nil =>
    obtain rfl : found = done := by simpa using ran
    exact ⟨[], by simp, .nil⟩
  | cons pages rest ih =>
    obtain ⟨next, pushed, ran⟩ := foldlM_cons_eq_ok.mp ran
    simp only [pushGroup, bind_eq_ok, mapError_ok_iff, reject_eq_ok, pure_eq_ok] at pushed
    obtain ⟨spend, valid, _, -, rfl⟩ := pushed
    obtain ⟨groups, same, others⟩ := ih ran
    exact ⟨_ :: groups, by rw [same, List.append_assoc, List.singleton_append],
      .cons (validatePagedSpend_valid valid) others⟩

/-- The records of the user stream in their groups. -/
structure ValidUserStream (hashes : TxHashes) (users : List Transaction)
    (facts : PagedSpendStreamFacts) : Prop where
  length_le : users.length ≤ blockMaxUserPages
  pageCount_eq : facts.pageCount = BitVec.ofNat 16 users.length
  groups : ∃ groupPages, groupPages.flatten = users ∧
    List.Forall₂ (ValidGroup hashes) groupPages facts.groups

theorem validateUserStream_valid {facts : PagedSpendStreamFacts}
    (ok : validatePagedSpendTransactionStream hashes txs = .ok facts) :
    ValidUserStream hashes txs facts := by
  unfold validatePagedSpendTransactionStream validatePagedSpendStream validateStreamForClass at ok
  have cuts := flatten_splitGroups txs
  simp only [bind_eq_ok, okOr_eq_ok, reject_eq_ok, rejectSome_eq_ok, pure_eq_ok, not_not] at ok
  obtain ⟨proofClass, _, _, fits, _, -, _, -, ⟨cursor, groups⟩, looped, _, -, _, -, _, -, _, -,
    rfl⟩ := ok
  obtain ⟨closed, pushed⟩ := (groupLoop_eq_ok (by simp)).mp looped
  rw [List.drop_zero] at closed pushed
  rw [closed, List.append_nil] at cuts
  obtain ⟨found, same, valid⟩ := foldlM_pushGroup pushed
  refine ⟨?_, rfl, _, cuts, ?_⟩
  · refine (Nat.le_of_not_lt fits).trans ?_
    cases proofClass <;> decide
  · have all : groups = found := by simpa using same
    exact all ▸ valid

/-- The records of a block as its page stream lays them out. -/
structure ValidStream (hashes : TxHashes) (coinbase : Transaction)
    (payouts users : List Transaction) (stream : BlockPageStreamFacts) : Prop where
  primary : coinbase.body.isPrimaryCoinbaseShape = true
  payouts_length : payouts.length = stream.hasDevelopmentPayout.toNat
  payout : ∀ tx ∈ payouts, tx.body.isDevelopmentPayoutShape = true
  userStartIndex_eq : stream.userStartIndex = 1 + payouts.length
  user : ∀ tx ∈ users, tx.body.isCoinbase = false
  length_le : users.length ≤ blockMaxUserPages
  groups : ∃ groupPages, groupPages.flatten = users ∧
    List.Forall₂ (ValidGroup hashes) groupPages stream.groups

theorem validateBlockPageStream_valid {stream : BlockPageStreamFacts}
    (ok : validateBlockPageStream hashes txs = .ok stream) :
    ∃ coinbase payouts users, txs = coinbase :: (payouts ++ users) ∧
      ValidStream hashes coinbase payouts users stream := by
  simp only [validateBlockPageStream, validateSystemRecords, bind_eq_ok, okOr_eq_ok, reject_eq_ok,
    mapError_ok_iff, pure_eq_ok, Bool.not_eq_false, Bool.not_eq_true] at ok
  obtain ⟨_, ⟨coinbase, first, _, -, _, primary, _, users, _, -, rfl⟩, facts, user, proofClass, -,
    rfl⟩ := ok
  obtain ⟨rest, rfl⟩ : ∃ rest, txs = coinbase :: rest := by
    cases txs with
    | nil => cases first
    | cons tx rest => exact ⟨rest, by simpa using first⟩
  have valid := validateUserStream_valid user
  simp only [List.getElem?_cons_succ, Nat.add_comm 1, List.drop_succ_cons] at users valid ⊢
  rcases rest with _ | ⟨second, rest⟩
  · exact ⟨coinbase, [], [], rfl, primary, rfl, by simp, rfl, by simp, by simp, by
      simpa using valid.groups⟩
  · simp only [List.getElem?_cons_zero, Option.any_some] at users valid ⊢
    cases payout : second.body.isDevelopmentPayoutShape with
    | false =>
      rw [payout] at users valid
      exact ⟨coinbase, [], second :: rest, rfl, primary, rfl, by simp, rfl,
        by simpa using users, by simpa using valid.length_le, by simpa using valid.groups⟩
    | true =>
      rw [payout] at users valid
      exact ⟨coinbase, [second], rest, rfl, primary, rfl, by simpa using payout, rfl,
        by simpa using users, by simpa using valid.length_le, by simpa using valid.groups⟩

end ParanoidChain
