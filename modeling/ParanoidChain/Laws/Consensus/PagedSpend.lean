import ParanoidChain.Laws.Chain.PageStream

/-!
# The grammar of a page stream

`validate_stream_for_class` scans for END pages. Declaratively, it accepts the lists of its class
that can be cut into paged spends, within the limits of the class, with no slot twice. A paged spend
has its one END page last, so there is one cut only, and the scan finds it.
-/

namespace ParanoidChain

open Lib

variable {hashes : TxHashes} {pages segment : List Transaction} {cut : List (List Transaction)}
  {proofClass : BlockProofClass}

/-- The segment is one complete paged spend. -/
def IsGroup (hashes : TxHashes) (segment : List Transaction) : Prop :=
  ∃ facts, validatePagedSpend hashes (segment.map PageBody.txPage) = .ok facts

/-- A cut of the list into consecutive paged spends. -/
structure Cut (hashes : TxHashes) (pages : List Transaction) (cut : List (List Transaction)) :
    Prop where
  flatten_eq : cut.flatten = pages
  group : ∀ segment ∈ cut, IsGroup hashes segment

/-- The groups stand for the segments, one after the other from a page on. -/
def Places (hashes : TxHashes) : Nat → List (List Transaction) → List PagedSpendGroupFacts → Prop
  | _, [], [] => True
  | start, segment :: cut, group :: groups =>
    group.startPage.toNat = start ∧ group.pageCount.toNat = segment.length ∧
      validatePagedSpend hashes (segment.map PageBody.txPage) = .ok group.spend ∧
      Places hashes (start + segment.length) cut groups
  | _, _, _ => False

/-- The live input slots of a stream. -/
def inputSlots (pages : List Transaction) : List U32 :=
  pages.flatMap fun page => page.body.spends.map (·.slotIndex)

/-- The live output slots of a stream. -/
def outputSlots (pages : List Transaction) : List U32 :=
  pages.flatMap fun page => page.body.mints.map (·.slotIndex)

/-! ## One cut only -/

/-- The last page, and no other, carries the END bit. -/
def EndsOnce (segment : List Transaction) : Prop :=
  ∃ init last, segment = init ++ [last] ∧ endsGroup last = true ∧
    ∀ page ∈ init, endsGroup page = false

theorem IsGroup.endsOnce (group : IsGroup hashes segment) : EndsOnce segment := by
  obtain ⟨facts, ok⟩ := group
  have valid := validatePagedSpend_valid ok
  obtain ⟨last, isLast, ends⟩ := valid.last
  obtain ⟨first, isFirst, -⟩ := valid.first
  rcases List.eq_nil_or_concat segment with rfl | ⟨init, final, rfl⟩
  · simp at isLast
  rw [List.concat_eq_append] at *
  refine ⟨init, final, rfl, ?_, fun page member => ?_⟩
  · obtain rfl : PageBody.txPage final = last := by simpa using isLast
    exact ends
  · obtain ⟨index, inside, rfl⟩ := List.mem_iff_getElem.mp member
    have listed : (PageBody.txPage init[index], index) ∈
        ((init ++ [final]).map PageBody.txPage).zipIdx := by
      rw [List.mem_zipIdx_iff_getElem?, List.map_append,
        List.getElem?_append_left (by simpa using inside)]
      simp [inside]
    have agrees := valid.agreement first isFirst _ listed
    simp only [validatePageAgreement, bind_eq_ok, reject_eq_ok, exists_const, not_and,
      List.length_map, List.length_append, List.length_singleton] at agrees
    exact Bool.eq_false_iff.mpr (agrees.2.1 (by omega))

/-- The scan finds a segment that ends once at the head of a stream. -/
theorem splitGroups_append (once : EndsOnce segment) (rest : List Transaction) :
    splitGroups (segment ++ rest) = (segment :: (splitGroups rest).1, (splitGroups rest).2) := by
  obtain ⟨init, last, rfl, closes, stays⟩ := once
  induction init with
  | nil =>
    rw [List.nil_append, List.singleton_append, splitGroups, closes]
  | cons page init ih =>
    obtain ⟨here, others⟩ := List.forall_mem_cons.mp stays
    rw [List.cons_append, List.cons_append, splitGroups, ih others, here]

theorem splitGroups_flatten (group : ∀ segment ∈ cut, IsGroup hashes segment) :
    splitGroups cut.flatten = (cut, []) := by
  induction cut with
  | nil => rfl
  | cons segment cut ih =>
    obtain ⟨here, others⟩ := List.forall_mem_cons.mp group
    rw [List.flatten_cons, splitGroups_append here.endsOnce, ih others]

theorem Cut.splitGroups_eq (valid : Cut hashes pages cut) : splitGroups pages = (cut, []) :=
  valid.flatten_eq ▸ splitGroups_flatten valid.group

/-- No list has two cuts. -/
theorem Cut.unique {other : List (List Transaction)} (first : Cut hashes pages cut)
    (second : Cut hashes pages other) : cut = other :=
  congrArg Prod.fst (first.splitGroups_eq.symm.trans second.splitGroups_eq)

/-! ## The loop over the groups -/

theorem IsGroup.length_pos (group : IsGroup hashes segment) : 1 ≤ segment.length := by
  obtain ⟨facts, ok⟩ := group
  simpa using (validatePagedSpend_valid ok).pageCount.1

theorem length_le_flatten (group : ∀ segment ∈ cut, IsGroup hashes segment) :
    cut.length ≤ cut.flatten.length := by
  induction cut with
  | nil => simp
  | cons segment cut ih =>
    obtain ⟨here, others⟩ := List.forall_mem_cons.mp group
    have := here.length_pos
    have := ih others
    simp only [List.length_cons, List.flatten_cons, List.length_append]
    omega

/-- A successful loop has met paged spends only, and its groups stand for them. -/
theorem pushGroups_ok {found done : Nat × List PagedSpendGroupFacts}
    (small : found.1 + cut.flatten.length < 2 ^ 16)
    (ran : cut.foldlM (pushGroup hashes proofClass) found = .ok done) :
    ∃ groups, done.2 = found.2 ++ groups ∧ Places hashes found.1 cut groups ∧
      ∀ segment ∈ cut, IsGroup hashes segment := by
  induction cut generalizing found with
  | nil =>
    obtain rfl : found = done := by simpa using ran
    exact ⟨[], by simp, trivial, by simp⟩
  | cons segment cut ih =>
    rw [List.flatten_cons, List.length_append] at small
    obtain ⟨next, pushed, later⟩ := foldlM_cons_eq_ok.mp ran
    have cursor := pushGroup_cursor pushed
    simp only [pushGroup, bind_eq_ok, mapError_ok_iff, reject_eq_ok, pure_eq_ok] at pushed
    obtain ⟨spend, valid, _, -, rfl⟩ := pushed
    obtain ⟨groups, same, places, others⟩ := ih (by rw [cursor]; omega) later
    refine ⟨_ :: groups, by rw [same, List.append_assoc, List.singleton_append],
      ⟨?_, ?_, valid, places⟩, List.forall_mem_cons.mpr ⟨⟨spend, valid⟩, others⟩⟩
    · rw [toNat_ofNat_of_lt (by omega)]
    · rw [toNat_ofNat_of_lt (by omega)]

/-- The loop runs through any paged spends that the class has room for. -/
theorem pushGroups_run {found : Nat × List PagedSpendGroupFacts}
    (group : ∀ segment ∈ cut, IsGroup hashes segment)
    (room : found.2.length + cut.length ≤ proofClass.liveAuthorizationCapacity) :
    ∃ done, cut.foldlM (pushGroup hashes proofClass) found = .ok done := by
  induction cut generalizing found with
  | nil => exact ⟨found, rfl⟩
  | cons segment cut ih =>
    obtain ⟨⟨spend, valid⟩, others⟩ := List.forall_mem_cons.mp group
    rw [List.length_cons] at room
    let next : Nat × List PagedSpendGroupFacts :=
      (found.1 + segment.length, found.2 ++ [⟨BitVec.ofNat 16 found.1,
        BitVec.ofNat 16 segment.length, spend⟩])
    have pushed : pushGroup hashes proofClass found segment = .ok next := by
      simp only [pushGroup, valid, bind_eq_ok, mapError_ok_iff, reject_eq_ok, pure_eq_ok,
        Except.ok.injEq, exists_eq_left', exists_const]
      exact ⟨by simp; omega, rfl⟩
    obtain ⟨done, later⟩ : ∃ done, cut.foldlM (pushGroup hashes proofClass) next = .ok done :=
      ih others (by simp [next]; omega)
    exact ⟨done, foldlM_cons_eq_ok.mpr ⟨next, pushed, later⟩⟩

/-- The groups of a cut are determined by it. -/
theorem Places.unique {start : Nat} {groups others : List PagedSpendGroupFacts}
    (first : Places hashes start cut groups) (second : Places hashes start cut others) :
    groups = others := by
  induction cut generalizing start groups others with
  | nil =>
    cases groups <;> cases others <;> first | rfl | exact first.elim | exact second.elim
  | cons segment cut ih =>
    match groups, others, first, second with
    | group :: groups, other :: others, ⟨start, count, spend, rest⟩, ⟨start', count', spend', rest'⟩ =>
      have same : group.spend = other.spend := Except.ok.inj (spend.symm.trans spend')
      have place := BitVec.eq_of_toNat_eq (start.trans start'.symm)
      have length := BitVec.eq_of_toNat_eq (count.trans count'.symm)
      rw [ih rest rest']
      obtain ⟨_, _, _⟩ := group
      obtain ⟨_, _, _⟩ := other
      simp_all

/-! ## Counts -/

/-- The counts of a validated group are those of its records. -/
theorem spend_counts {facts : PagedSpendFacts}
    (ok : validatePagedSpend hashes (segment.map PageBody.txPage) = .ok facts) :
    facts.liveInputs.toNat = (inputSlots segment).length ∧
      facts.liveOutputs.toNat = (outputSlots segment).length := by
  have valid := validatePagedSpend_valid ok
  have spends : (segment.map PageBody.txPage).flatMap (·.body.spends) =
      segment.flatMap (·.body.spends) := by rw [List.flatMap_map]; rfl
  have mints : (segment.map PageBody.txPage).flatMap (·.body.mints) =
      segment.flatMap (·.body.mints) := by rw [List.flatMap_map]; rfl
  have few := valid.pageCount.2
  rw [List.length_map, show maxPagedSpendPages = 128 from rfl] at few
  obtain ⟨inputs, outputs⟩ := sum_records_le (segment.map Transaction.body)
  rw [List.map_map, List.length_map] at inputs outputs
  simp only [Function.comp_def] at inputs outputs
  constructor
  · rw [valid.liveInputs, spends, inputSlots, BitVec.toNat_ofNat, List.length_flatMap,
      List.length_flatMap, Nat.mod_eq_of_lt (by omega)]
    simp
  · rw [valid.liveOutputs, mints, outputSlots, BitVec.toNat_ofNat, List.length_flatMap,
      List.length_flatMap, Nat.mod_eq_of_lt (by omega)]
    simp

/-- The groups of a cut count its segments, its pages and its records. -/
theorem Places.counts {start : Nat} {groups : List PagedSpendGroupFacts}
    (places : Places hashes start cut groups) :
    groups.length = cut.length ∧
      (groups.map (·.pageCount.toNat)).sum = cut.flatten.length ∧
      (groups.map (·.spend.liveInputs.toNat)).sum = (inputSlots cut.flatten).length ∧
      (groups.map (·.spend.liveOutputs.toNat)).sum = (outputSlots cut.flatten).length := by
  induction cut generalizing start groups with
  | nil =>
    cases groups with
    | nil => simp [inputSlots, outputSlots]
    | cons group groups => exact places.elim
  | cons segment cut ih =>
    cases groups with
    | nil => exact places.elim
    | cons group groups =>
      obtain ⟨-, pages, valid, rest⟩ := places
      obtain ⟨inputs, outputs⟩ := spend_counts valid
      obtain ⟨length, pageSum, inputSum, outputSum⟩ := ih rest
      simp only [List.length_cons, List.map_cons, List.sum_cons, List.flatten_cons,
        List.length_append, pages, inputs, outputs, length, pageSum, inputSum, outputSum]
      simp [inputSlots, outputSlots]

/-! ## Slots -/

/-- The two sets of a stream are collected independently of each other. -/
theorem foldlM_collectPageSlots {seen found : List U32 × List U32} :
    pages.foldlM collectPageSlots seen = .ok found ↔
      (pages.flatMap (·.body.liveInputs)).foldlM (fun seen entry => insertFresh
        (PagedSpendStreamError.duplicateInputSlot entry.2.slotIndex) seen entry.2.slotIndex)
        seen.1 = .ok found.1 ∧
      (pages.flatMap (·.body.liveOutputs)).foldlM (fun seen entry => insertFresh
        (PagedSpendStreamError.duplicateOutputSlot entry.2.slotIndex) seen entry.2.slotIndex)
        seen.2 = .ok found.2 := by
  induction pages generalizing seen with
  | nil => simp [Prod.ext_iff]
  | cons page pages ih =>
    simp only [foldlM_cons_eq_ok, collectPageSlots, bind_eq_ok, pure_eq_ok, ih,
      List.flatMap_cons, foldlM_append_eq_ok, PageBody.pageBody]
    constructor
    · rintro ⟨_, ⟨inputs, collected, outputs, gathered, rfl⟩, moreInputs, moreOutputs⟩
      exact ⟨⟨inputs, collected, moreInputs⟩, outputs, gathered, moreOutputs⟩
    · rintro ⟨⟨inputs, collected, moreInputs⟩, outputs, gathered, moreOutputs⟩
      exact ⟨(inputs, outputs), ⟨inputs, collected, outputs, gathered, rfl⟩, moreInputs, moreOutputs⟩

/-- The slot checks pass exactly when no slot is named twice in the stream. -/
theorem slots_distinct_iff :
    (∃ slots, pages.foldlM collectPageSlots ([], []) = .ok slots ∧
      slots.1.find? (· ∈ slots.2) = none) ↔ (inputSlots pages ++ outputSlots pages).Nodup := by
  have inputs : (pages.flatMap (·.body.liveInputs)).map (·.2.slotIndex) = inputSlots pages := by
    simp [inputSlots, TxBody.spends, List.map_flatMap, Function.comp_def]
  have outputs : (pages.flatMap (·.body.liveOutputs)).map (·.2.slotIndex) = outputSlots pages := by
    simp [outputSlots, TxBody.mints, List.map_flatMap, Function.comp_def]
  simp only [foldlM_collectPageSlots, foldlM_insertFresh, inputs, outputs, List.append_nil,
    List.nodup_append, List.find?_eq_none, decide_eq_true_eq]
  constructor
  · rintro ⟨⟨ins, outs⟩, ⟨⟨freshIns, -, rfl⟩, freshOuts, -, rfl⟩, apart⟩
    refine ⟨freshIns, freshOuts, fun slot spent other minted same => ?_⟩
    exact apart slot (List.mem_reverse.mpr spent) (List.mem_reverse.mpr (same ▸ minted))
  · rintro ⟨freshIns, freshOuts, apart⟩
    refine ⟨(_, _), ⟨⟨freshIns, by simp, rfl⟩, freshOuts, by simp, rfl⟩, fun slot spent minted => ?_⟩
    exact apart slot (List.mem_reverse.mp spent) slot (List.mem_reverse.mp minted) rfl

/-! ## The stream -/

/-- Within a class the counters of the stream do not leave their words. -/
theorem pageCapacity_lt (proofClass : BlockProofClass) :
    proofClass.pageCapacity < 2 ^ 16 ∧ proofClass.inputCapacity < 2 ^ 16 ∧
      proofClass.outputCapacity < 2 ^ 16 := by
  cases proofClass <;> decide

/-- What an accepted stream is, and what is returned for it. -/
theorem validateStreamForClass_eq_ok {facts : PagedSpendStreamFacts} :
    validateStreamForClass hashes pages proofClass = .ok facts ↔
      BlockProofClass.forPageCount pages.length = some proofClass ∧
      pages.length ≤ proofClass.pageCapacity ∧
      (inputSlots pages).length ≤ proofClass.inputCapacity ∧
      (outputSlots pages).length ≤ proofClass.outputCapacity ∧
      (inputSlots pages ++ outputSlots pages).Nodup ∧
      ∃ cut groups, Cut hashes pages cut ∧ Places hashes 0 cut groups ∧
        facts = {
          proofClass
          groups
          pageCount := BitVec.ofNat 16 pages.length
          logicalCount := BitVec.ofNat 16 groups.length
          liveInputs := BitVec.ofNat 16 (inputSlots pages).length
          liveOutputs := BitVec.ofNat 16 (outputSlots pages).length } := by
  have loop {done : Nat × List PagedSpendGroupFacts} :
      groupLoop hashes proofClass pages pages.length (0, []) = .ok done ↔ _ :=
    groupLoop_eq_ok (by simp)
  simp only [validateStreamForClass, bind_eq_ok, okOr_eq_ok, reject_eq_ok, rejectSome_eq_ok,
    pure_eq_ok, loop, List.drop_zero, Nat.not_lt, not_not, exists_const]
  constructor
  · rintro ⟨fits, proofClass, found, rfl, ⟨cursor, groups⟩, ⟨closed, pushed⟩, ins, outs, slots,
      collected, apart, rfl⟩
    have whole := flatten_splitGroups pages
    rw [closed, List.append_nil] at whole
    have small := (pageCapacity_lt proofClass).1
    obtain ⟨placed, same, places, group⟩ := pushGroups_ok (by rw [whole]; simp; omega) pushed
    obtain rfl : groups = placed := by simpa using same
    obtain ⟨-, -, inputs, outputs⟩ := places.counts
    rw [whole] at inputs outputs
    rw [inputs] at ins ⊢
    rw [outputs] at outs ⊢
    exact ⟨found, fits, ins, outs, slots_distinct_iff.mp ⟨slots, collected, apart⟩, _, groups,
      ⟨whole, group⟩, places, rfl⟩
  · rintro ⟨found, fits, ins, outs, distinct, cut, groups, valid, places, rfl⟩
    have split := valid.splitGroups_eq
    have small := (pageCapacity_lt proofClass).1
    have few := length_le_flatten valid.group
    rw [valid.flatten_eq] at few
    obtain ⟨⟨cursor, found'⟩, pushed⟩ : ∃ done,
        cut.foldlM (pushGroup hashes proofClass) (0, []) = .ok done :=
      pushGroups_run valid.group (by simp [BlockProofClass.liveAuthorizationCapacity]; omega)
    obtain ⟨placed, same, places', -⟩ := pushGroups_ok (by rw [valid.flatten_eq]; simp; omega) pushed
    obtain rfl : found' = groups := by simpa [places.unique places'] using same
    obtain ⟨-, -, inputs, outputs⟩ := places.counts
    rw [valid.flatten_eq] at inputs outputs
    obtain ⟨slots, collected, apart⟩ := slots_distinct_iff.mpr distinct
    refine ⟨fits, proofClass, found, rfl, (cursor, found'), ⟨by rw [split], by rw [split]; exact pushed⟩,
      by rw [inputs]; exact ins, by rw [outputs]; exact outs, slots, collected, apart, ?_⟩
    rw [inputs, outputs]

/-- Every cut has its groups, as far as page numbers are 16-bit words. -/
theorem exists_places {start : Nat} (group : ∀ segment ∈ cut, IsGroup hashes segment)
    (small : start + cut.flatten.length < 2 ^ 16) : ∃ groups, Places hashes start cut groups := by
  induction cut generalizing start with
  | nil => exact ⟨[], trivial⟩
  | cons segment cut ih =>
    obtain ⟨⟨spend, valid⟩, others⟩ := List.forall_mem_cons.mp group
    rw [List.flatten_cons, List.length_append] at small
    obtain ⟨groups, places⟩ : ∃ groups, Places hashes (start + segment.length) cut groups :=
      ih others (by omega)
    refine ⟨⟨BitVec.ofNat 16 start, BitVec.ofNat 16 segment.length, spend⟩ :: groups, ?_, ?_, valid,
      places⟩ <;> rw [toNat_ofNat_of_lt (by omega)]

/-- A cut within the limits of its class is accepted with its groups. -/
theorem Cut.accepted (valid : Cut hashes pages cut)
    (least : BlockProofClass.forPageCount pages.length = some proofClass)
    (fits : pages.length ≤ proofClass.pageCapacity)
    (ins : (inputSlots pages).length ≤ proofClass.inputCapacity)
    (outs : (outputSlots pages).length ≤ proofClass.outputCapacity)
    (distinct : (inputSlots pages ++ outputSlots pages).Nodup) :
    ∃ facts, validateStreamForClass hashes pages proofClass = .ok facts ∧
      Places hashes 0 cut facts.groups ∧ facts.pageCount = BitVec.ofNat 16 pages.length := by
  have small := (pageCapacity_lt proofClass).1
  obtain ⟨groups, places⟩ : ∃ groups, Places hashes 0 cut groups :=
    exists_places valid.group (by rw [valid.flatten_eq]; omega)
  exact ⟨_, validateStreamForClass_eq_ok.mpr
    ⟨least, fits, ins, outs, distinct, cut, groups, valid, places, rfl⟩, places, rfl⟩

/-- A stream is accepted exactly when it has its class, a cut into paged spends within the limits,
and no slot twice; the cut is the only one, the groups are its segments, and the counts are sums over
the groups. -/
theorem validateStreamForClass_exact (hashes : TxHashes) (pages : List Transaction)
    (proofClass : BlockProofClass) :
    ((∃ facts, validateStreamForClass hashes pages proofClass = .ok facts) ↔
      BlockProofClass.forPageCount pages.length = some proofClass ∧
      (∃ cut, Cut hashes pages cut) ∧
      pages.length ≤ proofClass.pageCapacity ∧
      (inputSlots pages).length ≤ proofClass.inputCapacity ∧
      (outputSlots pages).length ≤ proofClass.outputCapacity ∧
      (inputSlots pages ++ outputSlots pages).Nodup) ∧
    ∀ facts, validateStreamForClass hashes pages proofClass = .ok facts →
      ∃ cut, Cut hashes pages cut ∧ (∀ other, Cut hashes pages other → other = cut) ∧
        Places hashes 0 cut facts.groups ∧
        facts.pageCount.toNat = (facts.groups.map (·.pageCount.toNat)).sum ∧
        facts.logicalCount.toNat = facts.groups.length ∧
        facts.liveInputs.toNat = (facts.groups.map (·.spend.liveInputs.toNat)).sum ∧
        facts.liveOutputs.toNat = (facts.groups.map (·.spend.liveOutputs.toNat)).sum := by
  obtain ⟨smallPages, smallInputs, smallOutputs⟩ := pageCapacity_lt proofClass
  refine ⟨⟨?_, ?_⟩, ?_⟩
  · rintro ⟨facts, ok⟩
    obtain ⟨found, fits, ins, outs, distinct, cut, -, valid, -⟩ :=
      validateStreamForClass_eq_ok.mp ok
    exact ⟨found, ⟨cut, valid⟩, fits, ins, outs, distinct⟩
  · rintro ⟨found, ⟨cut, valid⟩, fits, ins, outs, distinct⟩
    obtain ⟨facts, ok, -⟩ := valid.accepted found fits ins outs distinct
    exact ⟨facts, ok⟩
  · intro facts ok
    obtain ⟨-, fits, ins, outs, -, cut, groups, valid, places, rfl⟩ :=
      validateStreamForClass_eq_ok.mp ok
    obtain ⟨count, pageSum, inputSum, outputSum⟩ := places.counts
    have few := length_le_flatten valid.group
    rw [valid.flatten_eq] at pageSum inputSum outputSum few
    refine ⟨cut, valid, fun other valid' => valid'.unique valid, places, ?_, ?_, ?_, ?_⟩
    · rw [pageSum, toNat_ofNat_of_lt (by omega)]
    · rw [toNat_ofNat_of_lt (by omega)]
    · rw [inputSum, toNat_ofNat_of_lt (by omega)]
    · rw [outputSum, toNat_ofNat_of_lt (by omega)]

/-! ## The stream of a block -/

/-- A page has at most eight inputs and two outputs. -/
theorem length_slots_le (pages : List Transaction) :
    (inputSlots pages).length ≤ pages.length * 8 ∧
      (outputSlots pages).length ≤ pages.length * 2 := by
  obtain ⟨inputs, outputs⟩ := sum_records_le (pages.map Transaction.body)
  simpa [inputSlots, outputSlots, List.length_flatMap, Function.comp_def] using
    And.intro inputs outputs

/-- The pages bound every resource of either class except the inputs of the large one. -/
theorem class_limits (few : pages.length ≤ blockMaxUserPages) : ∃ proofClass,
    BlockProofClass.forPageCount pages.length = some proofClass ∧
    pages.length ≤ proofClass.pageCapacity ∧
    (outputSlots pages).length ≤ proofClass.outputCapacity ∧
    ((inputSlots pages).length ≤ proofClass.inputCapacity ↔
      (inputSlots pages).length ≤ blockMaxLiveInputs) := by
  obtain ⟨inputs, outputs⟩ := length_slots_le pages
  have fewer : pages.length ≤ 255 := few
  by_cases small : pages.length ≤ 25
  · refine ⟨.b25, if_pos small, small, ?_, ?_⟩
    · simp only [BlockProofClass.outputCapacity, txOutputs]
      omega
    · simp only [BlockProofClass.inputCapacity, txInputs, blockMaxLiveInputs]
      omega
  · refine ⟨.b255, ?_, few, ?_, Iff.rfl⟩
    · rw [BlockProofClass.forPageCount, if_neg small, if_pos few]
    · simp only [BlockProofClass.outputCapacity, blockMaxUserOutputs]
      omega

/-- A cut of few pages with distinct slots is accepted, with its groups, if its inputs fit. -/
theorem Cut.userStream (valid : Cut hashes pages cut) (few : pages.length ≤ blockMaxUserPages)
    (ins : (inputSlots pages).length ≤ blockMaxLiveInputs)
    (distinct : (inputSlots pages ++ outputSlots pages).Nodup) :
    ∃ facts, validatePagedSpendTransactionStream hashes pages = .ok facts ∧
      Places hashes 0 cut facts.groups ∧ facts.pageCount = BitVec.ofNat 16 pages.length := by
  obtain ⟨proofClass, least, room, outs, fits⟩ := class_limits few
  obtain ⟨facts, ok, places, count⟩ := valid.accepted least room (fits.mpr ins) outs distinct
  refine ⟨facts, ?_, places, count⟩
  simp only [validatePagedSpendTransactionStream, validatePagedSpendStream, bind_eq_ok, okOr_eq_ok]
  exact ⟨proofClass, least, ok⟩

/-- An accepted stream is a cut with its groups, within the limits of a block. -/
theorem userStream_eq_ok {facts : PagedSpendStreamFacts}
    (ok : validatePagedSpendTransactionStream hashes pages = .ok facts) :
    ∃ cut, Cut hashes pages cut ∧ Places hashes 0 cut facts.groups ∧
      pages.length ≤ blockMaxUserPages ∧ (inputSlots pages).length ≤ blockMaxLiveInputs ∧
      (inputSlots pages ++ outputSlots pages).Nodup := by
  simp only [validatePagedSpendTransactionStream, validatePagedSpendStream, bind_eq_ok,
    okOr_eq_ok] at ok
  obtain ⟨proofClass, -, ok⟩ := ok
  obtain ⟨-, room, ins, -, distinct, cut, groups, valid, places, rfl⟩ :=
    validateStreamForClass_eq_ok.mp ok
  have limits : proofClass.pageCapacity ≤ blockMaxUserPages ∧
      proofClass.inputCapacity ≤ blockMaxLiveInputs := by cases proofClass <;> decide
  exact ⟨cut, valid, places, room.trans limits.1, ins.trans limits.2, distinct⟩

end ParanoidChain
