import ParanoidChain.Laws.Object.Schedules

/-!
# What can leave a contract

A history of an object is a list of accepted calls, each but the last continuing and followed by a
call on whatever opening has the root in its first output. That the next opening is the computed
successor needs that no two openings met on the way share a root (`CollisionFree`); a hash cannot be
injective on all openings, so the assumption is about these alone. Everything else is read off the
acceptance of one call (`AcceptedCall`) and carried along the history.
-/

namespace ParanoidChain

open Lib

/-! ## One call -/

namespace TxBody

/-- A page whose first input alone is live spends that input. -/
theorem spends_eq_first {body : TxBody} (first : body.inputIsLive 0 = true)
    (others : ∀ index, 0 < index → index < txInputs → body.inputIsLive index = false) :
    body.spends = [body.inputs[0]] := by
  obtain ⟨rest, enumerated, positions⟩ : ∃ rest,
      enumerate body.inputs = (0, body.inputs[0]) :: rest ∧ ∀ entry ∈ rest, 0 < entry.1 := by
    obtain ⟨⟨list⟩, size⟩ := body.inputs
    match list, size with
    | head :: tail, _ =>
      refine ⟨(tail.zipIdx 1).map Prod.swap, rfl, fun entry member => ?_⟩
      obtain ⟨⟨input, index⟩, stored, rfl⟩ := List.mem_map.mp member
      exact List.le_snd_of_mem_zipIdx stored
  have dead : rest.filter (fun entry => body.inputIsLive entry.1) = [] := by
    refine List.filter_eq_nil_iff.mpr fun entry member live => ?_
    rw [others entry.1 (positions entry member) ((inputIsLive_iff _ _).mp live).1] at live
    exact Bool.false_ne_true live
  rw [spends, liveInputs, enumerated, List.filter_cons, first, if_pos rfl, dead]
  rfl

end TxBody

/-- The bitmaps a call page can have. -/
def callBits (terminal paid : Bool) : U16 :=
  ObjectOpening.callBitmap |||
    if terminal then pagedSpendTerminalBit else if paid then outputBitmapBit 1 else 0

theorem callBits_inputs (terminal paid : Bool) : ∀ index < txInputs,
    ((callBits terminal paid &&& (1#16 <<< index)) != 0) = decide (index = 0) := by
  cases terminal <;> cases paid <;> decide

theorem callBits_outputs (terminal paid : Bool) :
    ((callBits terminal paid &&& outputBitmapBit 0) != 0) = true ∧
      ((callBits true paid &&& outputBitmapBit 1) != 0) = false := by
  cases terminal <;> cases paid <;> decide

theorem exists_callBits {bitmap : U16} {terminal : Bool}
    (shape : bitmap = ObjectOpening.callBitmap |||
      if terminal then pagedSpendTerminalBit else bitmap &&& outputBitmapBit 1) :
    ∃ paid, bitmap = callBits terminal paid := by
  cases terminal with
  | true => exact ⟨false, shape⟩
  | false =>
    have bit : outputBitmapBit 1 = BitVec.twoPow 16 9 := by decide
    refine ⟨bitmap.getLsbD 9, ?_⟩
    rw [if_neg Bool.false_ne_true, bit, BitVec.and_twoPow] at shape
    rw [callBits, if_neg Bool.false_ne_true, bit]
    exact shape

/-- The live records of a call page: one input, one output, and a payout unless it closes. -/
theorem call_liveness {body : TxBody} {terminal : Bool}
    (shape : body.validityBitmap = ObjectOpening.callBitmap |||
      if terminal then pagedSpendTerminalBit else body.validityBitmap &&& outputBitmapBit 1) :
    body.spends = [body.inputs[0]] ∧ body.outputIsLive 0 = true ∧
      (terminal = true → body.outputIsLive 1 = false) := by
  obtain ⟨paid, bits⟩ := exists_callBits shape
  have live {index : Nat} (inside : index < txInputs) :
      body.inputIsLive index = decide (index = 0) := by
    rw [TxBody.inputIsLive, bits, callBits_inputs _ _ _ inside, decide_eq_true inside,
      Bool.true_and]
  refine ⟨TxBody.spends_eq_first (live (by decide)) ?_, ?_, ?_⟩
  · intro index positive inside
    rw [live inside]
    exact decide_eq_false (by omega)
  · rw [TxBody.outputIsLive, bits, (callBits_outputs _ _).1]
    rfl
  · rintro rfl
    rw [TxBody.outputIsLive, bits, (callBits_outputs true _).2, Bool.and_false]

/-- Acceptance of one call, closing or not. -/
structure AcceptedCall (opening : ObjectOpening) (call : Call) (checked : CheckedTransition) :
    Prop where
  terminal : checked.terminal = ObjectOpening.isTerminalCall call.page.body
  permitted : opening.rules.permits (decide (call.height < opening.deadline)) checked.terminal = true
  feeLimit : call.page.body.fee ≤ opening.rules.maxFee
  closing : checked.terminal = true → call.payout = 0 ∧
    call.page.body.outputs[0].owner = opening.recipientAt call.height
  balance : call.page.body.inputs[0].amount.toNat =
    call.page.body.outputs[0].amount.toNat + call.debit

theorem checkCall_accepted {hashes : TxHashes} {opening : ObjectOpening} {call : Call}
    {checked : CheckedTransition}
    (accepted : opening.checkCall hashes call.page call.height = .ok checked) :
    AcceptedCall opening call checked := by
  simp only [ObjectOpening.checkCall, bind_eq_ok, reject_eq_ok, mapError_ok_iff, pure_eq_ok,
    not_or, not_not, Bool.not_eq_false] at accepted
  obtain ⟨-, -, facts, spend, -, ⟨-, shape⟩, -, -, -, permitted, -, fee, -, -, next, -, _, carried,
    rfl⟩ := accepted
  obtain ⟨spends, held, closed⟩ := call_liveness shape
  have valid := validatePagedSpend_valid spend
  have dead (none : call.page.body.outputIsLive 1 = false) : call.payout = 0 := by
    have zero : call.page.body.outputs[1] = .dummy :=
      validatePageShape_deadOutput (valid.shape (call.page, 0) (by simp)) (by simp) none
    rw [Call.payout, zero]
    rfl
  exact {
    terminal := rfl
    permitted := permitted
    feeLimit := BitVec.not_lt.mp fee
    closing := fun closes => by
      refine ⟨dead (closed closes), ?_⟩
      simpa [ObjectOpening.checkOutputZero, show ObjectOpening.isTerminalCall call.page.body = true
        from closes] using carried
    balance := by
      obtain ⟨first, isFirst, -, -, -, fees⟩ := valid.first
      obtain rfl : call.page = first := by simpa using isFirst
      have balance := valid.balance
      simp only [List.flatMap_cons, List.flatMap_nil, List.append_nil, spends,
        TxBody.mints_eq_of_bitmap, held, if_true, fees] at balance
      cases paid : call.page.body.outputIsLive 1 with
      | false =>
        simp [paid] at balance
        rw [Call.debit, dead paid]
        omega
      | true =>
        simp [paid] at balance
        rw [Call.debit, Call.payout]
        omega }

/-! ## Histories -/

/-- A call on the output another one keeps: same slot, same amount. -/
def Call.SpendsKept (later earlier : Call) : Prop :=
  (getElem later.page.body.inputs 0 txInputs_pos).slotIndex =
      (getElem earlier.page.body.outputs 0 txOutputs_pos).slotIndex ∧
    (getElem later.page.body.inputs 0 txInputs_pos).amount =
      (getElem earlier.page.body.outputs 0 txOutputs_pos).amount

/-- Accepted calls, each with the opening it was made on. -/
inductive ObjectRun (hashes : TxHashes) : List (ObjectOpening × Call) → Prop
  | last {opening : ObjectOpening} {call : Call} {checked : CheckedTransition}
      (accepted : opening.checkCall hashes call.page call.height = .ok checked) :
      ObjectRun hashes [(opening, call)]
  | cons {opening : ObjectOpening} {call : Call} {checked : CheckedTransition}
      {next : ObjectOpening × Call} {rest : List (ObjectOpening × Call)}
      (accepted : opening.checkCall hashes call.page call.height = .ok checked)
      (continuing : checked.terminal = false)
      (onRoot : next.1.root hashes = call.page.body.outputs[0].owner)
      (spends : next.2.SpendsKept call)
      (later : ObjectRun hashes (next :: rest)) :
      ObjectRun hashes ((opening, call) :: next :: rest)

/-- The openings a history meets: those called on, and the successors the calls computed. -/
def Meets (hashes : TxHashes) (history : List (ObjectOpening × Call)) (opening : ObjectOpening) :
    Prop :=
  ∃ entry ∈ history, opening = entry.1 ∨ ∃ checked,
    entry.1.checkCall hashes entry.2.page entry.2.height = .ok checked ∧
      opening = entry.1.successor checked.next

/-- No two openings met share a root. -/
def CollisionFree (hashes : TxHashes) (history : List (ObjectOpening × Call)) : Prop :=
  ∀ first second, Meets hashes history first → Meets hashes history second →
    first.root hashes = second.root hashes → first = second

section History

variable {hashes : TxHashes} {opening : ObjectOpening} {call : Call}
  {entry : ObjectOpening × Call} {rest : List (ObjectOpening × Call)}

theorem Meets.cons {other : ObjectOpening} (met : Meets hashes rest other) :
    Meets hashes (entry :: rest) other := by
  obtain ⟨among, member, same⟩ := met
  exact ⟨among, List.mem_cons_of_mem _ member, same⟩

theorem CollisionFree.tail (free : CollisionFree hashes (entry :: rest)) :
    CollisionFree hashes rest :=
  fun _ _ first second => free _ _ first.cons second.cons

/-- The rules the calls of a history obey, read off the opening it began with. -/
structure Obeys (opening : ObjectOpening) (call : Call) : Prop where
  permitted : (opening.rules.modes &&& ObjectRules.modeBit (decide (call.height < opening.deadline))
    (ObjectOpening.isTerminalCall call.page.body)) ≠ 0
  feeLimit : call.page.body.fee ≤ opening.rules.maxFee
  continuing : ObjectOpening.isTerminalCall call.page.body = false →
    opening.rules.minRetained ≤ call.page.body.outputs[0].amount ∧
      call.page.body.outputs[1].amount ≤ opening.rules.maxPayout ∧
      (call.page.body.outputIsLive 1 = true → opening.rules.modes &&& anyPayoutRecipient = 0 →
        call.page.body.outputs[1].owner = opening.recipientAt call.height)
  closing : ObjectOpening.isTerminalCall call.page.body = true →
    call.payout = 0 ∧ call.page.body.outputs[0].owner = opening.recipientAt call.height

theorem obeys_of_accepted {checked : CheckedTransition}
    (accepted : opening.checkCall hashes call.page call.height = .ok checked) :
    Obeys opening call := by
  have facts := checkCall_accepted accepted
  refine ⟨?_, facts.feeLimit, fun continuing => ?_, fun closes => ?_⟩
  · have permitted := facts.permitted
    rw [facts.terminal, ObjectRules.permits, bne_iff_ne] at permitted
    exact permitted
  · have step := checkCall_continuing accepted (facts.terminal.trans continuing)
    exact ⟨step.reserve, step.payoutLimit, step.recipient⟩
  · exact facts.closing (facts.terminal.trans closes)

/-- The rules do not read the packed state. -/
theorem Obeys.of_successor {state : Block128} (obeys : Obeys (opening.successor state) call) :
    Obeys opening call :=
  ⟨obeys.permitted, obeys.feeLimit, obeys.continuing, obeys.closing⟩

/-- A continuing call is followed by one on its computed successor. -/
theorem ObjectRun.next_eq_successor {checked : CheckedTransition}
    (free : CollisionFree hashes ((opening, call) :: entry :: rest))
    (accepted : opening.checkCall hashes call.page call.height = .ok checked)
    (continuing : checked.terminal = false)
    (onRoot : entry.1.root hashes = call.page.body.outputs[0].owner) :
    entry.1 = opening.successor checked.next := by
  refine free _ _ ⟨entry, by simp, .inl rfl⟩ ⟨(opening, call), by simp, .inr ⟨_, accepted, rfl⟩⟩ ?_
  rw [onRoot, (checkCall_continuing accepted continuing).successor]

end History

/-- **The committed rules bound what can leave a contract.** Along every history the openings differ
from the first in their state alone, every call obeys the first opening's rules, only the last call
can close, and what was funded is what the last call keeps or pays at closing plus all payouts and
fees. -/
theorem object_rules_bound {hashes : TxHashes} {opening : ObjectOpening} {call : Call}
    {rest : List (ObjectOpening × Call)} (run : ObjectRun hashes ((opening, call) :: rest))
    (free : CollisionFree hashes ((opening, call) :: rest)) :
    (∀ entry ∈ (opening, call) :: rest, entry.1 = opening.successor entry.1.state) ∧
    (∀ entry ∈ (opening, call) :: rest, Obeys opening entry.2) ∧
    (∀ entry ∈ ((opening, call) :: rest).dropLast,
      ObjectOpening.isTerminalCall entry.2.page.body = false) ∧
    call.page.body.inputs[0].amount.toNat =
      (((opening, call) :: rest).getLast (by simp)).2.page.body.outputs[0].amount.toNat +
        (((opening, call) :: rest).map (·.2.debit)).sum := by
  induction rest generalizing opening call with
  | nil =>
    obtain ⟨accepted⟩ := run
    have balance := (checkCall_accepted accepted).balance
    refine ⟨by simp [ObjectOpening.successor], by simpa using obeys_of_accepted accepted, by simp, ?_⟩
    simpa using balance
  | cons next rest ih =>
    obtain ⟨nextOpening, nextCall⟩ := next
    obtain _ | ⟨accepted, continuing, onRoot, spends, later⟩ := run
    obtain rfl : nextOpening = opening.successor _ :=
      ObjectRun.next_eq_successor free accepted continuing onRoot
    obtain ⟨states, obey, unclosed, kept⟩ := ih later free.tail
    have facts := checkCall_accepted accepted
    refine ⟨?_, ?_, ?_, ?_⟩
    · refine List.forall_mem_cons.mpr ⟨rfl, fun entry member => ?_⟩
      exact states entry member
    · refine List.forall_mem_cons.mpr ⟨obeys_of_accepted accepted, fun entry member => ?_⟩
      exact (obey entry member).of_successor
    · rw [List.dropLast_cons_of_ne_nil (List.cons_ne_nil _ _)]
      exact List.forall_mem_cons.mpr ⟨facts.terminal ▸ continuing, unclosed⟩
    · have carried : nextCall.page.body.inputs[0].amount = call.page.body.outputs[0].amount :=
        spends.2
      rw [List.getLast_cons (List.cons_ne_nil _ _), List.map_cons, List.sum_cons, facts.balance,
        ← carried, kept]
      exact Nat.add_right_comm _ _ _ |>.trans (Nat.add_assoc _ _ _)

/-- An allowance wallet funded with 1000: a payment of 40 and a closing call, each with a fee of 5. -/
theorem object_rules_bound_wallet :
    ∃ (opening : ObjectOpening) (payment closing : Call),
      ObjectRun .sample [(opening, payment), (opening, closing)] ∧
      CollisionFree .sample [(opening, payment), (opening, closing)] ∧
      payment.page.body.inputs[0].amount.toNat = 1000 ∧
      1000 = closing.page.body.outputs[0].amount.toNat + (payment.debit + closing.debit) := by
  let opening := allowanceWallet ⟨11⟩ ⟨12⟩ (some ⟨13⟩) 50 10 60 0
  have evaluated : (do
      let payment ← (opening.buildPayment .sample ⟨3, 1000, 1⟩ 4 5 0 12 ⟨5, 40, ⟨13⟩⟩).toOption
      let paid ← (opening.checkCall .sample payment 12).toOption
      let closing ← (opening.buildCall .sample ⟨4, 955, 2⟩ 6 5 0 50 true).toOption
      let closed ← (opening.checkCall .sample closing 50).toOption
      return (paid.terminal, decide (opening.root .sample = payment.body.outputs[0].owner),
        decide (payment.body.outputs[0].slotIndex = 4 ∧ payment.body.outputs[0].amount = 955 ∧
          closing.body.inputs[0].slotIndex = 4 ∧ closing.body.inputs[0].amount = 955 ∧
          payment.body.inputs[0].amount.toNat = 1000),
        paid.next, closed.next)) = some (false, true, true, opening.state, opening.state) := by
    decide +kernel
  simp only [bind, Option.bind_eq_some_iff, toOption_eq_some, pure, Option.some.injEq, Prod.mk.injEq,
    decide_eq_true_eq] at evaluated
  obtain ⟨payment, -, paid, accepted, closing, -, closed, closes, continuing, onRoot,
    ⟨slot, amount, spentSlot, spentAmount, funded⟩, kept, finished⟩ := evaluated
  have run : ObjectRun .sample [(opening, ⟨payment, 12⟩), (opening, ⟨closing, 50⟩)] :=
    .cons accepted continuing onRoot ⟨spentSlot.trans slot.symm, spentAmount.trans amount.symm⟩
      (.last closes)
  -- the idle program keeps the state, so the only opening met is the first
  have single : ∀ other, Meets .sample [(opening, ⟨payment, 12⟩), (opening, ⟨closing, 50⟩)] other →
      other = opening := by
    rintro other ⟨entry, member, rfl | ⟨checked, again, rfl⟩⟩
    · obtain rfl | rfl : entry = (opening, ⟨payment, 12⟩) ∨ entry = (opening, ⟨closing, 50⟩) := by
        simpa using member
      · rfl
      · rfl
    · obtain rfl | rfl : entry = (opening, ⟨payment, 12⟩) ∨ entry = (opening, ⟨closing, 50⟩) := by
        simpa using member
      · obtain rfl : paid = checked := Except.ok.inj (accepted.symm.trans again)
        rw [kept]
        rfl
      · obtain rfl : closed = checked := Except.ok.inj (closes.symm.trans again)
        rw [finished]
        rfl
  have free : CollisionFree .sample [(opening, ⟨payment, 12⟩), (opening, ⟨closing, 50⟩)] :=
    fun first second met met' _ => (single first met).trans (single second met').symm
  obtain ⟨-, -, -, balance⟩ := object_rules_bound run free
  refine ⟨opening, ⟨payment, 12⟩, ⟨closing, 50⟩, run, free, funded, ?_⟩
  rw [← funded]
  simpa using balance

end ParanoidChain
