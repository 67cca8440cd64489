import ParanoidChain.Laws.Object.Program
import ParanoidChain.Laws.Tx.PagedSpend
import ParanoidChain.Lib.Windows

/-!
# Payment schedules over whole call histories

A history is a chain of continuing calls, each accepted on the successor opening of the one before
(`CallRun`). Everything but the packed state stays fixed along a history, so a schedule is an
invariant that ties the two persistent registers to the calls made so far:

* budget wallet: `State1` is the end of the window in force and `State0` what it has left;
* recurring payment: `State0` counts the payments and `State1` is the next due height;
* tranche vesting: `State1` is the unlock height of the next tranche.

The successor is the opening with the state the program computed. No collision property of the
commitment is used: a history is stated on openings, not on their roots.
-/

namespace ParanoidChain

open Lib

/-- One call: its page and the height it is included at. -/
structure Call where
  page : TxPage
  height : U64
  deriving DecidableEq, Repr

namespace Call

/-- The second output's amount. -/
def payout (call : Call) : Nat := (getElem call.page.body.outputs 1 one_lt_txOutputs).amount.toNat

/-- What a call takes out of the object: its fee and its payout. -/
def debit (call : Call) : Nat := call.page.body.fee.toNat + call.payout

/-- The call pays `amount` to `owner` in a live second output. -/
def Pays (call : Call) (amount : U64) (owner : Address) : Prop :=
  call.page.body.outputIsLive 1 = true ∧
    (getElem call.page.body.outputs 1 one_lt_txOutputs).amount = amount ∧
    (getElem call.page.body.outputs 1 one_lt_txOutputs).owner = owner

end Call

/-- A history of continuing calls and the opening it ends in. -/
inductive CallRun (hashes : TxHashes) : ObjectOpening → List Call → ObjectOpening → Prop
  | nil (opening : ObjectOpening) : CallRun hashes opening [] opening
  | cons {opening last : ObjectOpening} {call : Call} {rest : List Call}
      {checked : CheckedTransition}
      (accepted : opening.checkCall hashes call.page call.height = .ok checked)
      (continuing : checked.terminal = false)
      (later : CallRun hashes (opening.successor checked.next) rest last) :
      CallRun hashes opening (call :: rest) last

/-- Payments of 40 at the given heights, each at a fee of 5 and on the successor of the one before,
out of an object that holds `amount`. -/
def paymentCalls (payee : Address) :
    U64 → ObjectOpening → List U64 → Option (List Call × ObjectOpening)
  | _, opening, [] => some ([], opening)
  | amount, opening, height :: heights => do
    let page ← (opening.buildPayment .sample ⟨3, amount, 1⟩ 4 5 0 height ⟨5, 40, payee⟩).toOption
    let checked ← (opening.checkCall .sample page height).toOption.filter fun checked =>
      !checked.terminal
    let (calls, last) ← paymentCalls payee (amount - 45) (opening.successor checked.next) heights
    return (⟨page, height⟩ :: calls, last)

/-- They are a history. -/
theorem CallRun.of_payments {payee : Address} {amount : U64} {opening last : ObjectOpening}
    {heights : List U64} {calls : List Call}
    (ran : paymentCalls payee amount opening heights = some (calls, last)) :
    CallRun .sample opening calls last ∧ calls.map Call.height = heights := by
  induction heights generalizing amount opening calls with
  | nil =>
    cases ran
    exact ⟨.nil _, rfl⟩
  | cons height heights ih =>
    simp only [paymentCalls, bind_eq_some, pure_eq_some, Option.filter_eq_some_iff, toOption_eq_some,
      Bool.not_eq_true'] at ran
    obtain ⟨page, -, checked, ⟨accepted, continuing⟩, ⟨rest, _⟩, later, same⟩ := ran
    cases same
    obtain ⟨run, times⟩ := ih later
    exact ⟨.cons accepted continuing run, congrArg _ times⟩

/-- What acceptance of a continuing call establishes. -/
structure ContinuingCall (hashes : TxHashes) (opening : ObjectOpening) (call : Call)
    (next : Block128) : Prop where
  spend : ∃ facts, validatePagedSpend hashes [call.page] = .ok facts
  oldObject : call.page.body.inputOwner = opening.root hashes
  permitted : opening.rules.permits (decide (call.height < opening.deadline)) false = true
  feeLimit : call.page.body.fee ≤ opening.rules.maxFee
  reserve : opening.rules.minRetained ≤ call.page.body.outputs[0].amount
  payoutLimit : call.page.body.outputs[1].amount ≤ opening.rules.maxPayout
  recipient : call.page.body.outputIsLive 1 = true →
    opening.rules.modes &&& anyPayoutRecipient = 0 →
    call.page.body.outputs[1].owner = opening.recipientAt call.height
  executed : IntegerProgram.execute opening.program opening.state
    (Context.fromBody call.page.body call.height opening.deadline) = .ok next
  successor : call.page.body.outputs[0].owner = (opening.successor next).root hashes

variable {opening : ObjectOpening} {call : Call}

theorem checkCall_continuing {hashes : TxHashes} {checked : CheckedTransition}
    (accepted : opening.checkCall hashes call.page call.height = .ok checked)
    (continuing : checked.terminal = false) : ContinuingCall hashes opening call checked.next := by
  unfold ObjectOpening.checkCall at accepted
  simp only [bind_eq_ok, reject_eq_ok, mapError_ok_iff, pure_eq_ok] at accepted
  obtain ⟨-, -, facts, spend, -, -, -, oldObject, -, permitted, -, fee, _, rules, next, executed,
    _, carried, rfl⟩ := accepted
  simp only at continuing ⊢
  simp only [continuing, ObjectOpening.checkContinuing, ObjectOpening.checkOutputZero,
    ObjectOpening.execute, Bool.false_eq_true, if_false, bind_eq_ok, reject_eq_ok,
    mapError_ok_iff, not_not, Bool.not_eq_false] at permitted rules executed carried
  obtain ⟨-, reserve, -, payout, recipient⟩ := rules
  obtain ⟨-, -, ran⟩ := executed
  exact {
    spend := ⟨facts, spend⟩
    oldObject := not_not.mp oldObject
    permitted := permitted
    feeLimit := BitVec.not_lt.mp fee
    reserve := BitVec.not_lt.mp reserve
    payoutLimit := BitVec.not_lt.mp payout
    recipient := fun live fixed => by
      by_contra other
      rw [TxBody.outputIsLive, Bool.and_eq_true, bne_iff_ne] at live
      exact recipient ⟨live.2, fixed, other⟩
    executed := ran
    successor := carried }

variable {next : Block128}

/-- A payment that the program demands is a live output to the deadline-selected recipient. -/
theorem ContinuingCall.pays {hashes : TxHashes} (accepted : ContinuingCall hashes opening call next)
    {amount : U64} (exact : call.page.body.outputs[1].amount = amount) (positive : amount ≠ 0)
    (fixed : opening.rules.modes &&& anyPayoutRecipient = 0) :
    call.Pays amount (opening.recipientAt call.height) := by
  obtain ⟨facts, spend⟩ := accepted.spend
  have shape := (validatePagedSpend_valid spend).shape (call.page, 0) (by simp)
  have live : call.page.body.outputIsLive 1 = true := by
    by_contra dead
    have zero : call.page.body.outputs[1] = .dummy :=
      validatePageShape_deadOutput shape (by simp) (Bool.not_eq_true _ ▸ dead)
    rw [zero] at exact
    exact positive exact.symm
  exact ⟨live, exact, accepted.recipient live fixed⟩

/-- The two persistent registers of an opening. -/
def ObjectOpening.registers (opening : ObjectOpening) : U64 × U64 :=
  IntegerProgram.unpackState opening.state

/-- A claim-phase call runs the object's instructions on its registers. -/
theorem ContinuingCall.ran {hashes : TxHashes} (accepted : ContinuingCall hashes opening call next)
    {instructions : List Instruction} (holds : Holds opening.program instructions) :
    ∃ final, IntegerProgram.run (Context.fromBody call.page.body call.height opening.deadline)
        instructions 0 { state0 := opening.registers.1, state1 := opening.registers.2,
                         scratch0 := 0, scratch1 := 0 } = .ok final ∧
      (opening.successor next).registers = (final.state0, final.state1) := by
  obtain ⟨final, ran, rfl⟩ := (execute_holds holds).mp accepted.executed
  exact ⟨final, ran, IntegerProgram.unpackState_packState _ _⟩

/-! ## Budget wallet -/

section PeriodBudget

variable {hashes : TxHashes} {opening last : ObjectOpening} {terms : PeriodBudget}
  {calls : List Call}

/-- The end of the window a call falls in, given the end of the window in force. -/
def budgetWindows (terms : PeriodBudget) (windowEnd : Nat) (calls : List Call) :
    List (Nat × Call) :=
  windowed terms.periodBlocks.toNat (fun call => call.height.toNat) windowEnd calls

/-- One call charges the window in force, or a fresh one. -/
theorem periodBudget_call (accepted : ContinuingCall hashes opening call next)
    (holds : Holds opening.program (periodBudgetProgram terms))
    (claim : call.height < opening.deadline) :
    terms.startHeight ≤ call.height ∧
      (opening.successor next).registers.1.toNat + call.debit =
        (if call.height.toNat < opening.registers.2.toNat then opening.registers.1.toNat
          else terms.budget.toNat) ∧
      (opening.successor next).registers.2.toNat =
        if call.height.toNat < opening.registers.2.toNat then opening.registers.2.toNat
        else call.height.toNat + terms.periodBlocks.toNat := by
  obtain ⟨final, ran, registers⟩ := accepted.ran holds
  rw [registers]
  exact IntegerProgram.periodBudget_run (decide_eq_true claim) ran

/-- Along a history the window in force never exceeds what it has left, nor a later one the
budget. -/
theorem periodBudget_windows (run : CallRun hashes opening calls last)
    (holds : Holds opening.program (periodBudgetProgram terms))
    (claim : ∀ call ∈ calls, call.height < opening.deadline)
    (period : 0 < terms.periodBlocks.toNat)
    (within : opening.registers.1.toNat ≤ terms.budget.toNat) (window : Nat) :
    costOf Call.debit (fun entry => entry.1 == window)
        (budgetWindows terms opening.registers.2.toNat calls) ≤
      if window = opening.registers.2.toNat then opening.registers.1.toNat
      else terms.budget.toNat := by
  induction run with
  | nil opening => simp [budgetWindows, windowed]
  | @cons opening last call rest checked accepted continuing later ih =>
    obtain ⟨-, charged, moved⟩ := periodBudget_call (checkCall_continuing accepted continuing)
      holds (claim call (List.mem_cons_self ..))
    have rest' := ih holds (fun other among => claim other (List.mem_cons_of_mem _ among))
      (by split at charged <;> omega)
    by_cases inside : call.height.toNat < opening.registers.2.toNat
    · simp only [inside, if_true] at charged moved
      simp only [budgetWindows, windowed, inside, if_true, costOf_cons, moved] at rest' ⊢
      by_cases same : window = opening.registers.2.toNat
      · subst same
        simp only [if_true, beq_self_eq_true] at rest' ⊢
        omega
      · have other : (opening.registers.2.toNat == window) = false := by simp [Ne.symm same]
        simp only [same, other, if_false] at rest' ⊢
        simpa using rest'
    · simp only [inside, if_false] at charged moved
      simp only [budgetWindows, windowed, inside, if_false, costOf_cons, moved] at rest' ⊢
      by_cases fresh : window = call.height.toNat + terms.periodBlocks.toNat
      · subst fresh
        have later : ¬ call.height.toNat + terms.periodBlocks.toNat =
            opening.registers.2.toNat := by omega
        simp only [if_true, beq_self_eq_true, later, if_false] at rest' ⊢
        omega
      · have other : (call.height.toNat + terms.periodBlocks.toNat == window) = false := by
          simp [Ne.symm fresh]
        simp only [other, fresh, if_false] at rest' ⊢
        by_cases expired : window = opening.registers.2.toNat
        · rw [costOf_closed (by omega)]
          simp
        · simpa [expired] using rest'

/-- No call of a history precedes the start height. -/
theorem periodBudget_started (run : CallRun hashes opening calls last)
    (holds : Holds opening.program (periodBudgetProgram terms))
    (claim : ∀ call ∈ calls, call.height < opening.deadline) :
    ∀ call ∈ calls, terms.startHeight ≤ call.height := by
  induction run with
  | nil opening => simp
  | @cons opening last call rest checked accepted continuing later ih =>
    obtain ⟨started, -, -⟩ := periodBudget_call (checkCall_continuing accepted continuing)
      holds (claim call (List.mem_cons_self ..))
    have rest' := ih holds fun other among => claim other (List.mem_cons_of_mem _ among)
    exact List.forall_mem_cons.mpr ⟨started, rest'⟩

/-- What an accepted budget wallet is. -/
theorem periodBudgetWallet_built {spendingKey recoveryKey : Address}
    {payoutRecipient : Option Address}
    (built : periodBudgetWallet spendingKey recoveryKey payoutRecipient terms = .ok opening) :
    Holds opening.program (periodBudgetProgram terms) ∧ opening.deadline = terms.recoverAt ∧
      opening.registers.1 = terms.budget ∧
      opening.registers.2.toNat = terms.startHeight.toNat + terms.periodBlocks.toNat ∧
      0 < terms.periodBlocks.toNat := by
  unfold periodBudgetWallet validateSchedule at built
  simp only [bind_eq_ok, reject_eq_ok, pure_eq_ok] at built
  obtain ⟨-, ⟨-, period, -, before, fits⟩, -, -, -, -, rfl⟩ := built
  have total : terms.startHeight.toNat + terms.periodBlocks.toNat < 2 ^ 64 := by
    rw [Option.isNone_iff_eq_none, ← Option.not_isSome_iff_eq_none, not_not,
      checkedAdd_isSome] at fits
    bv_omega
  refine ⟨install_holds rfl (by simp [periodBudgetProgram, programSteps]), rfl, ?_, ?_,
    by bv_omega⟩
  · simp [ObjectOpening.registers, install, IntegerProgram.unpackState_packState]
  · simpa [ObjectOpening.registers, install, IntegerProgram.unpackState_packState] using total

/-- **A budget wallet keeps its budget over every history.** No call precedes the start height, the
calls of each window the contract opens take out at most the budget, and hence any span of one
period at most twice the budget. -/
theorem periodBudget_enforced {spendingKey recoveryKey : Address}
    {payoutRecipient : Option Address}
    (built : periodBudgetWallet spendingKey recoveryKey payoutRecipient terms = .ok opening)
    (run : CallRun hashes opening calls last)
    (ordered : calls.Pairwise fun earlier later => earlier.height ≤ later.height)
    (claim : ∀ call ∈ calls, call.height < terms.recoverAt) :
    (∀ call ∈ calls, terms.startHeight ≤ call.height) ∧
      (∀ window, costOf Call.debit (fun entry => entry.1 == window)
        (budgetWindows terms (terms.startHeight.toNat + terms.periodBlocks.toNat) calls) ≤
          terms.budget.toNat) ∧
      ∀ start, ((calls.filter fun call => decide (start ≤ call.height.toNat ∧
          call.height.toNat < start + terms.periodBlocks.toNat)).map Call.debit).sum ≤
        2 * terms.budget.toNat := by
  obtain ⟨holds, deadline, left, windowEnd, period⟩ := periodBudgetWallet_built built
  rw [← deadline] at claim
  have started := periodBudget_started run holds claim
  have windows (window : Nat) := periodBudget_windows run holds claim period (by rw [left]) window
  simp only [windowEnd, left, ite_self] at windows
  refine ⟨started, windows, span_cost_le_two_windows period ?_ ?_ windows⟩
  · exact ordered.imp fun le => BitVec.le_def.mp le
  · intro call member
    have := BitVec.le_def.mp (started call member)
    omega

/-- A wallet of 100 per five blocks, paid from twice in its first window, at the heights 12 and 14,
and once more after its reset, at height 16. -/
theorem periodBudget_enforced_reset :
    ∃ (opening last : ObjectOpening) (calls : List Call),
      periodBudgetWallet ⟨11⟩ ⟨12⟩ (some ⟨13⟩) ⟨10, 5, 100, 50, 10, 60, 0⟩ = .ok opening ∧
      CallRun .sample opening calls last ∧ calls.map Call.height = [12, 14, 16] ∧
      calls.map Call.debit = [45, 45, 45] ∧
      (∀ window, costOf Call.debit (fun entry => entry.1 == window)
        (budgetWindows ⟨10, 5, 100, 50, 10, 60, 0⟩ 15 calls) ≤ 100) ∧
      ∀ start, ((calls.filter fun call : Call => decide (start ≤ call.height.toNat ∧
        call.height.toNat < start + 5)).map Call.debit).sum ≤ 2 * 100 := by
  have ran : ((periodBudgetWallet ⟨11⟩ ⟨12⟩ (some ⟨13⟩)
        ⟨10, 5, 100, 50, 10, 60, 0⟩).toOption.any fun opening =>
      (paymentCalls ⟨13⟩ 1000 opening [12, 14, 16]).any fun result =>
        decide (result.1.map Call.debit = [45, 45, 45])) = true := by
    decide +kernel
  simp only [Option.any_eq_true, decide_eq_true_eq, toOption_eq_some] at ran
  obtain ⟨opening, built, ⟨calls, last⟩, ran, debits⟩ := ran
  obtain ⟨run, heights⟩ := CallRun.of_payments ran
  have ordered : (calls.map Call.height).Pairwise (· ≤ ·) := by
    rw [heights]
    decide
  have early : ∀ height ∈ calls.map Call.height, height < (50 : U64) := by
    simp [heights]
  obtain ⟨-, windows, spans⟩ := periodBudget_enforced built run (List.pairwise_map.mp ordered)
    (List.forall_mem_map.mp early)
  exact ⟨opening, last, calls, built, run, heights, debits, windows, spans⟩

end PeriodBudget

/-! ## Recurring payment -/

section RecurringPayment

variable {hashes : TxHashes} {opening last : ObjectOpening} {terms : RecurringPayment}
  {calls : List Call}

/-- One call pays the fixed amount, no earlier than due, and moves the due height. -/
theorem recurringPayment_call (accepted : ContinuingCall hashes opening call next)
    (holds : Holds opening.program (recurringPaymentProgram terms))
    (claim : call.height < opening.deadline) :
    opening.registers.2 ≤ call.height ∧ call.page.body.outputs[1].amount = terms.payment ∧
      (opening.successor next).registers.1.toNat = opening.registers.1.toNat + 1 ∧
      (opening.successor next).registers.2.toNat =
        call.height.toNat + terms.periodBlocks.toNat := by
  obtain ⟨final, ran, registers⟩ := accepted.ran holds
  rw [registers]
  exact IntegerProgram.recurringPayment_run (decide_eq_true claim) ran

/-- The fixed parts of an opening that pays one recipient before its deadline. -/
structure PaysOnly (opening : ObjectOpening) (payee : Address) : Prop where
  fixed : opening.rules.modes &&& anyPayoutRecipient = 0
  recipient : opening.claimRecipient = payee

variable {payee : Address}

theorem PaysOnly.successor (only : PaysOnly opening payee) (next : Block128) :
    PaysOnly (opening.successor next) payee := ⟨only.fixed, only.recipient⟩

theorem PaysOnly.pays (only : PaysOnly opening payee)
    (accepted : ContinuingCall hashes opening call next) {amount : U64}
    (exact : call.page.body.outputs[1].amount = amount) (positive : amount ≠ 0)
    (claim : call.height < opening.deadline) : call.Pays amount payee := by
  have paid := accepted.pays exact positive only.fixed
  rwa [ObjectOpening.recipientAt, if_pos claim, only.recipient] at paid

/-- Along a history the counter counts, the due height is respected, and every call pays. -/
theorem recurringPayment_history (run : CallRun hashes opening calls last)
    (holds : Holds opening.program (recurringPaymentProgram terms)) (only : PaysOnly opening payee)
    (positive : terms.payment ≠ 0) (claim : ∀ call ∈ calls, call.height < opening.deadline) :
    (∀ call ∈ calls, call.Pays terms.payment payee) ∧
      calls.IsChain (fun earlier later =>
        earlier.height.toNat + terms.periodBlocks.toNat ≤ later.height.toNat) ∧
      (∀ call ∈ calls.head?, opening.registers.2 ≤ call.height) ∧
      last.registers.1.toNat = opening.registers.1.toNat + calls.length := by
  induction run with
  | nil opening => simp
  | @cons opening last call rest checked accepted continuing later ih =>
    have step := checkCall_continuing accepted continuing
    have now := claim call (List.mem_cons_self ..)
    obtain ⟨due, exact, counted, moved⟩ := recurringPayment_call step holds now
    obtain ⟨pays, spaced, first, count⟩ := ih holds (only.successor _)
      fun other among => claim other (List.mem_cons_of_mem _ among)
    refine ⟨List.forall_mem_cons.mpr ⟨only.pays step exact positive now, pays⟩, ?_, ?_, ?_⟩
    · refine List.isChain_cons.mpr ⟨fun other isNext => ?_, spaced⟩
      rw [← moved]
      exact first other isNext
    · simpa using due
    · rw [count, counted, List.length_cons]
      omega

/-- What an accepted recurring payment is. -/
theorem recurringPayment_built {payer : Address}
    (built : recurringPayment payer payee terms = .ok opening) :
    Holds opening.program (recurringPaymentProgram terms) ∧ PaysOnly opening payee ∧
      opening.deadline = terms.recoverAt ∧ opening.registers = (0, terms.firstDueHeight) ∧
      terms.payment ≠ 0 := by
  unfold recurringPayment at built
  simp only [bind_eq_ok, reject_eq_ok, pure_eq_ok] at built
  obtain ⟨-, -, -, positive, rfl⟩ := built
  refine ⟨install_holds rfl (by simp [recurringPaymentProgram, programSteps]),
    ⟨by simp [install, allowanceWallet]; decide, rfl⟩, rfl, ?_, positive⟩
  simp [ObjectOpening.registers, install, IntegerProgram.unpackState_packState]

end RecurringPayment

/-! ## Tranche vesting -/

section TrancheVesting

variable {hashes : TxHashes} {opening last : ObjectOpening} {terms : TrancheVesting}
  {calls : List Call}

/-- One call releases one tranche, no earlier than unlocked, and moves the grid. -/
theorem trancheVesting_call (accepted : ContinuingCall hashes opening call next)
    (holds : Holds opening.program (trancheVestingProgram terms))
    (claim : call.height < opening.deadline) :
    opening.registers.2 ≤ call.height ∧ call.page.body.outputs[1].amount = terms.trancheAmount ∧
      (opening.successor next).registers.2.toNat =
        opening.registers.2.toNat + terms.periodBlocks.toNat := by
  obtain ⟨final, ran, registers⟩ := accepted.ran holds
  rw [registers]
  exact IntegerProgram.trancheVesting_run (decide_eq_true claim) ran

/-- Along a history every call pays one tranche, and the calls stay on or behind the grid. -/
theorem trancheVesting_history {beneficiary : Address} (run : CallRun hashes opening calls last)
    (holds : Holds opening.program (trancheVestingProgram terms))
    (only : PaysOnly opening beneficiary) (positive : terms.trancheAmount ≠ 0)
    (claim : ∀ call ∈ calls, call.height < opening.deadline) :
    (∀ call ∈ calls, call.Pays terms.trancheAmount beneficiary) ∧
      ∀ (index : Nat) (call : Call), calls[index]? = some call →
        opening.registers.2.toNat + index * terms.periodBlocks.toNat ≤ call.height.toNat := by
  induction run with
  | nil opening => simp
  | @cons opening last call rest checked accepted continuing later ih =>
    have step := checkCall_continuing accepted continuing
    have now := claim call (List.mem_cons_self ..)
    obtain ⟨unlocked, exact, moved⟩ := trancheVesting_call step holds now
    obtain ⟨pays, grid⟩ := ih holds (only.successor _)
      fun other among => claim other (List.mem_cons_of_mem _ among)
    refine ⟨List.forall_mem_cons.mpr ⟨only.pays step exact positive now, pays⟩, ?_⟩
    intro index other found
    cases index with
    | zero =>
      obtain rfl : call = other := by simpa using found
      simpa using BitVec.le_def.mp unlocked
    | succ index =>
      have bound := grid index other (by simpa using found)
      rw [moved] at bound
      rw [Nat.add_mul]
      omega

/-- What an accepted vesting contract is. -/
theorem trancheVesting_built {beneficiary : Address}
    (built : trancheVesting beneficiary terms = .ok opening) :
    Holds opening.program (trancheVestingProgram terms) ∧ PaysOnly opening beneficiary ∧
      opening.deadline = terms.matureAt ∧ opening.registers = (0, terms.firstUnlockHeight) ∧
      terms.trancheAmount ≠ 0 ∧ 0 < terms.periodBlocks.toNat := by
  unfold trancheVesting validateSchedule at built
  simp only [bind_eq_ok, reject_eq_ok, pure_eq_ok] at built
  obtain ⟨-, ⟨-, period, -, -, -⟩, -, positive, rfl⟩ := built
  refine ⟨install_holds rfl (by simp [trancheVestingProgram, programSteps]),
    ⟨by simp [install, allowanceWallet]; decide, rfl⟩, rfl, ?_, positive, by bv_omega⟩
  simp [ObjectOpening.registers, install, IntegerProgram.unpackState_packState]

/-- Events on or behind a grid: at most one per elapsed period, and one more. -/
theorem length_filter_le_grid {first period height : Nat} (pos : 0 < period)
    (started : first ≤ height)
    (grid : ∀ (index : Nat) (call : Call), calls[index]? = some call →
      first + index * period ≤ call.height.toNat) :
    (calls.filter fun call => decide (call.height.toNat ≤ height)).length ≤
      (height - first) / period + 1 := by
  let bound := (height - first) / period + 1
  have late : (calls.drop bound).filter (fun call => decide (call.height.toNat ≤ height)) = [] := by
    refine List.filter_eq_nil_iff.mpr fun call member early => ?_
    obtain ⟨offset, found⟩ := List.mem_iff_getElem?.mp member
    rw [List.getElem?_drop] at found
    have after := grid _ _ found
    have early := of_decide_eq_true early
    have full : (bound + offset) * period ≤ height - first := by omega
    have := (Nat.le_div_iff_mul_le pos).mpr full
    omega
  calc (calls.filter fun call => decide (call.height.toNat ≤ height)).length
      = ((calls.take bound).filter fun call => decide (call.height.toNat ≤ height)).length := by
        conv_lhs => rw [← List.take_append_drop bound calls, List.filter_append, late,
          List.append_nil]
    _ ≤ (calls.take bound).length := List.length_filter_le _ _
    _ ≤ bound := List.length_take_le _ _

end TrancheVesting

/-- **Recurring payments and vesting tranches keep their schedules over every history.** A recurring
payment pays the fixed amount to the payee in every call, the calls a period apart, the first not
before it is due, with the first register counting them. A vesting contract pays one tranche to the
beneficiary in every call, the calls on or behind the grid, so that the total released by any height
is bounded by the tranches unlocked. -/
theorem payment_schedules_hold {hashes : TxHashes} {opening last : ObjectOpening}
    {calls : List Call} (run : CallRun hashes opening calls last) :
    (∀ (payer payee : Address) (terms : RecurringPayment),
      recurringPayment payer payee terms = .ok opening →
      (∀ call ∈ calls, call.height < terms.recoverAt) →
      (∀ call ∈ calls, call.Pays terms.payment payee) ∧
        calls.IsChain (fun earlier later =>
          earlier.height.toNat + terms.periodBlocks.toNat ≤ later.height.toNat) ∧
        (∀ call ∈ calls.head?, terms.firstDueHeight ≤ call.height) ∧
        last.registers.1.toNat = calls.length) ∧
    ∀ (beneficiary : Address) (terms : TrancheVesting),
      trancheVesting beneficiary terms = .ok opening →
      (∀ call ∈ calls, call.height < terms.matureAt) →
      (∀ call ∈ calls, call.Pays terms.trancheAmount beneficiary) ∧
        (∀ (index : Nat) (call : Call), calls[index]? = some call →
          terms.firstUnlockHeight.toNat + index * terms.periodBlocks.toNat ≤
            call.height.toNat) ∧
        ∀ height, terms.firstUnlockHeight.toNat ≤ height →
          ((calls.filter fun call => decide (call.height.toNat ≤ height)).map Call.payout).sum ≤
            terms.trancheAmount.toNat *
              ((height - terms.firstUnlockHeight.toNat) / terms.periodBlocks.toNat + 1) := by
  refine ⟨fun payer payee terms built claim => ?_, fun beneficiary terms built claim => ?_⟩
  · obtain ⟨holds, only, deadline, registers, positive⟩ := recurringPayment_built built
    rw [← deadline] at claim
    simpa [registers] using recurringPayment_history run holds only positive claim
  · obtain ⟨holds, only, deadline, registers, positive, period⟩ := trancheVesting_built built
    rw [← deadline] at claim
    obtain ⟨pays, grid⟩ := trancheVesting_history run holds only positive claim
    rw [registers] at grid
    refine ⟨pays, grid, fun height started => ?_⟩
    have each : (calls.filter fun call => decide (call.height.toNat ≤ height)).map Call.payout =
        List.replicate (calls.filter fun call => decide (call.height.toNat ≤ height)).length
          terms.trancheAmount.toNat := by
      refine List.eq_replicate_iff.mpr ⟨by simp, ?_⟩
      intro amount member
      obtain ⟨call, among, rfl⟩ := List.mem_map.mp member
      obtain ⟨-, exact, -⟩ := pays call (List.mem_of_mem_filter among)
      rw [Call.payout, exact]
    rw [each, List.sum_replicate_nat, Nat.mul_comm]
    exact Nat.mul_le_mul_left _ (length_filter_le_grid period started grid)

/-- Three payments of 40 that are due five blocks apart, and three tranches of 40, the second of them
late. -/
theorem payment_schedules_hold_thrice :
    (∃ (opening last : ObjectOpening) (calls : List Call),
      recurringPayment ⟨11⟩ ⟨12⟩ ⟨10, 5, 40, 50, 10⟩ = .ok opening ∧
      CallRun .sample opening calls last ∧ calls.map Call.height = [12, 17, 23] ∧
      (∀ call ∈ calls, call.Pays 40 ⟨12⟩) ∧ last.registers.1.toNat = 3) ∧
    ∃ (opening last : ObjectOpening) (calls : List Call),
      trancheVesting ⟨11⟩ ⟨10, 5, 40, 50, 10⟩ = .ok opening ∧
      CallRun .sample opening calls last ∧ calls.map Call.height = [10, 19, 20] ∧
      (∀ call ∈ calls, call.Pays 40 ⟨11⟩) ∧
      ((calls.filter fun call => decide (call.height.toNat ≤ 19)).map Call.payout).sum ≤ 80 := by
  constructor
  · have ran : ((recurringPayment ⟨11⟩ ⟨12⟩ ⟨10, 5, 40, 50, 10⟩).toOption.any fun opening =>
        (paymentCalls ⟨12⟩ 1000 opening [12, 17, 23]).isSome) = true := by
      decide +kernel
    simp only [Option.any_eq_true, Option.isSome_iff_exists, toOption_eq_some] at ran
    obtain ⟨opening, built, ⟨calls, last⟩, ran⟩ := ran
    obtain ⟨run, heights⟩ := CallRun.of_payments ran
    have early : ∀ height ∈ calls.map Call.height, height < (50 : U64) := by
      simp [heights]
    obtain ⟨pays, -, -, count⟩ := (payment_schedules_hold run).1 _ _ _ built
      (List.forall_mem_map.mp early)
    have three : calls.length = 3 := by simpa using congrArg List.length heights
    exact ⟨opening, last, calls, built, run, heights, pays, count.trans three⟩
  · have ran : ((trancheVesting ⟨11⟩ ⟨10, 5, 40, 50, 10⟩).toOption.any fun opening =>
        (paymentCalls ⟨11⟩ 1000 opening [10, 19, 20]).isSome) = true := by
      decide +kernel
    simp only [Option.any_eq_true, Option.isSome_iff_exists, toOption_eq_some] at ran
    obtain ⟨opening, built, ⟨calls, last⟩, ran⟩ := ran
    obtain ⟨run, heights⟩ := CallRun.of_payments ran
    have early : ∀ height ∈ calls.map Call.height, height < (50 : U64) := by
      simp [heights]
    obtain ⟨pays, -, released⟩ := (payment_schedules_hold run).2 _ _ built
      (List.forall_mem_map.mp early)
    exact ⟨opening, last, calls, built, run, heights, pays, released 19 (by decide)⟩

end ParanoidChain
