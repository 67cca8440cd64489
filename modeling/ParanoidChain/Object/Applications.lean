import ParanoidChain.Object.Opening

/-!
# Application constructors

Three contracts with no program of their own, and three with a payment schedule. Each of the latter
is an allowance wallet whose program is replaced: the limits of a single call stay in the committed
rules, and the schedule across calls lives in the two persistent registers.
-/

namespace ParanoidChain

open Lib

/-- `KEEP_STATE`: sixteen zero instructions. -/
def keepState : Program := Vector.replicate programSteps (0, 0)

/-- The payee may collect before expiry; the payer may recover at or after it. -/
def refundablePayment (payer payee : Address) (expiryHeight maxFee : U64) : ObjectOpening where
  program := keepState
  state := 0
  claimAuthority := payee
  recoveryAuthority := payer
  deadline := expiryHeight
  claimRecipient := payee
  recoveryRecipient := payer
  rules := { maxFee, minRetained := 0, maxPayout := 0, modes := claimClose ||| recoveryClose }

/-- Nothing can be spent before the unlock height. -/
def timelockedVault (owner : Address) (unlockHeight maxFee : U64) : ObjectOpening where
  program := keepState
  state := 0
  claimAuthority := owner
  recoveryAuthority := owner
  deadline := unlockHeight
  claimRecipient := owner
  recoveryRecipient := owner
  rules := { maxFee, minRetained := 0, maxPayout := 0, modes := recoveryClose }

/-- Bounded payments by a spending key; withdrawal of the rest by the recovery key at expiry. -/
def allowanceWallet (spendingKey recoveryKey : Address) (payoutRecipient : Option Address)
    (recoverAt maxFee maxPayout minRetained : U64) : ObjectOpening where
  program := keepState
  state := 0
  claimAuthority := spendingKey
  recoveryAuthority := recoveryKey
  deadline := recoverAt
  claimRecipient := payoutRecipient.getD spendingKey
  recoveryRecipient := recoveryKey
  rules := {
    maxFee, minRetained, maxPayout
    modes := claimContinue ||| recoveryClose |||
      if payoutRecipient.isNone then anyPayoutRecipient else 0 }

inductive ScheduleError where
  | emptyPeriod
  | emptyAmount
  | deadlineBeforeStart
  | heightOverflow
  | feeExceedsBudget
  deriving DecidableEq, Repr

/-- A positive period, a start before the deadline, and no height overflow before the deadline. -/
def validateSchedule (start period deadline : U64) : Except ScheduleError Unit := do
  reject (period = 0) .emptyPeriod
  reject (deadline ≤ start) .deadlineBeforeStart
  reject ((checkedAdd (deadline - 1) period).isNone = true) .heightOverflow

/-- Overwrite the first instructions of a program. The constructors below install at most eight. -/
def install (opening : ObjectOpening) (instructions : List Instruction) : ObjectOpening :=
  { opening with
    program := opening.program.mapIdx fun step fields =>
      match instructions[step]? with
      | some instruction => instruction.toFields
      | none => fields }

structure PeriodBudget where
  startHeight : U64
  periodBlocks : U64
  /-- Total debit per window, fees included. -/
  budget : U64
  recoverAt : U64
  maxFee : U64
  maxPayout : U64
  minRetained : U64
  deriving DecidableEq, Repr

/-- The program of a budget wallet: `State0` is what the window has left, `State1` its end. -/
def periodBudgetProgram (terms : PeriodBudget) : List Instruction :=
  let before := Predicate.beforeDeadline
  let reset : Predicate := ⟨.scratch0, true⟩
  [(Instruction.new .assertLessOrEqual .state0 .immediate .height terms.startHeight).onlyWhen before,
   .new .lessThan .scratch0 .height .state1 0,
   -- no reset arithmetic on the recovery path
   (Instruction.new .move .scratch0 .one .zero 0).onlyWhen before.not,
   (Instruction.new .move .state0 .immediate .zero terms.budget).onlyWhen reset,
   (Instruction.new .add .state1 .height .immediate terms.periodBlocks).onlyWhen reset,
   (Instruction.new .add .scratch1 .fee .payout 0).onlyWhen before,
   (Instruction.new .assertLessOrEqual .state0 .scratch1 .state0 0).onlyWhen before,
   (Instruction.new .subtract .state0 .state0 .scratch1 0).onlyWhen before]

/-- A budget across successive calls, renewed by the first call after each window. -/
def periodBudgetWallet (spendingKey recoveryKey : Address) (payoutRecipient : Option Address)
    (terms : PeriodBudget) : Except ScheduleError ObjectOpening := do
  validateSchedule terms.startHeight terms.periodBlocks terms.recoverAt
  reject (terms.budget = 0) .emptyAmount
  reject (terms.budget < terms.maxFee) .feeExceedsBudget
  let opening := allowanceWallet spendingKey recoveryKey payoutRecipient terms.recoverAt
    terms.maxFee terms.maxPayout
    (if terms.minRetained ≤ terms.maxFee then terms.maxFee else terms.minRetained)
  return install
    { opening with
      state := IntegerProgram.packState terms.budget (terms.startHeight + terms.periodBlocks) }
    (periodBudgetProgram terms)

structure RecurringPayment where
  firstDueHeight : U64
  periodBlocks : U64
  payment : U64
  recoverAt : U64
  maxFee : U64
  deriving DecidableEq, Repr

/-- `State0` counts payments, `State1` is the next due height, relative to the last payment. -/
def recurringPaymentProgram (terms : RecurringPayment) : List Instruction :=
  let before := Predicate.beforeDeadline
  [(Instruction.new .assertLessOrEqual .state0 .state1 .height 0).onlyWhen before,
   (Instruction.new .assertEqual .state0 .payout .immediate terms.payment).onlyWhen before,
   (Instruction.new .add .state0 .state0 .one 0).onlyWhen before,
   (Instruction.new .add .state1 .height .immediate terms.periodBlocks).onlyWhen before]

/-- One fixed payment to the payee whenever one is due. -/
def recurringPayment (payer payee : Address) (terms : RecurringPayment) :
    Except ScheduleError ObjectOpening := do
  validateSchedule terms.firstDueHeight terms.periodBlocks terms.recoverAt
  reject (terms.payment = 0) .emptyAmount
  let opening := allowanceWallet payee payer (some payee) terms.recoverAt terms.maxFee
    terms.payment terms.maxFee
  return install
    { opening with state := IntegerProgram.packState 0 terms.firstDueHeight }
    (recurringPaymentProgram terms)

structure TrancheVesting where
  firstUnlockHeight : U64
  periodBlocks : U64
  trancheAmount : U64
  matureAt : U64
  maxFee : U64
  deriving DecidableEq, Repr

/-- `State0` totals what was released, `State1` is the next unlock height, on a fixed grid. -/
def trancheVestingProgram (terms : TrancheVesting) : List Instruction :=
  let before := Predicate.beforeDeadline
  [(Instruction.new .assertLessOrEqual .state0 .state1 .height 0).onlyWhen before,
   (Instruction.new .assertEqual .state0 .payout .immediate terms.trancheAmount).onlyWhen before,
   (Instruction.new .add .state0 .state0 .payout 0).onlyWhen before,
   (Instruction.new .add .state1 .state1 .immediate terms.periodBlocks).onlyWhen before]

/-- Fixed tranches to a beneficiary on an anchored schedule. -/
def trancheVesting (beneficiary : Address) (terms : TrancheVesting) :
    Except ScheduleError ObjectOpening := do
  validateSchedule terms.firstUnlockHeight terms.periodBlocks terms.matureAt
  reject (terms.trancheAmount = 0) .emptyAmount
  let opening := allowanceWallet beneficiary beneficiary (some beneficiary) terms.matureAt
    terms.maxFee terms.trancheAmount terms.maxFee
  return install
    { opening with state := IntegerProgram.packState 0 terms.firstUnlockHeight }
    (trancheVestingProgram terms)

end ParanoidChain
