import ParanoidChain.Laws.Object.Schedules

/-!
# Recovery is never blocked

An application is one of the six constructors with its terms. Its openings differ only in the packed
state (`Application.Opens`), and after the deadline every instruction that could stop the program is
switched off by its predicate, whatever the state. So the closing call is built and accepted: the
rest of the proof is the closing page itself, one input and one output, which passes every check of
a paged spend.
-/

namespace ParanoidChain

open Lib

/-! ## The closing page -/

/-- Dead records after the live ones leave a gap and nothing else. -/
theorem scanInputs_dead {body : TxBody} {page : Nat} {entries : List (Nat × TxInput)}
    {scan : PageScan} (dead : ∀ entry ∈ entries, body.inputIsLive entry.1 = false)
    (some : entries ≠ []) :
    entries.foldlM (PageScan.scanInput body page) scan = .ok { scan with inputGap := true } := by
  induction entries generalizing scan with
  | nil => exact absurd rfl some
  | cons entry rest ih =>
    have step : PageScan.scanInput body page scan entry = .ok { scan with inputGap := true } := by
      rw [PageScan.scanInput, dead entry (List.mem_cons_self ..)]
      rfl
    rw [foldlM_cons_eq_ok]
    refine ⟨_, step, ?_⟩
    cases rest with
    | nil => rfl
    | cons => exact ih (fun other among => dead other (List.mem_cons_of_mem _ among)) (by simp)

/-- The page of a closing call. -/
def closingBody (epochAnchor : Digest) (fee : U64) (inputOwner : Address) (input : TxInput)
    (output : TxOutput) : TxBody where
  epochAnchor := epochAnchor
  fee := fee
  inputOwner := inputOwner
  inputs := (Vector.replicate txInputs TxInput.dummy).set 0 input txInputs_pos
  outputs := #v[output, .dummy]
  validityBitmap := ObjectOpening.callBitmap ||| pagedSpendTerminalBit
  isCoinbase := false

section Closing

variable {epochAnchor : Digest} {fee : U64} {inputOwner : Address} {input : TxInput}
  {output : TxOutput}

theorem enumerate_closing_inputs :
    TxBody.enumerate (closingBody epochAnchor fee inputOwner input output).inputs =
      [(0, input), (1, .dummy), (2, .dummy), (3, .dummy), (4, .dummy), (5, .dummy), (6, .dummy),
        (7, .dummy)] := rfl

theorem enumerate_closing_outputs :
    TxBody.enumerate (closingBody epochAnchor fee inputOwner input output).outputs =
      [(0, output), (1, .dummy)] := rfl

theorem closing_inputIsLive {index : Nat} (inside : index < txInputs) :
    (closingBody epochAnchor fee inputOwner input output).inputIsLive index =
      decide (index = 0) := by
  have all : ∀ index < txInputs, ((decide (index < txInputs) && ((ObjectOpening.callBitmap |||
      pagedSpendTerminalBit) &&& (1#16 <<< index)) != 0)) = decide (index = 0) := by decide
  exact all index inside

theorem closing_outputIsLive {index : Nat} (inside : index < txOutputs) :
    (closingBody epochAnchor fee inputOwner input output).outputIsLive index =
      decide (index = 0) := by
  have all : ∀ index < txOutputs, ((decide (index < txOutputs) && ((ObjectOpening.callBitmap |||
      pagedSpendTerminalBit) &&& outputBitmapBit index) != 0)) = decide (index = 0) := by decide
  exact all index inside

theorem closing_spends :
    (closingBody epochAnchor fee inputOwner input output).spends = [input] := by
  rw [TxBody.spends, TxBody.liveInputs, enumerate_closing_inputs]
  simp (disch := decide) [List.filter_cons, closing_inputIsLive]

theorem closing_mints :
    (closingBody epochAnchor fee inputOwner input output).mints = [output] := by
  rw [TxBody.mints, TxBody.liveOutputs, enumerate_closing_outputs]
  simp (disch := decide) [List.filter_cons, closing_outputIsLive]

theorem validatePageShape_closing (page : Nat) :
    validatePageShape (closingBody epochAnchor fee inputOwner input output) page = .ok () := by
  simp only [validatePageShape, enumerate_closing_inputs, enumerate_closing_outputs, bind_eq_ok,
    reject_eq_ok, forM_eq_ok]
  refine ⟨(), ?_, (), Bool.false_ne_true, (), ?_, ?_⟩
  · exact (by decide : ¬ (ObjectOpening.callBitmap ||| pagedSpendTerminalBit) &&&
      ~~~pagedSpendValidityMask ≠ 0)
  · simp [closing_inputIsLive]
  · simp [closing_outputIsLive]

theorem closing_markers :
    (TxPage.mk (closingBody epochAnchor fee inputOwner input output)).isStart = true ∧
      (TxPage.mk (closingBody epochAnchor fee inputOwner input output)).isEnd = true := by
  have marked : (((ObjectOpening.callBitmap ||| pagedSpendTerminalBit) &&& pagedSpendStartBit) != 0) =
      true ∧ (((ObjectOpening.callBitmap ||| pagedSpendTerminalBit) &&& pagedSpendEndBit) != 0) =
      true := by decide
  exact marked

/-- The scan sees the two live records and a gap after each. -/
theorem scanPage_closing (page : Nat) :
    PageScan.scanPage .start (⟨closingBody epochAnchor fee inputOwner input output⟩, page) = .ok
      { inputSlots := [input.slotIndex], outputSlots := [output.slotIndex], liveInputs := 1,
        liveOutputs := 1, inputSum := toBlock128 input.amount,
        outputSum := toBlock128 output.amount, inputGap := true, outputGap := true } := by
  have spent : PageScan.scanInput (closingBody epochAnchor fee inputOwner input output) page .start
      (0, input) = .ok { PageScan.start with
        inputSlots := [input.slotIndex], liveInputs := 1, inputSum := toBlock128 input.amount } := by
    simp [PageScan.scanInput, closing_inputIsLive, PageScan.start, maxPagedSpendInputs]
  have minted (scan : PageScan) (fresh : scan.outputSlots = []) (none : scan.liveOutputs = 0)
      (zero : scan.outputSum = 0) (dense : scan.outputGap = false) :
      PageScan.scanOutput (closingBody epochAnchor fee inputOwner input output) page scan
        (0, output) = .ok { scan with
          outputSlots := [output.slotIndex], liveOutputs := 1,
          outputSum := toBlock128 output.amount } := by
    simp [PageScan.scanOutput, closing_outputIsLive, fresh, none, zero, dense, maxPagedSpendOutputs,
      maxPagedSpendPages]
  have dead (scan : PageScan) :
      PageScan.scanOutput (closingBody epochAnchor fee inputOwner input output) page scan
        (1, .dummy) = .ok { scan with outputGap := true } := by
    rw [PageScan.scanOutput, closing_outputIsLive (by decide)]
    rfl
  rw [PageScan.scanPage, enumerate_closing_inputs, enumerate_closing_outputs]
  refine bind_eq_ok.mpr ⟨_, foldlM_cons_eq_ok.mpr ⟨_, spent, scanInputs_dead ?_ (by simp)⟩, ?_⟩
  · simp (disch := decide) [closing_inputIsLive]
  · exact foldlM_cons_eq_ok.mpr ⟨_, minted _ rfl rfl rfl rfl,
      foldlM_cons_eq_ok.mpr ⟨_, dead _, rfl⟩⟩

theorem validatePagedSpend_closing (hashes : TxHashes)
    (apart : output.slotIndex ≠ input.slotIndex)
    (balance : output.amount.toNat + fee.toNat = input.amount.toNat) :
    ∃ facts, validatePagedSpend hashes
      [⟨closingBody epochAnchor fee inputOwner input output⟩] = .ok facts := by
  have total : checkedAdd (toBlock128 output.amount) (toBlock128 fee) =
      some (toBlock128 input.amount) := by
    rw [checkedAdd_eq_some]
    simpa only [PageScan.toNat_toBlock128 (by decide : (64 : Nat) ≤ 128)] using balance
  have agreed : validatePageAgreement ⟨closingBody epochAnchor fee inputOwner input output⟩ 1 0
      ⟨closingBody epochAnchor fee inputOwner input output⟩ = .ok () := by
    simp [validatePageAgreement]
  have disjoint : [input.slotIndex].find? (· ∈ [output.slotIndex]) = none := by
    simpa using apart.symm
  refine ⟨{
    logicalTxid := hashPagedSpendUnchecked hashes [⟨closingBody epochAnchor fee inputOwner input output⟩]
    inputOwner, epochAnchor, fee, liveInputs := 1, liveOutputs := 1
    inputSum := toBlock128 input.amount, outputSum := toBlock128 output.amount }, ?_⟩
  simp only [validatePagedSpend, bind_eq_ok]
  refine ⟨(), rfl, (), ?_, _, rfl, _, rfl, (), ?_, (), ?_, (), ?_, _,
    foldlM_cons_eq_ok.mpr ⟨_, scanPage_closing 0, rfl⟩, (), rfl, (), ?_, (), ?_, _,
    okOr_eq_ok.mpr total, (), ?_, rfl⟩
  · simpa using validatePageShape_closing 0
  · simp [closing_markers]
  · simp [closing_markers]
  · simpa using agreed
  · rw [rejectSome_eq_ok]
    exact disjoint
  · simp [requiredPages]
  · simp

end Closing

/-! ## Applications -/

/-- The application constructors with their terms. -/
inductive Application where
  | refundablePayment (payer payee : Address) (expiryHeight maxFee : U64)
  | timelockedVault (owner : Address) (unlockHeight maxFee : U64)
  | allowanceWallet (spendingKey recoveryKey : Address) (payoutRecipient : Option Address)
      (recoverAt maxFee maxPayout minRetained : U64)
  | periodBudgetWallet (spendingKey recoveryKey : Address) (payoutRecipient : Option Address)
      (terms : PeriodBudget)
  | recurringPayment (payer payee : Address) (terms : RecurringPayment)
  | trancheVesting (beneficiary : Address) (terms : TrancheVesting)

namespace Application

/-- The opening an application starts with, if its terms are accepted. -/
def opening : Application → Except ScheduleError ObjectOpening
  | .refundablePayment payer payee expiryHeight maxFee =>
    .ok (ParanoidChain.refundablePayment payer payee expiryHeight maxFee)
  | .timelockedVault owner unlockHeight maxFee =>
    .ok (ParanoidChain.timelockedVault owner unlockHeight maxFee)
  | .allowanceWallet spendingKey recoveryKey payoutRecipient recoverAt maxFee maxPayout minRetained =>
    .ok (ParanoidChain.allowanceWallet spendingKey recoveryKey payoutRecipient recoverAt maxFee
      maxPayout minRetained)
  | .periodBudgetWallet spendingKey recoveryKey payoutRecipient terms =>
    ParanoidChain.periodBudgetWallet spendingKey recoveryKey payoutRecipient terms
  | .recurringPayment payer payee terms => ParanoidChain.recurringPayment payer payee terms
  | .trancheVesting beneficiary terms => ParanoidChain.trancheVesting beneficiary terms

/-- The height from which on the funds can be recovered. -/
def deadline : Application → U64
  | .refundablePayment _ _ expiryHeight _ => expiryHeight
  | .timelockedVault _ unlockHeight _ => unlockHeight
  | .allowanceWallet _ _ _ recoverAt _ _ _ => recoverAt
  | .periodBudgetWallet _ _ _ terms => terms.recoverAt
  | .recurringPayment _ _ terms => terms.recoverAt
  | .trancheVesting _ terms => terms.matureAt

/-- Who recovers them. -/
def recoverer : Application → Address
  | .refundablePayment payer _ _ _ => payer
  | .timelockedVault owner _ _ => owner
  | .allowanceWallet _ recoveryKey _ _ _ _ _ => recoveryKey
  | .periodBudgetWallet _ recoveryKey _ _ => recoveryKey
  | .recurringPayment payer _ _ => payer
  | .trancheVesting beneficiary _ => beneficiary

def maxFee : Application → U64
  | .refundablePayment _ _ _ maxFee => maxFee
  | .timelockedVault _ _ maxFee => maxFee
  | .allowanceWallet _ _ _ _ maxFee _ _ => maxFee
  | .periodBudgetWallet _ _ _ terms => terms.maxFee
  | .recurringPayment _ _ terms => terms.maxFee
  | .trancheVesting _ terms => terms.maxFee

/-- The instructions installed over the idle program. -/
def instructions : Application → List Instruction
  | .periodBudgetWallet _ _ _ terms => periodBudgetProgram terms
  | .recurringPayment _ _ terms => recurringPaymentProgram terms
  | .trancheVesting _ terms => trancheVestingProgram terms
  | _ => []

/-- Whether the claimant may close before the deadline. -/
def isRefundable : Application → Bool
  | .refundablePayment .. => true
  | _ => false

end Application

theorem keepState_holds : Holds keepState [] :=
  ⟨programSteps, by simp [keepState, Instruction.toFields_idle]⟩

/-- What the openings of one application have in common. -/
structure Application.Opens (application : Application) (opening : ObjectOpening) : Prop where
  program : Holds opening.program application.instructions
  deadline : opening.deadline = application.deadline
  recipient : opening.recoveryRecipient = application.recoverer
  maxFee : opening.rules.maxFee = application.maxFee
  known : opening.rules.modes &&& ~~~validModes = 0
  recovery : opening.rules.permits false true = true
  claim : opening.rules.permits true true = application.isRefundable

namespace Application.Opens

variable {hashes : TxHashes} {application : Application} {opening last : ObjectOpening}
  {calls : List Call}

/-- The modes of an allowance wallet: recovery may close, the claimant may not. -/
theorem allowance_modes (anyRecipient : Bool) :
    let modes := claimContinue ||| recoveryClose ||| if anyRecipient then anyPayoutRecipient else 0
    modes &&& ~~~validModes = 0 ∧ ((modes &&& recoveryClose) != 0) = true ∧
      ((modes &&& claimClose) != 0) = false := by
  cases anyRecipient <;> decide

/-- Every accepted set of terms gives such an opening. -/
theorem built (accepted : application.opening = .ok opening) : application.Opens opening := by
  cases application with
  | refundablePayment payer payee expiryHeight maxFee =>
    obtain rfl := Except.ok.inj accepted
    obtain ⟨known, recovery, claim⟩ : (claimClose ||| recoveryClose) &&& ~~~validModes = 0 ∧
        (((claimClose ||| recoveryClose) &&& recoveryClose) != 0) = true ∧
        (((claimClose ||| recoveryClose) &&& claimClose) != 0) = true := by decide
    exact ⟨keepState_holds, rfl, rfl, rfl, known, recovery, claim⟩
  | timelockedVault owner unlockHeight maxFee =>
    obtain rfl := Except.ok.inj accepted
    obtain ⟨known, recovery, claim⟩ : recoveryClose &&& ~~~validModes = 0 ∧
        ((recoveryClose &&& recoveryClose) != 0) = true ∧
        ((recoveryClose &&& claimClose) != 0) = false := by decide
    exact ⟨keepState_holds, rfl, rfl, rfl, known, recovery, claim⟩
  | allowanceWallet spendingKey recoveryKey payoutRecipient recoverAt maxFee maxPayout minRetained =>
    obtain rfl := Except.ok.inj accepted
    obtain ⟨known, recovery, claim⟩ := allowance_modes payoutRecipient.isNone
    exact ⟨keepState_holds, rfl, rfl, rfl, known, recovery, claim⟩
  | periodBudgetWallet spendingKey recoveryKey payoutRecipient terms =>
    obtain ⟨holds, -⟩ := periodBudgetWallet_built accepted
    obtain ⟨known, recovery, claim⟩ := allowance_modes payoutRecipient.isNone
    simp only [Application.opening, ParanoidChain.periodBudgetWallet, bind_eq_ok, pure_eq_ok] at accepted
    obtain ⟨-, -, -, -, -, -, rfl⟩ := accepted
    exact ⟨holds, rfl, rfl, rfl, known, recovery, claim⟩
  | recurringPayment payer payee terms =>
    obtain ⟨holds, -⟩ := recurringPayment_built accepted
    obtain ⟨known, recovery, claim⟩ := allowance_modes false
    simp only [Application.opening, ParanoidChain.recurringPayment, bind_eq_ok, pure_eq_ok] at accepted
    obtain ⟨-, -, -, -, rfl⟩ := accepted
    exact ⟨holds, rfl, rfl, rfl, known, recovery, claim⟩
  | trancheVesting beneficiary terms =>
    obtain ⟨holds, -⟩ := trancheVesting_built accepted
    obtain ⟨known, recovery, claim⟩ := allowance_modes false
    simp only [Application.opening, ParanoidChain.trancheVesting, bind_eq_ok, pure_eq_ok] at accepted
    obtain ⟨-, -, -, -, rfl⟩ := accepted
    exact ⟨holds, rfl, rfl, rfl, known, recovery, claim⟩

theorem successor (opens : application.Opens opening) (next : Block128) :
    application.Opens (opening.successor next) :=
  { opens with }

/-- Along a history only the packed state changes. -/
theorem run (opens : application.Opens opening) (calls : CallRun hashes opening calls last) :
    application.Opens last := by
  induction calls with
  | nil => exact opens
  | cons _ _ _ ih => exact ih (opens.successor _)

/-- Such an opening is valid. -/
theorem valid (opens : application.Opens opening) : opening.validate = .ok () := by
  obtain ⟨padding, stored⟩ := opens.program
  rw [ObjectOpening.validate, bind_eq_ok]
  refine ⟨(), by simpa [ObjectRules.validate] using opens.known, ?_⟩
  rw [forM_eq_ok, stored]
  intro entry member
  rw [List.zipIdx_map] at member
  obtain ⟨decoded, -, rfl⟩ := List.mem_map.mp member
  simp [Instruction.fromFields_toFields]

end Application.Opens

/-! ## Recovery -/

/-- After the deadline no installed instruction can stop: those that compute are switched off. -/
theorem Application.recovery_runs (application : Application) (context : Context)
    (after : context.beforeDeadline = false) (state0 state1 : U64) :
    ∃ final, IntegerProgram.run context application.instructions 0
      { state0, state1, scratch0 := 0, scratch1 := 0 } = .ok final := by
  cases application with
  | refundablePayment | timelockedVault | allowanceWallet => exact ⟨_, rfl⟩
  | periodBudgetWallet spendingKey recoveryKey payoutRecipient terms =>
    refine ⟨{ state0, state1, scratch0 := 1, scratch1 := 0 }, ?_⟩
    simp [instructions, periodBudgetProgram, Instruction.new, Instruction.onlyWhen, Predicate.not,
      Predicate.beforeDeadline, Predicate.always, IntegerProgram.stepInstruction,
      Context.predicates, after, fromBool, Context.operands, Registers.get, Registers.set]
  | recurringPayment payer payee terms =>
    refine ⟨{ state0, state1, scratch0 := 0, scratch1 := 0 }, ?_⟩
    simp [instructions, recurringPaymentProgram, Instruction.new, Instruction.onlyWhen,
      Predicate.beforeDeadline, IntegerProgram.stepInstruction, Context.predicates, after, fromBool]
  | trancheVesting beneficiary terms =>
    refine ⟨{ state0, state1, scratch0 := 0, scratch1 := 0 }, ?_⟩
    simp [instructions, trancheVestingProgram, Instruction.new, Instruction.onlyWhen,
      Predicate.beforeDeadline, IntegerProgram.stepInstruction, Context.predicates, after, fromBool]

section Recover

variable {hashes : TxHashes} {application : Application} {opening : ObjectOpening}

section

variable (opens : application.Opens opening)
include opens

theorem Application.Opens.executes (body : TxBody) {height : U64}
    (after : opening.deadline ≤ height) :
    ∃ next, opening.execute body height = .ok next := by
  obtain ⟨final, ran⟩ := application.recovery_runs
    (Context.fromBody body height opening.deadline)
    (decide_eq_false (BitVec.not_lt.mpr after)) opening.registers.1 opening.registers.2
  refine ⟨IntegerProgram.packState final.state0 final.state1, ?_⟩
  rw [ObjectOpening.execute, bind_eq_ok]
  refine ⟨(), opens.valid, ?_⟩
  rw [mapError_ok_iff, execute_holds opens.program]
  exact ⟨final, ran, rfl⟩

/-- The recovery call is accepted. -/
theorem Application.Opens.checkCall_closing {height fee : U64} (after : opening.deadline ≤ height)
    (cheap : fee ≤ opening.rules.maxFee) {epochAnchor : Digest} {input : TxInput}
    {output : TxOutput} (apart : output.slotIndex ≠ input.slotIndex)
    (balance : output.amount.toNat + fee.toNat = input.amount.toNat)
    (owner : output.owner = opening.recoveryRecipient) :
    ∃ checked, opening.checkCall hashes
      ⟨closingBody epochAnchor fee (opening.root hashes) input output⟩ height = .ok checked := by
  obtain ⟨facts, valid⟩ : ∃ facts, validatePagedSpend hashes
      [⟨closingBody epochAnchor fee (opening.root hashes) input output⟩] = .ok facts :=
    validatePagedSpend_closing hashes apart balance
  obtain ⟨next, executed⟩ := opens.executes
    (closingBody epochAnchor fee (opening.root hashes) input output) after
  have terminal : ObjectOpening.isTerminalCall
      (closingBody epochAnchor fee (opening.root hashes) input output) = true := by
    have marked : (((ObjectOpening.callBitmap ||| pagedSpendTerminalBit) &&&
      pagedSpendTerminalBit) != 0) = true := by decide
    exact marked
  have late : ¬ height < opening.deadline := BitVec.not_lt.mpr after
  have permitted : opening.rules.permits (decide (height < opening.deadline)) true ≠ false := by
    rw [decide_eq_false late, opens.recovery]
    exact Bool.noConfusion
  have paid : output.owner = opening.recipientAt height := by
    rw [ObjectOpening.recipientAt, if_neg late, owner]
  refine ⟨{
    next, contexts := transactionContexts
      (closingBody epochAnchor fee (opening.root hashes) input output)
    authority := opening.authorityAt height, terminal := true }, ?_⟩
  simp only [ObjectOpening.checkCall, bind_eq_ok, reject_eq_ok, mapError_ok_iff, terminal, if_true,
    ObjectOpening.checkContinuing, ObjectOpening.checkOutputZero]
  refine ⟨(), opens.valid, facts, valid, (), ?_, (), not_not.mpr rfl, (), permitted, (),
    BitVec.not_lt.mpr cheap, (), trivial, next, executed, (), not_not.mpr paid, rfl⟩
  rintro (coinbase | shape)
  · exact Bool.false_ne_true coinbase
  · exact shape rfl

/-- The page under construction is the closing page. -/
theorem buildCall_closing {height fee : U64} (after : opening.deadline ≤ height)
    (cheap : fee ≤ opening.rules.maxFee) (epochAnchor : Digest) {input : TxInput}
    (covered : fee ≤ input.amount) {outputSlot : U32} (apart : outputSlot ≠ input.slotIndex) :
    opening.buildCall hashes input outputSlot fee epochAnchor height true =
      .ok ⟨closingBody epochAnchor fee (opening.root hashes) input
        ⟨outputSlot, input.amount - fee, opening.recoveryRecipient⟩⟩ := by
  have left : (input.amount - fee).toNat + fee.toNat = input.amount.toNat := by bv_omega
  have retained : ObjectOpening.retainedAmount input fee none = some (input.amount - fee) := by
    rw [ObjectOpening.retainedAmount, bind_eq_some]
    exact ⟨input.amount - fee, checkedSub_eq_some.mpr left.symm, checkedSub_eq_some.mpr rfl⟩
  obtain ⟨checked, accepted⟩ : ∃ checked, opening.checkCall hashes
      ⟨closingBody epochAnchor fee (opening.root hashes) input
        ⟨outputSlot, input.amount - fee, opening.recoveryRecipient⟩⟩ height = .ok checked :=
    opens.checkCall_closing after cheap apart left rfl
  have owner : opening.recipientAt height = opening.recoveryRecipient := by
    rw [ObjectOpening.recipientAt, if_neg (BitVec.not_lt.mpr after)]
  simp only [ObjectOpening.buildCall, ObjectOpening.buildCallInner, bind_eq_ok, okOr_eq_ok,
    mapError_ok_iff]
  refine ⟨(), opens.valid, _, retained, _, rfl, ⟨closingBody epochAnchor fee (opening.root hashes)
    input ⟨outputSlot, input.amount - fee, opening.recoveryRecipient⟩⟩, ?_, checked, accepted, rfl⟩
  rw [TxPage.new, owner, bind_eq_ok]
  exact ⟨(), validatePageShape_closing 0, rfl⟩

/-- A closing call before the deadline needs the mode that only a refundable payment has. -/
theorem Application.Opens.continuing (locked : application.isRefundable = false) {page : TxPage}
    {height : U64} (before : height < opening.deadline) {checked : CheckedTransition}
    (accepted : opening.checkCall hashes page height = .ok checked) : checked.terminal = false := by
  simp only [ObjectOpening.checkCall, bind_eq_ok, reject_eq_ok, pure_eq_ok] at accepted
  obtain ⟨-, -, -, -, -, -, -, -, -, permitted, -, -, -, -, -, -, -, -, rfl⟩ := accepted
  by_contra closes
  have terminal : ObjectOpening.isTerminalCall page.body = true := Bool.not_eq_false _ ▸ closes
  rw [decide_eq_true before, terminal, opens.claim, locked] at permitted
  exact permitted rfl

end

end Recover

/-- **Recovery is never blocked.** Whatever calls an application has seen, from its deadline on the
closing call is built for every input that covers the fee, and pays the rest to the recoverer.
Before the deadline only a refundable payment can be closed. -/
theorem recovery_never_blocked {hashes : TxHashes} {application : Application}
    {opening last : ObjectOpening} {calls : List Call}
    (accepted : application.opening = .ok opening) (run : CallRun hashes opening calls last) :
    (∀ (input : TxInput) (outputSlot : U32) (fee height : U64) (epochAnchor : Digest),
      application.deadline ≤ height → fee ≤ input.amount → fee ≤ application.maxFee →
      outputSlot ≠ input.slotIndex →
      ∃ page, last.buildCall hashes input outputSlot fee epochAnchor height true = .ok page ∧
        page.body.spends = [input] ∧
        page.body.mints = [⟨outputSlot, input.amount - fee, application.recoverer⟩]) ∧
    (application.isRefundable = false → ∀ (page : TxPage) (height : U64) (checked : CheckedTransition),
      height < application.deadline → last.checkCall hashes page height = .ok checked →
      checked.terminal = false) := by
  have opens := (Application.Opens.built accepted).run run
  refine ⟨fun input outputSlot fee height epochAnchor after covered cheap apart => ?_,
    fun locked page height checked before closing => ?_⟩
  · rw [← opens.deadline] at after
    rw [← opens.maxFee] at cheap
    rw [← opens.recipient]
    exact ⟨_, buildCall_closing opens after cheap epochAnchor covered apart, closing_spends,
      closing_mints⟩
  · rw [← opens.deadline] at before
    exact opens.continuing locked before closing

/-- A budget wallet that has made two payments is recovered at its deadline, height 50. -/
theorem recovery_after_payments :
    ∃ (opening last : ObjectOpening) (calls : List Call) (page : TxPage),
      periodBudgetWallet ⟨11⟩ ⟨12⟩ (some ⟨13⟩) ⟨10, 5, 100, 50, 10, 60, 0⟩ = .ok opening ∧
      CallRun .sample opening calls last ∧ calls.map Call.height = [12, 16] ∧
      last.buildCall .sample ⟨4, 910, 2⟩ 6 5 0 50 true = .ok page ∧
      page.body.mints = [⟨6, 905, ⟨12⟩⟩] := by
  have ran : ((periodBudgetWallet ⟨11⟩ ⟨12⟩ (some ⟨13⟩)
        ⟨10, 5, 100, 50, 10, 60, 0⟩).toOption.any fun opening =>
      (paymentCalls ⟨13⟩ 1000 opening [12, 16]).isSome) = true := by
    decide +kernel
  simp only [Option.any_eq_true, Option.isSome_iff_exists, toOption_eq_some] at ran
  obtain ⟨opening, built, ⟨calls, last⟩, ran⟩ := ran
  obtain ⟨run, heights⟩ := CallRun.of_payments ran
  have opens : (Application.periodBudgetWallet ⟨11⟩ ⟨12⟩ (some ⟨13⟩)
    ⟨10, 5, 100, 50, 10, 60, 0⟩).opening = .ok opening := built
  obtain ⟨page, closes, -, pays⟩ := (recovery_never_blocked opens run).1 ⟨4, 910, 2⟩ 6 5 50 0
    (by decide) (by decide) (by decide) (by decide)
  exact ⟨opening, last, calls, page, built, run, heights, closes, pays⟩

end ParanoidChain
