import ParanoidChain.Object.Applications
import ParanoidChain.Laws.Tx.Types
import Mathlib.Data.Nat.Bitwise

/-!
# Laws of the contract language

The codec is lossless (`fromFields_toFields`), so a program installed by a constructor runs as its
list of instructions (`execute_installed`); the zero padding is sixteen-fold `Keep` and changes
nothing. From there on no law mentions the encoding. Each opcode has one rule, an equivalence that says
when it succeeds and with which value; rewriting with these rules executes a program symbolically,
and the last section does so for the three schedule programs.
-/

namespace ParanoidChain

open Lib

/-! ## Codec -/

theorem Opcode.code_lt (opcode : Opcode) : opcode.code < 10 := by cases opcode <;> decide
theorem Register.code_lt (register : Register) : register.code < 4 := by
  cases register <;> decide
theorem Operand.code_lt (operand : Operand) : operand.code < 24 := by cases operand <;> decide
theorem PredicateSource.code_lt (source : PredicateSource) : source.code < 6 := by
  cases source <;> decide

theorem Opcode.all_code (opcode : Opcode) : Opcode.all[opcode.code]? = some opcode := by
  cases opcode <;> rfl
theorem Register.all_code (register : Register) : Register.all[register.code]? = some register := by
  cases register <;> rfl
theorem Operand.all_code (operand : Operand) : Operand.all[operand.code]? = some operand := by
  cases operand <;> rfl
theorem PredicateSource.all_code (source : PredicateSource) :
    PredicateSource.all[source.code]? = some source := by cases source <;> rfl

/-- Bits above a small number are added to it by `|||`. -/
theorem or_shiftLeft_eq {low : Nat} (shift high : Nat) (small : low < 2 ^ shift) :
    low ||| (high <<< shift) = low + 2 ^ shift * high := by
  rw [Nat.or_comm, Nat.shiftLeft_eq, Nat.mul_comm, ← Nat.two_pow_add_eq_or_of_lt small]
  omega

/-- Reading one field of a positional number. -/
theorem shiftRight_and_eq (word shift width : Nat) :
    (word >>> shift) &&& (2 ^ width - 1) = word / 2 ^ shift % 2 ^ width := by
  rw [Nat.and_two_pow_sub_one_eq_mod, Nat.shiftRight_eq_div_pow]

/-- Reading one bit of a positional number. -/
theorem and_bit_ne_zero (word bit : Nat) :
    word &&& (1 <<< bit) ≠ 0 ↔ word / 2 ^ bit % 2 = 1 := by
  rw [Nat.one_shiftLeft, Nat.and_two_pow, Nat.testBit_eq_decide_div_mod_eq]
  by_cases set : word / 2 ^ bit % 2 = 1 <;> simp [set]

namespace Instruction

/-- Each field fits its digits. -/
theorem codes_lt (instruction : Instruction) :
    instruction.opcode.code < 10 ∧ instruction.destination.code < 4 ∧ instruction.left.code < 24 ∧
      instruction.right.code < 24 ∧ instruction.predicate.source.code < 6 :=
  ⟨instruction.opcode.code_lt, instruction.destination.code_lt, instruction.left.code_lt,
    instruction.right.code_lt, instruction.predicate.source.code_lt⟩

/-- The descriptor is a positional number with one digit per field. -/
theorem descriptor_eq (instruction : Instruction) :
    instruction.descriptor = instruction.opcode.code + 16 * instruction.destination.code +
      64 * instruction.left.code + 2048 * instruction.right.code +
      65536 * instruction.predicate.source.code +
      524288 * instruction.predicate.inverted.toNat := by
  have codes := instruction.codes_lt
  unfold descriptor
  rw [or_shiftLeft_eq 4 _ (by omega)]
  rw [or_shiftLeft_eq 6 _ (by omega)]
  rw [or_shiftLeft_eq 11 _ (by omega)]
  rw [or_shiftLeft_eq 16 _ (by omega)]
  rw [or_shiftLeft_eq 19 _ (by omega)]
  omega

/-- Decoding an encoded instruction gives it back. -/
theorem fromFields_toFields (instruction : Instruction) :
    fromFields instruction.toFields = some instruction := by
  have codes := instruction.codes_lt
  have inverted := instruction.predicate.inverted.toNat_le
  have digits := instruction.descriptor_eq
  have word : (BitVec.ofNat 128 instruction.descriptor).toNat = instruction.descriptor := by
    rw [toNat_ofNat_of_lt (by omega)]
  have immediate : (toBlock128 instruction.immediate).toNat = instruction.immediate.toNat := by
    rw [toBlock128, BitVec.toNat_setWidth, Nat.mod_eq_of_lt (by omega)]
  have opcodeDigit : instruction.descriptor &&& 15 = instruction.opcode.code := by
    have field : instruction.descriptor &&& 15 = instruction.descriptor / 1 % 16 :=
      shiftRight_and_eq instruction.descriptor 0 4
    omega
  have destinationDigit : (instruction.descriptor >>> 4) &&& 3 = instruction.destination.code := by
    have field : (instruction.descriptor >>> 4) &&& 3 =
        instruction.descriptor / 16 % 4 := shiftRight_and_eq _ 4 2
    omega
  have leftDigit : (instruction.descriptor >>> 6) &&& 31 = instruction.left.code := by
    have field : (instruction.descriptor >>> 6) &&& 31 =
        instruction.descriptor / 64 % 32 := shiftRight_and_eq _ 6 5
    omega
  have rightDigit : (instruction.descriptor >>> 11) &&& 31 = instruction.right.code := by
    have field : (instruction.descriptor >>> 11) &&& 31 =
        instruction.descriptor / 2048 % 32 := shiftRight_and_eq _ 11 5
    omega
  have sourceDigit : (instruction.descriptor >>> 16) &&& 7 =
      instruction.predicate.source.code := by
    have field : (instruction.descriptor >>> 16) &&& 7 =
        instruction.descriptor / 65536 % 8 := shiftRight_and_eq _ 16 3
    omega
  have invertedBit : decide (instruction.descriptor &&& (1 <<< 19) ≠ 0) =
      instruction.predicate.inverted := by
    cases flag : instruction.predicate.inverted <;>
      simp only [flag, Bool.toNat_true, Bool.toNat_false, decide_eq_true_eq,
        decide_eq_false_iff_not, and_bit_ne_zero] at digits ⊢ <;> omega
  have clear : ¬ (instruction.descriptor >>> instructionBits ≠ 0 ∨
      2 ^ 64 - 1 < instruction.immediate.toNat) := by
    rw [Nat.shiftRight_eq_div_pow, instructionBits]
    omega
  simp only [fromFields, toFields, word, immediate, clear, if_false, opcodeDigit,
    destinationDigit, leftDigit, rightDigit, sourceDigit, invertedBit, Opcode.all_code,
    Register.all_code, Operand.all_code, PredicateSource.all_code, Option.bind_eq_bind,
    Option.bind_some, pure_eq_some]
  simp [toBlock128]

/-- The instruction a zero pair of lanes encodes. -/
def idle : Instruction := .new .keep .state0 .state0 .state0 0

theorem toFields_idle : idle.toFields = (0, 0) := by decide

end Instruction

/-! ## Running installed programs -/

namespace IntegerProgram

variable {context : Context} {registers final : Registers}

/-- A list of instructions run in order, the first one at position `start`. -/
def run (context : Context) (instructions : List Instruction) (start : Nat)
    (registers : Registers) : Except ProgramError Registers :=
  (instructions.zipIdx start).foldlM
    (fun registers entry => stepInstruction context registers entry.2 entry.1) registers

@[simp] theorem run_nil {start : Nat} :
    run context [] start registers = .ok final ↔ registers = final := by
  simp [run]

@[simp] theorem run_cons {instruction : Instruction} {rest : List Instruction} {start : Nat} :
    run context (instruction :: rest) start registers = .ok final ↔
      ∃ next, stepInstruction context registers start instruction = .ok next ∧
        run context rest (start + 1) next = .ok final := by
  simp [run, List.zipIdx_cons]

/-- Programs run one after the other. -/
theorem run_append {first second : List Instruction} {start : Nat} :
    run context (first ++ second) start registers = .ok final ↔
      ∃ next, run context first start registers = .ok next ∧
        run context second (start + first.length) next = .ok final := by
  simp [run, List.zipIdx_append]

/-- Padding never changes a register. -/
theorem run_idle : ∀ (count start : Nat) (registers : Registers),
    run context (List.replicate count .idle) start registers = .ok final ↔ registers = final
  | 0, _, _ => by simp
  | count + 1, start, registers => by
    have step : stepInstruction context registers start .idle = .ok registers := rfl
    simp [List.replicate_succ, step, run_idle count]

/-- A stored program runs as the instructions it encodes. -/
theorem execute_encoded {program : Program} {instructions : List Instruction}
    (stored : program.toList = instructions.map Instruction.toFields)
    {current next : Block128} :
    execute program current context = .ok next ↔
      ∃ final, run context instructions 0
          { state0 := (unpackState current).1, state1 := (unpackState current).2,
            scratch0 := 0, scratch1 := 0 } = .ok final ∧
        packState final.state0 final.state1 = next := by
  have valid : validate program = .ok () := by
    unfold validate
    rw [forM_eq_ok, stored]
    intro entry member
    rw [List.zipIdx_map] at member
    obtain ⟨decoded, -, rfl⟩ := List.mem_map.mp member
    simp [Instruction.fromFields_toFields]
  have same (registers : Registers) : program.toList.zipIdx.foldlM (stepFields context) registers =
      run context instructions 0 registers := by
    rw [stored, List.zipIdx_map, List.foldlM_map]
    unfold run
    congr 1
    funext registers entry
    simp [stepFields, Instruction.fromFields_toFields, okOr, bind, Except.bind]
  unfold execute
  simp [valid, same]

end IntegerProgram

variable {instructions : List Instruction}

/-- A constructor's program: its instructions, then padding. -/
theorem toList_installed {opening : ObjectOpening} (plain : opening.program = keepState)
    (fits : instructions.length ≤ programSteps) :
    (install opening instructions).program.toList =
      (instructions ++ List.replicate (programSteps - instructions.length) Instruction.idle).map
        Instruction.toFields := by
  apply List.ext_getElem
  · simp
    omega
  · intro index below _
    have inside : index < programSteps := by simpa using below
    by_cases early : index < instructions.length
    · simp [install, early]
    · simp [install, plain, keepState, List.getElem_append, early, Instruction.toFields_idle]

/-- A program that holds `instructions` and nothing else but padding. -/
def Holds (program : Program) (instructions : List Instruction) : Prop :=
  ∃ padding, program.toList =
    (instructions ++ List.replicate padding Instruction.idle).map Instruction.toFields

theorem install_holds {opening : ObjectOpening} (plain : opening.program = keepState)
    (fits : instructions.length ≤ programSteps) :
    Holds (install opening instructions).program instructions :=
  ⟨_, toList_installed plain fits⟩

/-- Executing such a program is running its instructions. -/
theorem execute_holds {program : Program} (holds : Holds program instructions) {context : Context}
    {current next : Block128} :
    IntegerProgram.execute program current context = .ok next ↔
      ∃ final, IntegerProgram.run context instructions 0
          { state0 := (IntegerProgram.unpackState current).1,
            state1 := (IntegerProgram.unpackState current).2,
            scratch0 := 0, scratch1 := 0 } = .ok final ∧
        IntegerProgram.packState final.state0 final.state1 = next := by
  obtain ⟨padding, stored⟩ := holds
  rw [IntegerProgram.execute_encoded stored]
  simp only [IntegerProgram.run_append, IntegerProgram.run_idle, exists_eq_right]

/-! ## Symbolic execution -/

namespace IntegerProgram

variable {context : Context} {step : Nat}

section Results

variable {current left right value : U64}

@[simp] theorem result_move :
    result step .move current left right = .ok value ↔ left = value := by simp [result]

@[simp] theorem result_add : result step .add current left right = .ok value ↔
    left.toNat + right.toNat = value.toNat := by simp [result]

@[simp] theorem result_subtract : result step .subtract current left right = .ok value ↔
    left.toNat = value.toNat + right.toNat := by simp [result]

@[simp] theorem result_lessThan : result step .lessThan current left right = .ok value ↔
    fromBool (decide (left < right)) = value := by simp [result]

/-- An assertion leaves the register as it was. -/
@[simp] theorem result_assertEqual : result step .assertEqual current left right = .ok value ↔
    left = right ∧ current = value := by simp [result]

@[simp] theorem result_assertLessOrEqual :
    result step .assertLessOrEqual current left right = .ok value ↔
      left ≤ right ∧ current = value := by simp [result]

end Results

/-- The two packed registers come back unchanged. -/
theorem unpackState_packState (state0 state1 : U64) :
    unpackState (packState state0 state1) = (state0, state1) :=
  unpack_packAmountCreationId state0 state1

section

variable (before : context.beforeDeadline = true)
include before

/-- One call of a budget wallet before its deadline: the window in force is charged. -/
theorem periodBudget_run {terms : PeriodBudget} {state0 state1 : U64} {final : Registers}
    (ran : run context (periodBudgetProgram terms) 0
      { state0, state1, scratch0 := 0, scratch1 := 0 } = .ok final) :
    terms.startHeight ≤ context.height ∧
      final.state0.toNat + (context.fee.toNat + context.payout.toNat) =
        (if context.height < state1 then state0.toNat else terms.budget.toNat) ∧
      final.state1.toNat =
        if context.height < state1 then state1.toNat
        else context.height.toNat + terms.periodBlocks.toNat := by
  by_cases inside : context.height < state1 <;>
    simp [periodBudgetProgram, Instruction.new, Instruction.onlyWhen, Predicate.not,
      Predicate.beforeDeadline, Predicate.always, stepInstruction, Context.predicates, before,
      fromBool, inside, Context.operands, Registers.get, Registers.set] at ran
  · obtain ⟨started, debit, sum, -, left, charge, rfl⟩ := ran
    simp only [inside, if_true]
    exact ⟨started, by omega, trivial⟩
  · obtain ⟨started, windowEnd, ends, debit, sum, -, left, charge, rfl⟩ := ran
    simp only [inside, if_false]
    exact ⟨started, by omega, ends.symm⟩

/-- One recurring payment: it was due, it is exact, and the next one is a period away. -/
theorem recurringPayment_run {terms : RecurringPayment} {state0 state1 : U64} {final : Registers}
    (ran : run context (recurringPaymentProgram terms) 0
      { state0, state1, scratch0 := 0, scratch1 := 0 } = .ok final) :
    state1 ≤ context.height ∧ context.payout = terms.payment ∧
      final.state0.toNat = state0.toNat + 1 ∧
      final.state1.toNat = context.height.toNat + terms.periodBlocks.toNat := by
  simp [recurringPaymentProgram, Instruction.new, Instruction.onlyWhen,
    Predicate.beforeDeadline, stepInstruction, Context.predicates, before,
    fromBool, Context.operands, Registers.get, Registers.set] at ran
  obtain ⟨due, exact, count, counted, next, later, rfl⟩ := ran
  exact ⟨due, exact, counted.symm, later.symm⟩

/-- One released tranche: it was unlocked, it is exact, and the grid moves on by one period. -/
theorem trancheVesting_run {terms : TrancheVesting} {state0 state1 : U64} {final : Registers}
    (ran : run context (trancheVestingProgram terms) 0
      { state0, state1, scratch0 := 0, scratch1 := 0 } = .ok final) :
    state1 ≤ context.height ∧ context.payout = terms.trancheAmount ∧
      final.state1.toNat = state1.toNat + terms.periodBlocks.toNat := by
  simp [trancheVestingProgram, Instruction.new, Instruction.onlyWhen,
    Predicate.beforeDeadline, stepInstruction, Context.predicates, before,
    fromBool, Context.operands, Registers.get, Registers.set] at ran
  obtain ⟨unlocked, exact, released, -, next, later, rfl⟩ := ran
  exact ⟨unlocked, exact, later.symm⟩

end

end IntegerProgram

end ParanoidChain
