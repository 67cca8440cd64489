import ParanoidChain.Tx.PagedSpend

/-!
# Bounded integer programs

The contract language: sixteen committed instructions over two persistent and two scratch registers,
run once, in order, with no jump. An instruction is stored as two field lanes; `Instruction.toFields`
and `Instruction.fromFields` are the codec, and `execute` decodes as it goes.

The code indexes fixed tables by the discriminants of its enumerations. Here the tables of operands
and predicates are functions on the enumerations, and the discriminants appear only in the codec.
-/

namespace ParanoidChain

open Lib

/-- `PROGRAM_STEPS`. -/
abbrev programSteps : Nat := 16
def instructionBits : Nat := 20

inductive Register where
  | state0
  | state1
  | scratch0
  | scratch1
  deriving DecidableEq, Repr

inductive Operand where
  | state0
  | state1
  | scratch0
  | scratch1
  | immediate
  | height
  | fee
  | payout
  | retained
  | inputAmount
  | beforeDeadline
  | terminal
  | hasPayout
  | zero
  | one
  | afterDeadline
  | payoutOwner0
  | payoutOwner1
  | payoutOwner2
  | payoutOwner3
  | inputCreationId
  | inputSlot
  | retainedSlot
  | payoutSlot
  deriving DecidableEq, Repr

inductive Opcode where
  | keep
  | move
  | add
  | subtract
  | min
  | max
  | lessThan
  | equal
  | assertEqual
  | assertLessOrEqual
  deriving DecidableEq, Repr

inductive PredicateSource where
  | always
  | beforeDeadline
  | terminal
  | hasPayout
  | scratch0
  | scratch1
  deriving DecidableEq, Repr

/-! ## Discriminants

`all` lists the constructors in declaration order; the discriminant is the position. -/

def Register.all : List Register := [.state0, .state1, .scratch0, .scratch1]

def Operand.all : List Operand :=
  [.state0, .state1, .scratch0, .scratch1, .immediate, .height, .fee, .payout, .retained,
   .inputAmount, .beforeDeadline, .terminal, .hasPayout, .zero, .one, .afterDeadline,
   .payoutOwner0, .payoutOwner1, .payoutOwner2, .payoutOwner3, .inputCreationId, .inputSlot,
   .retainedSlot, .payoutSlot]

def Opcode.all : List Opcode :=
  [.keep, .move, .add, .subtract, .min, .max, .lessThan, .equal, .assertEqual, .assertLessOrEqual]

def PredicateSource.all : List PredicateSource :=
  [.always, .beforeDeadline, .terminal, .hasPayout, .scratch0, .scratch1]

def Register.code (register : Register) : Nat := Register.all.idxOf register
def Operand.code (operand : Operand) : Nat := Operand.all.idxOf operand
def Opcode.code (opcode : Opcode) : Nat := Opcode.all.idxOf opcode
def PredicateSource.code (source : PredicateSource) : Nat := PredicateSource.all.idxOf source

/-- The condition under which an instruction runs. -/
structure Predicate where
  source : PredicateSource
  inverted : Bool
  deriving DecidableEq, Repr

namespace Predicate

/-- `Predicate::ALWAYS`. -/
def always : Predicate := ⟨.always, false⟩

/-- `Predicate::BEFORE_DEADLINE`. -/
def beforeDeadline : Predicate := ⟨.beforeDeadline, false⟩

def not (predicate : Predicate) : Predicate := { predicate with inverted := !predicate.inverted }

end Predicate

structure Instruction where
  opcode : Opcode
  destination : Register
  left : Operand
  right : Operand
  predicate : Predicate
  immediate : U64
  deriving DecidableEq, Repr

namespace Instruction

/-- An unconditional instruction. -/
def new (opcode : Opcode) (destination : Register) (left right : Operand) (immediate : U64) :
    Instruction :=
  { opcode, destination, left, right, predicate := .always, immediate }

/-- `Instruction::when`. -/
def onlyWhen (instruction : Instruction) (predicate : Predicate) : Instruction :=
  { instruction with predicate }

/-- The 20-bit descriptor of an instruction. -/
def descriptor (instruction : Instruction) : Nat :=
  instruction.opcode.code ||| (instruction.destination.code <<< 4) |||
    (instruction.left.code <<< 6) ||| (instruction.right.code <<< 11) |||
    (instruction.predicate.source.code <<< 16) ||| (instruction.predicate.inverted.toNat <<< 19)

/-- The two committed lanes: descriptor and immediate. -/
def toFields (instruction : Instruction) : Block128 × Block128 :=
  (BitVec.ofNat 128 instruction.descriptor, toBlock128 instruction.immediate)

/-- Decode two lanes; reserved codes and oversized lanes are refused. -/
def fromFields (fields : Block128 × Block128) : Option Instruction := do
  let word := fields.1.toNat
  if word >>> instructionBits ≠ 0 ∨ 2 ^ 64 - 1 < fields.2.toNat then
    none
  else
    return {
      opcode := ← Opcode.all[word &&& 15]?
      destination := ← Register.all[(word >>> 4) &&& 3]?
      left := ← Operand.all[(word >>> 6) &&& 31]?
      right := ← Operand.all[(word >>> 11) &&& 31]?
      predicate := {
        source := ← PredicateSource.all[(word >>> 16) &&& 7]?
        inverted := decide (word &&& (1 <<< 19) ≠ 0) }
      immediate := fields.2.setWidth 64 }

end Instruction

/-- A committed program. -/
abbrev Program := Vector (Block128 × Block128) programSteps

/-! ## Execution -/

/-- The values an enclosing transition supplies. -/
structure Context where
  height : U64
  fee : U64
  payout : U64
  retained : U64
  inputAmount : U64
  beforeDeadline : Bool
  terminal : Bool
  hasPayout : Bool
  payoutOwner : Vector U64 4
  inputCreationId : U64
  inputSlot : U32
  retainedSlot : U32
  payoutSlot : U32
  deriving DecidableEq, Repr

/-- The register file. -/
structure Registers where
  state0 : U64
  state1 : U64
  scratch0 : U64
  scratch1 : U64
  deriving DecidableEq, Repr

namespace Registers

def get (registers : Registers) : Register → U64
  | .state0 => registers.state0
  | .state1 => registers.state1
  | .scratch0 => registers.scratch0
  | .scratch1 => registers.scratch1

def set (registers : Registers) (value : U64) : Register → Registers
  | .state0 => { registers with state0 := value }
  | .state1 => { registers with state1 := value }
  | .scratch0 => { registers with scratch0 := value }
  | .scratch1 => { registers with scratch1 := value }

end Registers

/-- `u64::from(bool)`. -/
def fromBool (value : Bool) : U64 := if value then 1 else 0

namespace Context

/-- The values a page, its inclusion height and the object's deadline supply. -/
def fromBody (body : TxBody) (height deadline : U64) : Context where
  height := height
  fee := body.fee
  payout := body.outputs[1].amount
  retained := body.outputs[0].amount
  inputAmount := body.inputs[0].amount
  beforeDeadline := decide (height < deadline)
  terminal := (body.validityBitmap &&& pagedSpendTerminalBit) != 0
  hasPayout := (body.validityBitmap &&& outputBitmapBit 1) != 0
  payoutOwner := Vector.ofFn fun word => body.outputs[1].owner.bytes.extractLsb' (word * 64) 64
  inputCreationId := body.inputs[0].creationId
  inputSlot := body.inputs[0].slotIndex
  retainedSlot := body.outputs[0].slotIndex
  payoutSlot := body.outputs[1].slotIndex

def operands (context : Context) (registers : Registers) (immediate : U64) : Operand → U64
  | .state0 => registers.state0
  | .state1 => registers.state1
  | .scratch0 => registers.scratch0
  | .scratch1 => registers.scratch1
  | .immediate => immediate
  | .height => context.height
  | .fee => context.fee
  | .payout => context.payout
  | .retained => context.retained
  | .inputAmount => context.inputAmount
  | .beforeDeadline => fromBool context.beforeDeadline
  | .terminal => fromBool context.terminal
  | .hasPayout => fromBool context.hasPayout
  | .zero => 0
  | .one => 1
  | .afterDeadline => fromBool (!context.beforeDeadline)
  | .payoutOwner0 => context.payoutOwner[0]
  | .payoutOwner1 => context.payoutOwner[1]
  | .payoutOwner2 => context.payoutOwner[2]
  | .payoutOwner3 => context.payoutOwner[3]
  | .inputCreationId => context.inputCreationId
  | .inputSlot => context.inputSlot.setWidth 64
  | .retainedSlot => context.retainedSlot.setWidth 64
  | .payoutSlot => context.payoutSlot.setWidth 64

def predicates (context : Context) (registers : Registers) : PredicateSource → U64
  | .always => 1
  | .beforeDeadline => fromBool context.beforeDeadline
  | .terminal => fromBool context.terminal
  | .hasPayout => fromBool context.hasPayout
  | .scratch0 => registers.scratch0
  | .scratch1 => registers.scratch1

end Context

inductive ProgramError where
  | encoding (step : Nat)
  | nonBooleanPredicate (step : Nat)
  | overflow (step : Nat)
  | underflow (step : Nat)
  | assertion (step : Nat)
  deriving DecidableEq, Repr

namespace IntegerProgram

/-- Every instruction decodes. -/
def validate (program : Program) : Except ProgramError Unit :=
  forM program.toList.zipIdx fun (fields, step) => do
    let _ ← okOr (.encoding step) (Instruction.fromFields fields)

def unpackState (state : Block128) : U64 × U64 := unpackAmountCreationId state

def packState (state0 state1 : U64) : Block128 := packAmountCreationId state0 state1

/-- The value an opcode writes to its destination, or the fault it stops with. -/
def result (step : Nat) (opcode : Opcode) (current left right : U64) : Except ProgramError U64 :=
  match opcode with
  | .keep => return current
  | .move => return left
  | .add => okOr (.overflow step) (checkedAdd left right)
  | .subtract => okOr (.underflow step) (checkedSub left right)
  | .min => return if left ≤ right then left else right
  | .max => return if left ≤ right then right else left
  | .lessThan => return fromBool (decide (left < right))
  | .equal => return fromBool (decide (left = right))
  | .assertEqual => do
    reject (left ≠ right) (.assertion step)
    return current
  | .assertLessOrEqual => do
    reject (right < left) (.assertion step)
    return current

/-- One instruction: its predicate, then its opcode. -/
def stepInstruction (context : Context) (registers : Registers) (step : Nat)
    (instruction : Instruction) : Except ProgramError Registers := do
  let predicate := context.predicates registers instruction.predicate.source
  reject (1 < predicate) (.nonBooleanPredicate step)
  if (predicate == 1) == instruction.predicate.inverted then
    return registers
  else
    let operands := context.operands registers instruction.immediate
    let value ← result step instruction.opcode (registers.get instruction.destination)
      (operands instruction.left) (operands instruction.right)
    return registers.set value instruction.destination

/-- One stored instruction; it decodes, the program being validated. -/
def stepFields (context : Context) (registers : Registers) (entry : (Block128 × Block128) × Nat) :
    Except ProgramError Registers := do
  let instruction ← okOr (.encoding entry.2) (Instruction.fromFields entry.1)
  stepInstruction context registers entry.2 instruction

/-- Run a program on a packed state. -/
def execute (program : Program) (current : Block128) (context : Context) :
    Except ProgramError Block128 := do
  validate program
  let state := unpackState current
  let registers ← program.toList.zipIdx.foldlM (stepFields context)
    { state0 := state.1, state1 := state.2, scratch0 := 0, scratch1 := 0 }
  return packState registers.state0 registers.state1

end IntegerProgram

end ParanoidChain
