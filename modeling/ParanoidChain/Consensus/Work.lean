import ParanoidChain.Lib.LongDivision
import ParanoidChain.Lib.Wire

/-!
# Work, byte by byte

The work functions of `noid_chain/src/consensus/difficulty.rs` as they run: on 32 little-endian bytes,
with the carries, borrows and the 256 rounds of the long division.
-/

namespace ParanoidChain.Work

open Lib
open Lib.Wire (Byte)

/-- `[u8; 32]`. -/
@[ext]
structure Bytes256 where
  bytes : List Byte
  length_eq : bytes.length = 32
  deriving DecidableEq, Repr

namespace Bytes256

/-- The number read least significant byte first. -/
def toNat (self : Bytes256) : Nat := Limbs.value self.bytes

/-- `[0u8; 32]`. -/
def zero : Bytes256 := ⟨List.replicate 32 0, List.length_replicate⟩

/-- `[0xFFu8; 32]`. -/
def ones : Bytes256 := ⟨List.replicate 32 0xFF#8, List.length_replicate⟩

/-- The bytes of a 256-bit word. -/
def ofWord (word : BitVec 256) : Bytes256 := ⟨Wire.toLeBytes 32 word, Wire.length_toLeBytes word⟩

/-- The derived order of `[u8; 32]`: from byte 0 on. -/
def arrayLt (a b : Bytes256) : Bool := Limbs.lessFromTop a.bytes b.bytes

end Bytes256

/-- `le256_lt`: from byte 31 down. -/
def le256Lt (a b : Bytes256) : Bool := Limbs.lessFromTop a.bytes.reverse b.bytes.reverse

def workGt (a b : Bytes256) : Bool := le256Lt b a

def isZero256 (a : Bytes256) : Bool := a.bytes.all (· == 0)

def addWork (a b : Bytes256) : Bytes256 :=
  let sum := Limbs.addCarry 0 a.bytes b.bytes
  if sum.2 ≠ 0 then .ones
  else ⟨sum.1, (Limbs.length_addCarry (a.length_eq.trans b.length_eq.symm)).trans a.length_eq⟩

def addOneSaturating (a : Bytes256) : Bytes256 :=
  match found : Limbs.increment a.bytes with
  | none => .ones
  | some next => ⟨next, by
      have grown := Limbs.increment_eq a.bytes
      rw [found] at grown
      exact grown.1.trans a.length_eq⟩

theorem isZero256_iff (a : Bytes256) : isZero256 a = true ↔ a.toNat = 0 := by
  have general (bytes : List Byte) : bytes.all (· == 0) = true ↔ Limbs.value bytes = 0 := by
    induction bytes with
    | nil => simp
    | cons byte rest ih =>
      rw [List.all_cons, Bool.and_eq_true, ih, beq_iff_eq, Limbs.value_cons, ← BitVec.toNat_inj]
      change byte.toNat = 0 ∧ _ ↔ _
      omega
  exact general a.bytes

theorem toNat_pos_of_not_isZero256 {a : Bytes256} (other : ¬ isZero256 a = true) : 0 < a.toNat :=
  Nat.pos_of_ne_zero fun zero => other ((isZero256_iff a).2 zero)

def divU256 (numerator denominator : Bytes256) : Option Bytes256 :=
  if other : isZero256 denominator then none
  else some ⟨(Limbs.divide numerator.bytes denominator.bytes).1,
    (Limbs.divide_eq (by decide) (denominator.length_eq.trans numerator.length_eq.symm)
      (toNat_pos_of_not_isZero256 other)).1.trans numerator.length_eq⟩

theorem divU256_isSome {numerator denominator : Bytes256} (other : ¬ isZero256 denominator = true) :
    (divU256 numerator denominator).isSome := by
  simp [divU256, other]

/-- `block_work`; the target is not zero where the `expect` stands. -/
def blockWork (target : Bytes256) : Bytes256 :=
  if other : isZero256 target then .zero
  else addOneSaturating ((divU256 .ones target).get (divU256_isSome other))

/-- The work of a chain: the targets of its blocks added up, one `add_work` each. -/
def chainWork (start : Bytes256) (targets : List Bytes256) : Bytes256 :=
  targets.foldl (fun work target => addWork work (blockWork target)) start

end ParanoidChain.Work
