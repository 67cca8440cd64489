import ParanoidChain.Chain.SparseMerkle

/-!
# Frontier capacity

The two `const fn`s that size the frontier of a proof class. Words are numbers below `2 ^ 64`; an
operation that leaves its type and an assertion that fails give nothing, and so does a shift that
loses a bit, which the machine would not notice.
-/

namespace ParanoidChain

open Lib

/-- The loop of `maximum_sibling_count`: the least power of two that covers the leaves. -/
def coverLoop (touched : Nat) : Nat → Nat → Nat → Option (Nat × Nat)
  | 0, _, _ => none
  | fuel + 1, coveringPower, coveringDepth =>
    if coveringPower < touched then do
      let coveringPower ← mulInType 64 coveringPower 2
      let coveringDepth ← addInType 32 coveringDepth 1
      coverLoop touched fuel coveringPower coveringDepth
    else some (coveringPower, coveringDepth)

/-- `maximum_sibling_count`. Sixty-four rounds are enough for any word. -/
def maximumSiblingCount (touched depth : Nat) : Option Nat := do
  guard (depth ≤ 32)
  if touched = 0 then return 0
  guard (touched ≤ 2 ^ depth)
  let (coveringPower, coveringDepth) ← coverLoop touched 65 1 0
  let separate ← subInType depth coveringDepth
  let paths ← mulInType 64 separate touched
  let covered ← addInType 64 paths coveringPower
  subInType covered touched

/-- The segments that take one leaf more than the others. -/
def largerSegmentsCount (remainder next logSegmentSize : Nat) : Option Nat :=
  if remainder = 0 then some 0
  else do mulInType 64 remainder (← maximumSiblingCount next logSegmentSize)

/-- One round of the loop over the used segments: a balanced distribution, if it fits. -/
def balancedSiblingCount (touched logSegmentSize segmentTreeDepth usedSegments : Nat) :
    Option (Option Nat) := do
  let segmentCapacity := 2 ^ logSegmentSize
  let quotient := touched / usedSegments
  let remainder := touched % usedSegments
  let next ← addInType 64 quotient 1
  if quotient ≤ segmentCapacity ∧ (remainder = 0 ∨ next ≤ segmentCapacity) then
    let smallerSegments ← subInType usedSegments remainder
    let smaller ← mulInType 64 smallerSegments (← maximumSiblingCount quotient logSegmentSize)
    let larger ← largerSegmentsCount remainder next logSegmentSize
    let inner ← addInType 64 smaller larger
    let upper ← maximumSiblingCount usedSegments segmentTreeDepth
    let total ← addInType 64 inner upper
    return some total
  else return none

/-- `maximum_sibling_count_with_segment_cap`: the best of all legal numbers of used segments. -/
def maximumSiblingCountWithSegmentCap (touched depth logSegmentSize maxSegments : Nat) :
    Option Nat := do
  guard (depth ≤ 32)
  guard (logSegmentSize ≤ depth)
  if touched = 0 then return 0
  guard (0 < maxSegments)
  let segmentTreeDepth := depth - logSegmentSize
  let cappedSegments := min maxSegments (2 ^ segmentTreeDepth)
  guard (touched ≤ (← mulInType 64 (2 ^ logSegmentSize) cappedSegments))
  (List.range' 1 (min touched cappedSegments)).foldlM (fun maximum usedSegments => do
    let total ← balancedSiblingCount touched logSegmentSize segmentTreeDepth usedSegments
    let _ ← addInType 64 usedSegments 1
    return max maximum (total.getD 0)) 0

end ParanoidChain
