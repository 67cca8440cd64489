import ParanoidChain.Consensus.Work

/-!
# Fork choice

`noid_chain/src/consensus/fork_choice.rs`: the chain of more cumulative work, then the one whose tip
hash comes first. Work is compared from byte 31 down and hashes from byte 0 on.
-/

namespace ParanoidChain

open Work

/-- `ChainChoice`. -/
inductive ChainChoice where
  | a
  | b
  | equal
  deriving DecidableEq, Repr

/-- `choose_chain_by_work`: more work wins, then the smaller hash. -/
def chooseChainByWork (chainworkA hashA chainworkB hashB : Bytes256) : ChainChoice :=
  if workGt chainworkA chainworkB then .a
  else if workGt chainworkB chainworkA then .b
  else if hashA.arrayLt hashB then .a
  else if hashB.arrayLt hashA then .b
  else .equal

end ParanoidChain
