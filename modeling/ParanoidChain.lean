import ParanoidChain.Laws.Chain.BlockWire
import ParanoidChain.Laws.Chain.ExactFrontier
import ParanoidChain.Laws.Chain.FrontierCapacity
import ParanoidChain.Laws.Chain.FrontierPlan
import ParanoidChain.Laws.Chain.Identity
import ParanoidChain.Laws.Chain.MempoolSelection
import ParanoidChain.Laws.Chain.RootBuilders
import ParanoidChain.Laws.Chain.RootRefinement
import ParanoidChain.Laws.Chain.UpdatePaths
import ParanoidChain.Laws.Consensus.ConsensusRun
import ParanoidChain.Laws.Consensus.TargetExactness
import ParanoidChain.Laws.Consensus.Elapsed
import ParanoidChain.Laws.Consensus.EpochAnchor
import ParanoidChain.Laws.Consensus.Timestamps
import ParanoidChain.Laws.Consensus.ForkChoice
import ParanoidChain.Laws.Field.Rounds
import ParanoidChain.Laws.Fri.Hiding
import ParanoidChain.Laws.Fri.PhaseA
import ParanoidChain.Laws.Gkr.LibraMask
import ParanoidChain.Laws.Gkr.TerminalPads
import ParanoidChain.Laws.Mempool.FeeFloor
import ParanoidChain.Laws.Object.Builder
import ParanoidChain.Laws.Object.OpeningWire
import ParanoidChain.Laws.Object.Recovery
import ParanoidChain.Laws.Storage.OwnerIndex
import ParanoidChain.Laws.Storage.Serial
