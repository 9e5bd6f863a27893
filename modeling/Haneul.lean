import Haneul.Consensus.UniversalCommitter
import Haneul.Consensus.BlockArrival
import Haneul.Consensus.FlexRuns
import Haneul.Consensus.LeaderScheduleV3
import Haneul.Consensus.CommitTimestamp
import Haneul.Execution.CausalAdmission
import Haneul.Execution.CircularOwnership
import Haneul.Verifier.AbstractStack
import Haneul.Authority.VersionEffects
import Haneul.Authority.LockExclusivity
import Haneul.Authority.DeferralRuns
import Haneul.Authority.CheckpointQueue
import Haneul.Authority.WeightedMovingAverage
import Haneul.Staking.StakeWithdrawal
import Haneul.Staking.Slashing
import Haneul.Bridge.BridgeProgress
import Haneul.Bridge.Solvency
import Haneul.Accumulators.SettlementExact
import Haneul.Accumulators.EventStream
