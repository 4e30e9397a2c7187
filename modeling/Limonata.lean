import Limonata.EncMempool.PoisonReport
import Limonata.EncMempool.BondLedger
import Limonata.EncMempool.VerifiedRecovery
import Limonata.EncMempool.HonestVote
import Limonata.ValGrant.ForcedUndelegation
import Limonata.VpCap.Chain
import Limonata.GasSponsor.HoldGate
import Limonata.GasSponsor.EscrowGas
import Limonata.GasSponsor.Shares
import Limonata.NetCap.Coverage
import Limonata.Genesis.RoundTrip
import Limonata.Vm.SnapshotStore
import Limonata.Vm.Revert
import Limonata.Vm.Persist
import Limonata.Vm.Supply
import Limonata.Vm.Grants
import Limonata.EncMempool.ComplaintWindow
import Limonata.EncMempool.Fairness
import Limonata.EncMempool.Finalize
import Limonata.EncMempool.SigmaProofs
import Limonata.EncMempool.Proposal
import Limonata.Contest.Score
import Limonata.ValGrant.Kpi
import Limonata.Ante.Authz
