import Binius64.ChallengerStream
import Binius64.GhashInversion
import Binius64.FriArities
import Binius64.FriBatchLayout
import Binius64.BufferRefinement
import Binius64.WiringExtension
import Binius64.InducedBasis
import Binius64.BitReversal
import Binius64.ChipBuilder
import Binius64.ChipCalls
import Binius64.ZeroPropagation
import Binius64.SubexpressionElimination
import Binius64.DeadCode
import Binius64.GateBytecode
import Binius64.BatchContext
import Binius64.Vm32Versions
import Binius64.Vm32Division
import Binius64.ShiftIndicators
import Binius64.ShiftFolding
import Binius64.ChallengePowers
import Binius64.EqualityPrefix
import Binius64.RowParity
import Binius64.SpartanAlu
import Binius64.FriCompleteness
import Binius64.CommitmentOrder
import Binius64.OracleMerging
import Binius64.UnivariateDomain
import Binius64.RingSwitchReduction
import Binius64.SpartanRuns
import Binius64.AdvisedRuns
import Binius64.KeccakMessages
import Binius64.Sha256Messages
import Binius64.Rs256
import Binius64.WotsChains
import Binius64.LogupSoundness
import Binius64.SystemSerialization
import Binius64.GateFusion
import Binius64.ForkJoin
import Binius64.MerkleSchedule
import Binius64.ElfLoader
import Binius64.PrimeFieldGadgets
import Binius64.SignedProduct
import Binius64.SubspaceWalks
import Binius64.BatchInversion
import Binius64.BitcoinHeaders
import Binius64.Base64
import Binius64.Concat
import Binius64.Xmss
import Binius64.Compilation
import Binius64.XmssBinding
