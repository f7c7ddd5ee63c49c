import RaiBlocks.Properties.AccountText
import RaiBlocks.Properties.ArrivalOrder
import RaiBlocks.Properties.BalanceText
import RaiBlocks.Properties.BlockText
import RaiBlocks.Properties.BlocksInfo
import RaiBlocks.Properties.Checksum
import RaiBlocks.Properties.Confluence
import RaiBlocks.Properties.Decimals
import RaiBlocks.Properties.EndpointText
import RaiBlocks.Properties.Forcing
import RaiBlocks.Properties.Forgery
import RaiBlocks.Properties.FrontierAges
import RaiBlocks.Properties.Frontiers
import RaiBlocks.Properties.KeyMoves
import RaiBlocks.Properties.LiveBlocks
import RaiBlocks.Properties.Migration
import RaiBlocks.Properties.OnlineStake
import RaiBlocks.Properties.PacketSafety
import RaiBlocks.Properties.Packets
import RaiBlocks.Properties.PasswordChanges
import RaiBlocks.Properties.PasswordRaces
import RaiBlocks.Properties.PeerAddresses
import RaiBlocks.Properties.PeerSampling
import RaiBlocks.Properties.PendingSum
import RaiBlocks.Properties.Process
import RaiBlocks.Properties.Pulls
import RaiBlocks.Properties.Quorum
import RaiBlocks.Properties.RangePull
import RaiBlocks.Properties.Replays
import RaiBlocks.Properties.Reseed
import RaiBlocks.Properties.Rollback
import RaiBlocks.Properties.SeedRecovery
import RaiBlocks.Properties.SendIds
import RaiBlocks.Properties.Signatures
import RaiBlocks.Properties.Supply
import RaiBlocks.Properties.Synchronizing
import RaiBlocks.Properties.Tables
import RaiBlocks.Properties.TallyTotals
import RaiBlocks.Properties.Transfer
import RaiBlocks.Properties.VoteRaces
import RaiBlocks.Properties.VoteReplies
import RaiBlocks.Properties.VoteSequence
import RaiBlocks.Properties.WalletBlocks
import RaiBlocks.Properties.WalletImport
import RaiBlocks.Properties.WalletRecords
import RaiBlocks.Properties.WalletSecrecy
import RaiBlocks.Properties.WalletSigning
import RaiBlocks.Properties.WatchedKeys
import RaiBlocks.Properties.WorkPeers
import RaiBlocks.Properties.WorkRequests
