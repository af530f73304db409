import Linera.Base.AmountText
import Linera.Execution.Dependencies
import Linera.Execution.Fuel
import Linera.Execution.ClosingCalls
import Linera.Chain.MessageIndices
import Linera.Chain.Agreement
import Linera.Chain.Subscriptions
import Linera.Chain.BlockSize
import Linera.Chain.Accounts
import Linera.Chain.Unskippable
import Linera.Views.RocksDb
import Linera.Views.Lists
import Linera.Views.Sizes
import Linera.Views.LruCaching
import Linera.Views.Simplify
import Linera.Views.PointReads
import Linera.Views.DynamoDb
import Linera.Storage.BlobStates
import Linera.Storage.Service
import Linera.Rpc.Codec
import Linera.Core.Discarding
import Linera.Core.Redelivery
import Linera.Core.EveryOrder
import Linera.Core.OneActor
import Linera.Core.FailedLoads
import Linera.Core.Downloading
import Linera.Core.Proposing
import Linera.Client.Wallet
import Linera.Service.Faucet
import Linera.Apps.Provenance
import Linera.Apps.CrowdFunding
import Linera.Apps.TokenIds
import Linera.Apps.OrderIndexes
import Linera.Apps.Hex
