import ToyBtc.WordSum
import ToyBtc.MapLog
import ToyBtc.Machine
import ToyBtc.PairTree
import ToyBtc.Framing
import ToyBtc.Growth
import ToyBtc.Covering
import ToyBtc.Types
import ToyBtc.Hashing
import ToyBtc.Block
import ToyBtc.Blockchain
import ToyBtc.InPlace
import ToyBtc.Mining
import ToyBtc.MiningThread
import ToyBtc.Node
import ToyBtc.StandIn
import ToyBtc.Admission
import ToyBtc.Ledger
import ToyBtc.Spends
import ToyBtc.Supply
import ToyBtc.Difficulty
import ToyBtc.Retarget
import ToyBtc.Template
import ToyBtc.Conflicts
import ToyBtc.Eligibility
import ToyBtc.Commitment
import ToyBtc.History
import ToyBtc.Authorization
import ToyBtc.Uniqueness
import ToyBtc.FrontEnds
import ToyBtc.Validation
import ToyBtc.Relay
import ToyBtc.Gossip
import ToyBtc.Sync
import ToyBtc.Network
import ToyBtc.Discovery
import ToyBtc.Coinbase
import ToyBtc.Adjustment
import ToyBtc.Ordering
import ToyBtc.Replacement
import ToyBtc.Wallet
import ToyBtc.Payment
import ToyBtc.Connections
import ToyBtc.Subscriptions
import ToyBtc.Resubscription
import ToyBtc.RelayOrder
import ToyBtc.Flooding
import ToyBtc.MessageLoop
import ToyBtc.TcpNetwork
import ToyBtc.Agreement
import ToyBtc.Delivery
import ToyBtc.StartUp
import ToyBtc.Accounts
import ToyBtc.Balances
import ToyBtc.Forks
import ToyBtc.Convergence
import ToyBtc.Session
import ToyBtc.Overlay
