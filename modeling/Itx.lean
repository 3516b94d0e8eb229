import Itx.Lib.Outcome
import Itx.Lib.Call
import Itx.Lib.Loop
import Itx.Lib.Finmap
import Itx.Lib.Checked
import Itx.Lib.Address
import Itx.Lib.FixedWindow
import Itx.Lib.Median
import Itx.Lib.System
import Itx.Chain.Types
import Itx.Chain.Validation
import Itx.Chain.Blockchain
import Itx.Chain.Utxos
import Itx.Chain.Steps
import Itx.Chain.Run
import Itx.Chain.Ideal
import Itx.Chain.Replay
import Itx.Chain.Tree
import Itx.Chain.Valid
import Itx.Chain.Mempool
import Itx.Chain.Marks
import Itx.Chain.Work
import Itx.Chain.Panic
import Itx.Chain.Supply
import Itx.Chain.Outputs
import Itx.Hub.Ledger
import Itx.Hub.Payments
import Itx.Hub.Effects
import Itx.Hub.Locks
import Itx.Hub.Conservation
import Itx.Hub.Journal
import Itx.Chain.Accept
import Itx.Chain.Agreement
import Itx.Chain.BlockTree
import Itx.Chain.Delivery
import Itx.Chain.Template
import Itx.Node.Durable
import Itx.Node.Sync
import Itx.Hub.Deposits
import Itx.Hub.Envelope
import Itx.Hub.Forwarded
import Itx.Hub.RateLimit
import Itx.Hub.Replay
import Itx.Hub.Reconcile
import Itx.Hub.Credits
import Itx.Hub.Staging
import Itx.Hub.Funding
import Itx.Chain.Spends
import Itx.Hub.Building
import Itx.Hub.OrderBook
import Itx.Hub.Challenges
import Itx.Hub.Faucet
import Itx.Hub.Solvency
import Itx.Hub.Eligibility
import Itx.Hub.Exposure
import Itx.Hub.Disclosure
import Itx.Hub.Disk
import Itx.Hub.Standing
import Itx.Hub.Submitting
import Itx.Hub.Reserving
import Itx.Hub.Payroll
import Itx.Hub.Settling
import Itx.Chain.FeeOrder
import Itx.Lib.Cbor
import Itx.Node.Wire
import Itx.Node.Ban
import Itx.Node.TimeSync
import Itx.Node.Handler
import Itx.Node.Unspent
import Itx.Hub.Pool
import Itx.Hub.Voting
import Itx.Hub.Reporting
import Itx.Hub.Resolution
import Itx.Hub.Evidence
import Itx.Lib.Text
import Itx.Lib.Json
import Itx.Lib.Calendar
import Itx.Sdk.Signing
import Itx.Hub.Binding
import Itx.Hub.Pricing
import Itx.Hub.Quoting
import Itx.Hub.Preimages
import Itx.Hub.Selection
import Itx.Chain.Offer
import Itx.Chain.Filling
import Itx.Hub.Admission
import Itx.Hub.Reshape
import Itx.Wallet.Fees
import Itx.Wallet.Spending
import Itx.Chain.Commitment
import Itx.Chain.Retarget
import Itx.Hub.Tape
import Itx.Lib.Deadlines
import Itx.Hub.Sweeping
import Itx.Hub.Names
import Itx.Lib.Commute
import Itx.Lib.Reader
import Itx.Node.Drain
import Itx.Node.Serving
import Itx.Node.Conversation
import Itx.Node.Network
import Itx.Node.Convergence
