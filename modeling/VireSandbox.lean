import VireSandbox.Common.Machine
import VireSandbox.Common.Loss
import VireSandbox.Common.Script
import VireSandbox.Common.Queue
import VireSandbox.UseCase.Protocol
import VireSandbox.UseCase.Calls
import VireSandbox.Session.Return
import VireSandbox.Session.Control
import VireSandbox.Session.Alone
import VireSandbox.Session.Reach
import VireSandbox.Session.Stop
import VireSandbox.Session.Outcome
import VireSandbox.Session.Handover
import VireSandbox.Session.Timing
import VireSandbox.Stock.Progress
import VireSandbox.Rpc.Serving
import VireSandbox.Stock.Shutdown
import VireSandbox.Rpc.Client
import VireSandbox.Rpc.Failure
import VireSandbox.Rpc.Network
import VireSandbox.Rpc.EndToEnd
import VireSandbox.Session.Slot
import VireSandbox.Session.Process
import VireSandbox.Session.Kill
import VireSandbox.Broker.Model
import VireSandbox.Broker.Calls
import VireSandbox.Broker.Undo
import VireSandbox.Broker.Provision
import VireSandbox.Broker.Cleanup
import VireSandbox.Common.Regex
import VireSandbox.Common.Shell
import VireSandbox.Broker.Scripts
import VireSandbox.Broker.Patterns
import VireSandbox.Common.Ledger
import VireSandbox.Stock.Balance
import VireSandbox.Common.Loop
import VireSandbox.UseCase.Driver
import VireSandbox.Common.StdString
import VireSandbox.Rpc.Arguments
import VireSandbox.Common.Tally
import VireSandbox.Stock.Accounts
import VireSandbox.Stock.Ending
import VireSandbox.Session.Sharing
import VireSandbox.Session.Latency
import VireSandbox.Session.Verdict
import VireSandbox.Rpc.Bus
import VireSandbox.Rpc.Delivery
import VireSandbox.Rpc.Response
import VireSandbox.Rpc.Order
import VireSandbox.Common.Interleaving
import VireSandbox.Broker.Recovery
import VireSandbox.Common.Parties
import VireSandbox.Session.Rivals
import VireSandbox.Broker.Once
