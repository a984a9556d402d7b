import DurableWorkflow.Bus
import DurableWorkflow.CommandLine.Help
import DurableWorkflow.CommandLine.Service
import DurableWorkflow.Coordinator.Basic
import DurableWorkflow.Coordinator.Sweeper
import DurableWorkflow.DataDir
import DurableWorkflow.Definition
import DurableWorkflow.Event
import DurableWorkflow.Expense.Workflow
import DurableWorkflow.Instance.Codec
import DurableWorkflow.Json.Printer
import DurableWorkflow.Json.Reader
import DurableWorkflow.Main
import DurableWorkflow.Proofs.Amount.RoundTrip
import DurableWorkflow.Proofs.Announce.Notices
import DurableWorkflow.Proofs.Codec.Stored
import DurableWorkflow.Proofs.Commute.Block
import DurableWorkflow.Proofs.Continue.Cut
import DurableWorkflow.Proofs.Coordinator.Parting
import DurableWorkflow.Proofs.Coordinator.Refusals
import DurableWorkflow.Proofs.Coordinator.Returned
import DurableWorkflow.Proofs.Expense.Payments
import DurableWorkflow.Proofs.Lease.Exclusion
import DurableWorkflow.Proofs.Once.History
import DurableWorkflow.Proofs.Reading.Acceptance
import DurableWorkflow.Proofs.Reading.Agreement
import DurableWorkflow.Proofs.Recovery.Transparency
import DurableWorkflow.Proofs.Repository.Listing
import DurableWorkflow.Proofs.Run.Accounts
import DurableWorkflow.Proofs.Run.Blame
import DurableWorkflow.Proofs.Run.Budget
import DurableWorkflow.Proofs.Run.Cancelled
import DurableWorkflow.Proofs.Run.Captured
import DurableWorkflow.Proofs.Run.Compensation
import DurableWorkflow.Proofs.Run.Joining
import DurableWorkflow.Proofs.Run.Stream
import DurableWorkflow.Proofs.Run.Undoing
import DurableWorkflow.Proofs.Sweep.Deleters
import DurableWorkflow.Proofs.System.Accounts
import DurableWorkflow.Proofs.System.Change
import DurableWorkflow.Proofs.System.Delivery
import DurableWorkflow.Repository.Faulty
import DurableWorkflow.Repository.Memory
import DurableWorkflow.Repository.Table
import DurableWorkflow.Run.Result
import DurableWorkflow.Schedule.Crew
import DurableWorkflow.Script.Leg
import DurableWorkflow.Script.Session
import DurableWorkflow.Proofs.Graph.Ends
import DurableWorkflow.Proofs.Reading.Exits
