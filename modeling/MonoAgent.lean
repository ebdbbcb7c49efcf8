import MonoAgent.Agent.Agreement
import MonoAgent.Agent.Machine
import MonoAgent.Agent.Settling
import MonoAgent.Akasha.Diffusion
import MonoAgent.Akasha.DiffusionExact
import MonoAgent.Akasha.HeadMerge
import MonoAgent.Akasha.Heads
import MonoAgent.Akasha.Sparsemax
import MonoAgent.Attachments.Exact
import MonoAgent.Attachments.Service
import MonoAgent.Attachments.Uploads
import MonoAgent.Bus.Dispatch
import MonoAgent.Bus.Lane
import MonoAgent.Bus.Lanes
import MonoAgent.Bus.Outbound
import MonoAgent.Codec.Accepted
import MonoAgent.Codec.Bodies
import MonoAgent.Codec.Encoding
import MonoAgent.Codec.RoundTrip
import MonoAgent.Compaction.Chain
import MonoAgent.Compaction.Cuts
import MonoAgent.Compaction.Records
import MonoAgent.Compaction.Reduce
import MonoAgent.Composition.Coordination
import MonoAgent.Composition.Disposal
import MonoAgent.Composition.Effects
import MonoAgent.Composition.Groups
import MonoAgent.Composition.Slots
import MonoAgent.Context.Builder
import MonoAgent.Context.Settled
import MonoAgent.Context.Summary
import MonoAgent.Control.FrameBook
import MonoAgent.Control.FrameRoutes
import MonoAgent.Control.FrameStages
import MonoAgent.Control.FrameSteps
import MonoAgent.Control.FrameTidy
import MonoAgent.Conversation.Admission
import MonoAgent.Conversation.Commands
import MonoAgent.Conversation.Replies
import MonoAgent.Conversation.Source
import MonoAgent.Conversation.Turns
import MonoAgent.Deliveries.AtMostOnce
import MonoAgent.Deliveries.Confirmed
import MonoAgent.Deliveries.Consumption
import MonoAgent.Deliveries.Delivered
import MonoAgent.Deliveries.Execution
import MonoAgent.Deliveries.History
import MonoAgent.Deliveries.Records
import MonoAgent.Deliveries.Routing
import MonoAgent.Drift.Replays
import MonoAgent.Drift.Store
import MonoAgent.EventMail.Alerts
import MonoAgent.EventMail.Apart
import MonoAgent.EventMail.Claims
import MonoAgent.EventMail.Clock
import MonoAgent.EventMail.Commits
import MonoAgent.EventMail.Content
import MonoAgent.EventMail.Identity
import MonoAgent.EventMail.Interference
import MonoAgent.EventMail.Ledger
import MonoAgent.EventMail.Named
import MonoAgent.EventMail.Reads
import MonoAgent.EventMail.Rebuild
import MonoAgent.EventMail.Reports
import MonoAgent.EventMail.Settle
import MonoAgent.EventMail.Sources
import MonoAgent.EventMail.Store
import MonoAgent.EventMail.Touches
import MonoAgent.Handoffs.Reservation
import MonoAgent.Handoffs.Store
import MonoAgent.Lib.Calendar
import MonoAgent.Lib.CodePoints
import MonoAgent.Lib.Columns
import MonoAgent.Lib.Connection
import MonoAgent.Lib.Dict
import MonoAgent.Lib.Exec
import MonoAgent.Lib.Forest
import MonoAgent.Lib.Grid
import MonoAgent.Lib.IndexedHeap
import MonoAgent.Lib.Json
import MonoAgent.Lib.JsonFuel
import MonoAgent.Lib.JsonOrder
import MonoAgent.Lib.JsonReading
import MonoAgent.Lib.JsonText
import MonoAgent.Lib.Lines
import MonoAgent.Lib.Machine
import MonoAgent.Lib.Numbered
import MonoAgent.Lib.Outcome
import MonoAgent.Lib.Paging
import MonoAgent.Lib.Records
import MonoAgent.Lib.RestartWalk
import MonoAgent.Lib.Shared
import MonoAgent.Lib.Simplex
import MonoAgent.Lib.Sorted
import MonoAgent.Lib.Statements
import MonoAgent.Lib.Text
import MonoAgent.Lib.Timestamps
import MonoAgent.Lib.Unlines
import MonoAgent.Lib.Weights
import MonoAgent.Mobile.Acknowledgement
import MonoAgent.Mobile.Connections
import MonoAgent.Mobile.Cursors
import MonoAgent.Mobile.Delivery
import MonoAgent.Mobile.Envelopes
import MonoAgent.Mobile.Epochs
import MonoAgent.Mobile.Frames
import MonoAgent.Mobile.Gateway
import MonoAgent.Mobile.History
import MonoAgent.Mobile.Inbox
import MonoAgent.Mobile.Messages
import MonoAgent.Mobile.Moves
import MonoAgent.Mobile.Revocation
import MonoAgent.Mobile.Steps
import MonoAgent.Models.Facts
import MonoAgent.Models.Projection
import MonoAgent.Models.Unsettled
import MonoAgent.Pairing.Calls
import MonoAgent.Pairing.Registers
import MonoAgent.Pairing.Service
import MonoAgent.Pairing.Steps
import MonoAgent.PluginUi.Gates
import MonoAgent.PluginUi.Invariant
import MonoAgent.PluginUi.Limits
import MonoAgent.PluginUi.Queries
import MonoAgent.Profiles.Accepted
import MonoAgent.Profiles.Answers
import MonoAgent.Profiles.Crashes
import MonoAgent.Profiles.Draft
import MonoAgent.Profiles.Pending
import MonoAgent.Profiles.Prepared
import MonoAgent.Profiles.Queues
import MonoAgent.Profiles.Sections
import MonoAgent.Profiles.Starts
import MonoAgent.Profiles.Store
import MonoAgent.Profiles.Validity
import MonoAgent.Profiles.Writes
import MonoAgent.React.Pending
import MonoAgent.React.React
import MonoAgent.Receipts.Calls
import MonoAgent.Receipts.Changes
import MonoAgent.Receipts.Quota
import MonoAgent.Receipts.Table
import MonoAgent.Reload.Accepted
import MonoAgent.Reload.Agreement
import MonoAgent.Reload.Calls
import MonoAgent.Reload.Invariant
import MonoAgent.Reload.Journal
import MonoAgent.Reload.Outcomes
import MonoAgent.Reload.Recoverable
import MonoAgent.Reload.Recovery
import MonoAgent.Reload.Restored
import MonoAgent.Reload.Rows
import MonoAgent.Reload.Tables
import MonoAgent.Reload.Transaction
import MonoAgent.Reload.Update
import MonoAgent.Restart.Gate
import MonoAgent.Restart.Quiesced
import MonoAgent.Scheduler.Fires
import MonoAgent.Scheduler.Grid
import MonoAgent.Scheduler.Ledger
import MonoAgent.Scheduler.Schedule
import MonoAgent.Scheduler.Store
import MonoAgent.Session.Append
import MonoAgent.Session.Atomic
import MonoAgent.Session.Database
import MonoAgent.Session.Follow
import MonoAgent.Session.Incremental
import MonoAgent.Session.Invariant
import MonoAgent.Session.Log
import MonoAgent.Session.Message
import MonoAgent.Session.MessageCodec
import MonoAgent.Session.Pages
import MonoAgent.Session.Prefix
import MonoAgent.Session.Reachable
import MonoAgent.Session.References
import MonoAgent.Session.Settlement
import MonoAgent.Session.Transaction
import MonoAgent.Snapshots.Admission
import MonoAgent.Snapshots.Drains
import MonoAgent.Snapshots.Failures
import MonoAgent.Snapshots.Leases
import MonoAgent.Snapshots.Pointers
import MonoAgent.Snapshots.Runs
import MonoAgent.Snapshots.Steps
import MonoAgent.Snapshots.Store
import MonoAgent.TurnProjection.Partition
import MonoAgent.TurnProjection.Project
import MonoAgent.TurnProjection.Scan
