import SessionRaft.Table
import SessionRaft.Wire.Message
import SessionRaft.Json.Printer
import SessionRaft.Config
import SessionRaft.ByteProgram
import SessionRaft.Publisher
import SessionRaft.Sequencer
import SessionRaft.Storage.Store
import SessionRaft.Cluster
import SessionRaft.Server
import SessionRaft.Proofs.FaithfulLog
import SessionRaft.Proofs.Splice
import SessionRaft.Proofs.Standing
import SessionRaft.Proofs.Frames
import SessionRaft.Proofs.Strides
import SessionRaft.Proofs.StepMoves
import SessionRaft.Proofs.Network
import SessionRaft.Proofs.Scene
import SessionRaft.Proofs.Chronicle
import SessionRaft.Proofs.Elections
import SessionRaft.Proofs.ElectionSafety
import SessionRaft.Proofs.LogMatching
import SessionRaft.Proofs.Commitment
import SessionRaft.Proofs.Replay
import SessionRaft.Proofs.LeaderCompleteness
import SessionRaft.Proofs.CommitSafety
import SessionRaft.Proofs.Agreement
import SessionRaft.Proofs.StateMachineSafety
import SessionRaft.Proofs.Reads
import SessionRaft.Proofs.ReadFreshness
import SessionRaft.Proofs.Sessions
import SessionRaft.Proofs.ExactlyOnce
import SessionRaft.Proofs.MatchingLogs
import SessionRaft.Proofs.Lanes
import SessionRaft.Proofs.Desk
import SessionRaft.Proofs.DeskInvariants
import SessionRaft.Proofs.DeskTurns
import SessionRaft.Proofs.Lives
import SessionRaft.Proofs.DurableTerms
import SessionRaft.Proofs.CommandOrder
import SessionRaft.Proofs.Retries
import SessionRaft.Proofs.Acts
import SessionRaft.Proofs.CommitPipeline
import SessionRaft.Proofs.EventStreams
import SessionRaft.Proofs.Replicas
import SessionRaft.Proofs.Deliveries
import SessionRaft.Proofs.EventDelivery
import SessionRaft.Proofs.Ledger
import SessionRaft.Proofs.HeldCommands
import SessionRaft.Proofs.Attendance
import SessionRaft.Proofs.Replies
import SessionRaft.Proofs.WireFormat
import SessionRaft.Proofs.StablePrefix
import SessionRaft.Proofs.CrashSafety
import SessionRaft.Proofs.SingleVotes
import SessionRaft.Proofs.RefusedAppends
import SessionRaft.Proofs.Beliefs
import SessionRaft.Proofs.Exchanges
import SessionRaft.Proofs.CatchUp
import SessionRaft.Proofs.CheckedCommits
import SessionRaft.Proofs.CheckedSteps
import SessionRaft.Proofs.Overflows
import SessionRaft.Proofs.CommitRule
import SessionRaft.Proofs.Acknowledgements
import SessionRaft.Proofs.JoinedAppends
import SessionRaft.Proofs.Batches
import SessionRaft.Proofs.EventNumbers
import SessionRaft.Proofs.Titles
import SessionRaft.Proofs.Broadcasts
import SessionRaft.Proofs.LeaderRequests
import SessionRaft.Proofs.QueryVerdicts
import SessionRaft.Proofs.QueryPhases
import SessionRaft.Proofs.QuerySteps
import SessionRaft.Proofs.QueryAnswers
import SessionRaft.Proofs.PartialInput
import SessionRaft.Proofs.Clearing
import SessionRaft.Proofs.ArrivalOrder
import SessionRaft.Proofs.Lifetimes
import SessionRaft.Proofs.Publications
