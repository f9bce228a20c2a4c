import Avibe.Access.IntentsSafety
import Avibe.Checkpoint.Artifacts
import Avibe.Checkpoint.SummarySafety
import Avibe.Citations.HostReading
import Avibe.Context.Offers
import Avibe.Deliveries.Fifo
import Avibe.Deliveries.Holds
import Avibe.Desktop.WindowFrameSafety
import Avibe.Edits.Frame
import Avibe.Edits.NewView
import Avibe.Fetch.WorkerSafety
import Avibe.Fit.Batch
import Avibe.Hub.AddressShape
import Avibe.Hub.Agreement
import Avibe.Hub.ToolNamesSafety
import Avibe.Jobs.DecisionSafety
import Avibe.Jobs.Output
import Avibe.Json.Validity
import Avibe.Output.AccumulatorSpec
import Avibe.Output.NormalizerChunks
import Avibe.Output.TruncateSpec
import Avibe.Permissions.CacheRuns
import Avibe.Pricing.Billing
import Avibe.Pricing.Costs
import Avibe.Pricing.Reports
import Avibe.Reading.Agreement
import Avibe.Replies.SilentSafety
import Avibe.Runtime.GenerationLife
import Avibe.Runtime.OwnershipSafety
import Avibe.Sse.LineLimit
import Avibe.Transcript.Stability
import Avibe.Vault.AddressCodes
import Avibe.Vault.Signing
import Avibe.Vault.WebAuthnSafety
import Avibe.Work.LanesSafety
