import CitadelAgent.Conversations.Retry
import CitadelAgent.Supervisor.Reports
import CitadelAgent.Apps.Grants
import CitadelAgent.Ihttp.Faithful
import CitadelAgent.Ihttp.Endings
import CitadelAgent.Ihttp.Fanout
import CitadelAgent.Messenger.Maps
import CitadelAgent.Messenger.Requests
import CitadelAgent.Messenger.Inbound
import CitadelAgent.Ilm.Registry
import CitadelAgent.Reconnect.Entries
import CitadelAgent.Reconnect.Links
import CitadelAgent.Reconnect.SignIn
import CitadelAgent.Updater.Upgrade
import CitadelAgent.Requests.Hosted
import CitadelAgent.SignIn.KeyRelay
import CitadelAgent.Transfers.Correlations
import CitadelAgent.Peers.Offers
import CitadelAgent.Peers.Ends
import CitadelAgent.Requests.Smuggling
import CitadelAgent.Media.Path
import CitadelAgent.Media.Windows
import CitadelAgent.Groups.Membership
import CitadelAgent.Transfers.StagedWhole
import CitadelAgent.Conversations.Clearing
import CitadelAgent.Transfers.OfferRuns
import CitadelAgent.AppSdk.Replies
import CitadelAgent.WasmClient.Current
import CitadelAgent.WasmClient.Messages
import CitadelAgent.PageClient.Answers
import CitadelAgent.PageClient.LoopRuns
import CitadelAgent.Conversations.Retention
import CitadelAgent.Apps.Hosts
import CitadelAgent.Apps.Rate
import CitadelAgent.Apps.Listing
import CitadelAgent.Reconnect.Refusals
import CitadelAgent.Apps.Stream
import CitadelAgent.Messenger.Batches
import CitadelAgent.Ihttp.RoundTrip
import CitadelAgent.Messenger.Interop
import CitadelAgent.Conversations.Authority
import CitadelAgent.Supervisor.Jitter
import CitadelAgent.Reconnect.Schedule
import CitadelAgent.Telemetry.TurnLedger
import CitadelAgent.Apps.Signature
import CitadelAgent.Transfers.FileName
import CitadelAgent.Transfers.PulledChunks
import CitadelAgent.Telemetry.NoneLeft
import CitadelAgent.AppSdk.Topics
import CitadelAgent.Sessions.Subscribers
import CitadelAgent.Apps.Egress
