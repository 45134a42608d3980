import Memorai.Graph.PropertyGraph
import Memorai.Schema.Enums
import Memorai.Schema.Permissions
import Memorai.Schema.Records
import Memorai.Text.Strings
import Memorai.Storage.MemoryStore
import Memorai.Storage.StoreLaws
import Memorai.Storage.OpTrace
import Memorai.Resolution.Statements
import Memorai.Resolution.Resolver
import Memorai.Resolution.ResolverLaws
import Memorai.Extraction.Contract
import Memorai.Ingestion.Pipeline
import Memorai.Ingestion.WriteLaws
import Memorai.Resolution.PendingLaws
import Memorai.Ingestion.RunLaws
import Memorai.Ingestion.LiveVersions
import Memorai.Extraction.Llm
import Memorai.Ingestion.Links
import Memorai.Ingestion.SupersessionLinks
import Memorai.Ingestion.ArrivalOrder
import Memorai.Concurrency.Interleaving
import Memorai.Ingestion.Program
import Memorai.Ingestion.Concurrent
import Memorai.Ingestion.Nodes
import Memorai.Ingestion.EntityGuards
import Memorai.Ingestion.Unsealed
import Memorai.Storage.HistoryReads
import Memorai.History.Shift
import Memorai.History.ShiftGuards
import Memorai.Resolution.Lockstep
import Memorai.Resolution.Rereads
import Memorai.Resolution.Resumption
import Memorai.Ingestion.Laying
import Memorai.Ingestion.Laps
import Memorai.Ingestion.Ahead
import Memorai.Ingestion.Splits
import Memorai.Ingestion.Interruptions
import Memorai.Ingestion.Repairs
import Memorai.Ingestion.Citing
import Memorai.Graph.Trails
import Memorai.Nearby.Read
import Memorai.Nearby.Region
import Memorai.Nearby.Shown
import Memorai.Nearby.Positions
import Memorai.History.Withheld
import Memorai.History.Shape
import Memorai.History.Seeds
import Memorai.Shared.Scopes
import Memorai.Wire.SignedTokens
import Memorai.Schema.Validation
import Memorai.Shared.Mirror
import Memorai.Gateway.Grants
import Memorai.Gateway.Lifetime
import Memorai.Gateway.Acceptance
import Memorai.Collections.OneTime
import Memorai.Enclave.Routes
import Memorai.Gateway.Accounts
import Memorai.Gateway.Custody
import Memorai.Gateway.SingleUse
import Memorai.Enclave.SealRoutes
import Memorai.Gateway.Sealing
import Memorai.Ingestion.SealedRuns
import Memorai.Order.Ranking
import Memorai.Storage.VectorSearch
import Memorai.Ingestion.Reingest
import Memorai.Order.Nulls
import Memorai.Storage.Commitments
import Memorai.Ingestion.EventTrace
import Memorai.Ingestion.EventCites
import Memorai.Ingestion.EventRewrites
import Memorai.Ingestion.SupersessionOrder
import Memorai.Ingestion.Obligations
import Memorai.Context.Ball
import Memorai.Access.Grants
import Memorai.Enclave.Attested
import Memorai.Extraction.Coverage
import Memorai.Gateway.Consents
import Memorai.Graph.Shortcuts
import Memorai.Ingestion.RowOrders
import Memorai.Nearby.Owners
import Memorai.Schema.Grants
import Memorai.Shared.Evaluators
import Memorai.Storage.Mutations
import Memorai.Connectors.ChatGpt
import Memorai.Connectors.Wordless
import Memorai.Ingestion.SealedConversations
import Memorai.Ingestion.Sightings
import Memorai.Shared.SourceIds
import Memorai.Connectors.Imports
import Memorai.Connectors.Contents
import Memorai.Connectors.Budgets
import Memorai.Connectors.Transcripts
import Memorai.Ingestion.Recorded
import Memorai.Connectors.Exports
import Memorai.Extraction.HashInputs
import Memorai.Gateway.Introspection
import Memorai.Gateway.QueryStrings
import Memorai.History.OpenConflicts
import Memorai.Retrieval.Proximity
import Memorai.Storage.Projections
import Memorai.Storage.Settlements
import Memorai.Ingestion.OwnReads
import Memorai.Query.Redaction
import Memorai.Query.Owners
import Memorai.Query.Granting
import Memorai.Query.Torn
import Memorai.Query.Narrowing
import Memorai.Text.Regex
import Memorai.Extraction.Patterns
import Memorai.Extraction.Notes
import Memorai.Extraction.ReadBack
import Memorai.Extraction.Quotes
import Memorai.Connectors.Registry
import Memorai.Connectors.Builtins
import Memorai.Concurrency.Calls
import Memorai.Concurrency.Views
import Memorai.Concurrency.Workers
import Memorai.Ingestion.Sent
import Memorai.Ingestion.Intake
import Memorai.Ingestion.Service
import Memorai.Ingestion.OneWorker
import Memorai.Ingestion.ConcurrentTenants
import Memorai.Ingestion.Turns
