import SightingDB.Lib.OrderedMap
import SightingDB.Lib.MapJoin
import SightingDB.Clock
import SightingDB.Text
import SightingDB.Tags
import SightingDB.Attribute
import SightingDB.Lib.Stamped
import SightingDB.AttributeMerge
import SightingDB.MergeLaws
import SightingDB.History
import SightingDB.SeenWindow
import SightingDB.TagReplacement
import SightingDB.Lib.Gossip
import SightingDB.Replicas
import SightingDB.Convergence
import SightingDB.Mirrors
import SightingDB.Paths
import SightingDB.Namespace
import SightingDB.Tier
import SightingDB.Snapshot
import SightingDB.Database
import SightingDB.Sightings
import SightingDB.Consensus
import SightingDB.Balance
import SightingDB.Restart
import SightingDB.Housekeeping
import SightingDB.Persistence
import SightingDB.Store
import SightingDB.Contents
import SightingDB.Requests
import SightingDB.Files
import SightingDB.Saving
import SightingDB.Durability
import SightingDB.FailedSaves
import SightingDB.Moves
import SightingDB.FaultyReads
import SightingDB.Deletions
import SightingDB.Paging
import SightingDB.Lib.Threads
import SightingDB.Lib.Handles
import SightingDB.EvictionSteps
import SightingDB.EvictionInvariant
import SightingDB.EvictionSafety
import SightingDB.ConsensusSteps
import SightingDB.ConsensusInvariant
import SightingDB.ConsensusSafety
import SightingDB.Acl
import SightingDB.Galaxy
import SightingDB.Lib.Chains
import SightingDB.Routes
import SightingDB.HopBudget
import SightingDB.Exchange
import SightingDB.Deliveries
import SightingDB.BulkAccess
import SightingDB.BatchItems
import SightingDB.CountedOnce
import SightingDB.DryRun
import SightingDB.Lib.Numerals
import SightingDB.Lib.Toml
import SightingDB.Lib.TomlTexts
import SightingDB.Lib.TomlWritten
import SightingDB.Lib.TomlTables
import SightingDB.Lib.Traverse
import SightingDB.Keys
import SightingDB.AclFile
import SightingDB.SavedAcl
import SightingDB.KeyChanges
import SightingDB.Lockout
import SightingDB.TierFile
import SightingDB.TierChanges
import SightingDB.PeerFile
import SightingDB.SavedPeers
import SightingDB.KeyRaces
import SightingDB.TierGossip
import SightingDB.KeyGossip
import SightingDB.Lib.Percent
import SightingDB.RequestPaths
import SightingDB.Survey
import SightingDB.Vocabulary
import SightingDB.Lib.Segments
import SightingDB.Latest
import SightingDB.Lib.Recency
import SightingDB.RecentWrites
import SightingDB.Polling
import SightingDB.Lib.Buckets
import SightingDB.Activity
import SightingDB.ActivityFigures
import SightingDB.Lib.Checks
import SightingDB.ActivityRequests
import SightingDB.PrefixRules
import SightingDB.Upgrade
import SightingDB.Searches
import SightingDB.Lib.FirstOfEach
import SightingDB.Lib.Json
import SightingDB.Addresses
import SightingDB.Stix
import SightingDB.StixIds
import SightingDB.Lib.Matchers
import SightingDB.StixImport
import SightingDB.StixRoundTrip
import SightingDB.Lib.Budget
import SightingDB.ValuePages
import SightingDB.Exports
import SightingDB.GatheredExport
import SightingDB.Lib.Oblivious
import SightingDB.ReadRoutes
import SightingDB.StoredKeys
import SightingDB.KeyTransfer
import SightingDB.MergeReports
import SightingDB.Lib.Ranks
import SightingDB.Lib.OffsetPages
import SightingDB.CatchUp
import SightingDB.StickyReads
import SightingDB.Lib.Grouping
import SightingDB.BulkReads
import SightingDB.Lib.Largest
import SightingDB.HourlyStats
import SightingDB.Totals
import SightingDB.Updates
import SightingDB.Acts
import SightingDB.Lifetimes
import SightingDB.ExactSweeps
import SightingDB.ExactCounts
import SightingDB.RestatedTally
import SightingDB.Lib.EarlyStop
import SightingDB.Relations
import SightingDB.Lib.TreeWalks
import SightingDB.Browsing
import SightingDB.Settings
import SightingDB.Lib.PrefixCover
import SightingDB.TierScope
import SightingDB.IdleWindows
import SightingDB.Recording
import SightingDB.Misp
import SightingDB.StoredTags
import SightingDB.ImportedTags
import SightingDB.Markings
import SightingDB.Digests
import SightingDB.CutExports
import SightingDB.Lib.LastMaximum
import SightingDB.Reproducible
import SightingDB.Lib.Epochs
import SightingDB.QueryBudget
import SightingDB.Lib.Widths
import SightingDB.CharacterStrings
import SightingDB.ShardPaths
import SightingDB.Lib.Runs
import SightingDB.Lib.Utf8
import SightingDB.DnsNames
import SightingDB.AddressNames
import SightingDB.DnsAnswers
import SightingDB.DnsExposure
import SightingDB.CrashSafety
import SightingDB.WriteAccess
import SightingDB.CatchUpPasses
import SightingDB.PeerChanges
