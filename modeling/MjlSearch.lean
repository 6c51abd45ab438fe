import MjlSearch.Accounting
import MjlSearch.Admission
import MjlSearch.Analytics
import MjlSearch.Announcement
import MjlSearch.Archive
import MjlSearch.ArchiveCalls
import MjlSearch.Beziers
import MjlSearch.Binned
import MjlSearch.BufWriter
import MjlSearch.ByteSource
import MjlSearch.Bytes
import MjlSearch.CachedReads
import MjlSearch.Calendar
import MjlSearch.CanonicalUrls
import MjlSearch.Conserved
import MjlSearch.CorruptEntries
import MjlSearch.Coverage
import MjlSearch.CrawlDb
import MjlSearch.CrawlDelay
import MjlSearch.CrawlRuns
import MjlSearch.CrawlScope
import MjlSearch.CrawlSteps
import MjlSearch.Crawler
import MjlSearch.Decimals
import MjlSearch.DepthBound
import MjlSearch.Documents
import MjlSearch.DoubleBounds
import MjlSearch.Doubles
import MjlSearch.Drain
import MjlSearch.DrainOnce
import MjlSearch.Entities
import MjlSearch.FailedWrites
import MjlSearch.Fetcher
import MjlSearch.FirstFit
import MjlSearch.FormEncoding
import MjlSearch.Frontier
import MjlSearch.FrontierCounts
import MjlSearch.FrontierFrame
import MjlSearch.FrontierQueue
import MjlSearch.Globs
import MjlSearch.GrowthChart
import MjlSearch.GrowthCurve
import MjlSearch.GrowthFeed
import MjlSearch.HalfFrames
import MjlSearch.Handoff
import MjlSearch.Histories
import MjlSearch.History
import MjlSearch.HistoryJson
import MjlSearch.HistoryOrder
import MjlSearch.HistoryWindows
import MjlSearch.HostAuthority
import MjlSearch.Importance
import MjlSearch.IndexState
import MjlSearch.IndexWriter
import MjlSearch.Intake
import MjlSearch.JsonText
import MjlSearch.KeptFiles
import MjlSearch.LastView
import MjlSearch.LastWriter
import MjlSearch.Leading
import MjlSearch.LinkGraph
import MjlSearch.LinkIdentity
import MjlSearch.LinkRecords
import MjlSearch.Machine
import MjlSearch.OnePass
import MjlSearch.OrderedStore
import MjlSearch.PageParser
import MjlSearch.PageRank
import MjlSearch.PageRankLimit
import MjlSearch.Policy
import MjlSearch.Politeness
import MjlSearch.PoolOrder
import MjlSearch.Postcard
import MjlSearch.Progress
import MjlSearch.QueryCache
import MjlSearch.QueryLog
import MjlSearch.RankIteration
import MjlSearch.RankLimit
import MjlSearch.RankedPool
import MjlSearch.Ranking
import MjlSearch.Ranks
import MjlSearch.ReadyHosts
import MjlSearch.RecordOrder
import MjlSearch.Retired
import MjlSearch.RetryDiscipline
import MjlSearch.Robots
import MjlSearch.RobotsGate
import MjlSearch.RobotsGroups
import MjlSearch.RobotsPatterns
import MjlSearch.RobotsPrecedence
import MjlSearch.Runs
import MjlSearch.SearchApi
import MjlSearch.Seeds
import MjlSearch.Served
import MjlSearch.SidecarFiles
import MjlSearch.SitemapScan
import MjlSearch.Sitemaps
import MjlSearch.Snippets
import MjlSearch.Spool
import MjlSearch.SpoolDir
import MjlSearch.StableSort
import MjlSearch.Stamps
import MjlSearch.Storage
import MjlSearch.Terminates
import MjlSearch.Text
import MjlSearch.Timeline
import MjlSearch.Timestamps
import MjlSearch.Urls
import MjlSearch.Warc
import MjlSearch.WarcFiles
import MjlSearch.WarcRollover
import MjlSearch.Whereabouts
import MjlSearch.Words
