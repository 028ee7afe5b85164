import Sekejap.Lib.Bytes
import Sekejap.Lib.DurableFile
import Sekejap.Lib.Crc32c
import Sekejap.Lib.Program
import Sekejap.Kernel.Page
import Sekejap.PageWal.Format
import Sekejap.PageWal.Frame
import Sekejap.PageWal.Inspect
import Sekejap.PageWal.Log
import Sekejap.PageWal.Image
import Sekejap.PageWal.Hint
import Sekejap.PageWal.Disk
import Sekejap.PageWal.Pager
import Sekejap.PageWal.Store
import Sekejap.PageWal.Files
import Sekejap.PageWal.PagerSpec
import Sekejap.PageWal.Writer
import Sekejap.PageWal.Handle
import Sekejap.PageWal.Actions
import Sekejap.PageWal.Commit
import Sekejap.PageWal.Checkpoint
import Sekejap.PageWal.Recovery
import Sekejap.PageWal.System
import Sekejap.PageWal.Operations
import Sekejap.PageWal.Safety
import Sekejap.PageWal.Crash
import Sekejap.PageWal.TornTail
import Sekejap.Collections.RowIds
import Sekejap.Lib.Scan
import Sekejap.Lib.Fallible
import Sekejap.Lib.Secondary
import Sekejap.Collections.Document
import Sekejap.Collections.Catalog
import Sekejap.Collections.Entities
import Sekejap.Collections.IndexBuild
import Sekejap.Collections.Lifecycle
import Sekejap.Collections.IndexSpec
import Sekejap.Collections.Consistency
import Sekejap.Collections.RowSteps
import Sekejap.Collections.IndexSteps
import Sekejap.Collections.TableSteps
import Sekejap.Collections.Runs
import Sekejap.Collections.RowCounts
import Sekejap.Collections.References
import Sekejap.Collections.BinaryJson
import Sekejap.Graph.Edges
import Sekejap.Graph.Writes
import Sekejap.Graph.Lifecycle
import Sekejap.Graph.Moves
import Sekejap.Graph.EndpointSets
import Sekejap.Graph.EndpointReads
import Sekejap.Vector.Vamana
import Sekejap.Lib.Neighbours
import Sekejap.Vector.WellFormed
import Sekejap.Vector.Linking
import Sekejap.Collections.Families
import Sekejap.Collections.FamilySteps
import Sekejap.Collections.FamilyRuns
import Sekejap.Vector.Index
import Sekejap.Lib.Rounding
import Sekejap.Spatial.Geometry
import Sekejap.Spatial.Postings
import Sekejap.Spatial.Index
import Sekejap.Gql.Automaton
import Sekejap.Gql.Arrive
import Sekejap.Gql.Bindings
import Sekejap.Gql.Enumerate
import Sekejap.BTree.Cells
import Sekejap.Gql.Cheapest
import Sekejap.Store.ScalarKey
import Sekejap.Bulk.ExternalSort
import Sekejap.Bulk.Sorting
import Sekejap.BTree.Cuts
import Sekejap.BTree.Descent
import Sekejap.BTree.Split
import Sekejap.BTree.SplitAgree
import Sekejap.Collections.OrderedKey
import Sekejap.Graph.EdgeKeys
import Sekejap.Lib.CaseTable
import Sekejap.Lib.Utf8
import Sekejap.Lib.Wildcard
import Sekejap.Lib.Windows
import Sekejap.Query.Like
import Sekejap.Text.NormBlocks
import Sekejap.Text.Trigram
import Sekejap.Collections.CatalogRecord
import Sekejap.Spatial.Cover
import Sekejap.Text.Fuzzy
import Sekejap.DenseRow.Codec
import Sekejap.DenseRow.Parsed
import Sekejap.DenseRow.RoundTrip
import Sekejap.DenseRow.Readers
import Sekejap.DenseRow.Agree
import Sekejap.BTree.Planner
import Sekejap.Kernel.Listing
import Sekejap.Gql.Identity
import Sekejap.Lang.RoundTrip
import Sekejap.Lang.Literals
import Sekejap.Lang.Rebind
import Sekejap.Lang.TimeAgree
import Sekejap.Lib.Parting
import Sekejap.Spatial.Nearest
import Sekejap.Spatial.NearestRings
import Sekejap.Spatial.NearestRuns
import Sekejap.Lib.LeastKept
import Sekejap.Spatial.PointQueries
