import MarkdownCore.Library.Naming
import MarkdownCore.Heading.Suffix
import MarkdownCore.Heading.Document
import MarkdownCore.Heading.Stream
import MarkdownCore.Heading.StreamNames
import MarkdownCore.Heading.StreamRun
import MarkdownCore.Lsp.Client
import MarkdownCore.Map.KeyIndexRun
import MarkdownCore.Lsp.Frame
import MarkdownCore.Lsp.Json.WriteRun
import MarkdownCore.Storage.Parts
import MarkdownCore.Storage.SlabRun
import MarkdownCore.Inline.BackticksRun
import MarkdownCore.Inline.Opaque
import MarkdownCore.Inline.HtmlRun
import MarkdownCore.Library.Links
import MarkdownCore.Roster.Lists
import MarkdownCore.Roster.Log
import MarkdownCore.Lsp.Negotiation
import MarkdownCore.Attributes.ReadRun
import MarkdownCore.Autolink.Address
import MarkdownCore.Autolink.AddressOwn
import MarkdownCore.Autolink.DomainRun
import MarkdownCore.Inline.CodeText
import MarkdownCore.Inline.Destination
import MarkdownCore.Inline.DestinationRun
import MarkdownCore.Library.Maxima
import MarkdownCore.Library.Merge
import MarkdownCore.Reach.Edits
import MarkdownCore.Reach.EditsRun
import MarkdownCore.Source.ContentMap
import MarkdownCore.Source.ContentMapRun
import MarkdownCore.Table.Cell
import MarkdownCore.Table.Opening
import MarkdownCore.Citation.Braces
import MarkdownCore.Citation.BracesRun
import MarkdownCore.Citation.KeyEnd
import MarkdownCore.Library.WordScan
import MarkdownCore.Source.MarkVector
import MarkdownCore.Source.MarkVectorRun
import MarkdownCore.Source.Normalized
import MarkdownCore.Text.Growth
import MarkdownCore.Text.GrowthRun
import MarkdownCore.Text.Scope
import MarkdownCore.Nest.Children
import MarkdownCore.Nest.ChildrenRun
import MarkdownCore.Nest.ReadingRun
import MarkdownCore.Nest.Return
import MarkdownCore.Source.Places
import MarkdownCore.Source.PlacesRun
import MarkdownCore.Source.ReadContent
import MarkdownCore.Source.ReadContentRun
import MarkdownCore.Library.Widest
import MarkdownCore.Uses.Index
import MarkdownCore.Uses.IndexRun
import MarkdownCore.Uses.Refresh
import MarkdownCore.Library.ChunkFold
import MarkdownCore.Nest.Folds
import MarkdownCore.Nest.FoldsRun
import MarkdownCore.Library.Fenwick
import MarkdownCore.Session.Widths
import MarkdownCore.Session.WidthsRun
import MarkdownCore.Storage.TextZipper
import MarkdownCore.Storage.TextZipperRun
import MarkdownCore.Context.Query
import MarkdownCore.Context.QueryRun
import MarkdownCore.Text.Columns
import MarkdownCore.Text.ColumnsRun
import MarkdownCore.Fields.Join
import MarkdownCore.Fields.Ranges
import MarkdownCore.Marker.Numeral
import MarkdownCore.Marker.NumeralRun
import MarkdownCore.Marker.Roman
import MarkdownCore.Marker.Scan
import MarkdownCore.Library.Squeeze
import MarkdownCore.Text.Image
import MarkdownCore.Text.ImageRun
import MarkdownCore.Text.Label
import MarkdownCore.Text.LabelForm
import MarkdownCore.Library.StableSort
import MarkdownCore.Order.Labels
import MarkdownCore.Order.LabelsRun
import MarkdownCore.Order.Source
import MarkdownCore.Order.SourceRun
import MarkdownCore.Session.Calls
import MarkdownCore.Session.CallsRun
import MarkdownCore.Storage.Strbuf
import MarkdownCore.Storage.StrbufEdit
import MarkdownCore.Storage.StrbufList
import MarkdownCore.Session.CallsSound
import MarkdownCore.Library.Fences
import MarkdownCore.Map.KeyTree
import MarkdownCore.Map.KeyTreeEdit
import MarkdownCore.Map.KeyTreeList
import MarkdownCore.Map.KeyTreeMap
import MarkdownCore.Delimiter.Entries
import MarkdownCore.Delimiter.Insert
import MarkdownCore.Roster.LogRun
import MarkdownCore.Delimiter.Floors
import MarkdownCore.Delimiter.Pool
import MarkdownCore.Text.Bindings
