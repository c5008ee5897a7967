import Imap2Pst.Std.Bytes
import Imap2Pst.Std.Sort
import Imap2Pst.Imap.Alignment
import Imap2Pst.Pipeline.Handing
import Imap2Pst.Pipeline.Spool
import Imap2Pst.Pipeline.Unilateral
import Imap2Pst.Pipeline.ExitStatus
import Imap2Pst.Mime.HeaderBlob
import Imap2Pst.Mime.Preservation
import Imap2Pst.Mime.Recovery
import Imap2Pst.Mime.Alternative
import Imap2Pst.Mime.Base64
import Imap2Pst.Mime.Multipart
import Imap2Pst.Mime.ExtendedParameter
import Imap2Pst.Mime.AddressGroups
import Imap2Pst.Mime.Nesting
import Imap2Pst.Mime.QuotedPrintable
import Imap2Pst.Pst.AllocationMap
import Imap2Pst.Pst.Lookup
import Imap2Pst.Pst.DataTree
import Imap2Pst.Pst.Counters
import Imap2Pst.Pst.RowLayout
import Imap2Pst.Pst.Checksum
import Imap2Pst.Pst.StreamingHeap
import Imap2Pst.Pst.BthShape
import Imap2Pst.Pst.Placement
import Imap2Pst.Pst.TableContext
import Imap2Pst.Pst.StreamingTable
import Imap2Pst.Pst.FullHeap
import Imap2Pst.Imap.FetchOrder
import Imap2Pst.Imap.Listing
import Imap2Pst.Imap.ModifiedUtf7
import Imap2Pst.Imap.Termination
import Imap2Pst.Imap.UidSet
import Imap2Pst.Pipeline.Placement
import Imap2Pst.Pipeline.Dates
import Imap2Pst.Pst.StoredNames
import Imap2Pst.Pst.Utf16Form
import Imap2Pst.Pst.SubnodeLookup
import Imap2Pst.Pst.StoreFile
