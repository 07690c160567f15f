import Pithos.Text
import Pithos.Schema
import Pithos.Statistics
import Pithos.Node
import Pithos.Tree
import Pithos.Serial
import Pithos.Rollup
import Pithos.Latest
import Pithos.Filters
import Pithos.Listing
import Pithos.Scan
import Pithos.Cascade
import Pithos.Integrity
import Pithos.Bookkeeping
import Pithos.Balance
import Pithos.Readback
import Pithos.Removal
import Pithos.Projection
