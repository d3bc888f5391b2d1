import MongrelDB.Contract.Absent
import MongrelDB.Contract.Asks
import MongrelDB.Contract.Credentials
import MongrelDB.Contract.Errors
import MongrelDB.Contract.Floats
import MongrelDB.Contract.Fragments
import MongrelDB.Contract.Frames
import MongrelDB.Contract.Grammar
import MongrelDB.Contract.Handles
import MongrelDB.Contract.Indexes
import MongrelDB.Contract.Integers
import MongrelDB.Contract.Names
import MongrelDB.Contract.Order
import MongrelDB.Contract.Pages
import MongrelDB.Contract.Paths
import MongrelDB.Contract.Prefixes
import MongrelDB.Contract.Repeated
import MongrelDB.Contract.Rewritten
import MongrelDB.Contract.RoundTrip
import MongrelDB.Contract.Routes
import MongrelDB.Contract.Safety
import MongrelDB.Contract.Serialized
import MongrelDB.Contract.Sessions
import MongrelDB.Contract.Strings
import MongrelDB.Contract.Transfers
import MongrelDB.Contract.Work
