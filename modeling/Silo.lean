import Silo.Header
import Silo.Tid
import Silo.AbsentRange
import Silo.Node
import Silo.Write
import Silo.Capacity
import Silo.Read
import Silo.Floor
import Silo.History
import Silo.Bracket
import Silo.Lock
import Silo.Slot
import Silo.Linearizable
import Silo.Latest
import Silo.Versions
import Silo.Serial
