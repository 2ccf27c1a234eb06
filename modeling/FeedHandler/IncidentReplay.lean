import FeedHandler.DiskFaults
import FeedHandler.TickCounter

namespace FeedHandler

open Interleaving BoundedFifo ByteOrder ByteStream

variable {R : RingSize} {book : OrderBook}

/-- One bid after the other, each at its own price. -/
def bids (n : Nat) : List NormalizedTick :=
  (List.range n).map fun i => bidTick (.ofNat (100 + i)) 1 (.ofNat (i + 1))

end FeedHandler
