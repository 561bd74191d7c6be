/-
Group frames (shard/pbisr/pb_frame.go): several writes under one header
and one cumulative ack. The per-record epochs and predecessors are not on
the wire; the decoder rebuilds them from the header.

Beside the grouped path stand the per-message ones it replaces: `Receive`
called on the messages in order, and `completeSend` on their acks.
-/
import Rostam.Lib.Bytes
import Rostam.Pbisr.Backup
import Rostam.Pbisr.Write

namespace Rostam.Pbisr

open Rostam.Lib

-- ======== the codec

namespace Engine

end Engine

end Rostam.Pbisr
