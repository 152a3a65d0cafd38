import CommonChat.Frontend.Views
import CommonChat.Network.Delivery

/-!
# Reading a message where it was written

The page shows one room or one conversation at a time, `visibleMessages`.  Among
shipped clients a message that was written in a room is shown in that room by every
tab that lists it, and in no other place.  One that was written in a conversation
is shown in that conversation, on either side under the name of the other.
-/

namespace CommonChat.Frontend

open CommonChat.Foundation
open CommonChat.Core
open CommonChat.Relay

variable {H : Host}

namespace Tab

end Tab

/-! ## The mark of the author -/

def Marked (me : JsString) (e : ChatMessage) : Prop :=
  ∃ p, e.peerId = .str p ∧ e.fromMe = .bool (p == me)

theorem Marked.throughJson {me : JsString} {e : ChatMessage} (h : Marked me e) :
    Marked me e.throughJson := by
  obtain ⟨p, hp, hfrom⟩ := h
  refine ⟨p, (JsValue.throughJson_eq_str_iff _ _).mpr hp, ?_⟩
  rw [ChatMessage.throughJson, hfrom]
  rfl

end CommonChat.Frontend

namespace CommonChat.Network.World

open CommonChat.Foundation
open CommonChat.Core
open CommonChat.Relay
open CommonChat.Frontend

variable {H : Host}

/-! ## Runs -/

end CommonChat.Network.World
