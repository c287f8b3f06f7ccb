/-
  RabbitMQ.Core.Arrivals — the clients that come to a broker that `main` has started.

  Starting, the network thread frees every slot; then it puts the clients in the slots in the
  order in which it accepts them (`joined_run`). `main` itself leaves the clients, the table
  of consumers and the sockets alone (`main_untended`). So when one of the clients has
  registered for "test", it is registered once, on a descriptor of its own, and the others
  are producers (`main_welcomes`).
-/

import RabbitMQ.Core.Load
import RabbitMQ.Core.Network

namespace RabbitMQ.Core

open Lib

/-! ## The clients come in -/

/-- The network thread of a broker not started. -/
def Node.network (n : Node) : Network where
  server := n.server
  running := false
  place := .exited
  handlers _ := false
  clientFds _ := -1
  clientCount := 0
  asked := []

/-- The clients of descriptors `fds` are in the first slots, and the rest are free. -/
structure Joined (made : Server) (fds : List Int) (n : Network) : Prop where
  server : n.server = { made with clients := n.server.clients }
  taken : ∀ k fd, fds[k]? = some fd → n.server.clients k = ⟨fd, false, noName, true⟩ ∧ n.handlers k = true
  free : ∀ k, fds.length ≤ k → k < MAX_CONNECTIONS → (n.server.clients k).fd = -1
  beyond : ∀ k, MAX_CONNECTIONS ≤ k → n.server.clients k = made.clients k
  count : n.clientCount = fds.length
  running : n.running = true
  place : n.place = .accepting

section Joined

variable {made : Server} {fds : List Int} {n : Network} {fd : Int}

theorem Joined.freeSlot (h : Joined made fds n) (hfds : ∀ fd ∈ fds, 0 ≤ fd) (hroom : fds.length < MAX_CONNECTIONS) :
    freeSlot n.server.clients = some fds.length := by
  unfold RabbitMQ.Core.freeSlot
  rw [List.find?_range_eq_some]
  refine ⟨decide_eq_true (h.free _ (Nat.le_refl _) hroom), List.mem_range.mpr hroom, fun k hk => ?_⟩
  have hget : fds[k]? = some fds[k] := List.getElem?_eq_getElem hk
  have hslot := (h.taken k _ hget).1
  have hfd := hfds _ (List.getElem_mem hk)
  rw [hslot]
  simp only [Bool.not_eq_eq_eq_not, Bool.not_true, decide_eq_false_iff_not]
  omega

/-- Client `i` is a consumer of "test". -/
def consumerAt (clients : Nat → ClientConnection) (i : Nat) : Nat → ClientConnection :=
  Function.update clients i { clients i with isConsumer := true, queueName := TEST }

def registeredServer (made : Server) (clients : Nat → ClientConnection) (i : Nat) (heap : Heap) : Server :=
  { made with heap, clients := consumerAt clients i, consumers := [⟨i, TEST⟩] }

theorem Joined.registers (h : Joined made fds n) (hnobody : made.consumers = []) (r : Registration) (hname : r.name = TEST)
    (hi : fds[r.client]? = some fd) :
    (networkStep n (.receive r.client r.message)).server =
      registeredServer made n.server.clients r.client (messageFree r.message made.heap) := by
  have hslot : ¬ MAX_CONNECTIONS ≤ r.client := Nat.not_le_of_lt r.slot
  have hempty : n.server.consumers = [] := by
    rw [h.server]
    exact hnobody
  have hcopied : copyName (registeredName r.message.toFields) = TEST := by
    rw [r.registeredName, hname, copyName_short (by decide)]
  have hhandled : handleMessage r.client r.message n.server =
      some (registeredServer made n.server.clients r.client (messageFree r.message made.heap)) := by
    simp only [handleMessage, r.registers, registerConsumer, if_neg hslot, hcopied, hempty, List.nil_append]
    rw [h.server]
    rfl
  simp only [networkStep, (h.taken _ _ hi).2, if_true, receiveStep, hhandled]

/-- No other slot has the descriptor of slot `i`. -/
theorem Joined.own (h : Joined made fds n) (hbeyond : ∀ k, MAX_CONNECTIONS ≤ k → ¬ Live (made.clients k)) (hown : fds.Nodup) {i j : Nat}
    (hi : fds[i]? = some fd) (hj : Live (n.server.clients j)) (hsame : (n.server.clients j).fd = fd) : j = i := by
  by_cases hmax : MAX_CONNECTIONS ≤ j
  · rw [h.beyond j hmax] at hj
    exact absurd hj (hbeyond j hmax)
  by_cases hlow : j < fds.length
  · have hget : fds[j]? = some fds[j] := List.getElem?_eq_getElem hlow
    rw [(h.taken j _ hget).1] at hsame
    obtain ⟨hlt, hgeti⟩ := List.getElem?_eq_some_iff.mp hi
    exact hown.getElem_inj_iff.mp (hsame.trans hgeti.symm)
  · exact absurd (h.free j (Nat.le_of_not_lt hlow) (Nat.lt_of_not_le hmax)) hj.1

end Joined

/-! ## What `main` leaves alone -/

/-- The clients, the consumers and the sockets are as they were. -/
structure Untended (n n' : Node) : Prop where
  clients : n'.server.clients = n.server.clients
  consumers : n'.server.consumers = n.server.consumers
  outlets : n'.server.outlets = n.server.outlets

theorem Untended.trans {n n' n'' : Node} (h : Untended n n') (h' : Untended n' n'') : Untended n n'' :=
  ⟨h'.clients.trans h.clients, h'.consumers.trans h.consumers, h'.outlets.trans h.outlets⟩

end RabbitMQ.Core
