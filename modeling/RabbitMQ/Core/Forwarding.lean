/-
  RabbitMQ.Core.Forwarding — whom `forward_message_to_consumers` sends to.

  The clients it tries are told by the tables alone (`targets`): the live clients with an
  entry under the queue's name, in the order of the entries. With the counter `forwarded`,
  which the source keeps for its log, the function is one send after another to these
  (`forward_counting`).
-/

import RabbitMQ.Core.Framing
import RabbitMQ.Core.Routing

namespace RabbitMQ.Core

open Lib

/-- The loop's test that a client is still connected. -/
def Live (c : ClientConnection) : Prop := c.fd ≠ -1 ∧ c.running = true

instance (c : ClientConnection) : Decidable (Live c) := inferInstanceAs (Decidable (_ ∧ _))

def targets (s : Server) (queueName : CString) : List Nat :=
  (s.consumers.filter fun c => c.queueName = queueName ∧ Live (s.clients c.clientIndex)).map (·.clientIndex)

theorem mem_targets {s : Server} {queueName : CString} {i : Nat} :
    i ∈ targets s queueName ↔ ⟨i, queueName⟩ ∈ s.consumers ∧ Live (s.clients i) := by
  simp only [targets, List.mem_map, List.mem_filter, decide_eq_true_eq]
  constructor
  · intro h
    rcases h with ⟨⟨j, name⟩, ⟨hc, hname, hlive⟩, rfl⟩
    exact ⟨by rw [← hname]; exact hc, hlive⟩
  · intro h
    exact ⟨⟨i, queueName⟩, ⟨h.1, rfl, h.2⟩, rfl⟩

theorem targets_congr {s s' : Server} (hconsumers : s'.consumers = s.consumers) (hclients : s'.clients = s.clients)
    (queueName : CString) : targets s' queueName = targets s queueName := by
  rw [targets, targets, hconsumers, hclients]

/-- One send, with the counter. -/
def forwardTo (m : Message) (r : Server × Nat) (client : Nat) : Option (Server × Nat) :=
  let fd := (r.1.clients client).fd
  (sendMessageData fd m.toFields (r.1.outlets fd)).map fun sent =>
    ({ r.1 with outlets := Function.update r.1.outlets fd sent.2 }, if sent.1 ≠ 0 then r.2 + 1 else r.2)

def forwardCounting (queueName : Option CString) (m : Message) (s : Server) : Option (Server × Nat) :=
  match queueName with
  | none => some (s, 0)
  | some queueName => (targets s queueName).foldlM (forwardTo m) (s, 0)

theorem forwardTo_outlets {m : Message} {r r' : Server × Nat} {i : Nat} (h : forwardTo m r i = some r') :
    ∃ outlets, r'.1 = { r.1 with outlets } := by
  obtain ⟨sent, -, rfl⟩ := Option.map_eq_some_iff.mp h
  exact ⟨_, rfl⟩

theorem forwardTos_outlets {m : Message} {is : List Nat} {r r' : Server × Nat}
    (h : is.foldlM (forwardTo m) r = some r') : ∃ outlets, r'.1 = { r.1 with outlets } := by
  induction is generalizing r with
  | nil => exact ⟨r.1.outlets, by rw [← Option.some.inj h]⟩
  | cons i is ih =>
    rw [List.foldlM_cons, Option.bind_eq_bind, Option.bind_eq_some_iff] at h
    obtain ⟨r1, h1, h2⟩ := h
    obtain ⟨o1, e1⟩ := forwardTo_outlets h1
    obtain ⟨o2, e2⟩ := ih h2
    exact ⟨o2, by rw [e2, e1]⟩

theorem counting_outlets {queueName : Option CString} {m : Message} {s s' : Server} {n : Nat}
    (h : forwardCounting queueName m s = some (s', n)) : ∃ outlets, s' = { s with outlets } := by
  cases queueName with
  | none => exact ⟨s.outlets, (Prod.mk.inj (Option.some.inj h)).1.symm⟩
  | some name => exact forwardTos_outlets h

theorem forwardStep_sends {queueName : CString} {m : Message} {s : Server} {c : ConsumerInfo} (n : Nat)
    (h : c.queueName = queueName ∧ Live (s.clients c.clientIndex)) :
    forwardStep queueName m s c = (forwardTo m (s, n) c.clientIndex).map (·.1) := by
  have hlive : (s.clients c.clientIndex).fd ≠ -1 ∧ (s.clients c.clientIndex).running = true := h.2
  rw [forwardStep, if_pos h.1]
  simp only [if_pos hlive, forwardTo, Option.map_map]
  rfl

theorem forwardStep_skips {queueName : CString} {m : Message} {s : Server} {c : ConsumerInfo}
    (h : ¬ (c.queueName = queueName ∧ Live (s.clients c.clientIndex))) : forwardStep queueName m s c = some s := by
  rw [forwardStep]
  by_cases hname : c.queueName = queueName
  · rw [if_pos hname]
    exact if_neg fun hlive => h ⟨hname, hlive⟩
  · rw [if_neg hname]

/-- Entries under another name and clients that are gone are passed over. -/
theorem forwardSteps_counting (queueName : CString) (m : Message) (cs : List ConsumerInfo) (s : Server) (n : Nat) :
    cs.foldlM (forwardStep queueName m) s =
      (((cs.filter fun c => c.queueName = queueName ∧ Live (s.clients c.clientIndex)).map (·.clientIndex)).foldlM
        (forwardTo m) (s, n)).map (·.1) := by
  induction cs generalizing s n with
  | nil => rfl
  | cons c cs ih =>
    rw [List.foldlM_cons, List.filter_cons]
    by_cases h : c.queueName = queueName ∧ Live (s.clients c.clientIndex)
    · rw [if_pos (decide_eq_true h), forwardStep_sends n h, List.map_cons, List.foldlM_cons]
      cases hsend : forwardTo m (s, n) c.clientIndex with
      | none => rfl
      | some r =>
        obtain ⟨outlets, e⟩ := forwardTo_outlets hsend
        have hclients : r.1.clients = s.clients := by rw [e]
        have hrest := ih r.1 r.2
        rw [hclients] at hrest
        exact hrest
    · have hno : ¬ decide (c.queueName = queueName ∧ Live (s.clients c.clientIndex)) = true := by simpa using h
      rw [if_neg hno, forwardStep_skips h]
      exact ih s n

theorem forward_counting (queueName : Option CString) (m : Message) (s : Server) :
    forwardMessageToConsumers queueName m s = (forwardCounting queueName m s).map (·.1) := by
  cases queueName with
  | none => rfl
  | some name => exact forwardSteps_counting name m s.consumers s 0

end RabbitMQ.Core
