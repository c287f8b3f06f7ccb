/-
  RabbitMQ.Core.Entries — what registrations make of the consumers table.

  The table takes every registration, up to `MAX_CONNECTIONS`, in the order they come. It is
  always within its bound, and its entries refer to slots marked as consumers. Nothing looks
  whether a client is there already under the name: a message goes to each client at most
  once exactly when no client repeats itself among those taken (`one_frame_each_iff`,
  `a_client_registered_twice_is_sent_two`).
-/

import Mathlib.Data.List.Dedup
import RabbitMQ.Core.Consumers

namespace RabbitMQ.Core

open Lib

/-! ## Any registrations -/

/-- A message from client `client` that its handler takes for a registration. -/
structure Registers where
  client : Nat
  message : Message
  slot : client < MAX_CONNECTIONS
  registers : isRegistration message.toFields = some true

/-- What the table is to hold for it. -/
def Registers.entry (r : Registers) : ConsumerInfo := ⟨r.client, copyName (registeredName r.message.toFields)⟩

def registerEach (regs : List Registers) (s : Server) : Option Server :=
  regs.foldlM (fun s r => handleMessage r.client r.message s) s

/-- The table is within its bound, and refers to slots that are marked as consumers. -/
structure Listed (s : Server) : Prop where
  count : s.consumers.length ≤ MAX_CONNECTIONS
  marked : ∀ c ∈ s.consumers, c.clientIndex < MAX_CONNECTIONS ∧ (s.clients c.clientIndex).isConsumer = true

/-- A registration adds its entry, if there is room for one. -/
theorem handle_registers (r : Registers) (s : Server) : ∃ s', handleMessage r.client r.message s = some s' ∧
    s'.consumers = s.consumers ++ [r.entry].take (MAX_CONNECTIONS - s.consumers.length) ∧ (Listed s → Listed s') := by
  have hslot : ¬ MAX_CONNECTIONS ≤ r.client := Nat.not_le_of_lt r.slot
  simp only [handleMessage, r.registers, registerConsumer, if_neg hslot]
  by_cases hfull : MAX_CONNECTIONS ≤ s.consumers.length
  · rw [if_pos hfull]
    refine ⟨_, rfl, ?_, fun h => ⟨h.count, h.marked⟩⟩
    rw [Nat.sub_eq_zero_of_le hfull, List.take_zero, List.append_nil]
  · rw [if_neg hfull]
    refine ⟨_, rfl, ?_, fun h => ⟨?_, ?_⟩⟩
    · rw [List.take_of_length_le (by rw [List.length_singleton]; omega)]
      rfl
    · show (s.consumers ++ [_]).length ≤ MAX_CONNECTIONS
      rw [List.length_append, List.length_singleton]
      omega
    · intro c hc
      by_cases hi : c.clientIndex = r.client
      · rw [hi]
        exact ⟨r.slot, by simp only [Function.update_self]⟩
      · rcases List.mem_append.mp hc with hc | hc
        · simp only [Function.update_of_ne hi]
          exact h.marked c hc
        · rw [List.mem_singleton.mp hc] at hi
          exact absurd rfl hi

theorem registerEach_entries (regs : List Registers) (s : Server) : ∃ s', registerEach regs s = some s' ∧
    s'.consumers = s.consumers ++ (regs.map Registers.entry).take (MAX_CONNECTIONS - s.consumers.length) ∧
      (Listed s → Listed s') := by
  induction regs generalizing s with
  | nil => exact ⟨s, rfl, by rw [List.map_nil, List.take_nil, List.append_nil], id⟩
  | cons r regs ih =>
    obtain ⟨s1, h1, hc1, hl1⟩ := handle_registers r s
    obtain ⟨s2, h2, hc2, hl2⟩ := ih s1
    refine ⟨s2, ?_, ?_, fun h => hl2 (hl1 h)⟩
    · rw [registerEach, List.foldlM_cons, h1]
      exact h2
    · rw [hc2, hc1, List.append_assoc, List.map_cons]
      congr 1
      by_cases hfull : MAX_CONNECTIONS ≤ s.consumers.length
      · rw [Nat.sub_eq_zero_of_le hfull, List.take_zero, List.take_zero, List.append_nil, Nat.sub_eq_zero_of_le hfull,
          List.take_zero, List.nil_append]
      · obtain ⟨d, hd⟩ : ∃ d, MAX_CONNECTIONS - s.consumers.length = d + 1 := ⟨MAX_CONNECTIONS - s.consumers.length - 1, by omega⟩
        have hrest : MAX_CONNECTIONS - (s.consumers ++ [r.entry]).length = d := by
          rw [List.length_append, List.length_singleton]
          omega
        rw [hd, List.take_succ_cons, List.take_succ_cons, List.take_nil, hrest, List.singleton_append]

/-! ## One frame each -/

/-- The names client `i` asked to be registered under, as the table keeps them. -/
def namesOf (regs : List Registers) (i : Nat) : List CString :=
  ((regs.map Registers.entry).filter (·.clientIndex = i)).map (·.queueName)

/-- No entry is there twice; so a message goes to each client at most once, and a client has
    no more entries than names. -/
structure OneFrameEach (regs : List Registers) (s : Server) : Prop extends Listed s where
  once : s.consumers.Nodup
  frames : ∀ name, (targets s name).Nodup
  share : ∀ i, s.consumers.countP (·.clientIndex = i) ≤ (namesOf regs i).dedup.length

theorem targets_nodup {s : Server} (h : s.consumers.Nodup) (name : CString) : (targets s name).Nodup := by
  refine (h.filter _).map_on fun c hc c' hc' he => ?_
  obtain ⟨-, hname⟩ := List.mem_filter.mp hc
  obtain ⟨-, hname'⟩ := List.mem_filter.mp hc'
  have hname := (of_decide_eq_true hname).1
  have hname' := (of_decide_eq_true hname').1
  obtain ⟨i, n⟩ := c
  obtain ⟨i', n'⟩ := c'
  cases hname
  cases hname'
  cases he
  rfl

/-- A client's entries have different names, all asked for. -/
theorem entries_le {regs : List Registers} {cs : List ConsumerInfo} (h : cs.Nodup) (hsub : cs ⊆ regs.map Registers.entry)
    (i : Nat) : cs.countP (·.clientIndex = i) ≤ (namesOf regs i).dedup.length := by
  have hnames : ((cs.filter (·.clientIndex = i)).map (·.queueName)).Nodup := by
    refine (h.filter _).map_on fun c hc c' hc' he => ?_
    have hi := of_decide_eq_true (List.mem_filter.mp hc).2
    have hi' := of_decide_eq_true (List.mem_filter.mp hc').2
    obtain ⟨j, n⟩ := c
    obtain ⟨j', n'⟩ := c'
    cases hi
    cases hi'
    cases he
    rfl
  have hmem : (cs.filter (·.clientIndex = i)).map (·.queueName) ⊆ (namesOf regs i).dedup := by
    intro name hname
    obtain ⟨c, hc, rfl⟩ := List.mem_map.mp hname
    obtain ⟨hc, hi⟩ := List.mem_filter.mp hc
    exact List.mem_dedup.mpr (List.mem_map_of_mem (List.mem_filter.mpr ⟨hsub hc, hi⟩))
  have hle := (List.subperm_of_subset hnames hmem).length_le
  rwa [List.length_map, ← List.countP_eq_length_filter] at hle

/-- After any registrations: what forwarding does, and when it does it once for each client. -/
theorem one_frame_each_iff (regs : List Registers) {s : Server} (hnew : s.consumers = []) :
    ∃ s', registerEach regs s = some s' ∧ Listed s' ∧
      (∀ name m, forwardMessageToConsumers (some name) m s' = ((targets s' name).foldlM (forwardTo m) (s', 0)).map (·.1)) ∧
        (OneFrameEach regs s' ↔ ((regs.map Registers.entry).take MAX_CONNECTIONS).Nodup) := by
  obtain ⟨s', hrun, hc, hl⟩ := registerEach_entries regs s
  rw [hnew, List.nil_append, List.length_nil, Nat.sub_zero] at hc
  have hlisted : Listed s' := by
    apply hl
    constructor
    · rw [hnew]
      exact Nat.zero_le _
    · rw [hnew]
      exact fun c hc => absurd hc List.not_mem_nil
  refine ⟨s', hrun, hlisted, fun name m => forward_counting (some name) m s', ?_⟩
  rw [← hc]
  constructor
  · exact fun h => h.once
  · intro h
    have hsub : s'.consumers ⊆ regs.map Registers.entry := by
      rw [hc]
      exact List.take_subset _ _
    exact ⟨hlisted, h, targets_nodup h, entries_le h hsub⟩

theorem first_slot : 0 < MAX_CONNECTIONS := by decide

/-- Client 0 registers for the queue "a". -/
def registersOnce : Registers :=
  ⟨0, (registrationOf 0 first_slot).message, first_slot, (registrationOf 0 first_slot).registers⟩

/-- The second registration adds a second entry, and a message of the queue is sent twice. -/
theorem a_client_registered_twice_is_sent_two : ∃ s', registerEach [registersOnce, registersOnce] (namedQueue 0) = some s' ∧
    targets s' (longName 0) = [0, 0] ∧ ¬ OneFrameEach [registersOnce, registersOnce] s' := by
  have hrun : ∃ s', registerEach [registersOnce, registersOnce] (namedQueue 0) = some s' ∧
      targets s' (longName 0) = [0, 0] := ⟨_, rfl, by decide +kernel⟩
  obtain ⟨s', hrun, htwo⟩ := hrun
  refine ⟨s', hrun, htwo, ?_⟩
  intro hone
  have hnodup := hone.frames (longName 0)
  rw [htwo] at hnodup
  exact absurd hnodup (by decide)

theorem one_frame_each_when_registered_once : ∃ s', registerEach [registersOnce] (namedQueue 0) = some s' ∧ Listed s' ∧
    (∀ name m, forwardMessageToConsumers (some name) m s' = ((targets s' name).foldlM (forwardTo m) (s', 0)).map (·.1)) ∧
      (OneFrameEach [registersOnce] s' ↔ (([registersOnce].map Registers.entry).take MAX_CONNECTIONS).Nodup) :=
  one_frame_each_iff [registersOnce] rfl

end RabbitMQ.Core
