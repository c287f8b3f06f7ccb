/-
  RabbitMQ.Core.Consumers — the names clients register under.

  A registration's body is a queue's name. It is cut to 63 bytes on its way into the table,
  twice, and compared there with the whole name of the queue.

  Proved: after any registrations the clients a message of a queue is sent to are those that
  registered its name, exactly when no name longer than 63 bytes gets in the way
  (`registrations_agree_iff`, `a_name_of_64_bytes_is_missed`).
-/

import RabbitMQ.Core.Forwarding

namespace RabbitMQ.Core

open Lib

/-! ## Names -/

theorem ofBuffer_take (s : CString) (n : Nat) : (CString.ofBuffer (s.bytes.take n)).bytes = s.bytes.take n := by
  have hfree : 0 ∉ s.bytes.take n := fun h => s.nulFree (List.mem_of_mem_take h)
  exact congrArg CString.bytes (CString.ofBuffer_bytes ⟨s.bytes.take n, hfree⟩)

theorem copyName_bytes (s : CString) : (copyName s).bytes = s.bytes.take 63 := ofBuffer_take s 63

theorem copyName_short {s : CString} (h : s.strlen ≤ 63) : copyName s = s :=
  CString.ext (by rw [copyName_bytes, List.take_of_length_le h])

theorem copyName_strlen (s : CString) : (copyName s).strlen ≤ 63 := by
  rw [CString.strlen, copyName_bytes, List.length_take]
  exact Nat.min_le_left _ _

/-! ## The table -/

theorem registerConsumer_frame (client : Nat) (queueName : CString) (s : Server) :
    (registerConsumer client queueName s).2.queues = s.queues ∧ (registerConsumer client queueName s).2.broker = s.broker ∧
      (registerConsumer client queueName s).2.outlets = s.outlets ∧
      ∀ i, ((registerConsumer client queueName s).2.clients i).fd = (s.clients i).fd ∧
        ((registerConsumer client queueName s).2.clients i).running = (s.clients i).running := by
  unfold registerConsumer
  split
  · exact ⟨rfl, rfl, rfl, fun _ => ⟨rfl, rfl⟩⟩
  split
  · exact ⟨rfl, rfl, rfl, fun _ => ⟨rfl, rfl⟩⟩
  refine ⟨rfl, rfl, rfl, fun i => ?_⟩
  by_cases hi : i = client
  · subst hi
    simp only [Function.update_self, and_self]
  · simp only [Function.update_of_ne hi, and_self]

theorem registerConsumer_indices {client : Nat} {queueName : CString} {s : Server}
    (h : ∀ c ∈ s.consumers, c.clientIndex < MAX_CONNECTIONS) :
    ∀ c ∈ (registerConsumer client queueName s).2.consumers, c.clientIndex < MAX_CONNECTIONS := by
  unfold registerConsumer
  split
  · exact h
  split
  · exact h
  rename_i hslot _
  intro c hc
  rcases List.mem_append.mp hc with hc | hc
  · exact h c hc
  · rw [List.mem_singleton.mp hc]
    exact Nat.lt_of_not_le hslot

/-- The new entry, if the table takes it, adds its client to the targets of its name. -/
theorem mem_targets_register {client : Nat} {queueName : CString} {s : Server} {name : CString} {i : Nat} :
    i ∈ targets (registerConsumer client queueName s).2 name ↔ i ∈ targets s name ∨
      (client < MAX_CONNECTIONS ∧ s.consumers.length < MAX_CONNECTIONS ∧ i = client ∧ name = copyName queueName ∧
        Live (s.clients client)) := by
  have hlive : Live ((registerConsumer client queueName s).2.clients i) ↔ Live (s.clients i) := by
    obtain ⟨-, -, -, hclients⟩ := registerConsumer_frame client queueName s
    rw [Live, Live, (hclients i).1, (hclients i).2]
  rw [mem_targets, mem_targets, hlive]
  by_cases hslot : MAX_CONNECTIONS ≤ client
  · have hno : (registerConsumer client queueName s).2.consumers = s.consumers := by
      simp only [registerConsumer, if_pos hslot]
    rw [hno]
    have hnot : ¬ client < MAX_CONNECTIONS := Nat.not_lt_of_le hslot
    simp [hnot]
  by_cases hfull : MAX_CONNECTIONS ≤ s.consumers.length
  · have hno : (registerConsumer client queueName s).2.consumers = s.consumers := by
      simp only [registerConsumer, if_neg hslot, if_pos hfull]
    rw [hno]
    have hnot : ¬ s.consumers.length < MAX_CONNECTIONS := Nat.not_lt_of_le hfull
    simp [hnot]
  have hadd : (registerConsumer client queueName s).2.consumers = s.consumers ++ [⟨client, copyName queueName⟩] := by
    simp only [registerConsumer, if_neg hslot, if_neg hfull]
  rw [hadd, List.mem_append, List.mem_singleton, ConsumerInfo.mk.injEq]
  constructor
  · intro h
    obtain ⟨hold | ⟨rfl, rfl⟩, hl⟩ := h
    · exact Or.inl ⟨hold, hl⟩
    · exact Or.inr ⟨Nat.lt_of_not_le hslot, Nat.lt_of_not_le hfull, rfl, rfl, hl⟩
  · intro h
    rcases h with ⟨hold, hl⟩ | ⟨-, -, rfl, rfl, hl⟩
    · exact ⟨Or.inl hold, hl⟩
    · exact ⟨Or.inr ⟨rfl, rfl⟩, hl⟩

/-! ## Registrations -/

/-- A message from client `client` that registers it under `name`. -/
structure Registration where
  client : Nat
  name : CString
  message : Message
  slot : client < MAX_CONNECTIONS
  exchange : message.exchange = some CONSUMER
  routingKey : message.routingKey = some REGISTER
  body : message.body = some name.bytes
  bodySize : message.bodySize.toNat = name.strlen
  nonempty : name.bytes ≠ []

theorem Registration.registers (r : Registration) : isRegistration r.message.toFields = some true := by
  have hpos : 0 < r.message.bodySize := by
    rw [UInt64.lt_iff_toNat_lt, r.bodySize]
    exact List.length_pos_iff.mpr r.nonempty
  have hsome : r.message.body.isSome = true := by rw [r.body]; rfl
  simp only [isRegistration, r.exchange, r.routingKey, strcmpEq, decide_true, Option.map_some, hsome, hpos, Bool.and_true]

theorem Registration.registeredName (r : Registration) : copyName (registeredName r.message.toFields) = copyName r.name := by
  have hcut : (RabbitMQ.Core.registeredName r.message.toFields).bytes = r.name.bytes.take 63 := by
    simp only [RabbitMQ.Core.registeredName, r.body, Option.getD_some, ofBuffer_take, r.bodySize]
    rw [CString.strlen, Nat.min_comm, ← List.take_take, List.take_length]
  apply CString.ext
  rw [copyName_bytes, copyName_bytes, hcut, List.take_take, Nat.min_self]

/-- The table's entry for a registration. -/
def Registration.entry (r : Registration) : ConsumerInfo := ⟨r.client, copyName r.name⟩

def registerAll (regs : List Registration) (s : Server) : Option Server :=
  regs.foldlM (fun s r => handleMessage r.client r.message s) s

/-- While the table has room a registration adds its entry; who is connected stays. -/
theorem handle_registration (r : Registration) {s : Server} (hroom : s.consumers.length < MAX_CONNECTIONS) :
    ∃ s', handleMessage r.client r.message s = some s' ∧ s'.consumers = s.consumers ++ [r.entry] ∧
      s'.queues = s.queues ∧ ∀ i, Live (s'.clients i) ↔ Live (s.clients i) := by
  have hslot : ¬ MAX_CONNECTIONS ≤ r.client := Nat.not_le_of_lt r.slot
  simp only [handleMessage, r.registers, registerConsumer, if_neg hslot, if_neg (Nat.not_le_of_lt hroom),
    Registration.registeredName]
  refine ⟨_, rfl, rfl, rfl, fun i => ?_⟩
  by_cases hi : i = r.client
  · subst hi
    simp only [Function.update_self]
    exact Iff.rfl
  · simp only [Function.update_of_ne hi]

theorem registerAll_entries (regs : List Registration) {s : Server}
    (hroom : s.consumers.length + regs.length ≤ MAX_CONNECTIONS) :
    ∃ s', registerAll regs s = some s' ∧ s'.consumers = s.consumers ++ regs.map Registration.entry ∧
      s'.queues = s.queues ∧ ∀ i, Live (s'.clients i) ↔ Live (s.clients i) := by
  induction regs generalizing s with
  | nil => exact ⟨s, rfl, (List.append_nil _).symm, rfl, fun _ => Iff.rfl⟩
  | cons r regs ih =>
    rw [List.length_cons] at hroom
    obtain ⟨s1, h1, hc1, hq1, hl1⟩ := handle_registration r (s := s) (by omega)
    have hroom1 : s1.consumers.length + regs.length ≤ MAX_CONNECTIONS := by
      rw [hc1, List.length_append, List.length_singleton]
      omega
    obtain ⟨s2, h2, hc2, hq2, hl2⟩ := ih hroom1
    refine ⟨s2, ?_, ?_, hq2.trans hq1, fun i => (hl2 i).trans (hl1 i)⟩
    · rw [registerAll, List.foldlM_cons, h1]
      exact h2
    · rw [hc2, hc1, List.append_assoc, List.map_cons]
      rfl

/-! ## Whom a queue's messages are sent to -/

/-- A send of a message of a queue named `name` is attempted to a live client exactly when
    the client registered that name. -/
def AgreesOn (regs : List Registration) (s : Server) (name : CString) : Prop :=
  ∀ i, Live (s.clients i) → (i ∈ targets s name ↔ ∃ r ∈ regs, r.client = i ∧ r.name = name)

/-- A name of more than 63 bytes that a live client registered is not the queue's, nor are
    its first 63 bytes unless the client registered these too. -/
def NamesFit (regs : List Registration) (s : Server) (name : CString) : Prop :=
  ∀ r ∈ regs, Live (s.clients r.client) → 63 < r.name.strlen →
    r.name ≠ name ∧ (copyName r.name = name → ∃ r' ∈ regs, r'.client = r.client ∧ r'.name = name)

theorem agreesOn_iff {regs : List Registration} {s s' : Server} (hc : s'.consumers = regs.map Registration.entry)
    (hl : ∀ i, Live (s'.clients i) ↔ Live (s.clients i)) (name : CString) :
    AgreesOn regs s' name ↔ NamesFit regs s name := by
  have htargets : ∀ i, Live (s'.clients i) →
      (i ∈ targets s' name ↔ ∃ r ∈ regs, r.client = i ∧ copyName r.name = name) := by
    intro i hi
    rw [mem_targets, hc, List.mem_map]
    constructor
    · intro h
      obtain ⟨⟨r, hr, he⟩, -⟩ := h
      cases he
      exact ⟨r, hr, rfl, rfl⟩
    · intro h
      obtain ⟨r, hr, rfl, rfl⟩ := h
      exact ⟨⟨r, hr, rfl⟩, hi⟩
  constructor
  · intro hagree r hr hlive hlong
    have hlive' := (hl r.client).mpr hlive
    have hiff := (htargets r.client hlive').symm.trans (hagree r.client hlive')
    refine ⟨?_, fun he => hiff.mp ⟨r, hr, rfl, he⟩⟩
    intro he
    obtain ⟨r', -, -, hcut⟩ := hiff.mpr ⟨r, hr, rfl, he⟩
    have hle := copyName_strlen r'.name
    rw [hcut, ← he] at hle
    omega
  · intro hfit i hi
    rw [htargets i hi]
    constructor
    · intro h
      obtain ⟨r, hr, rfl, he⟩ := h
      by_cases hlong : 63 < r.name.strlen
      · exact (hfit r hr ((hl r.client).mp hi) hlong).2 he
      · exact ⟨r, hr, rfl, by rw [← he, copyName_short (by omega)]⟩
    · intro h
      obtain ⟨r, hr, rfl, he⟩ := h
      have hshort : r.name.strlen ≤ 63 := by
        by_contra hlong
        exact (hfit r hr ((hl r.client).mp hi) (by omega)).1 he
      exact ⟨r, hr, rfl, by rw [copyName_short hshort, he]⟩

/-- For every queue: what forwarding does, and when that is what was registered for. -/
theorem registrations_agree_iff (regs : List Registration) {s : Server} (hnew : s.consumers = [])
    (hfew : regs.length < MAX_CONNECTIONS) : ∃ s', registerAll regs s = some s' ∧
      ∀ q name, (s'.queues q).name = some name →
        (∀ m, forwardMessageToConsumers (some name) m s' = ((targets s' name).foldlM (forwardTo m) (s', 0)).map (·.1)) ∧
          (AgreesOn regs s' name ↔ NamesFit regs s name) := by
  have hroom : s.consumers.length + regs.length ≤ MAX_CONNECTIONS := by
    rw [hnew, List.length_nil]
    omega
  obtain ⟨s', hrun, hc, -, hl⟩ := registerAll_entries regs hroom
  rw [hnew, List.nil_append] at hc
  exact ⟨s', hrun, fun _ name _ => ⟨fun m => forward_counting (some name) m s', agreesOn_iff hc hl name⟩⟩

/-- `n + 1` letters. -/
def longName (n : Nat) : CString := ⟨List.replicate (n + 1) 97, by simp⟩

/-- Client 0 registers under a name of `n + 1` letters. -/
def registrationOf (n : Nat) (h : n < 100) : Registration where
  client := 0
  name := longName n
  message := ⟨⟨some CONSUMER, some REGISTER, some (longName n).bytes, UInt64.ofNat (n + 1), 0, 0, 0⟩, ⟨1, .message⟩, []⟩
  slot := by decide
  exchange := rfl
  routingKey := rfl
  body := rfl
  bodySize := by
    rw [UInt64.toNat_ofNat_of_lt' (by simp [UInt64.size]; omega)]
    exact (List.length_replicate).symm
  nonempty := by simp [longName]

/-- A server whose only queue is named by `n + 1` letters. -/
def namedQueue (n : Nat) : Server := serverWith (fun _ => { emptyQueue with name := some (longName n) }) [] (Nat.zero_le _)

/-- The queue of 64 letters is registered for, and what it gets is sent to nobody. -/
theorem a_name_of_64_bytes_is_missed : ∃ s', registerAll [registrationOf 63 (by decide)] (namedQueue 63) = some s' ∧
    (s'.queues 0).name = some (longName 63) ∧
    ¬ AgreesOn [registrationOf 63 (by decide)] s' (longName 63) := by
  have hrun : ∃ s', registerAll [registrationOf 63 (by decide)] (namedQueue 63) = some s' ∧
      (s'.queues 0).name = some (longName 63) ∧ Live (s'.clients 0) ∧ 0 ∉ targets s' (longName 63) :=
    ⟨_, rfl, by decide +kernel, by decide +kernel, by decide +kernel⟩
  obtain ⟨s', hrun, hname, hlive, hno⟩ := hrun
  refine ⟨s', hrun, hname, ?_⟩
  intro hagree
  exact hno ((hagree 0 hlive).mpr ⟨_, List.mem_singleton_self _, rfl, rfl⟩)

theorem registrations_agree_in_short : ∃ s', registerAll [registrationOf 62 (by decide)] (namedQueue 62) = some s' ∧
    ∀ q name, (s'.queues q).name = some name →
      (∀ m, forwardMessageToConsumers (some name) m s' = ((targets s' name).foldlM (forwardTo m) (s', 0)).map (·.1)) ∧
        (AgreesOn [registrationOf 62 (by decide)] s' name ↔ NamesFit [registrationOf 62 (by decide)] (namedQueue 62) name) :=
  registrations_agree_iff [registrationOf 62 (by decide)] rfl (by decide)

end RabbitMQ.Core
