/-
  RabbitMQ.Core.Routing — who frees a published message.

  `broker_publish` clones the message for routing and `broker_route_message` clones that for
  each binding that matches. What a publish does to the heap and to the queues is told by
  the copies it stored (`publish_cases`): the copies are appended to their queues and kept,
  all other clones are freed where they were made.

  (1) The routing clone is freed by `broker_route_message` unless exactly one copy was
      stored, and once more by `broker_publish` when none was. So a publish frees nothing
      twice exactly when a copy was stored or there was no clone
      (`frees_once_iff_a_copy_is_stored`, `an_unroutable_publish_frees_twice`).
  (2) Nothing frees the message received from the client once it is published
      (`no_leak_iff_not_published`, `a_published_frame_is_leaked`).
-/

import RabbitMQ.Core.Broker
import RabbitMQ.Core.Custody
import RabbitMQ.Core.Framing
import RabbitMQ.Core.QueueSpec

namespace RabbitMQ.Core

open Lib

/-! ## Sound servers -/

/-- Rings are sound, addresses were handed out by the allocator, and what is stored has not
    been freed. -/
structure Sound (s : Server) : Prop where
  rings : ∀ q, RingOk (s.queues q)
  heap : s.heap.Sound
  stored : ∀ q, ∀ m ∈ ready (s.queues q), m.addr.request < s.heap.next ∧ m.addr ∉ s.heap.freed

/-! ## What routing does -/

theorem forwardStep_outlets {name : CString} {m : Message} {s s' : Server} {c : ConsumerInfo}
    (h : forwardStep name m s c = some s') : ∃ outlets, s' = { s with outlets } := by
  unfold forwardStep at h
  split at h
  · simp only at h
    split at h
    · obtain ⟨r, -, rfl⟩ := Option.map_eq_some_iff.mp h
      exact ⟨_, rfl⟩
    · exact ⟨s.outlets, (Option.some.inj h).symm⟩
  · exact ⟨s.outlets, (Option.some.inj h).symm⟩

theorem forwardSteps_outlets {name : CString} {m : Message} {cs : List ConsumerInfo} {s s' : Server}
    (h : cs.foldlM (forwardStep name m) s = some s') : ∃ outlets, s' = { s with outlets } := by
  induction cs generalizing s with
  | nil => exact ⟨s.outlets, (Option.some.inj h).symm⟩
  | cons c cs ih =>
    rw [List.foldlM_cons, Option.bind_eq_bind, Option.bind_eq_some_iff] at h
    obtain ⟨s1, h1, h2⟩ := h
    obtain ⟨o1, rfl⟩ := forwardStep_outlets h1
    obtain ⟨o2, rfl⟩ := ih h2
    exact ⟨o2, rfl⟩

/-- Forwarding writes to sockets only. -/
theorem forward_outlets {queueName : Option CString} {m : Message} {s s' : Server}
    (h : forwardMessageToConsumers queueName m s = some s') : ∃ outlets, s' = { s with outlets } := by
  cases queueName with
  | none => exact ⟨s.outlets, (Option.some.inj h).symm⟩
  | some name => exact forwardSteps_outlets h

/-- From `s` to `s'` the copies were made, and appended to the queue each is paired with. -/
structure Routed (s s' : Server) (copies : List (Nat × Message)) : Prop where
  ledger : Alloc.Ledger s.heap s'.heap (copies.flatMap (·.2.blocks))
  rings : ∀ q, RingOk (s'.queues q)
  ready : ∀ q, ready (s'.queues q) = ready (s.queues q) ++ (copies.filter (·.1 = q)).map (·.2)
  exchanges : s'.exchanges = s.exchanges
  broker : s'.broker = s.broker
  clients : s'.clients = s.clients
  consumers : s'.consumers = s.consumers

theorem routed_heap {s : Server} (hr : ∀ q, RingOk (s.queues q)) {heap : Heap} (hl : Alloc.Ledger s.heap heap []) :
    Routed s { s with heap } [] :=
  ⟨hl, hr, fun _ => (List.append_nil _).symm, rfl, rfl, rfl, rfl⟩

theorem Routed.trans {s s' s'' : Server} {c c' : List (Nat × Message)} (h : Routed s s' c) (h' : Routed s' s'' c') :
    Routed s s'' (c ++ c') := by
  refine ⟨?_, h'.rings, fun q => ?_, h'.exchanges.trans h.exchanges, h'.broker.trans h.broker,
    h'.clients.trans h.clients, h'.consumers.trans h.consumers⟩
  · rw [List.flatMap_append]
    exact h.ledger.trans h'.ledger
  · rw [h'.ready q, h.ready q, List.filter_append, List.map_append, List.append_assoc]

/-- A clone of `message` can be allocated, and the binding's queue has a free slot. -/
def Storable (message : Message) (s : Server) (b : Binding) : Prop :=
  (messageClone message s.heap).1.isSome = true ∧ (s.queues b.queue).size ≠ (s.queues b.queue).capacity

/-- The heap after a clone that came to nothing. -/
def afterRefusal (message : Message) (heap : Heap) : Heap :=
  match messageClone message heap with
  | (none, heap) => heap
  | (some clone, heap) => messageFree clone heap

/-- Some binding that matches gets its copy stored, the clones for those before it having
    come to nothing. -/
def Stores (exchange : Nat) (message : Message) : List Binding → Server → Prop
  | [], _ => False
  | b :: bs, s =>
    if bindingMatches s exchange message.routingKey b = some true then
      Storable message s b ∨ Stores exchange message bs { s with heap := afterRefusal message s.heap }
    else Stores exchange message bs s

theorem afterRefusal_ledger (message : Message) (heap : Heap) : Alloc.Ledger heap (afterRefusal message heap) [] := by
  have hl := clone_ledger message heap
  unfold afterRefusal
  cases e : messageClone message heap with
  | mk c heap' =>
  rw [e] at hl
  cases c with
  | none => exact hl
  | some clone => exact Alloc.Ledger.frees (by rwa [List.append_nil])

/-- One matching binding: a copy stored, or nothing but the heap touched. -/
theorem routeTo_cases {message : Message} {b : Binding} {s s' : Server} {routed routed' : Nat}
    (hr : ∀ q, RingOk (s.queues q)) (h : routeTo message b s routed = some (s', routed')) :
    (Storable message s b ∧ (∃ clone, Routed s s' [(b.queue, clone)]) ∧ routed' = routed + 1) ∨
      (¬ Storable message s b ∧ s' = { s with heap := afterRefusal message s.heap } ∧ routed' = routed) := by
  have hl := clone_ledger message s.heap
  unfold routeTo at h
  unfold Storable afterRefusal
  cases e : messageClone message s.heap with
  | mk c heap =>
  rw [e] at h hl
  cases c with
  | none =>
    cases h
    refine Or.inr ⟨?_, rfl, rfl⟩
    intro hc
    cases hc.1
  | some clone =>
    by_cases hfull : (s.queues b.queue).size = (s.queues b.queue).capacity
    · have htry : queueTryEnqueue (s.queues b.queue) (some clone) = (0, s.queues b.queue) := if_pos hfull
      simp only [htry, ne_eq, not_true, if_false, Function.update_eq_self] at h
      cases h
      exact Or.inr ⟨fun hn => hn.2 hfull, rfl, rfl⟩
    · left
      have htry : queueTryEnqueue (s.queues b.queue) (some clone) = (1, pushTail (s.queues b.queue) clone) := if_neg hfull
      simp only [htry, ne_eq, one_ne_zero, not_false_eq_true, if_true] at h
      obtain ⟨s1, h1, h2⟩ := Option.map_eq_some_iff.mp h
      cases h2
      obtain ⟨outlets, rfl⟩ := forward_outlets h1
      obtain ⟨hring, hready⟩ := pushTail_spec (hr b.queue) clone (not_full (hr b.queue) hfull)
      refine ⟨⟨rfl, hfull⟩, ⟨clone, ?_, ?_, ?_, rfl, rfl, rfl, rfl⟩, rfl⟩
      · simpa [held] using hl
      · intro q
        by_cases hq : q = b.queue
        · subst hq; simpa using hring
        · simpa [hq] using hr q
      · intro q
        by_cases hq : q = b.queue
        · subst hq; simpa using hready
        · have hq' : ¬ b.queue = q := fun e => hq e.symm
          simp [hq, hq']

/-- The whole loop. -/
theorem routeLoop_routed {exchange : Nat} {message : Message} {bs : List Binding} {s s' : Server} {routed routed' : Nat}
    (hr : ∀ q, RingOk (s.queues q)) (h : routeLoop exchange message bs s routed = some (s', routed')) :
    ∃ copies, Routed s s' copies ∧ routed' = routed + copies.length ∧ (copies = [] ↔ ¬ Stores exchange message bs s) := by
  induction bs generalizing s routed with
  | nil =>
    cases h
    exact ⟨[], routed_heap hr (Alloc.ledger_refl _), rfl, by simp [Stores]⟩
  | cons b bs ih =>
    rw [routeLoop] at h
    cases hm : bindingMatches s exchange message.routingKey b with
    | none => rw [hm] at h; cases h
    | some hit =>
    rw [hm] at h
    cases hit with
    | false =>
      obtain ⟨copies, h1, h2, h3⟩ := ih hr h
      exact ⟨copies, h1, h2, by rw [h3, Stores, hm, if_neg (by simp)]⟩
    | true =>
      obtain ⟨⟨s1, routed1⟩, h1, h2⟩ := Option.bind_eq_some_iff.mp h
      rw [Stores, hm, if_pos rfl]
      rcases routeTo_cases hr h1 with ⟨hst, ⟨clone, hcopy⟩, rfl⟩ | ⟨hst, rfl, rfl⟩
      · obtain ⟨copies, h3, h4, -⟩ := ih hcopy.rings h2
        refine ⟨(b.queue, clone) :: copies, hcopy.trans h3, ?_, by simp [hst]⟩
        rw [h4, List.length_cons]
        omega
      · have hquiet := routed_heap hr (afterRefusal_ledger message s.heap)
        obtain ⟨copies, h3, h4, h5⟩ := ih hquiet.rings h2
        exact ⟨copies, hquiet.trans h3, h4, by rw [h5]; simp [hst]⟩

/-! ## What a publish does -/

/-- The copies stored, and what else is kept: `spare`, the routing clone's blocks. -/
structure Booked (s s' : Server) (spare : List Ptr) (copies : List (Nat × Message)) : Prop where
  ledger : Alloc.Ledger s.heap s'.heap (spare ++ copies.flatMap (·.2.blocks))
  rings : ∀ q, RingOk (s'.queues q)
  ready : ∀ q, ready (s'.queues q) = ready (s.queues q) ++ (copies.filter (·.1 = q)).map (·.2)

/-- Where there is a routing clone, a copy of it is stored. -/
def Deliverable (exchange : Nat) (m : Message) (s : Server) : Prop :=
  ∀ clone heap, messageClone m s.heap = (some clone, heap) → Stores exchange clone s.broker.bindings { s with heap }

/-- Either the books of the publish are even, or the routing clone was freed at its end by
    both functions. -/
theorem publish_cases {exchange : Nat} {m : Message} {s s' : Server} {val : Nat} (hr : ∀ q, RingOk (s.queues q))
    (h : brokerPublish exchange m s = some (val, s')) :
    (Deliverable exchange m s ∧ ∃ spare copies, Booked s s' spare copies) ∨
      (¬ Deliverable exchange m s ∧ ∃ clone s₁, clone.addr.kind = .message ∧ Booked s s₁ clone.blocks [] ∧
        s' = { s₁ with heap := messageFree clone (messageFree clone s₁.heap) }) := by
  have hl := clone_ledger m s.heap
  unfold brokerPublish at h
  unfold Deliverable
  cases e : messageClone m s.heap with
  | mk c heap =>
  rw [e] at h hl
  cases c with
  | none =>
    cases h
    refine Or.inl ⟨?_, [], [], hl, hr, fun _ => (List.append_nil _).symm⟩
    intro _ _ hc
    cases hc
  | some clone =>
    obtain ⟨⟨routed, s2⟩, hroute, h2⟩ := Option.map_eq_some_iff.mp h
    obtain ⟨⟨s1, n⟩, hloop, h1⟩ := Option.map_eq_some_iff.mp hroute
    obtain ⟨copies, hrouted, hn, hst⟩ := routeLoop_routed (s := { s with heap }) hr hloop
    rw [Nat.zero_add] at hn
    have hall : Booked s s1 clone.blocks copies := ⟨hl.trans hrouted.ledger, hrouted.rings, hrouted.ready⟩
    have hiff : (∀ c h', (some clone, heap) = (some c, h') → Stores exchange c s.broker.bindings { s with heap := h' }) ↔
        Stores exchange clone s.broker.bindings { s with heap } := by
      constructor
      · intro hd
        exact hd clone heap rfl
      · intro hd c h' hc
        cases hc
        exact hd
    rw [hiff]
    simp only at h1 h2
    by_cases h0 : n = 0
    · right
      have hnil : copies = [] := List.length_eq_zero_iff.mp (by omega)
      subst hnil
      rw [if_pos h0] at h1
      cases h1
      rw [if_pos h0] at h2
      cases h2
      exact ⟨hst.mp rfl, clone, s1, clone_addr e, hall, rfl⟩
    · left
      have hdel : Stores exchange clone s.broker.bindings { s with heap } := by
        by_contra hnot
        rw [hst.mpr hnot] at hn
        exact h0 hn
      refine ⟨hdel, ?_⟩
      rw [if_neg h0] at h1
      by_cases hone : n = 1
      · -- the only copy: the routing clone stays
        rw [if_pos hone] at h1
        cases h1
        rw [if_neg h0] at h2
        cases h2
        exact ⟨clone.blocks, copies, hall⟩
      · rw [if_neg hone] at h1
        cases h1
        rw [if_neg h0] at h2
        cases h2
        exact ⟨[], copies, hall.ledger.frees, hall.rings, hall.ready⟩

/-! ## (1) Nothing freed twice -/

/-- `Message` objects made since `s` are freed at most once, and none that is stored is freed. -/
structure FreesOnce (s s' : Server) : Prop where
  once : ∀ p : Ptr, p.kind = .message → s.heap.next ≤ p.request → s'.heap.freed.count p ≤ 1
  stored : ∀ q, ∀ m ∈ ready (s'.queues q), m.addr ∉ s'.heap.freed

theorem mem_copies {copies : List (Nat × Message)} {q : Nat} {m : Message}
    (hm : m ∈ (copies.filter (·.1 = q)).map (·.2)) : m.addr ∈ copies.flatMap (·.2.blocks) := by
  obtain ⟨c, hc, rfl⟩ := List.mem_map.mp hm
  exact List.mem_flatMap.mpr ⟨c, (List.mem_filter.mp hc).1, addr_mem_blocks c.2⟩

theorem booked_frees_once {s s' : Server} {spare : List Ptr} {copies : List (Nat × Message)} (hs : Sound s)
    (h : Booked s s' spare copies) : FreesOnce s s' := by
  refine ⟨fun p _ hp => h.ledger.freed_le_one hs.heap hp, ?_⟩
  intro q m hm
  rw [h.ready q] at hm
  rcases List.mem_append.mp hm with hm | hm
  · obtain ⟨hlt, hnot⟩ := hs.stored q m hm
    rwa [h.ledger.old_freed hlt]
  · exact h.ledger.kept_not_freed hs.heap (List.mem_append_right _ (mem_copies hm))

/-- A publish frees nothing twice exactly when a copy of the routing clone is stored, or
    there is no routing clone. -/
theorem frees_once_iff_a_copy_is_stored {s s' : Server} (hs : Sound s) {exchange : Nat} {m : Message} {val : Nat}
    (h : brokerPublish exchange m s = some (val, s')) : FreesOnce s s' ↔ Deliverable exchange m s := by
  rcases publish_cases hs.rings h with ⟨hd, spare, copies, hb⟩ | ⟨hd, clone, s1, hkind, hb, rfl⟩
  · exact iff_of_true (booked_frees_once hs hb) hd
  · refine iff_of_false ?_ hd
    intro hf
    have hmem : clone.addr ∈ clone.blocks ++ ([] : List (Nat × Message)).flatMap (·.2.blocks) :=
      List.mem_append_left _ (addr_mem_blocks clone)
    have hle := hf.once clone.addr hkind (hb.ledger.kept_range hmem).1
    have hpos : 0 < clone.blocks.count clone.addr := List.count_pos_iff.mpr (addr_mem_blocks clone)
    simp only [messageFree, Alloc.Heap.frees_freed, List.count_append] at hle
    omega

/-- A server with a fanout exchange, 0, named "a", and the queues of `queues`. -/
def serverWith (queues : Nat → Queue Message) (bindings : List Binding) (hfit : bindings.length ≤ MAX_BINDINGS) : Server where
  heap := ⟨100, fun _ => false, [], []⟩
  queues := queues
  exchanges _ := ⟨some twoBytes.exchange, .fanout⟩
  broker := ⟨[0], bindings, by decide, hfit⟩
  clients _ := ⟨4, false, nothing.exchange, true⟩
  consumers := []
  outlets _ := ⟨[], fun _ => .all, 0⟩

/-- An empty queue of one slot. -/
def emptyQueue : Queue Message where
  name := some twoBytes.exchange
  messages _ := ⟨⟨none, none, none, 0, 0, 0, 0⟩, ⟨0, .message⟩, []⟩
  capacity := 1
  size := 0
  head := 0
  tail := 0
  durable := 0
  unackedMessages _ := ⟨⟨⟨none, none, none, 0, 0, 0, 0⟩, ⟨0, .message⟩, []⟩, 0, 0, .ready⟩
  unackedCapacity := 100
  unackedCount := 0
  nextDeliveryTag := 1

/-- The message of `twoBytes`, made by requests 1 to 4. -/
def aMessage : Message := ⟨twoBytes.fields, ⟨1, .message⟩, [⟨2, .plain⟩, ⟨3, .plain⟩, ⟨4, .plain⟩]⟩

theorem emptyQueue_ring : RingOk emptyQueue := ⟨by decide, by decide, by decide, by decide, by decide⟩

theorem serverWith_sound (bindings : List Binding) (hfit : bindings.length ≤ MAX_BINDINGS) :
    Sound (serverWith (fun _ => emptyQueue) bindings hfit) := by
  refine ⟨fun _ => emptyQueue_ring, ⟨?_, ?_⟩, ?_⟩
  · intro b hb
    cases hb
  · intro p hp
    cases hp
  · intro q m hm
    cases hm

/-- No queue is bound to the exchange. -/
theorem an_unroutable_publish_frees_twice : ∃ s s' val, Sound s ∧ brokerPublish 0 aMessage s = some (val, s') ∧
    ¬ FreesOnce s s' := by
  refine ⟨serverWith (fun _ => emptyQueue) [] (by decide), _, _, serverWith_sound _ _, rfl, ?_⟩
  intro h
  exact absurd (h.once ⟨100, .message⟩ rfl (by decide)) (by decide +kernel)

theorem frees_once_with_a_copy_stored : ∃ s s' val, brokerPublish 0 aMessage s = some (val, s') ∧ FreesOnce s s' := by
  refine ⟨serverWith (fun _ => emptyQueue) [⟨0, 0, none⟩] (by decide), _, _, rfl, ?_⟩
  have hpublish : brokerPublish 0 aMessage (serverWith (fun _ => emptyQueue) [⟨0, 0, none⟩] (by decide)) = some (_, _) := rfl
  refine (frees_once_iff_a_copy_is_stored (serverWith_sound _ _) hpublish).mpr ?_
  intro clone heap hc
  cases hc
  exact Or.inl ⟨rfl, by decide⟩

/-- When no request is refused, a copy is stored exactly when the queue of some binding
    that matches is not full. -/
theorem stores_iff_room {exchange : Nat} {message : Message} {bs : List Binding} {s : Server}
    (hg : s.heap.AllGranted) {e k : CString} (he : message.exchange = some e) (hk : message.routingKey = some k)
    (hb : ¬ (message.body = none ∧ 0 < message.bodySize)) :
    Stores exchange message bs s ↔ ∃ b ∈ bs, bindingMatches s exchange message.routingKey b = some true ∧
      (s.queues b.queue).size ≠ (s.queues b.queue).capacity := by
  induction bs generalizing s with
  | nil => simp [Stores]
  | cons b bs ih =>
    have ih' := ih (s := { s with heap := afterRefusal message s.heap }) ((afterRefusal_ledger message s.heap).allGranted hg)
    have hclone : (messageClone message s.heap).1.isSome = true := by
      obtain ⟨c, h', hc, -⟩ := create_fields hg e k hb
      rw [messageClone, he, hk, hc]
      rfl
    rw [Stores]
    by_cases hm : bindingMatches s exchange message.routingKey b = some true
    · rw [if_pos hm, ih', Storable]
      simp only [hclone, true_and, List.mem_cons, exists_eq_or_imp, hm]
      exact Iff.rfl
    · rw [if_neg hm, ih hg]
      simp only [List.mem_cons, exists_eq_or_imp, hm, false_and, false_or]

/-! ## (2) Nothing lost to the heap -/

/-- Object `p` is in one slot of one ring. -/
def StoredOnce (s : Server) (p : Ptr) : Prop :=
  ∃ q, ((ready (s.queues q)).map (·.addr)).count p = 1 ∧ ∀ q', q' ≠ q → p ∉ (ready (s.queues q')).map (·.addr)

/-- Every `Message` object made since `s` is freed or stored. -/
def NoLeak (s s' : Server) : Prop :=
  ∀ p n, (p, n) ∈ s'.heap.blocks → p.kind = .message → s.heap.next ≤ p.request → p ∈ s'.heap.freed ∨ StoredOnce s' p

/-- The frame is not published: a registration, a message from a consumer, or an exchange
    that is not there. -/
def NotPublished (i : Nat) (m : Message) (s : Server) : Prop :=
  isRegistration m.toFields = some true ∨ (s.clients i).isConsumer = true ∨ brokerGetExchange s m.exchange = some none

theorem handle_cases {i : Nat} {m : Message} {s s' : Server} (h : handleMessage i m s = some s') :
    (NotPublished i m s ∧ s'.heap = messageFree m s.heap ∧ s'.queues = s.queues) ∨
      (¬ NotPublished i m s ∧ ∃ exchange val, brokerPublish exchange m s = some (val, s')) := by
  unfold handleMessage at h
  unfold NotPublished
  cases hreg : isRegistration m.toFields with
  | none => rw [hreg] at h; cases h
  | some reg =>
  rw [hreg] at h
  cases reg with
  | true =>
    cases h
    refine Or.inl ⟨Or.inl rfl, ?_, ?_⟩
    · simp only [registerConsumer]
      repeat' split
      all_goals rfl
    · simp only [registerConsumer]
      repeat' split
      all_goals rfl
  | false =>
    simp only at h
    by_cases hcons : (s.clients i).isConsumer = true
    · rw [if_pos hcons] at h
      cases h
      exact Or.inl ⟨Or.inr (Or.inl hcons), rfl, rfl⟩
    rw [if_neg hcons] at h
    cases hex : brokerGetExchange s m.exchange with
    | none => rw [hex] at h; cases h
    | some found =>
    rw [hex] at h
    cases found with
    | none =>
      cases h
      exact Or.inl ⟨Or.inr (Or.inr rfl), rfl, rfl⟩
    | some exchange =>
      obtain ⟨⟨val, s1⟩, hpub, rfl⟩ := Option.map_eq_some_iff.mp h
      refine Or.inr ⟨?_, exchange, val, hpub⟩
      intro hn
      rcases hn with hn | hn | hn
      · cases hn
      · exact hcons hn
      · cases hn

/-- A publish does nothing to the objects there were before it. -/
theorem publish_old {exchange val : Nat} {m : Message} {s s' : Server} (hr : ∀ q, RingOk (s.queues q))
    (h : brokerPublish exchange m s = some (val, s')) {p : Ptr} (hp : p.request < s.heap.next) :
    (p ∈ s'.heap.freed ↔ p ∈ s.heap.freed) ∧ (∀ n, (p, n) ∈ s.heap.blocks → (p, n) ∈ s'.heap.blocks) ∧
      ∀ q, p ∈ (ready (s'.queues q)).map (·.addr) ↔ p ∈ (ready (s.queues q)).map (·.addr) := by
  have hold : ∀ {s1 : Server} {spare : List Ptr} {copies : List (Nat × Message)}, Booked s s1 spare copies →
      ∀ q, p ∈ (ready (s1.queues q)).map (·.addr) ↔ p ∈ (ready (s.queues q)).map (·.addr) := by
    intro s1 spare copies hb q
    rw [hb.ready q, List.map_append, List.mem_append]
    refine ⟨fun hm => hm.resolve_right fun hn => ?_, Or.inl⟩
    obtain ⟨c, hc, rfl⟩ := List.mem_map.mp hn
    have := (hb.ledger.kept_range (List.mem_append_right _ (mem_copies hc))).1
    omega
  rcases publish_cases hr h with ⟨-, spare, copies, hb⟩ | ⟨-, clone, s1, -, hb, rfl⟩
  · exact ⟨hb.ledger.old_freed hp, fun n => hb.ledger.old_blocks, hold hb⟩
  · have hstored := hold hb
    refine ⟨?_, fun n hn => hb.ledger.old_blocks hn, hstored⟩
    have hclone : p ∉ clone.blocks := by
      intro hm
      have := (hb.ledger.kept_range (List.mem_append_left _ hm)).1
      omega
    simp only [messageFree, Alloc.Heap.frees_freed, List.mem_append, hclone, or_false]
    exact hb.ledger.old_freed hp

/-- At the end of the turn every object it made is freed or stored exactly when the frame
    received was not published. -/
theorem no_leak_iff_not_published {i : Nat} {h h' : Handler} (hs : Sound h.server) (hrun : h.exited = false)
    (hconn : (h.server.clients i).running = true) {m : Message} {w : World}
    (hrecv : receiveMessageData (h.server.clients i).fd h.world = (some m, w)) (hturn : clientHandlerTurn i h = some h') :
    NoLeak h.server h'.server ↔ NotPublished i m h.server := by
  have hl : Alloc.Ledger h.server.heap w.heap m.blocks := by
    have := (receive_ledger (h.server.clients i).fd h.world).some m (by rw [hrecv])
    rwa [hrecv] at this
  simp only [clientHandlerTurn, hrun, hconn, hrecv, Bool.false_eq_true, if_false, Bool.not_true] at hturn
  obtain ⟨s', hm, rfl⟩ := Option.map_eq_some_iff.mp hturn
  rcases handle_cases hm with ⟨hnot, hheap, -⟩ | ⟨hnot, exchange, val, hpub⟩
  · refine iff_of_true (fun p n hp _ hnew => Or.inl ?_) hnot
    have hall : Alloc.Ledger h.server.heap s'.heap [] := by
      rw [hheap]
      exact Alloc.Ledger.frees (by rwa [List.append_nil])
    exact (hall.granted_cases hs.heap hp hnew).resolve_right List.not_mem_nil
  · refine iff_of_false ?_ hnot
    intro hleak
    have hmem := addr_mem_blocks m
    obtain ⟨hge, hlt⟩ := hl.kept_range hmem
    obtain ⟨n, hblock⟩ := hl.kept_granted hmem
    have hrings : ∀ q, RingOk ((h.afterRead w).server.queues q) := hs.rings
    obtain ⟨hfreed, hblocks, hstored⟩ := publish_old hrings hpub hlt
    rcases hleak m.addr n (hblocks n hblock) (receive_addr hrecv) hge with hf | ⟨q, hq, -⟩
    · exact hl.kept_not_freed hs.heap hmem (hfreed.mp hf)
    · have hin : m.addr ∈ (ready (s'.queues q)).map (·.addr) := List.count_pos_iff.mp (by rw [hq]; exact Nat.one_pos)
      have hpos : m.addr ∈ (ready (h.server.queues q)).map (·.addr) := (hstored q).mp hin
      obtain ⟨c, hc, he⟩ := List.mem_map.mp hpos
      have hold : c.addr.request < h.server.heap.next := (hs.stored q c hc).1
      rw [show c.addr = m.addr from he] at hold
      exact absurd hge (Nat.not_le_of_lt hold)

/-- A client that has sent `frame`, to a server where queue 0 is bound to exchange "a". -/
def aClient (frame : Frame) : Handler where
  server := serverWith (fun _ => emptyQueue) [⟨0, 0, none⟩] (by decide)
  inlet := ⟨frame.encode, fun _ => .upTo 64, 0⟩
  errno := 0
  writes := []
  exited := false

/-- The message received is object 103; the queue gets a clone of a clone of it. -/
theorem a_published_frame_is_leaked : ∃ h', Sound (aClient twoBytes).server ∧
    clientHandlerTurn 0 (aClient twoBytes) = some h' ∧ ¬ NoLeak (aClient twoBytes).server h'.server := by
  have hturn : ∃ h', clientHandlerTurn 0 (aClient twoBytes) = some h' ∧
      (⟨103, .message⟩, 56) ∈ h'.server.heap.blocks ∧ ⟨103, .message⟩ ∉ h'.server.heap.freed ∧
      ⟨103, .message⟩ ∉ (ready (h'.server.queues 0)).map (·.addr) ∧ ∀ q, q ≠ 0 → h'.server.queues q = emptyQueue :=
    ⟨_, rfl, by decide +kernel, by decide +kernel, by decide +kernel, fun q hq => Function.update_of_ne hq _ _⟩
  obtain ⟨h', e, hblock, hfreed, hzero, hother⟩ := hturn
  refine ⟨h', serverWith_sound _ _, e, ?_⟩
  intro hleak
  rcases hleak _ _ hblock rfl (by decide) with hf | ⟨q, hq, -⟩
  · exact hfreed hf
  · by_cases h0 : q = 0
    · subst h0
      exact hzero (List.count_pos_iff.mp (by rw [hq]; exact Nat.one_pos))
    · rw [hother q h0] at hq
      cases hq

/-- There is no exchange without a name. -/
theorem no_leak_with_an_unknown_exchange : ∃ h', clientHandlerTurn 0 (aClient nothing) = some h' ∧
    NoLeak (aClient nothing).server h'.server :=
  ⟨_, rfl, (no_leak_iff_not_published (i := 0) (h := aClient nothing) (serverWith_sound _ _) rfl rfl rfl rfl).mpr
    (Or.inr (Or.inr rfl))⟩

/-! ## Soundness over runs -/

theorem sound_heap {s s' : Server} {kept : List Ptr} (hs : Sound s) (hl : Alloc.Ledger s.heap s'.heap kept)
    (hq : s'.queues = s.queues) : Sound s' := by
  refine ⟨?_, hl.sound hs.heap, ?_⟩
  · rw [hq]; exact hs.rings
  · intro q m hm
    rw [hq] at hm
    obtain ⟨hlt, hnot⟩ := hs.stored q m hm
    exact ⟨Nat.lt_of_lt_of_le hlt hl.next_le, by rwa [hl.old_freed hlt]⟩

theorem booked_sound {s s' : Server} {spare : List Ptr} {copies : List (Nat × Message)} (hs : Sound s)
    (h : Booked s s' spare copies) : Sound s' := by
  refine ⟨h.rings, h.ledger.sound hs.heap, fun q m hm => ⟨?_, (booked_frees_once hs h).stored q m hm⟩⟩
  rw [h.ready q] at hm
  rcases List.mem_append.mp hm with hm | hm
  · exact Nat.lt_of_lt_of_le (hs.stored q m hm).1 h.ledger.next_le
  · exact (h.ledger.kept_range (List.mem_append_right _ (mem_copies hm))).2

theorem publish_sound {exchange val : Nat} {m : Message} {s s' : Server} (hs : Sound s)
    (h : brokerPublish exchange m s = some (val, s')) : Sound s' := by
  rcases publish_cases hs.rings h with ⟨-, spare, copies, hb⟩ | ⟨-, clone, s1, -, hb, rfl⟩
  · exact booked_sound hs hb
  · have hs1 := booked_sound hs hb
    have hrange : ∀ p ∈ clone.blocks, s.heap.next ≤ p.request ∧ p.request < s1.heap.next :=
      fun p hp => hb.ledger.kept_range (List.mem_append_left _ hp)
    refine ⟨hs1.rings, ⟨hs1.heap.blocks, ?_⟩, fun q m hm => ⟨(hs1.stored q m hm).1, ?_⟩⟩
    · intro p hp
      simp only [messageFree, Alloc.Heap.frees_freed, List.mem_append, or_assoc, or_self] at hp
      rcases hp with hp | hp
      · exact hs1.heap.freed p hp
      · exact (hrange p hp).2
    · intro hf
      simp only [messageFree, Alloc.Heap.frees_freed, List.mem_append, or_assoc, or_self] at hf
      rcases hf with hf | hf
      · exact (hs1.stored q m hm).2 hf
      · have hold : ready (s1.queues q) = ready (s.queues q) := (hb.ready q).trans (List.append_nil _)
        rw [hold] at hm
        have h1 := (hs.stored q m hm).1
        have h2 := (hrange _ hf).1
        omega

theorem turn_sound {i : Nat} {h h' : Handler} (hs : Sound h.server) (hturn : clientHandlerTurn i h = some h') :
    Sound h'.server := by
  unfold clientHandlerTurn at hturn
  split at hturn
  · cases hturn; exact hs
  split at hturn
  · cases hturn; exact hs
  have hbooks := receive_ledger (h.server.clients i).fd h.world
  cases e : receiveMessageData (h.server.clients i).fd h.world with
  | mk o w =>
  rw [e] at hturn hbooks
  cases o with
  | none =>
    cases hturn
    exact sound_heap hs (hbooks.none rfl) rfl
  | some m =>
    obtain ⟨s', hm, rfl⟩ := Option.map_eq_some_iff.mp hturn
    have hl : Alloc.Ledger h.server.heap w.heap m.blocks := hbooks.some m rfl
    rcases handle_cases hm with ⟨-, hheap, hq⟩ | ⟨-, exchange, val, hpub⟩
    · have hall : Alloc.Ledger h.server.heap s'.heap [] := by
        rw [hheap]
        exact Alloc.Ledger.frees (by rwa [List.append_nil])
      exact sound_heap hs hall hq
    · have hread : Sound (h.afterRead w).server := sound_heap hs hl rfl
      exact publish_sound hread hpub

/-- Any number of turns of the loop. -/
def clientHandlerTurns (i : Nat) : Nat → Handler → Option Handler
  | 0, h => some h
  | n + 1, h => (clientHandlerTurn i h).bind (clientHandlerTurns i n)

/-- The server stays sound through every run of a client's loop. -/
theorem turns_sound {i n : Nat} {h h' : Handler} (hs : Sound h.server) (hrun : clientHandlerTurns i n h = some h') :
    Sound h'.server := by
  induction n generalizing h with
  | zero =>
    cases hrun
    exact hs
  | succ n ih =>
    obtain ⟨h1, hturn, hrest⟩ := Option.bind_eq_some_iff.mp hrun
    exact ih (turn_sound hs hturn) hrest

end RabbitMQ.Core
