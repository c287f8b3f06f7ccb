/-
  RabbitMQ.Core.Properties — a message's priority and persistence flag, wherever the message
  is.

  A priority is documented as 0 to 9 and the flag as 0 or 1; `message_set_priority` and
  `message_set_persistent` see to it, `receive_message_data` does not. The program is the
  broker with the messages its threads hold; a step is a call of one of the functions that
  make, change, store or send a message. What a message found after a step is, is said once
  (`step_origin`). So the two fields are in range throughout a run exactly when those of
  every frame accepted are (`properties_in_range_iff`, `a_priority_of_ten_is_accepted`).
-/

import RabbitMQ.Core.Decoding
import RabbitMQ.Core.Registry

namespace RabbitMQ.Core

open Lib

/-! ## The two fields -/

structure InRange (m : Fields) : Prop where
  priority : m.priority ≤ 9
  persistent : m.persistent ≤ 1

instance (m : Fields) : Decidable (InRange m) :=
  decidable_of_iff (m.priority ≤ 9 ∧ m.persistent ≤ 1) ⟨fun h => ⟨h.1, h.2⟩, fun h => ⟨h.1, h.2⟩⟩

/-- The fields a clone copies from its message. -/
structure SameProperties (c m : Fields) : Prop where
  priority : c.priority = m.priority
  expiration : c.expiration = m.expiration
  persistent : c.persistent = m.persistent

theorem SameProperties.trans {a b c : Fields} (h : SameProperties a b) (h' : SameProperties b c) : SameProperties a c :=
  ⟨h.priority.trans h'.priority, h.expiration.trans h'.expiration, h.persistent.trans h'.persistent⟩

theorem SameProperties.inRange {c m : Fields} (h : SameProperties c m) (hm : InRange m) : InRange c :=
  ⟨by rw [h.priority]; exact hm.priority, by rw [h.persistent]; exact hm.persistent⟩

/-- The `message_set_*` functions. -/
inductive Setter where
  | priority (priority : UInt32)
  | expiration (expiration : UInt64)
  | persistent (persistent : UInt8)
  deriving DecidableEq, Repr

def Setter.apply (x : Setter) (m : Message) : Message :=
  match x with
  | .priority value => messageSetPriority m value
  | .expiration value => messageSetExpiration m value
  | .persistent value => messageSetPersistent m value

theorem setter_inRange {m : Message} (hm : InRange m.toFields) (x : Setter) : InRange (x.apply m).toFields := by
  cases x with
  | priority priority =>
    refine ⟨?_, hm.persistent⟩
    show (if priority > 9 then 9 else priority) ≤ 9
    split
    · exact UInt32.le_refl 9
    · rename_i h
      exact UInt32.not_lt.mp h
  | expiration expiration => exact ⟨hm.priority, hm.persistent⟩
  | persistent persistent =>
    refine ⟨hm.priority, ?_⟩
    show (if persistent ≠ 0 then 1 else 0) ≤ (1 : UInt8)
    split
    · exact UInt8.le_refl 1
    · decide

theorem create_inRange {exchange routingKey : Option CString} {body : Option Bytes} {bodySize : UInt64} {h h' : Heap}
    {m : Message} (hc : messageCreate exchange routingKey body bodySize h = (some m, h')) : InRange m.toFields := by
  cases exchange with
  | none => cases hc
  | some exchange =>
  cases routingKey with
  | none => cases hc
  | some routingKey =>
    have hcopy := create_copies hc
    exact ⟨by rw [hcopy.priority]; exact UInt32.zero_le, by rw [hcopy.persistent]; exact UInt8.zero_le⟩

theorem clone_properties {m c : Message} {h h' : Heap} (hc : messageClone m h = (some c, h')) :
    SameProperties c.toFields m.toFields := by
  obtain ⟨o, -, rfl⟩ := clone_some hc
  exact ⟨rfl, rfl, rfl⟩

/-! ## Where messages are -/

/-- A message is ready in a store, or delivered and not settled yet. -/
def Holds {μ : Type} (s : Store μ) (m : μ) : Prop := m ∈ s.ready ∨ ∃ d ∈ s.unacked, d.message = m

/-- The message a call brings. -/
def brought {μ : Type} : Call μ → Option μ
  | .enqueue message | .tryEnqueue message => message
  | .dequeue _ _ | .tryDequeue _ _ | .ack _ | .reject _ _ | .processTimeouts _ _ | .size | .setDurable _ => none

/-- With the entry found taken out, what is delivered was delivered before. -/
theorem found_holds {μ : Type} {s : Store μ} {t : UInt64} {pre post : List (DeliveryInfo μ)} {e : DeliveryInfo μ}
    (hf : Found s.unacked t pre e post) : Holds s e.message ∧ ∀ m, (∃ d ∈ live (pre ++ post), d.message = m) → Holds s m := by
  have hin : ∀ d, d = e ∨ d ∈ pre ++ post → d ∈ s.unacked := by
    intro d hd
    rw [hf.1]
    rcases hd with rfl | hd
    · exact List.mem_append_right _ List.mem_cons_self
    rcases List.mem_append.mp hd with hd | hd
    · exact List.mem_append_left _ hd
    · exact List.mem_append_right _ (List.mem_cons_of_mem _ hd)
  refine ⟨Or.inr ⟨e, hin e (Or.inl rfl), rfl⟩, ?_⟩
  rintro m ⟨d, hd, rfl⟩
  exact Or.inr ⟨d, hin d (Or.inr (List.mem_filter.mp hd).1), rfl⟩

/-- A call makes no message up: what a store holds, and what it hands out, it held or was
    brought. -/
theorem does_holds {μ : Type} {s s' : Store μ} {c : Call μ} {o : Out μ} (h : Does s c s' o) :
    (∀ m, Holds s' m → Holds s m ∨ brought c = some m) ∧ ∀ t m, o.got = some (t, m) → Holds s m := by
  cases h with
  | nothing val hidle hval => exact ⟨fun m hm => Or.inl hm, fun t m hg => by cases hg⟩
  | push m hc hroom =>
    refine ⟨?_, fun t m hg => by cases hg⟩
    intro m' hm
    rcases hm with hm | hm
    · rcases List.mem_append.mp hm with hm | hm
      · exact Or.inl (Or.inl hm)
      · rw [List.mem_singleton.mp hm]
        rcases hc with rfl | rfl
        · exact Or.inr rfl
        · exact Or.inr rfl
    · exact Or.inl (Or.inr hm)
  | deliver m rest now realloc hc hready =>
    have hin : m ∈ s.ready := by
      rw [hready]
      exact List.mem_cons_self
    constructor
    · intro m' hm
      rcases hm with hm | ⟨d, hd, rfl⟩
      · refine Or.inl (Or.inl ?_)
        rw [hready]
        exact List.mem_cons_of_mem _ hm
      · rcases List.mem_append.mp hd with hd | hd
        · exact Or.inl (Or.inr ⟨d, hd, rfl⟩)
        · rw [List.mem_singleton.mp hd]
          exact Or.inl (Or.inl hin)
    · intro t m' hg
      cases hg
      exact Or.inl hin
  | ack pre e post hf | discard pre e post hf | overflow pre e post hf =>
    refine ⟨?_, fun t m hg => by cases hg⟩
    intro m hm
    rcases hm with hm | hm
    · exact Or.inl (Or.inl hm)
    · exact Or.inl ((found_holds hf).2 m hm)
  | requeue pre e post hf hrq hroom =>
    refine ⟨?_, fun t m hg => by cases hg⟩
    intro m hm
    rcases hm with hm | hm
    · rcases List.mem_cons.mp hm with rfl | hm
      · exact Or.inl (found_holds hf).1
      · exact Or.inl (Or.inl hm)
    · exact Or.inl ((found_holds hf).2 m hm)
  | @pass now timeout d room htimeout hdue hroom =>
    refine ⟨?_, fun t m hg => by cases hg⟩
    intro m hm
    rcases hm with hm | ⟨x, hx, rfl⟩
    · rcases List.mem_append.mp hm with hm | hm
      · have hm := List.mem_of_mem_take (List.mem_reverse.mp hm)
        rw [hdue] at hm
        obtain ⟨e, he, rfl⟩ := List.mem_map.mp hm
        exact Or.inl (Or.inr ⟨e, (List.mem_filter.mp he).1, rfl⟩)
      · exact Or.inl (Or.inl hm)
    · have hsettle : x ∈ s.unacked.map (settle now timeout) := by
        split at hx
        · exact (List.mem_filter.mp hx).1
        · exact hx
      obtain ⟨e, he, rfl⟩ := List.mem_map.mp hsettle
      refine Or.inl (Or.inr ⟨e, he, ?_⟩)
      unfold settle
      split
      · rfl
      · rfl

/-- The message of a call by its place among those the caller has. -/
def Call.among {μ : Type} (ms : List μ) : Call Nat → Call μ
  | .enqueue i => .enqueue (i.bind (ms[·]?))
  | .tryEnqueue i => .tryEnqueue (i.bind (ms[·]?))
  | .dequeue now realloc => .dequeue now realloc
  | .tryDequeue now realloc => .tryDequeue now realloc
  | .ack tag => .ack tag
  | .reject tag requeue => .reject tag requeue
  | .processTimeouts now timeout => .processTimeouts now timeout
  | .size => .size
  | .setDurable durable => .setDurable durable

theorem brought_among {μ : Type} {ms : List μ} {c : Call Nat} {m : μ} (h : brought (c.among ms) = some m) : m ∈ ms := by
  have hget : ∀ i : Option Nat, i.bind (ms[·]?) = some m → m ∈ ms := by
    intro i hi
    obtain ⟨i, -, hi⟩ := Option.bind_eq_some_iff.mp hi
    exact List.mem_of_getElem? hi
  cases c with
  | enqueue i => exact hget i h
  | tryEnqueue i => exact hget i h
  | _ => cases h

/-- A queue whose message objects are changed in place. -/
def Queue.mapMessages {μ : Type} (f : μ → μ) (q : Queue μ) : Queue μ :=
  { q with messages := fun i => f (q.messages i)
           unackedMessages := fun i => { q.unackedMessages i with message := f (q.unackedMessages i).message } }

theorem mapMessages_ring {μ : Type} {f : μ → μ} {q : Queue μ} (h : RingOk q) : RingOk (q.mapMessages f) :=
  ⟨h.capPos, h.capLt, h.headLt, h.sizeLe, h.tailEq⟩

theorem mapMessages_holds {μ : Type} {f : μ → μ} {q : Queue μ} {m : μ} (h : Holds (store (q.mapMessages f)) m) :
    ∃ m', Holds (store q) m' ∧ m = f m' := by
  rcases h with hm | ⟨d, hd, rfl⟩
  · obtain ⟨i, hi, rfl⟩ := List.mem_map.mp hm
    exact ⟨_, Or.inl (List.mem_map.mpr ⟨i, hi, rfl⟩), rfl⟩
  · obtain ⟨i, hi, rfl⟩ := List.mem_map.mp hd
    exact ⟨_, Or.inr ⟨_, List.mem_map.mpr ⟨i, hi, rfl⟩, rfl⟩, rfl⟩

/-! ## The copies of a publish -/

theorem routeTo_properties {message : Message} {b : Binding} {s s' : Server} {cs : List Stored}
    (h : routeToCopies message b s = some (s', cs)) : ∀ c ∈ cs, SameProperties c.copy.toFields message.toFields := by
  rcases routeToCopies_cases h with ⟨heap, -, -, rfl⟩ | ⟨clone, heap, hclone, ⟨-, -, rfl⟩ | ⟨-, n, rfl, -⟩⟩
  · exact fun c hc => by cases hc
  · exact fun c hc => by cases hc
  · intro c hc
    rw [List.mem_singleton.mp hc]
    exact clone_properties hclone

theorem routeCopies_properties {exchange : Nat} {message : Message} {bs : List Binding} {s s' : Server} {cs : List Stored}
    (h : routeCopies exchange message bs s = some (s', cs)) :
    ∀ c ∈ cs, SameProperties c.copy.toFields message.toFields := by
  induction bs generalizing s s' cs with
  | nil =>
    cases h
    exact fun c hc => by cases hc
  | cons b bs ih =>
    rcases routeCopies_cases h with ⟨-, hrest⟩ | ⟨s1, c1, c2, -, hto, hrest, rfl⟩
    · exact ih hrest
    · intro c hc
      rcases List.mem_append.mp hc with hc | hc
      · exact routeTo_properties hto c hc
      · exact ih hrest c hc

theorem publish_properties {exchange : Nat} {m : Message} {s s' : Server} {cs : List Stored}
    (h : publishCopies exchange m s = some (s', cs)) : ∀ c ∈ cs, SameProperties c.copy.toFields m.toFields := by
  rcases publishCopies_cases h with ⟨heap, -, -, rfl⟩ | ⟨clone, heap, s1, hclone, hrouted, -⟩
  · exact fun c hc => by cases hc
  · exact fun c hc => (routeCopies_properties hrouted c hc).trans (clone_properties hclone)

/-! ## The program -/

/-- The broker, the messages that functions returned to the program's threads, and the
    copies sent to consumers. -/
structure Program where
  node : Node
  messages : List Message
  forwarded : List Message

/-- A request that sets up the broker: a queue created is one whose slots fit in memory. -/
def SetsUp : Request → Prop
  | .createQueue _ new => new.capacity.toNat < 2 ^ 61
  | .createExchange _ _ | .bindQueue _ _ _ => True
  | .publish _ _ => False

inductive ProgramEvent where
  | create (exchange routingKey : Option CString) (body : Option Bytes) (bodySize : UInt64)
  | clone (i : Nat)
  /-- A `message_set_*` call on the message at `p`. -/
  | set (p : Ptr) (x : Setter)
  | receive (fd : Int) (inlet : Inlet) (errno : Nat)
  | publish (exchange i : Nat)
  | call (q : Nat) (c : Call Nat)
  | setUp (r : Request) (h : SetsUp r)

namespace Program

def server (s : Program) : Server := s.node.server

def withServer (s : Program) (server : Server) : Program := { s with node := { s.node with server } }

/-- A message returned, and the heap left. -/
def returns (s : Program) (r : Option Message × Heap) : Program :=
  { s.withServer { s.server with heap := r.2 } with messages := s.messages ++ r.1.toList }

def mapMessages (f : Message → Message) (s : Program) : Program :=
  { s.withServer { s.server with queues := fun q => (s.server.queues q).mapMessages f } with messages := s.messages.map f }

/-- The messages there are. -/
def Has (s : Program) (m : Message) : Prop :=
  m ∈ s.messages ∨ m ∈ s.forwarded ∨ ∃ q, Holds (store (s.server.queues q)) m

end Program

/-- What `receive_message_data` is given. -/
def receiving (s : Program) (inlet : Inlet) (errno : Nat) : World := ⟨inlet, s.server.heap, errno, []⟩

def atAddress (p : Ptr) (f : Message → Message) (m : Message) : Message := if m.addr = p then f m else m

/-- A call that does not return is the end of the program; nothing comes of it. -/
def programStep (s : Program) : ProgramEvent → Program
  | .create exchange routingKey body bodySize => s.returns (messageCreate exchange routingKey body bodySize s.server.heap)
  | .clone i =>
    match s.messages[i]? with
    | none => s
    | some m => s.returns (messageClone m s.server.heap)
  | .set p x => s.mapMessages (atAddress p x.apply)
  | .receive fd inlet errno =>
    let r := receiveMessageData fd (receiving s inlet errno)
    s.returns (r.1, r.2.heap)
  | .publish exchange i =>
    match s.messages[i]? with
    | none => s
    | some m =>
      match publishCopies exchange m s.server with
      | none => s
      | some (server, cs) =>
        { s.withServer server with forwarded := s.forwarded ++ (cs.filter (0 < ·.forwarded)).map (·.copy) }
  | .call q c =>
    let r := call (s.server.queues q) (c.among s.messages)
    { s.withServer { s.server with queues := Function.update s.server.queues q r.1 } with
      messages := s.messages ++ (r.2.got.map (·.2)).toList }
  | .setUp r _ => { s with node := (r.apply s.node).getD s.node }

/-! ## One step -/

/-- Where a message found after a step comes from. -/
inductive Origin (s : Program) : ProgramEvent → Message → Prop
  | had {e : ProgramEvent} {m : Message} : s.Has m → Origin s e m
  | made {e : ProgramEvent} {m : Message} : InRange m.toFields → Origin s e m
  | cloned {e : ProgramEvent} {m : Message} (m' : Message) : s.Has m' → SameProperties m.toFields m'.toFields → Origin s e m
  | changed {e : ProgramEvent} (m' : Message) (x : Setter) : s.Has m' → Origin s e (x.apply m')
  | received {fd : Int} {inlet : Inlet} {errno : Nat} {m : Message} :
      (receiveMessageData fd (receiving s inlet errno)).1 = some m → Origin s (.receive fd inlet errno) m

def Rings (s : Program) : Prop := ∀ q, RingOk (s.server.queues q)

theorem returns_has {s : Program} {r : Option Message × Heap} {m : Message} (h : (s.returns r).Has m) :
    s.Has m ∨ r.1 = some m := by
  rcases h with h | h | h
  · rcases List.mem_append.mp h with h | h
    · exact Or.inl (Or.inl h)
    · exact Or.inr (Option.mem_toList.mp h)
  · exact Or.inl (Or.inr (Or.inl h))
  · exact Or.inl (Or.inr (Or.inr h))

theorem has_get {s : Program} {i : Nat} {m : Message} (h : s.messages[i]? = some m) : s.Has m :=
  Or.inl (List.mem_of_getElem? h)

/-- Setting up the broker touches no queue but one just created. -/
theorem setUp_queue {n n' : Node} {r : Request} (hr : SetsUp r) (h : r.apply n = some n') (q : Nat) :
    n'.server.queues q = n.server.queues q ∨
      (RingOk (n'.server.queues q) ∧ ∀ m, ¬ Holds (store (n'.server.queues q)) m) := by
  cases r with
  | createQueue name new =>
    obtain ⟨⟨made, n1⟩, h1, rfl⟩ := Option.map_eq_some_iff.mp h
    unfold brokerCreateQueue at h1
    split at h1
    · cases h1; exact Or.inl rfl
    split at h1
    · cases h1
    · cases h1; exact Or.inl rfl
    split at h1
    · cases e : queueCreate (some _) new.capacity new.garbage new.garbageInfo new.sync n.server.heap with
      | mk queue heap =>
      rw [e] at h1
      cases queue with
      | none => cases h1; exact Or.inl rfl
      | some queue =>
        cases h1
        obtain ⟨hring, hempty⟩ := created_ok (congrArg Prod.fst e) hr
        by_cases hq : q = n.server.heap.next
        · right
          simp only [Node.addQueue, hq, Function.update_self]
          refine ⟨hring, ?_⟩
          intro m hm
          rw [hempty] at hm
          rcases hm with hm | ⟨d, hd, -⟩
          · cases hm
          · cases hd
        · left
          simp only [Node.addQueue, Function.update_of_ne hq]
    · cases h1; exact Or.inl rfl
  | createExchange name type =>
    obtain ⟨⟨made, n1⟩, h1, rfl⟩ := Option.map_eq_some_iff.mp h
    unfold brokerCreateExchange at h1
    repeat' split at h1
    all_goals cases h1
    all_goals exact Or.inl rfl
  | bindQueue exchange queue routingKey =>
    cases h
    unfold brokerBindQueue
    repeat' split
    all_goals exact Or.inl rfl
  | publish exchange message => exact hr.elim

theorem step_rings (s : Program) (e : ProgramEvent) (h : Rings s) : Rings (programStep s e) := by
  cases e with
  | create exchange routingKey body bodySize => exact h
  | clone i =>
    simp only [programStep]
    split
    · exact h
    · exact h
  | set p x => exact fun q => mapMessages_ring (h q)
  | receive fd inlet errno => exact h
  | publish exchange i =>
    simp only [programStep]
    split
    · exact h
    split
    · exact h
    · rename_i server cs hpub
      have happ := (publish_appends (fun q => (h q).slots) hpub).1
      exact fun q => happ.ring (h q)
  | call q c =>
    intro q'
    show RingOk (Function.update s.server.queues q _ q')
    by_cases hq : q' = q
    · rw [hq, Function.update_self]
      exact (queue_does (h q) _).1
    · rw [Function.update_of_ne hq]
      exact h q'
  | setUp r hr =>
    intro q
    show RingOk ((r.apply s.node).getD s.node |>.server.queues q)
    cases e : r.apply s.node with
    | none => exact h q
    | some n =>
      rcases setUp_queue hr e q with heq | hnew
      · rw [Option.getD_some, heq]
        exact h q
      · exact hnew.1

theorem set_origin {s : Program} {p : Ptr} {x : Setter} {m : Message} (hm : (programStep s (.set p x)).Has m) :
    Origin s (.set p x) m := by
  have hat : ∀ m', s.Has m' → Origin s (.set p x) (atAddress p x.apply m') := by
    intro m' hm'
    unfold atAddress
    split
    · exact .changed m' x hm'
    · exact .had hm'
  rcases hm with hm | hm | ⟨q, hm⟩
  · obtain ⟨m', hm', rfl⟩ := List.mem_map.mp hm
    exact hat m' (Or.inl hm')
  · exact .had (Or.inr (Or.inl hm))
  · obtain ⟨m', hm', rfl⟩ := mapMessages_holds hm
    exact hat m' (Or.inr (Or.inr ⟨q, hm'⟩))

/-- What a publish stores or sends is a copy. -/
theorem publish_origin {s : Program} (h : Rings s) {exchange i : Nat} {m : Message}
    (hm : (programStep s (.publish exchange i)).Has m) : Origin s (.publish exchange i) m := by
  simp only [programStep] at hm
  split at hm
  · exact .had hm
  rename_i m' hget
  split at hm
  · exact .had hm
  rename_i server cs hpub
  have happ := (publish_appends (fun q => (h q).slots) hpub).1
  have hcopy : ∀ c ∈ cs, Origin s (.publish exchange i) c.copy := fun c hc =>
    .cloned m' (has_get hget) (publish_properties hpub c hc)
  rcases hm with hm | hm | ⟨q, hm | ⟨d, hd, rfl⟩⟩
  · exact .had (Or.inl hm)
  · rcases List.mem_append.mp hm with hm | hm
    · exact .had (Or.inr (Or.inl hm))
    · obtain ⟨c, hc, rfl⟩ := List.mem_map.mp hm
      exact hcopy c (List.mem_filter.mp hc).1
  · have hm : m ∈ ready (server.queues q) := hm
    rw [happ.ready q] at hm
    rcases List.mem_append.mp hm with hm | hm
    · exact .had (Or.inr (Or.inr ⟨q, Or.inl hm⟩))
    · obtain ⟨c, hc, rfl⟩ := List.mem_map.mp hm
      exact hcopy c (List.mem_filter.mp hc).1
  · have hd : d ∈ unacked (server.queues q) := hd
    rw [happ.unacked q] at hd
    exact .had (Or.inr (Or.inr ⟨q, Or.inr ⟨d, hd, rfl⟩⟩))

theorem call_origin {s : Program} (h : Rings s) {q : Nat} {c : Call Nat} {m : Message}
    (hm : (programStep s (.call q c)).Has m) : Origin s (.call q c) m := by
  obtain ⟨hholds, hgot⟩ := does_holds (queue_does (h q) (c.among s.messages)).2
  rcases hm with hm | hm | ⟨q', hm⟩
  · rcases List.mem_append.mp hm with hm | hm
    · exact .had (Or.inl hm)
    · obtain ⟨⟨t, m'⟩, hg, rfl⟩ := Option.map_eq_some_iff.mp (Option.mem_toList.mp hm)
      exact .had (Or.inr (Or.inr ⟨q, hgot t m' hg⟩))
  · exact .had (Or.inr (Or.inl hm))
  · have hm : Holds (store (Function.update s.server.queues q (call (s.server.queues q) (c.among s.messages)).1 q')) m := hm
    by_cases hq : q' = q
    · rw [hq, Function.update_self] at hm
      rcases hholds m hm with hm | hm
      · exact .had (Or.inr (Or.inr ⟨q, hm⟩))
      · exact .had (Or.inl (brought_among hm))
    · rw [Function.update_of_ne hq] at hm
      exact .had (Or.inr (Or.inr ⟨q', hm⟩))

theorem setUp_origin {s : Program} {r : Request} (hr : SetsUp r) {m : Message} (hm : (programStep s (.setUp r hr)).Has m) :
    Origin s (.setUp r hr) m := by
  rcases hm with hm | hm | ⟨q, hm⟩
  · exact .had (Or.inl hm)
  · exact .had (Or.inr (Or.inl hm))
  · have hm : Holds (store (((r.apply s.node).getD s.node).server.queues q)) m := hm
    cases e : r.apply s.node with
    | none =>
      rw [e] at hm
      exact .had (Or.inr (Or.inr ⟨q, hm⟩))
    | some n =>
      rw [e] at hm
      rcases setUp_queue hr e q with heq | hnew
      · rw [Option.getD_some, heq] at hm
        exact .had (Or.inr (Or.inr ⟨q, hm⟩))
      · exact absurd hm (hnew.2 m)

/-- What a step can do to the messages. -/
theorem step_origin {s : Program} (h : Rings s) {e : ProgramEvent} {m : Message} (hm : (programStep s e).Has m) :
    Origin s e m := by
  cases e with
  | create exchange routingKey body bodySize =>
    rcases returns_has hm with hm | hm
    · exact .had hm
    · exact .made (create_inRange (Prod.ext hm rfl))
  | clone i =>
    simp only [programStep] at hm
    split at hm
    · exact .had hm
    · rename_i m' hget
      rcases returns_has hm with hm | hm
      · exact .had hm
      · exact .cloned m' (has_get hget) (clone_properties (Prod.ext hm rfl))
  | set p x => exact set_origin hm
  | receive fd inlet errno =>
    rcases returns_has hm with hm | hm
    · exact .had hm
    · exact .received hm
  | publish exchange i => exact publish_origin h hm
  | call q c => exact call_origin h hm
  | setUp r hr => exact setUp_origin hr hm

/-! ## Runs -/

def AllInRange (s : Program) : Prop := ∀ m, s.Has m → InRange m.toFields

/-- A frame accepted has both fields in range. -/
def AcceptsInRange (s : Program) : ProgramEvent → Prop
  | .receive fd inlet errno =>
    (receiveMessageData fd (receiving s inlet errno)).1.isSome = true → ∀ v ∈ (decode inlet.input).1, InRange v
  | _ => True

theorem received_properties {s : Program} {fd : Int} {inlet : Inlet} {errno : Nat} {m : Message}
    (h : (receiveMessageData fd (receiving s inlet errno)).1 = some m) :
    ∃ v, (decode inlet.input).1 = some v ∧ SameProperties m.toFields v := by
  obtain ⟨v, hv, hcopy⟩ := received (Prod.ext h rfl)
  exact ⟨v, congrArg Prod.fst hv, hcopy.priority, hcopy.expiration, hcopy.persistent⟩

theorem step_inRange (s : Program) (e : ProgramEvent) (hr : Rings s) (hs : AllInRange s) :
    AcceptsInRange s e ↔ AllInRange (programStep s e) := by
  constructor
  · intro hok m hm
    cases step_origin hr hm with
    | had hm => exact hs m hm
    | made hm => exact hm
    | cloned m' hm' hsame => exact hsame.inRange (hs m' hm')
    | changed m' x hm' => exact setter_inRange (hs m' hm') x
    | received hm =>
      obtain ⟨v, hv, hsame⟩ := received_properties hm
      exact hsame.inRange (hok (by rw [hm]; rfl) v hv)
  · intro hnext
    cases e with
    | receive fd inlet errno =>
      intro hsome v hv
      obtain ⟨m, hm⟩ := Option.isSome_iff_exists.mp hsome
      obtain ⟨v', hv', hsame⟩ := received_properties hm
      rw [Option.mem_def, hv', Option.some.injEq] at hv
      have hin := hnext m (Or.inl (List.mem_append_right _ (Option.mem_toList.mpr hm)))
      rw [← hv]
      exact ⟨by rw [← hsame.priority]; exact hin.priority, by rw [← hsame.persistent]; exact hin.persistent⟩
    | _ => trivial

/-- Whatever is called and however memory and reads fail. -/
theorem properties_in_range_iff {s : Program} (hr : Rings s) (hs : AllInRange s) (events : List ProgramEvent) :
    (∀ before, before <+: events → AllInRange (Run.run programStep s before)) ↔
      Run.Along programStep AcceptsInRange s events :=
  Run.along_iff step_rings step_inRange hr hs

instance (s : Program) : ∀ e, Decidable (AcceptsInRange s e)
  | .receive fd inlet errno => inferInstanceAs (Decidable
      ((receiveMessageData fd (receiving s inlet errno)).1.isSome = true → ∀ v ∈ (decode inlet.input).1, InRange v))
  | .create _ _ _ _ | .clone _ | .set _ _ | .publish _ _ | .call _ _ | .setUp _ _ => inferInstanceAs (Decidable True)

def aProgram : Program := ⟨aNode, [], []⟩

theorem aProgram_rings : Rings aProgram := fun _ => emptyQueue_ring

theorem aProgram_inRange : AllInRange aProgram := by
  intro m hm
  rcases hm with hm | hm | ⟨q, hm | ⟨d, hd, -⟩⟩
  · cases hm
  · cases hm
  · cases hm
  · cases hd

/-- A frame of priority 10, received. -/
def receivingTen : List ProgramEvent :=
  [.receive 3 (inletOf ({ twoBytes with priority := 10 } : Frame).encode fun _ => 64).inlet 0]

theorem a_priority_of_ten_is_accepted : ¬ AllInRange (Run.run programStep aProgram receivingTen) := by
  intro h
  have hten : ∃ m ∈ (Run.run programStep aProgram receivingTen).messages, ¬ InRange m.toFields := by decide +kernel
  obtain ⟨m, hm, hbad⟩ := hten
  exact hbad (h m (Or.inl hm))

/-- A message is made and its priority set to 10; a frame is received and cloned. -/
def settingTen : List ProgramEvent :=
  [.create (some twoBytes.exchange) (some twoBytes.routingKey) none 0, .set ⟨100, .message⟩ (.priority 10),
   .receive 3 (inletOf twoBytes.encode fun _ => 64).inlet 0, .clone 1]

theorem properties_in_range_when_set_to_ten : AllInRange (Run.run programStep aProgram settingTen) :=
  (properties_in_range_iff aProgram_rings aProgram_inRange settingTen).mpr (by decide +kernel) _ List.prefix_rfl

end RabbitMQ.Core
