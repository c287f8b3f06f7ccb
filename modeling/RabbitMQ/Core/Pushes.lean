/-
  RabbitMQ.Core.Pushes — the broker as it runs: publishes, registrations of consumers and
  the event loop's timeout passes, in any order.

  The record `log` has every copy stored, with the number of consumers it was sent to when
  it was. Nothing in the broker takes a message out of a queue, so each ring holds exactly
  the copies logged for it, and no delivery is ever tracked (`logged_step`).

  (1) A copy that was sent stays ready, and its queue fills up with such copies. A sent copy
      is out of the ring only as long as nothing is sent at all (`delivered_is_tracked`,
      `a_delivered_message_stays_ready`).
  (2) A copy is sent when it is stored or never. So nothing is stranded in a queue with a
      consumer exactly when no client registers for a queue that already has unsent
      messages (`not_stranded_iff`, `a_late_consumer_gets_nothing`).
-/

import RabbitMQ.Core.Consumers
import RabbitMQ.Core.Registry

namespace RabbitMQ.Core

open Lib

/-! ## The broker's steps -/

def ACK_TIMEOUT_SECONDS : Int := 30

/-- The event loop's call for one queue, with the messages it frees. -/
def processQueueTimeouts (now : Int) (s : Server) (q : Nat) : Server :=
  let r := queueProcessTimeouts (s.queues q) now ACK_TIMEOUT_SECONDS
  { s with queues := Function.update s.queues q r.1, heap := r.2.freed.foldl (fun h m => messageFree m h) s.heap }

/-- The loop over `broker->queues`. -/
def processTimeouts (now : Int) (n : Node) : Node :=
  { n with server := n.queueTable.foldl (processQueueTimeouts now) n.server }

structure Pushed where
  node : Node
  log : List Stored

inductive PushEvent where
  | publish (exchange : Nat) (message : Message)
  | register (client : Nat) (queueName : CString)
  | timeouts (now : Int)

/-- A publish that does not return leaves the state as it is. -/
def pushStep (p : Pushed) : PushEvent → Pushed
  | .publish exchange message =>
    match publishCopies exchange message p.node.server with
    | none => p
    | some (server, copies) => ⟨{ p.node with server }, p.log ++ copies⟩
  | .register client queueName => { p with node := { p.node with server := (registerConsumer client queueName p.node.server).2 } }
  | .timeouts now => { p with node := processTimeouts now p.node }

theorem pushStep_publish {p : Pushed} {exchange : Nat} {message : Message} {s : Server} {cs : List Stored}
    (h : publishCopies exchange message p.node.server = some (s, cs)) :
    pushStep p (.publish exchange message) = ⟨{ p.node with server := s }, p.log ++ cs⟩ := by
  simp only [pushStep, h]

theorem pushStep_stuck {p : Pushed} {exchange : Nat} {message : Message}
    (h : publishCopies exchange message p.node.server = none) : pushStep p (.publish exchange message) = p := by
  simp only [pushStep, h]

/-- Empty queues. -/
structure Started (p : Pushed) : Prop where
  slots : ∀ q, SlotsOk (p.node.server.queues q)
  size : ∀ q, (p.node.server.queues q).size = 0
  unacked : ∀ q, (p.node.server.queues q).unackedCount = 0
  log : p.log = []

/-! ## What is kept -/

structure Logged (p : Pushed) : Prop where
  slots : ∀ q, SlotsOk (p.node.server.queues q)
  ring : ∀ q, ready (p.node.server.queues q) = copiesIn p.log q
  unacked : ∀ q, (p.node.server.queues q).unackedCount = 0

theorem started_logged {p : Pushed} (h : Started p) : Logged p := by
  refine ⟨h.slots, fun q => ?_, h.unacked⟩
  rw [h.log, ready_eq_nil.mpr (h.size q)]
  rfl

theorem copiesIn_append (cs cs' : List Stored) (q : Nat) : copiesIn (cs ++ cs') q = copiesIn cs q ++ copiesIn cs' q := by
  simp only [copiesIn, List.filter_append, List.map_append]

theorem mem_copiesIn {cs : List Stored} {c : Stored} (h : c ∈ cs) : c.copy ∈ copiesIn cs c.queue :=
  List.mem_map.mpr ⟨c, List.mem_filter.mpr ⟨h, decide_eq_true rfl⟩, rfl⟩

/-- With nothing tracked a pass does nothing. -/
theorem timeouts_idle {now : Int} {s : Server} {q : Nat} (h : (s.queues q).unackedCount = 0) :
    processQueueTimeouts now s q = s := by
  have hpass : queueProcessTimeouts (s.queues q) now ACK_TIMEOUT_SECONDS = (s.queues q, {}) := by
    have hpos : ¬ ACK_TIMEOUT_SECONDS ≤ 0 := by decide
    have hzero : ¬ (0 : Int32) < 0 := by decide
    simp only [queueProcessTimeouts, if_neg hpos, h, List.range_zero, List.foldl_nil, if_neg hzero]
  simp only [processQueueTimeouts, hpass, Function.update_eq_self, List.foldl_nil]

theorem processTimeouts_idle {now : Int} {n : Node} (h : ∀ q, (n.server.queues q).unackedCount = 0) :
    processTimeouts now n = n := by
  have hall : ∀ qs : List Nat, qs.foldl (processQueueTimeouts now) n.server = n.server := by
    intro qs
    induction qs with
    | nil => rfl
    | cons q qs ih => rw [List.foldl_cons, timeouts_idle (h q), ih]
  rw [processTimeouts, hall]

theorem logged_step (p : Pushed) (e : PushEvent) (h : Logged p) : Logged (pushStep p e) := by
  cases e with
  | publish exchange message =>
    cases hpub : publishCopies exchange message p.node.server with
    | none => rw [pushStep_stuck hpub]; exact h
    | some r =>
      obtain ⟨s, cs⟩ := r
      obtain ⟨happ, -⟩ := publish_appends h.slots hpub
      rw [pushStep_publish hpub]
      refine ⟨happ.slots, fun q => ?_, fun q => ?_⟩
      · show ready (s.queues q) = _
        rw [happ.ready q, h.ring q, copiesIn_append]
        rfl
      · show (s.queues q).unackedCount = 0
        rw [happ.queues q]
        exact h.unacked q
  | register client queueName =>
    have hq : (pushStep p (.register client queueName)).node.server.queues = p.node.server.queues :=
      (registerConsumer_frame client queueName p.node.server).1
    refine ⟨?_, ?_, ?_⟩
    · rw [hq]; exact h.slots
    · rw [hq]; exact h.ring
    · rw [hq]; exact h.unacked
  | timeouts now =>
    have hidle : pushStep p (.timeouts now) = p := by
      simp only [pushStep, processTimeouts_idle h.unacked]
    rw [hidle]
    exact h

/-! ## Forwarding, copy by copy -/

/-- The outcome of one binding: nothing forwarded, or its copy forwarded with the tables as
    they are. -/
theorem routeTo_forwards {message : Message} {b : Binding} {s s' : Server} {cs : List Stored}
    (h : routeToCopies message b s = some (s', cs)) :
    (cs = [] ∧ s'.outlets = s.outlets) ∨
      ∃ clone n s1, cs = [⟨b.queue, clone, n⟩] ∧ s1.clients = s.clients ∧ s1.consumers = s.consumers ∧
        s1.outlets = s.outlets ∧ forwardCounting (s.queues b.queue).name clone s1 = some (s', n) := by
  rcases routeToCopies_cases h with ⟨heap, -, rfl, rfl⟩ | ⟨clone, heap, -, ⟨-, rfl, rfl⟩ | ⟨-, n, rfl, hforward⟩⟩
  · exact Or.inl ⟨rfl, rfl⟩
  · exact Or.inl ⟨rfl, rfl⟩
  · exact Or.inr ⟨clone, n, { s with heap, queues := Function.update s.queues b.queue (pushTail (s.queues b.queue) clone) },
      rfl, rfl, rfl, rfl, hforward⟩

section Rule

variable {s0 : Server} {exchange : Nat} {J : (Int → Outlet) → Prop} {P : Stored → Prop}

/-- What every forwarding of a copy keeps of the sockets and gives each copy, the loop does:
    the queues that get one had room, and the tables are those of the start. -/
theorem routeCopies_forwards {message : Message} {bs : List Binding}
    (hfwd : ∀ b ∈ bs, Matches s0 exchange message.routingKey b → 0 < room (s0.queues b.queue) →
      ∀ clone n s1 s', s1.clients = s0.clients → s1.consumers = s0.consumers → J s1.outlets →
        forwardCounting (s0.queues b.queue).name clone s1 = some (s', n) → J s'.outlets ∧ P ⟨b.queue, clone, n⟩)
    {s s' : Server} {cs0 cs : List Stored} (happ : Appends s0 s cs0) (hJ : J s.outlets)
    (h : routeCopies exchange message bs s = some (s', cs)) : J s'.outlets ∧ ∀ c ∈ cs, P c := by
  induction bs generalizing s cs0 cs with
  | nil =>
    cases h
    exact ⟨hJ, fun c hc => absurd hc List.not_mem_nil⟩
  | cons b bs ih =>
    have hrest := fun b' (hb' : b' ∈ bs) => hfwd b' (List.mem_cons_of_mem b hb')
    rcases routeCopies_cases h with ⟨-, hloop⟩ | ⟨s1, c1, c2, hm, hto, hloop, rfl⟩
    · exact ih hrest happ hJ hloop
    · obtain ⟨happ1, hcase⟩ := routeTo_appends happ.slots hto
      have hmatch : Matches s0 exchange message.routingKey b := by
        rw [bindingMatches_congr happ.exchanges] at hm
        exact bindingMatches_iff.mp hm
      have hone : J s1.outlets ∧ ∀ c ∈ c1, P c := by
        rcases routeTo_forwards hto with ⟨rfl, ho⟩ | ⟨clone, n, s3, rfl, hclients, hconsumers, houtlets, hsent⟩
        · exact ⟨by rw [ho]; exact hJ, fun c hc => absurd hc List.not_mem_nil⟩
        · have hroom : 0 < room (s0.queues b.queue) := by
            rcases hcase with ⟨hnil, -⟩ | ⟨_, _, -, -, hpos⟩
            · cases hnil
            · have hcap := happ.capacity b.queue
              have hsize := happ.size b.queue
              unfold room at hpos ⊢
              rw [hcap] at hpos
              omega
          have hname : (s.queues b.queue).name = (s0.queues b.queue).name := by rw [happ.queues b.queue]
          rw [hname] at hsent
          have htables : s.clients = s0.clients ∧ s.consumers = s0.consumers := by
            rw [happ.tables]
            exact ⟨rfl, rfl⟩
          obtain ⟨hJ1, hP1⟩ := hfwd b List.mem_cons_self hmatch hroom clone n s3 s1 (hclients.trans htables.1)
            (hconsumers.trans htables.2) (by rw [houtlets]; exact hJ) hsent
          exact ⟨hJ1, fun c hc => by rw [List.mem_singleton.mp hc]; exact hP1⟩
      obtain ⟨hJ2, hP2⟩ := ih hrest (happ.trans happ1) hone.1 hloop
      refine ⟨hJ2, fun c hc => ?_⟩
      rcases List.mem_append.mp hc with hc | hc
      · exact hone.2 c hc
      · exact hP2 c hc

/-- A publish does too. -/
theorem publish_forwards {m : Message} (hs : ∀ q, SlotsOk (s0.queues q))
    (hfwd : ∀ b ∈ s0.broker.bindings, Matches s0 exchange m.routingKey b → 0 < room (s0.queues b.queue) →
      ∀ clone n s1 s', s1.clients = s0.clients → s1.consumers = s0.consumers → J s1.outlets →
        forwardCounting (s0.queues b.queue).name clone s1 = some (s', n) → J s'.outlets ∧ P ⟨b.queue, clone, n⟩)
    {s' : Server} {cs : List Stored} (hJ : J s0.outlets) (h : publishCopies exchange m s0 = some (s', cs)) :
    J s'.outlets ∧ ∀ c ∈ cs, P c := by
  rcases publishCopies_cases h with ⟨heap, -, rfl, rfl⟩ | ⟨c, heap, s1, hc, hrun, rfl⟩
  · exact ⟨hJ, fun c hc => absurd hc List.not_mem_nil⟩
  · have hstart : Appends s0 { s0 with heap } [] := appends_heap hs (clone_granted hc)
    have hfwd' : ∀ b ∈ s0.broker.bindings, Matches s0 exchange c.routingKey b → 0 < room (s0.queues b.queue) →
        ∀ clone n s1 s', s1.clients = s0.clients → s1.consumers = s0.consumers → J s1.outlets →
          forwardCounting (s0.queues b.queue).name clone s1 = some (s', n) → J s'.outlets ∧ P ⟨b.queue, clone, n⟩ := by
      intro b hb hmatch
      refine hfwd b hb ?_
      rcases clone_key hc with hk | hk
      · rwa [hk] at hmatch
      · rw [hk] at hmatch
        exact matches_null hmatch
    obtain ⟨hJ1, hP⟩ := routeCopies_forwards hfwd' hstart hJ hrun
    refine ⟨?_, hP⟩
    unfold afterRouting
    split
    · split
      · exact hJ1
      · exact hJ1
    · split
      · exact hJ1
      · exact hJ1

end Rule

/-! ## (1) Sent copies stay -/

/-- A copy sent to a consumer is not ready but tracked as delivered, and a queue whose
    copies were all sent is not full. -/
structure DeliveredIsTracked (p : Pushed) : Prop where
  notReady : ∀ c ∈ p.log, 0 < c.forwarded → c.copy ∉ ready (p.node.server.queues c.queue)
  tracked : ∀ c ∈ p.log, 0 < c.forwarded →
    ∃ info ∈ unacked (p.node.server.queues c.queue), info.message = c.copy ∧ info.status = .delivered
  neverFull : ∀ q, (∀ c ∈ p.log, c.queue = q → 0 < c.forwarded) →
    (p.node.server.queues q).size ≠ (p.node.server.queues q).capacity

/-- The socket takes no more frame in full. -/
def Deaf (o : Outlet) : Prop :=
  ∀ m bufs k, sends m = some bufs → o.calls ≤ k → (sendEach bufs { o with calls := k }).1 = 0

/-- Where a copy of the message would be stored, the live clients under the queue's name
    are deaf. -/
def Unheard (exchange : Nat) (m : Message) (s : Server) : Prop :=
  ∀ b ∈ s.broker.bindings, Matches s exchange m.routingKey b → 0 < room (s.queues b.queue) →
    ∀ name, (s.queues b.queue).name = some name → ∀ i ∈ targets s name, Deaf (s.outlets (s.clients i).fd)

/-- What keeps a step from sending any copy. -/
def sendsNothing (p : Pushed) : PushEvent → Prop
  | .publish exchange message => Unheard exchange message p.node.server
  | .register _ _ => True
  | .timeouts _ => True

/-- The result of a send depends on the calls to come, not on what was written. -/
theorem sendEach_stream (bufs : List Bytes) (o : Outlet) (stream : Bytes) :
    (sendEach bufs { o with stream }).1 = (sendEach bufs o).1 := by
  induction bufs generalizing o stream with
  | nil => rfl
  | cons buf bufs ih =>
    unfold sendEach send
    cases o.outcome o.calls with
    | all =>
      simp only [if_true]
      exact (ih { o with stream := o.stream ++ buf, calls := o.calls + 1 } _)
    | short n =>
      simp only
      split
      · exact ih { o with stream := o.stream ++ buf.take n, calls := o.calls + 1 } _
      · rfl
    | error => rfl

theorem sendEach_outcome (bufs : List Bytes) (o : Outlet) :
    (sendEach bufs o).2.outcome = o.outcome ∧ o.calls ≤ (sendEach bufs o).2.calls := by
  induction bufs generalizing o with
  | nil => exact ⟨rfl, Nat.le_refl _⟩
  | cons buf bufs ih =>
    have hsend : (send buf o).2.outcome = o.outcome ∧ (send buf o).2.calls = o.calls + 1 := by
      unfold send
      split
      · exact ⟨rfl, rfl⟩
      · exact ⟨rfl, rfl⟩
      · exact ⟨rfl, rfl⟩
    simp only [sendEach]
    split
    · obtain ⟨h1, h2⟩ := ih (send buf o).2
      exact ⟨h1.trans hsend.1, by omega⟩
    · exact ⟨hsend.1, Nat.le_trans (Nat.le_succ _) (Nat.le_of_eq hsend.2.symm)⟩

theorem deaf_sendEach {o : Outlet} (h : Deaf o) (bufs : List Bytes) : Deaf (sendEach bufs o).2 := by
  obtain ⟨hout, hle⟩ := sendEach_outcome bufs o
  intro m bufs' k hm hk
  have hdeaf := h m bufs' k hm (Nat.le_trans hle hk)
  rw [← sendEach_stream bufs' { o with calls := k } (sendEach bufs o).2.stream] at hdeaf
  rw [← hdeaf]
  congr 2
  cases hs : (sendEach bufs o).2 with
  | mk stream outcome calls =>
  rw [hs] at hout
  rw [show outcome = o.outcome from hout]

/-- A send to a deaf socket fails and leaves the deaf sockets deaf. -/
theorem forwardTo_deaf {m : Message} {r r' : Server × Nat} {i : Nat} (h : forwardTo m r i = some r')
    (hd : Deaf (r.1.outlets (r.1.clients i).fd)) :
    r'.2 = r.2 ∧ ∀ fd, Deaf (r.1.outlets fd) → Deaf (r'.1.outlets fd) := by
  obtain ⟨sent, hsend, rfl⟩ := Option.map_eq_some_iff.mp h
  unfold sendMessageData at hsend
  split at hsend
  · cases hsend
    simp only [Function.update_eq_self]
    exact ⟨rfl, fun _ h => h⟩
  · obtain ⟨bufs, hbufs, rfl⟩ := Option.map_eq_some_iff.mp hsend
    have hzero : (sendEach bufs (r.1.outlets (r.1.clients i).fd)).1 = 0 := hd m.toFields bufs _ hbufs (Nat.le_refl _)
    refine ⟨?_, fun fd hfd => ?_⟩
    · simp only [hzero, ne_eq, not_true, if_false]
    · by_cases he : fd = (r.1.clients i).fd
      · subst he
        simp only [Function.update_self]
        exact deaf_sendEach hfd bufs
      · simp only [Function.update_of_ne he]
        exact hfd

theorem counting_deaf {name : Option CString} {m : Message} {s s' : Server} {n : Nat}
    (h : forwardCounting name m s = some (s', n))
    (hd : ∀ name', name = some name' → ∀ i ∈ targets s name', Deaf (s.outlets (s.clients i).fd)) :
    n = 0 ∧ ∀ fd, Deaf (s.outlets fd) → Deaf (s'.outlets fd) := by
  have hall : ∀ (is : List Nat) (r r' : Server × Nat), is.foldlM (forwardTo m) r = some r' →
      (∀ i ∈ is, Deaf (r.1.outlets (r.1.clients i).fd)) →
      r'.2 = r.2 ∧ ∀ fd, Deaf (r.1.outlets fd) → Deaf (r'.1.outlets fd) := by
    intro is
    induction is with
    | nil =>
      intro r r' h _
      cases h
      exact ⟨rfl, fun _ h => h⟩
    | cons i is ih =>
      intro r r' h hd
      rw [List.foldlM_cons, Option.bind_eq_bind, Option.bind_eq_some_iff] at h
      obtain ⟨r1, h1, h2⟩ := h
      obtain ⟨hn1, hk1⟩ := forwardTo_deaf h1 (hd i List.mem_cons_self)
      obtain ⟨outlets, e⟩ := forwardTo_outlets h1
      have hclients : r1.1.clients = r.1.clients := by rw [e]
      obtain ⟨hn2, hk2⟩ := ih r1 r' h2 fun j hj => by
        rw [hclients]
        exact hk1 _ (hd j (List.mem_cons_of_mem i hj))
      exact ⟨hn2.trans hn1, fun fd hfd => hk2 fd (hk1 fd hfd)⟩
  cases name with
  | none =>
    cases h
    exact ⟨rfl, fun _ h => h⟩
  | some name => exact hall _ _ _ h (hd name rfl)

theorem unheard_publish {s s' : Server} {exchange : Nat} {m : Message} {cs : List Stored} (hs : ∀ q, SlotsOk (s.queues q))
    (hu : Unheard exchange m s) (h : publishCopies exchange m s = some (s', cs)) : ∀ c ∈ cs, c.forwarded = 0 := by
  have hkeep := publish_forwards (m := m) (J := fun outlets => ∀ fd, Deaf (s.outlets fd) → Deaf (outlets fd))
    (P := fun c => c.forwarded = 0) hs ?_ (fun _ h => h) h
  · exact hkeep.2
  · intro b hb hmatch hroom clone n s1 s2 hclients hconsumers hJ hsent
    have htargets : ∀ name, targets s1 name = targets s name := targets_congr hconsumers hclients
    obtain ⟨hn, hdeaf⟩ := counting_deaf hsent fun name hname i hi => by
      rw [htargets] at hi
      rw [hclients]
      exact hJ _ (hu b hb hmatch hroom name hname i hi)
    exact ⟨fun fd hfd => hdeaf fd (hJ fd hfd), hn⟩

/-- The rings hold all that was ever sent, so the property is that nothing was. -/
theorem delivered_iff {p : Pushed} (h : Logged p) : DeliveredIsTracked p ↔ ∀ c ∈ p.log, c.forwarded = 0 := by
  constructor
  · intro ht c hc
    by_contra h0
    refine ht.notReady c hc (by omega) ?_
    rw [h.ring]
    exact mem_copiesIn hc
  · intro h0
    refine ⟨fun c hc hpos => ?_, fun c hc hpos => ?_, fun q hsent hfull => ?_⟩
    · rw [h0 c hc] at hpos
      exact absurd hpos (Nat.lt_irrefl 0)
    · rw [h0 c hc] at hpos
      exact absurd hpos (Nat.lt_irrefl 0)
    · have hnone : ∀ c ∈ p.log, ¬ (decide (c.queue = q) = true) := by
        intro c hc hq
        have hpos := hsent c hc (of_decide_eq_true hq)
        rw [h0 c hc] at hpos
        exact absurd hpos (Nat.lt_irrefl 0)
      have hempty : ready (p.node.server.queues q) = [] := by
        rw [h.ring, copiesIn, List.filter_eq_nil_iff.mpr hnone]
        rfl
      have hcap := (h.slots q).capPos
      rw [ready_eq_nil.mp hempty] at hfull
      rw [← hfull] at hcap
      exact absurd hcap (Nat.lt_irrefl 0)

theorem delivered_is_tracked {p : Pushed} (h0 : Started p) {es : List PushEvent}
    (h : Run.Along pushStep sendsNothing p es) : DeliveredIsTracked (Run.run pushStep p es) := by
  have hstep : ∀ p e, (Logged p ∧ ∀ c ∈ p.log, c.forwarded = 0) → sendsNothing p e →
      Logged (pushStep p e) ∧ ∀ c ∈ (pushStep p e).log, c.forwarded = 0 := by
    intro p e hp hok
    refine ⟨logged_step p e hp.1, ?_⟩
    cases e with
    | publish exchange message =>
      cases hpub : publishCopies exchange message p.node.server with
      | none => rw [pushStep_stuck hpub]; exact hp.2
      | some r =>
        obtain ⟨s, cs⟩ := r
        rw [pushStep_publish hpub]
        intro c hc
        rcases List.mem_append.mp hc with hc | hc
        · exact hp.2 c hc
        · exact unheard_publish hp.1.slots hok hpub c hc
    | register client queueName => exact hp.2
    | timeouts now => exact hp.2
  have hstart : Logged p ∧ ∀ c ∈ p.log, c.forwarded = 0 := by
    refine ⟨started_logged h0, ?_⟩
    rw [h0.log]
    exact fun c hc => absurd hc List.not_mem_nil
  obtain ⟨hlog, hzero⟩ := Run.along_inv hstep hstart h
  exact (delivered_iff hlog).mpr hzero

theorem binding_fits : ([⟨0, 0, none⟩] : List Binding).length ≤ MAX_BINDINGS := by decide

theorem queue_fits : [0].length ≤ MAX_QUEUES := by decide

/-- A queue of one slot, "a", bound to exchange 0. -/
def aPushed : Pushed := ⟨⟨serverWith (fun _ => emptyQueue) [⟨0, 0, none⟩] binding_fits, [0], queue_fits⟩, []⟩

theorem aPushed_started : Started aPushed := ⟨fun _ => emptyQueue_ring.slots, fun _ => rfl, fun _ => rfl, rfl⟩

/-- Client 0 registers and is sent the message, which stays in the queue and fills it. -/
theorem a_delivered_message_stays_ready :
    ¬ DeliveredIsTracked (Run.run pushStep aPushed [.register 0 twoBytes.exchange, .publish 0 aMessage]) := by
  intro h
  have hsent : ∀ c ∈ (Run.run pushStep aPushed [.register 0 twoBytes.exchange, .publish 0 aMessage]).log,
      c.queue = 0 → 0 < c.forwarded := by decide +kernel
  exact h.neverFull 0 hsent (by decide +kernel)

theorem delivered_is_tracked_with_no_consumer :
    DeliveredIsTracked (Run.run pushStep aPushed [.publish 0 aMessage, .timeouts 100, .register 0 twoBytes.exchange]) := by
  refine delivered_is_tracked aPushed_started ⟨?_, trivial, trivial, trivial⟩
  intro b _ _ _ name _ i hi
  cases hi

/-! ## (2) Stranded messages -/

/-- A queue with a live consumer holds no message that was never sent. -/
def NotStranded (p : Pushed) : Prop :=
  ∀ q name i, (p.node.server.queues q).name = some name → i ∈ targets p.node.server name →
    ∀ c ∈ p.log, c.queue = q → c.copy ∈ ready (p.node.server.queues q) → 0 < c.forwarded

/-- A live client whose registration succeeds finds no unsent message in a queue of the name
    it is entered under. -/
def findsNothingUnsent (p : Pushed) : PushEvent → Prop
  | .register client queueName =>
    client < MAX_CONNECTIONS → p.node.server.consumers.length < MAX_CONNECTIONS → Live (p.node.server.clients client) →
      ∀ c ∈ p.log, (p.node.server.queues c.queue).name = some (copyName queueName) → 0 < c.forwarded
  | .publish _ _ => True
  | .timeouts _ => True

/-- All sends succeed: sockets take all they are given and descriptors are not negative. -/
structure AllSent (s : Server) : Prop where
  outlets : ∀ fd, Complete (s.outlets fd)
  fds : ∀ i, -1 ≤ (s.clients i).fd

theorem notStranded_iff {p : Pushed} (h : Logged p) : NotStranded p ↔
    ∀ c ∈ p.log, ∀ name i, (p.node.server.queues c.queue).name = some name → i ∈ targets p.node.server name →
      0 < c.forwarded := by
  constructor
  · intro hn c hc name i hname hi
    refine hn c.queue name i hname hi c hc rfl ?_
    rw [h.ring]
    exact mem_copiesIn hc
  · intro hn q name i hname hi c hc hq _
    subst hq
    exact hn c hc name i hname hi

theorem forwardTo_complete {m : Message} {r r' : Server × Nat} {i : Nat} (h : forwardTo m r i = some r')
    (hc : ∀ fd, Complete (r.1.outlets fd)) (hfd : 0 ≤ (r.1.clients i).fd) :
    r'.2 = r.2 + 1 ∧ ∀ fd, Complete (r'.1.outlets fd) := by
  obtain ⟨sent, hsend, rfl⟩ := Option.map_eq_some_iff.mp h
  rw [sendMessageData, if_neg (by omega)] at hsend
  obtain ⟨bufs, -, rfl⟩ := Option.map_eq_some_iff.mp hsend
  obtain ⟨o', e, -, hc'⟩ := sendEach_complete bufs (hc (r.1.clients i).fd)
  rw [e]
  refine ⟨by simp only [ne_eq, one_ne_zero, not_false_eq_true, if_true], fun fd => ?_⟩
  by_cases he : fd = (r.1.clients i).fd
  · subst he
    simp only [Function.update_self]
    exact hc'
  · simp only [Function.update_of_ne he]
    exact hc fd

/-- Every live consumer of the queue's name is sent the copy. -/
theorem counting_complete {name : Option CString} {m : Message} {s s' : Server} {n : Nat}
    (h : forwardCounting name m s = some (s', n)) (ha : AllSent s) :
    (∀ name', name = some name' → n = (targets s name').length) ∧ ∀ fd, Complete (s'.outlets fd) := by
  have hall : ∀ (is : List Nat) (r r' : Server × Nat), is.foldlM (forwardTo m) r = some r' →
      (∀ fd, Complete (r.1.outlets fd)) → (∀ i ∈ is, 0 ≤ (r.1.clients i).fd) →
      r'.2 = r.2 + is.length ∧ ∀ fd, Complete (r'.1.outlets fd) := by
    intro is
    induction is with
    | nil =>
      intro r r' h hc _
      cases h
      exact ⟨rfl, hc⟩
    | cons i is ih =>
      intro r r' h hc hfd
      rw [List.foldlM_cons, Option.bind_eq_bind, Option.bind_eq_some_iff] at h
      obtain ⟨r1, h1, h2⟩ := h
      obtain ⟨hn1, hc1⟩ := forwardTo_complete h1 hc (hfd i List.mem_cons_self)
      obtain ⟨outlets, e⟩ := forwardTo_outlets h1
      have hclients : r1.1.clients = r.1.clients := by rw [e]
      obtain ⟨hn2, hc2⟩ := ih r1 r' h2 hc1 fun j hj => by
        rw [hclients]
        exact hfd j (List.mem_cons_of_mem i hj)
      refine ⟨?_, hc2⟩
      rw [hn2, hn1, List.length_cons]
      omega
  cases name with
  | none =>
    cases h
    exact ⟨fun name' he => absurd he (Option.some_ne_none name').symm, ha.outlets⟩
  | some name =>
    have hlive : ∀ i ∈ targets s name, 0 ≤ (s.clients i).fd := by
      intro i hi
      have hne := (mem_targets.mp hi).2.1
      have hge := ha.fds i
      omega
    obtain ⟨hn, hc⟩ := hall _ _ _ h ha.outlets hlive
    refine ⟨fun name' he => ?_, hc⟩
    cases he
    rwa [Nat.zero_add] at hn

/-- With all sends succeeding, each copy is sent to all that are there for it. -/
theorem publish_sent {s s' : Server} {exchange : Nat} {m : Message} {cs : List Stored} (hs : ∀ q, SlotsOk (s.queues q))
    (ha : AllSent s) (h : publishCopies exchange m s = some (s', cs)) :
    AllSent s' ∧ ∀ c ∈ cs, ∀ name, (s.queues c.queue).name = some name → c.forwarded = (targets s name).length := by
  have hkeep := publish_forwards (m := m) (J := fun outlets => ∀ fd, Complete (outlets fd))
    (P := fun c => ∀ name, (s.queues c.queue).name = some name → c.forwarded = (targets s name).length) hs ?_ ha.outlets h
  · have hclients : s'.clients = s.clients := by rw [(publish_appends hs h).1.tables]
    exact ⟨⟨hkeep.1, fun i => by rw [hclients]; exact ha.fds i⟩, hkeep.2⟩
  · intro b _ _ _ clone n s1 s2 hclients hconsumers hJ hsent
    have ha1 : AllSent s1 := ⟨hJ, fun i => by rw [hclients]; exact ha.fds i⟩
    obtain ⟨hn, hc⟩ := counting_complete hsent ha1
    refine ⟨hc, fun name hname => ?_⟩
    rw [hn name hname, targets_congr hconsumers hclients]

theorem allSent_step (p : Pushed) (e : PushEvent) (h : Logged p ∧ AllSent p.node.server) :
    Logged (pushStep p e) ∧ AllSent (pushStep p e).node.server := by
  refine ⟨logged_step p e h.1, ?_⟩
  cases e with
  | publish exchange message =>
    cases hpub : publishCopies exchange message p.node.server with
    | none => rw [pushStep_stuck hpub]; exact h.2
    | some r =>
      obtain ⟨s, cs⟩ := r
      rw [pushStep_publish hpub]
      exact (publish_sent h.1.slots h.2 hpub).1
  | register client queueName =>
    obtain ⟨-, -, houtlets, hclients⟩ := registerConsumer_frame client queueName p.node.server
    refine ⟨fun fd => ?_, fun i => ?_⟩
    · show Complete ((registerConsumer client queueName p.node.server).2.outlets fd)
      rw [houtlets]
      exact h.2.outlets fd
    · show -1 ≤ ((registerConsumer client queueName p.node.server).2.clients i).fd
      rw [(hclients i).1]
      exact h.2.fds i
  | timeouts now =>
    have hidle : pushStep p (.timeouts now) = p := by
      simp only [pushStep, processTimeouts_idle h.1.unacked]
    rw [hidle]
    exact h.2

/-- Publishes and passes strand nothing; a registration does when it finds something unsent. -/
theorem notStranded_step (p : Pushed) (e : PushEvent) (h : Logged p ∧ AllSent p.node.server) (hn : NotStranded p) :
    findsNothingUnsent p e ↔ NotStranded (pushStep p e) := by
  rw [notStranded_iff (allSent_step p e h).1]
  rw [notStranded_iff h.1] at hn
  cases e with
  | publish exchange message =>
    refine iff_of_true trivial ?_
    cases hpub : publishCopies exchange message p.node.server with
    | none => rw [pushStep_stuck hpub]; exact hn
    | some r =>
      obtain ⟨s, cs⟩ := r
      obtain ⟨happ, -⟩ := publish_appends h.1.slots hpub
      obtain ⟨-, hsent⟩ := publish_sent h.1.slots h.2 hpub
      rw [pushStep_publish hpub]
      intro c hc name i hname hi
      have hname' : (p.node.server.queues c.queue).name = some name := by
        rw [← hname]
        show _ = (s.queues c.queue).name
        rw [happ.queues c.queue]
      have hi' : i ∈ targets p.node.server name := by
        have htargets : targets s name = targets p.node.server name :=
          targets_congr (by rw [happ.tables]) (by rw [happ.tables]) name
        rw [← htargets]
        exact hi
      rcases List.mem_append.mp hc with hc | hc
      · exact hn c hc name i hname' hi'
      · rw [hsent c hc name hname']
        exact List.length_pos_of_mem hi'
  | register client queueName =>
    have hq : (pushStep p (.register client queueName)).node.server.queues = p.node.server.queues :=
      (registerConsumer_frame client queueName p.node.server).1
    rw [hq]
    constructor
    · intro hok c hc name i hname hi
      rcases mem_targets_register.mp hi with hi | ⟨hslot, hroom, -, rfl, hl⟩
      · exact hn c hc name i hname hi
      · exact hok hslot hroom hl c hc hname
    · intro hnext hslot hroom hl c hc hname
      exact hnext c hc (copyName queueName) client hname (mem_targets_register.mpr (Or.inr ⟨hslot, hroom, rfl, rfl, hl⟩))
  | timeouts now =>
    refine iff_of_true trivial ?_
    have hidle : pushStep p (.timeouts now) = p := by
      simp only [pushStep, processTimeouts_idle h.1.unacked]
    rw [hidle]
    exact hn

/-- In every state of a run, exactly when no registration comes too late; the rings hold
    just the messages logged. -/
theorem not_stranded_iff {p : Pushed} (h0 : Started p) (ha : AllSent p.node.server) (es : List PushEvent) :
    (∀ q, ready ((Run.run pushStep p es).node.server.queues q) = copiesIn (Run.run pushStep p es).log q) ∧
      ((∀ as, as <+: es → NotStranded (Run.run pushStep p as)) ↔ Run.Along pushStep findsNothingUnsent p es) := by
  have hbase : Logged p ∧ AllSent p.node.server := ⟨started_logged h0, ha⟩
  have hstart : NotStranded p := by
    intro q name i _ _ c hc
    rw [h0.log] at hc
    cases hc
  exact ⟨(Run.run_inv allSent_step es hbase).1.ring, Run.along_iff allSent_step notStranded_step hbase hstart⟩

/-- A message is published before the first consumer of its queue registers. -/
theorem a_late_consumer_gets_nothing : AllSent aPushed.node.server ∧
    ¬ NotStranded (Run.run pushStep aPushed [.publish 0 aMessage, .register 0 twoBytes.exchange]) := by
  refine ⟨⟨fun _ _ => rfl, fun _ => (by decide : (-1 : Int) ≤ 4)⟩, ?_⟩
  intro hn
  have hkept : Logged (Run.run pushStep aPushed [.publish 0 aMessage, .register 0 twoBytes.exchange]) :=
    Run.run_inv logged_step _ (started_logged aPushed_started)
  have hunsent : ∃ c ∈ (Run.run pushStep aPushed [.publish 0 aMessage, .register 0 twoBytes.exchange]).log,
      c.queue = 0 ∧ c.forwarded = 0 := by decide +kernel
  obtain ⟨c, hc, hq, hzero⟩ := hunsent
  have hpos := (notStranded_iff hkept).mp hn c hc twoBytes.exchange 0 (by rw [hq]; decide +kernel) (by decide +kernel)
  rw [hzero] at hpos
  exact absurd hpos (by decide)

theorem not_stranded_when_registered_first :
    NotStranded (Run.run pushStep aPushed [.register 0 twoBytes.exchange, .publish 0 aMessage]) := by
  have hsent : AllSent aPushed.node.server := ⟨fun _ _ => rfl, fun _ => (by decide : (-1 : Int) ≤ 4)⟩
  refine (not_stranded_iff aPushed_started hsent [.register 0 twoBytes.exchange, .publish 0 aMessage]).2.mpr
    ⟨?_, trivial, trivial⟩ _ List.prefix_rfl
  intro _ _ _ c hc
  cases hc

end RabbitMQ.Core
