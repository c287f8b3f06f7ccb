/-
  RabbitMQ.Core.Copies — what a publish puts in the queues, copy by copy.

  `routeCopies` and `publishCopies` are the loop of `broker_route_message` and
  `broker_publish` with a record of the copies stored, and of how many consumers each was
  forwarded to; without the record they are the functions of the source (`route_copies`,
  `publish_copies`).

  Proved: the copies are appended to their queues and nothing else of a queue or of the
  tables changes (`Appends`); a queue gets at most one for each binding of its that matches,
  and with no allocation refused exactly these, as long as it has room
  (`routes_to_every_match`).
-/

import Mathlib.Algebra.BigOperators.Group.Finset.Piecewise
import RabbitMQ.Core.Forwarding

namespace RabbitMQ.Core

open Lib

/-! ## With a record -/

/-- A copy in a queue, and the consumers it was forwarded to. -/
structure Stored where
  queue : Nat
  copy : Message
  forwarded : Nat

def routeToCopies (message : Message) (b : Binding) (s : Server) : Option (Server × List Stored) :=
  match messageClone message s.heap with
  | (none, heap) => some ({ s with heap }, [])
  | (some clone, heap) =>
    let r := queueTryEnqueue (s.queues b.queue) (some clone)
    let s := { s with heap, queues := Function.update s.queues b.queue r.2 }
    if r.1 ≠ 0 then (forwardCounting r.2.name clone s).map fun f => (f.1, [⟨b.queue, clone, f.2⟩])
    else some ({ s with heap := messageFree clone s.heap }, [])

def routeCopies (exchange : Nat) (message : Message) : List Binding → Server → Option (Server × List Stored)
  | [], s => some (s, [])
  | b :: bs, s =>
    match bindingMatches s exchange message.routingKey b with
    | none => none
    | some false => routeCopies exchange message bs s
    | some true =>
      (routeToCopies message b s).bind fun r =>
        (routeCopies exchange message bs r.1).map fun r' => (r'.1, r.2 ++ r'.2)

/-- The end of `broker_route_message`: the message stays where it was routed once. -/
def afterRouting (message : Message) (s : Server) (routed : Nat) : Server :=
  if routed = 1 then s else { s with heap := messageFree message s.heap }

def publishCopies (exchange : Nat) (m : Message) (s : Server) : Option (Server × List Stored) :=
  match messageClone m s.heap with
  | (none, heap) => some ({ s with heap }, [])
  | (some msgClone, heap) =>
    (routeCopies exchange msgClone s.broker.bindings { s with heap }).map fun r =>
      let s := afterRouting msgClone r.1 r.2.length
      (if r.2 = [] then { s with heap := messageFree msgClone s.heap } else s, r.2)

/-- One binding that matches: no clone, a clone and a full queue, or a copy stored and
    forwarded. -/
theorem routeToCopies_cases {message : Message} {b : Binding} {s s' : Server} {cs : List Stored}
    (h : routeToCopies message b s = some (s', cs)) :
    (∃ heap, messageClone message s.heap = (none, heap) ∧ s' = { s with heap } ∧ cs = []) ∨
      ∃ clone heap, messageClone message s.heap = (some clone, heap) ∧
        (((s.queues b.queue).size = (s.queues b.queue).capacity ∧ s' = { s with heap := messageFree clone heap } ∧ cs = []) ∨
          ((s.queues b.queue).size ≠ (s.queues b.queue).capacity ∧ ∃ n, cs = [⟨b.queue, clone, n⟩] ∧
            forwardCounting (s.queues b.queue).name clone
              { s with heap, queues := Function.update s.queues b.queue (pushTail (s.queues b.queue) clone) } = some (s', n))) := by
  unfold routeToCopies at h
  cases e : messageClone message s.heap with
  | mk c heap =>
  rw [e] at h
  cases c with
  | none =>
    cases h
    exact Or.inl ⟨heap, rfl, rfl, rfl⟩
  | some clone =>
    refine Or.inr ⟨clone, heap, rfl, ?_⟩
    by_cases hfull : (s.queues b.queue).size = (s.queues b.queue).capacity
    · have htry : queueTryEnqueue (s.queues b.queue) (some clone) = (0, s.queues b.queue) := if_pos hfull
      simp only [htry, ne_eq, not_true, if_false, Function.update_eq_self] at h
      cases h
      exact Or.inl ⟨hfull, rfl, rfl⟩
    · have htry : queueTryEnqueue (s.queues b.queue) (some clone) = (1, pushTail (s.queues b.queue) clone) := if_neg hfull
      simp only [htry, ne_eq, one_ne_zero, not_false_eq_true, if_true] at h
      obtain ⟨⟨s1, n⟩, hforward, hend⟩ := Option.map_eq_some_iff.mp h
      cases hend
      exact Or.inr ⟨hfull, n, rfl, hforward⟩

/-- A turn of the loop that returns, in the end. -/
theorem routeCopies_cases {exchange : Nat} {message : Message} {b : Binding} {bs : List Binding} {s s' : Server}
    {cs : List Stored} (h : routeCopies exchange message (b :: bs) s = some (s', cs)) :
    (bindingMatches s exchange message.routingKey b = some false ∧ routeCopies exchange message bs s = some (s', cs)) ∨
      ∃ s1 c1 c2, bindingMatches s exchange message.routingKey b = some true ∧ routeToCopies message b s = some (s1, c1) ∧
        routeCopies exchange message bs s1 = some (s', c2) ∧ cs = c1 ++ c2 := by
  rw [routeCopies] at h
  cases hm : bindingMatches s exchange message.routingKey b with
  | none =>
    rw [hm] at h
    cases h
  | some hit =>
  rw [hm] at h
  cases hit with
  | false => exact Or.inl ⟨rfl, h⟩
  | true =>
    obtain ⟨⟨s1, c1⟩, hto, hafter⟩ := Option.bind_eq_some_iff.mp h
    obtain ⟨⟨s2, c2⟩, hrest, hend⟩ := Option.map_eq_some_iff.mp hafter
    cases hend
    exact Or.inr ⟨s1, c1, c2, rfl, hto, hrest, rfl⟩

theorem publishCopies_cases {exchange : Nat} {m : Message} {s s' : Server} {cs : List Stored}
    (h : publishCopies exchange m s = some (s', cs)) :
    (∃ heap, messageClone m s.heap = (none, heap) ∧ s' = { s with heap } ∧ cs = []) ∨
      ∃ clone heap s1, messageClone m s.heap = (some clone, heap) ∧
        routeCopies exchange clone s.broker.bindings { s with heap } = some (s1, cs) ∧
        s' = if cs = [] then { afterRouting clone s1 cs.length with
            heap := messageFree clone (afterRouting clone s1 cs.length).heap }
          else afterRouting clone s1 cs.length := by
  unfold publishCopies at h
  cases e : messageClone m s.heap with
  | mk c heap =>
  rw [e] at h
  cases c with
  | none =>
    cases h
    exact Or.inl ⟨heap, rfl, rfl, rfl⟩
  | some clone =>
    obtain ⟨⟨s1, cs⟩, hrouted, hend⟩ := Option.map_eq_some_iff.mp h
    cases hend
    exact Or.inr ⟨clone, heap, s1, rfl, hrouted, rfl⟩

theorem routeTo_copies (message : Message) (b : Binding) (s : Server) (routed : Nat) :
    routeTo message b s routed = (routeToCopies message b s).map fun r => (r.1, routed + r.2.length) := by
  unfold routeTo routeToCopies
  cases messageClone message s.heap with
  | mk c heap =>
  cases c with
  | none => rfl
  | some clone =>
    simp only [forward_counting]
    split
    · rw [Option.map_map, Option.map_map]
      rfl
    · rfl

theorem routeLoop_copies (exchange : Nat) (message : Message) (bs : List Binding) (s : Server) (routed : Nat) :
    routeLoop exchange message bs s routed =
      (routeCopies exchange message bs s).map fun r => (r.1, routed + r.2.length) := by
  induction bs generalizing s routed with
  | nil => rfl
  | cons b bs ih =>
    rw [routeLoop, routeCopies]
    cases bindingMatches s exchange message.routingKey b with
    | none => rfl
    | some hit =>
    cases hit with
    | false => exact ih s routed
    | true =>
      show (routeTo message b s routed).bind _ = _
      rw [routeTo_copies]
      cases routeToCopies message b s with
      | none => rfl
      | some r =>
        show routeLoop exchange message bs r.1 (routed + r.2.length) =
          ((routeCopies exchange message bs r.1).map fun r' => (r'.1, r.2 ++ r'.2)).map fun r => (r.1, routed + r.2.length)
        rw [ih, Option.map_map]
        congr 1
        funext r'
        simp only [Function.comp_def, List.length_append, Nat.add_assoc]

theorem route_copies (exchange : Nat) (message : Message) (s : Server) :
    brokerRouteMessage exchange message s =
      (routeCopies exchange message s.broker.bindings s).map fun r =>
        (r.2.length, afterRouting message r.1 r.2.length) := by
  rw [brokerRouteMessage, routeLoop_copies, Option.map_map]
  congr 1
  funext r
  simp only [Function.comp_def, Nat.zero_add, afterRouting]
  by_cases h0 : r.2.length = 0
  · rw [if_pos h0, h0]
    rfl
  · rw [if_neg h0]
    split
    · rfl
    · rfl

theorem publish_copies (exchange : Nat) (m : Message) (s : Server) :
    brokerPublish exchange m s = (publishCopies exchange m s).map fun r => (if r.2 = [] then 0 else 1, r.1) := by
  unfold brokerPublish publishCopies
  cases messageClone m s.heap with
  | mk c heap =>
  cases c with
  | none => rfl
  | some msgClone =>
    simp only [route_copies, Option.map_map]
    congr 1
    funext r
    simp only [Function.comp_def, List.length_eq_zero_iff]
    split
    · rfl
    · rfl

/-! ## Appending -/

structure Appends (s s' : Server) (cs : List Stored) : Prop where
  slots : ∀ q, SlotsOk (s'.queues q)
  ready : ∀ q, ready (s'.queues q) = ready (s.queues q) ++ (cs.filter (·.queue = q)).map (·.copy)
  queues : ∀ q, s'.queues q = { s.queues q with
    messages := (s'.queues q).messages, size := (s'.queues q).size, tail := (s'.queues q).tail }
  tables : s' = { s with heap := s'.heap, queues := s'.queues, outlets := s'.outlets }
  granted : s.heap.AllGranted → s'.heap.AllGranted

theorem appends_heap {s : Server} (hs : ∀ q, SlotsOk (s.queues q)) {heap : Heap}
    (hg : s.heap.AllGranted → heap.AllGranted) : Appends s { s with heap } [] :=
  ⟨hs, fun _ => (List.append_nil _).symm, fun _ => rfl, rfl, hg⟩

theorem Appends.trans {s s' s'' : Server} {c c' : List Stored} (h : Appends s s' c) (h' : Appends s' s'' c') :
    Appends s s'' (c ++ c') := by
  refine ⟨h'.slots, ?_, ?_, ?_, fun hg => h'.granted (h.granted hg)⟩
  · intro q
    rw [h'.ready q, h.ready q, List.filter_append, List.map_append, List.append_assoc]
  · intro q
    rw [h'.queues q, h.queues q]
  · rw [h'.tables, h.tables]

/-- The routing clone's own frees. -/
theorem Appends.free {s s' : Server} {c : List Stored} (h : Appends s s' c) (m : Message) :
    Appends s { s' with heap := messageFree m s'.heap } c := by
  have hstep : Appends s' { s' with heap := messageFree m s'.heap } [] := appends_heap h.slots fun hg => hg
  have hfree := h.trans hstep
  rwa [List.append_nil] at hfree

theorem afterRouting_appends {s s' : Server} {c : List Stored} (h : Appends s s' c) (m : Message) (routed : Nat) :
    Appends s (afterRouting m s' routed) c := by
  unfold afterRouting
  split
  · exact h
  · exact h.free m

theorem Appends.exchanges {s s' : Server} {c : List Stored} (h : Appends s s' c) : s'.exchanges = s.exchanges := by
  rw [h.tables]

theorem Appends.capacity {s s' : Server} {c : List Stored} (h : Appends s s' c) (q : Nat) :
    (s'.queues q).capacity = (s.queues q).capacity := by
  rw [h.queues q]

theorem Appends.size {s s' : Server} {c : List Stored} (h : Appends s s' c) (q : Nat) :
    (s'.queues q).size.toNat = (s.queues q).size.toNat + c.countP (·.queue = q) := by
  have := congrArg List.length (h.ready q)
  rwa [ready_length, List.length_append, ready_length, List.length_map, ← List.countP_eq_length_filter] at this

theorem Appends.ring {s s' : Server} {c : List Stored} (h : Appends s s' c) {q : Nat} (hr : RingOk (s.queues q)) :
    RingOk (s'.queues q) := by
  have hslots := h.slots q
  exact ⟨hslots.capPos, by rw [h.capacity q]; exact hr.capLt, hslots.headLt, hslots.sizeLe, hslots.tailEq⟩

theorem Appends.unacked {s s' : Server} {c : List Stored} (h : Appends s s' c) (q : Nat) :
    unacked (s'.queues q) = unacked (s.queues q) := by
  rw [h.queues q]
  rfl

theorem clone_granted {m : Message} {h h' : Heap} {c : Option Message} (hc : messageClone m h = (c, h'))
    (hg : h.AllGranted) : h'.AllGranted := by
  have := (clone_ledger m h).allGranted hg
  rwa [hc] at this

/-- One binding that matches: a copy where there is room for it. -/
theorem routeTo_appends {message : Message} {b : Binding} {s s' : Server} {cs : List Stored}
    (hs : ∀ q, SlotsOk (s.queues q)) (h : routeToCopies message b s = some (s', cs)) :
    Appends s s' cs ∧
      ((cs = [] ∧ ((messageClone message s.heap).1 = none ∨ room (s.queues b.queue) = 0)) ∨
        ∃ clone forwarded, cs = [⟨b.queue, clone, forwarded⟩] ∧ (messageClone message s.heap).1 = some clone ∧
          0 < room (s.queues b.queue)) := by
  rcases routeToCopies_cases h with ⟨heap, e, rfl, rfl⟩ | ⟨clone, heap, e, ⟨hfull, rfl, rfl⟩ | ⟨hfull, n, rfl, hforward⟩⟩
  · exact ⟨appends_heap hs (clone_granted e), Or.inl ⟨rfl, Or.inl (by rw [e])⟩⟩
  · have hg : s.heap.AllGranted → heap.AllGranted := clone_granted e
    exact ⟨appends_heap hs hg, Or.inl ⟨rfl, Or.inr (by rw [room, hfull, Nat.sub_self])⟩⟩
  · obtain ⟨outlets, rfl⟩ := counting_outlets hforward
    have hlt := size_lt (hs b.queue).sizeLe hfull
    obtain ⟨hslots, hready⟩ := pushTail_slots (hs b.queue) clone hlt
    refine ⟨⟨?_, ?_, ?_, rfl, clone_granted e⟩, Or.inr ⟨clone, n, rfl, by rw [e], Nat.sub_pos_of_lt hlt⟩⟩
    · intro q
      by_cases hq : q = b.queue
      · subst hq; simpa using hslots
      · simpa [hq] using hs q
    · intro q
      by_cases hq : q = b.queue
      · subst hq; simpa using hready
      · have hq' : ¬ b.queue = q := fun e => hq e.symm
        simp [hq, hq']
    · intro q
      by_cases hq : q = b.queue
      · subst hq
        simp only [Function.update_self]
        rfl
      · simp only [Function.update_of_ne hq]

/-! ## Counting -/

/-- What the loop tests, for each type of exchange. -/
def Matches (s : Server) (exchange : Nat) (routingKey : Option CString) (b : Binding) : Prop :=
  b.exchange = exchange ∧
    match (s.exchanges exchange).type with
    | .fanout => True
    | .direct => b.routingKey ≠ none ∧ b.routingKey = routingKey
    | .topic => ∃ pattern, b.routingKey = some pattern ∧ matchTopic pattern routingKey = some true

theorem bindingMatches_iff {s : Server} {exchange : Nat} {routingKey : Option CString} {b : Binding} :
    bindingMatches s exchange routingKey b = some true ↔ Matches s exchange routingKey b := by
  unfold bindingMatches Matches
  by_cases he : b.exchange = exchange
  · rw [if_neg (not_not.mpr he)]
    simp only [he, true_and]
    cases (s.exchanges exchange).type with
    | fanout => simp
    | direct =>
      cases b.routingKey with
      | none => simp
      | some k =>
        cases routingKey with
        | none => simp [strcmpEq]
        | some k' => simp [strcmpEq]
    | topic =>
      cases b.routingKey with
      | none => simp
      | some pattern => simp
  · rw [if_pos he]
    simp [he]

instance (s : Server) (exchange : Nat) (routingKey : Option CString) (b : Binding) :
    Decidable (Matches s exchange routingKey b) :=
  decidable_of_iff _ bindingMatches_iff

/-- A binding that matches a NULL key matches every key. -/
theorem matches_null {s : Server} {exchange : Nat} {routingKey : Option CString} {b : Binding}
    (h : Matches s exchange none b) : Matches s exchange routingKey b := by
  obtain ⟨he, h⟩ := h
  refine ⟨he, ?_⟩
  cases ht : (s.exchanges exchange).type with
  | fanout => trivial
  | direct =>
    rw [ht] at h
    exact absurd h.2 h.1
  | topic =>
    rw [ht] at h
    obtain ⟨pattern, hp, hm⟩ := h
    refine ⟨pattern, hp, ?_⟩
    unfold matchTopic at hm ⊢
    by_cases h35 : pattern.bytes = [35]
    · rw [if_pos h35]
    · rw [if_neg h35] at hm
      split at hm
      · cases hm
      · cases hm

/-- The bindings of `q` among `bs` that match. -/
def hits (s : Server) (exchange : Nat) (routingKey : Option CString) (q : Nat) (bs : List Binding) : Nat :=
  bs.countP fun b => b.queue = q ∧ bindingMatches s exchange routingKey b = some true

theorem bindingMatches_congr {s s' : Server} (h : s'.exchanges = s.exchanges) (exchange : Nat)
    (routingKey : Option CString) (b : Binding) :
    bindingMatches s' exchange routingKey b = bindingMatches s exchange routingKey b := by
  unfold bindingMatches
  rw [h]

theorem hits_congr {s s' : Server} (h : s'.exchanges = s.exchanges) (exchange : Nat) (routingKey : Option CString)
    (q : Nat) (bs : List Binding) : hits s' exchange routingKey q bs = hits s exchange routingKey q bs := by
  unfold hits
  simp only [bindingMatches_congr h]

theorem hits_cons (s : Server) (exchange : Nat) (routingKey : Option CString) (q : Nat) (b : Binding) (bs : List Binding) :
    hits s exchange routingKey q (b :: bs) = hits s exchange routingKey q bs +
      if b.queue = q ∧ bindingMatches s exchange routingKey b = some true then 1 else 0 := by
  simp only [hits, List.countP_cons, decide_eq_true_eq]

/-- The whole loop: at most one copy for each match. -/
theorem routeCopies_appends {exchange : Nat} {message : Message} {bs : List Binding} {s s' : Server} {cs : List Stored}
    (hs : ∀ q, SlotsOk (s.queues q)) (h : routeCopies exchange message bs s = some (s', cs)) :
    Appends s s' cs ∧ ∀ q, cs.countP (·.queue = q) ≤ hits s exchange message.routingKey q bs := by
  induction bs generalizing s cs with
  | nil =>
    cases h
    exact ⟨appends_heap hs fun hg => hg, fun _ => Nat.zero_le _⟩
  | cons b bs ih =>
    rcases routeCopies_cases h with ⟨hm, hrest⟩ | ⟨s1, c1, c2, hm, hto, hrest, rfl⟩
    · obtain ⟨h1, h2⟩ := ih hs hrest
      refine ⟨h1, fun q => ?_⟩
      rw [hits_cons]
      exact Nat.le_trans (h2 q) (Nat.le_add_right _ _)
    · obtain ⟨happ, hcase⟩ := routeTo_appends hs hto
      obtain ⟨h1, h2⟩ := ih happ.slots hrest
      refine ⟨happ.trans h1, fun q => ?_⟩
      have hle := h2 q
      rw [hits_congr happ.exchanges] at hle
      rw [hits_cons, hm, List.countP_append]
      rcases hcase with ⟨rfl, -⟩ | ⟨clone, forwarded, rfl, -, -⟩
      · simp only [List.countP_nil]
        omega
      · simp only [List.countP_singleton, decide_eq_true_eq, and_true]
        omega

theorem hits_null_le (s : Server) (exchange : Nat) (routingKey : Option CString) (q : Nat) (bs : List Binding) :
    hits s exchange none q bs ≤ hits s exchange routingKey q bs := by
  apply List.countP_mono_left
  intro b _ h
  simp only [decide_eq_true_eq, bindingMatches_iff] at h ⊢
  exact ⟨h.1, matches_null h.2⟩

/-- A clone's key is the message's, or NULL where the copy of it was refused. -/
theorem clone_key {m c : Message} {h h' : Heap} (hc : messageClone m h = (some c, h')) :
    c.routingKey = m.routingKey ∨ c.routingKey = none := by
  have hdup : ∀ (dup : Option Ptr) (k : CString),
      (dup.map fun _ => k) = some k ∨ (dup.map fun _ => k) = none := by
    intro dup k
    cases dup with
    | none => exact Or.inr rfl
    | some p => exact Or.inl rfl
  unfold messageClone messageCreate at hc
  cases he : m.exchange with
  | none => rw [he] at hc; cases hc
  | some e =>
  cases hk : m.routingKey with
  | none => rw [he, hk] at hc; cases hc
  | some k =>
  rw [he, hk] at hc
  simp only at hc
  repeat' split at hc
  all_goals cases hc
  all_goals rename_i hmade
  all_goals repeat' split at hmade
  all_goals cases hmade
  all_goals exact hdup _ k

/-- A publish: its copies are appended, at most one for each match. -/
theorem publish_appends {exchange : Nat} {m : Message} {s s' : Server} {cs : List Stored}
    (hs : ∀ q, SlotsOk (s.queues q)) (h : publishCopies exchange m s = some (s', cs)) :
    Appends s s' cs ∧ ∀ q, cs.countP (·.queue = q) ≤ hits s exchange m.routingKey q s.broker.bindings := by
  rcases publishCopies_cases h with ⟨heap, hc, rfl, rfl⟩ | ⟨c, heap, s1, hc, hrun, rfl⟩
  · exact ⟨appends_heap hs (clone_granted hc), fun _ => Nat.zero_le _⟩
  · have hs1 : ∀ q, SlotsOk (({ s with heap } : Server).queues q) := hs
    obtain ⟨happ, hle⟩ := routeCopies_appends hs1 hrun
    have hall : Appends s s1 cs := (appends_heap hs (clone_granted hc)).trans happ
    refine ⟨?_, fun q => ?_⟩
    · split
      · exact (afterRouting_appends hall c _).free c
      · exact afterRouting_appends hall c _
    · refine Nat.le_trans (hle q) ?_
      rcases clone_key hc with hk | hk
      · rw [hk]
        exact Nat.le_refl _
      · rw [hk]
        exact hits_null_le s exchange m.routingKey q _

/-! ## Copies of a message -/

/-- What a message says in its body. -/
def Message.contents (m : Message) : Bytes := (m.body.getD []).take m.bodySize.toNat

/-- Strings that are there, and a body if it has a size: what `message_create` makes when no
    request is refused. -/
structure Copyable (m : Message) : Prop where
  exchange : m.exchange ≠ none
  routingKey : m.routingKey ≠ none
  body : ¬ (m.body = none ∧ 0 < m.bodySize)

structure SameAs (c m : Message) : Prop where
  exchange : c.exchange = m.exchange
  routingKey : c.routingKey = m.routingKey
  body : c.contents = m.contents
  bodySize : c.bodySize = m.bodySize
  priority : c.priority = m.priority
  expiration : c.expiration = m.expiration
  persistent : c.persistent = m.persistent

theorem create_copyable {h h' : Heap} (hg : h.AllGranted) {exchange routingKey : Option CString} {body : Option Bytes}
    {bodySize : UInt64} {m : Message} (hc : messageCreate exchange routingKey body bodySize h = (some m, h')) :
    Copyable m := by
  cases exchange with
  | none => cases hc
  | some e =>
  cases routingKey with
  | none => cases hc
  | some k =>
  by_cases hb : body = none ∧ 0 < bodySize
  · simp only [messageCreate, if_pos hb] at hc
    cases hc
  · obtain ⟨m', h1, hc', -, hf⟩ := create_fields hg e k hb
    rw [hc] at hc'
    cases hc'
    have hbody : m.body = if 0 < bodySize then body.map (·.take bodySize.toNat) else none := congrArg Fields.body hf
    have hsize : m.bodySize = bodySize := congrArg Fields.bodySize hf
    refine ⟨?_, ?_, ?_⟩
    · rw [congrArg Fields.exchange hf]; exact Option.some_ne_none e
    · rw [congrArg Fields.routingKey hf]; exact Option.some_ne_none k
    · intro hn
      rw [hbody, hsize, if_pos (hsize ▸ hn.2), Option.map_eq_none_iff] at hn
      exact hb hn

theorem clone_same {m : Message} {h : Heap} (hg : h.AllGranted) (hm : Copyable m) :
    ∃ c h', messageClone m h = (some c, h') ∧ SameAs c m ∧ Copyable c := by
  obtain ⟨e, he⟩ := Option.ne_none_iff_exists'.mp hm.exchange
  obtain ⟨k, hk⟩ := Option.ne_none_iff_exists'.mp hm.routingKey
  obtain ⟨c, h', hc, -, hf⟩ := create_fields hg e k hm.body
  have hcopy := create_copyable hg hc
  have hsize : c.bodySize = m.bodySize := by rw [hf]
  rw [messageClone, he, hk, hc]
  refine ⟨_, _, rfl, ⟨?_, ?_, ?_, hsize, rfl, rfl, rfl⟩, ⟨hcopy.exchange, hcopy.routingKey, hcopy.body⟩⟩
  · rw [he]; exact congrArg Fields.exchange hf
  · rw [hk]; exact congrArg Fields.routingKey hf
  · have hbody : c.body = if 0 < m.bodySize then m.body.map (·.take m.bodySize.toNat) else none := congrArg Fields.body hf
    simp only [Message.contents, hbody, hsize]
    by_cases h0 : 0 < m.bodySize
    · rw [if_pos h0]
      cases m.body with
      | none => rfl
      | some b => simp
    · have hz : m.bodySize = 0 := by simpa using h0
      simp [hz]

theorem SameAs.trans {a b c : Message} (h : SameAs a b) (h' : SameAs b c) : SameAs a c :=
  ⟨h.exchange.trans h'.exchange, h.routingKey.trans h'.routingKey, h.body.trans h'.body, h.bodySize.trans h'.bodySize,
    h.priority.trans h'.priority, h.expiration.trans h'.expiration, h.persistent.trans h'.persistent⟩

/-! ## Every match -/

/-- A message with its strings has a frame, so forwarding it comes to an end. -/
theorem forwardTo_returns {m : Message} (hm : Copyable m) (r : Server × Nat) (i : Nat) : ∃ r', forwardTo m r i = some r' := by
  obtain ⟨e, he⟩ := Option.ne_none_iff_exists'.mp hm.exchange
  obtain ⟨k, hk⟩ := Option.ne_none_iff_exists'.mp hm.routingKey
  unfold forwardTo sendMessageData sends
  simp only [he, hk]
  split
  · exact ⟨_, rfl⟩
  · exact ⟨_, rfl⟩

theorem counting_returns {m : Message} (hm : Copyable m) (queueName : Option CString) (s : Server) :
    ∃ r, forwardCounting queueName m s = some r := by
  cases queueName with
  | none => exact ⟨_, rfl⟩
  | some name =>
    have hall : ∀ (is : List Nat) (r : Server × Nat), ∃ r', is.foldlM (forwardTo m) r = some r' := by
      intro is
      induction is with
      | nil => exact fun r => ⟨r, rfl⟩
      | cons i is ih =>
        intro r
        obtain ⟨r1, h1⟩ := forwardTo_returns hm r i
        rw [List.foldlM_cons, h1]
        exact ih r1
    exact hall _ _

theorem bindingMatches_returns (s : Server) (exchange : Nat) {key : Option CString} (hk : key ≠ none) (b : Binding) :
    ∃ hit, bindingMatches s exchange key b = some hit := by
  obtain ⟨k, rfl⟩ := Option.ne_none_iff_exists'.mp hk
  unfold bindingMatches matchTopic
  cases b.routingKey with
  | none =>
    split
    · exact ⟨_, rfl⟩
    · split
      all_goals exact ⟨_, rfl⟩
  | some pattern =>
    split
    · exact ⟨_, rfl⟩
    · split
      · exact ⟨_, rfl⟩
      · exact ⟨_, rfl⟩
      · simp only
        split
        · exact ⟨_, rfl⟩
        · split
          · exact ⟨_, rfl⟩
          · exact ⟨_, rfl⟩

theorem routeTo_stores {message : Message} {b : Binding} {s : Server} (hs : ∀ q, SlotsOk (s.queues q))
    (hg : s.heap.AllGranted) (hm : Copyable message) : ∃ s' cs, routeToCopies message b s = some (s', cs) ∧
      Appends s s' cs ∧ (∀ q, cs.countP (·.queue = q) = if q = b.queue then min 1 (room (s.queues q)) else 0) ∧
      ∀ c ∈ cs, SameAs c.copy message := by
  obtain ⟨clone, heap, hc, hsame, hcopy⟩ := clone_same hg hm
  have hret : ∃ r, routeToCopies message b s = some r := by
    unfold routeToCopies
    rw [hc]
    simp only
    split
    · obtain ⟨r, hr⟩ := counting_returns hcopy (queueTryEnqueue (s.queues b.queue) (some clone)).2.name
        { s with heap, queues := Function.update s.queues b.queue (queueTryEnqueue (s.queues b.queue) (some clone)).2 }
      rw [hr]
      exact ⟨_, rfl⟩
    · exact ⟨_, rfl⟩
  obtain ⟨⟨s', cs⟩, hr⟩ := hret
  obtain ⟨happ, hcase⟩ := routeTo_appends hs hr
  refine ⟨s', cs, hr, happ, ?_, ?_⟩
  · intro q
    rcases hcase with ⟨rfl, hnone | hroom⟩ | ⟨c, n, rfl, -, hroom⟩
    · rw [hc] at hnone
      cases hnone
    · by_cases hq : q = b.queue
      · rw [if_pos hq, hq, hroom]; rfl
      · rw [if_neg hq]; rfl
    · by_cases hq : q = b.queue
      · subst hq
        simp only [List.countP_singleton, decide_true, if_true]
        omega
      · have hq' : ¬ b.queue = q := fun e => hq e.symm
        simp [hq, hq']
  · rcases hcase with ⟨rfl, -⟩ | ⟨c, n, rfl, hclone, -⟩
    · intro c hc
      cases hc
    · intro c' hc'
      rw [hc] at hclone
      cases hclone
      rw [List.mem_singleton.mp hc']
      exact hsame

/-- The loop with no request refused: a copy for each match, while there is room. -/
theorem routeCopies_stores (exchange : Nat) {message : Message} (bs : List Binding) {s : Server}
    (hs : ∀ q, SlotsOk (s.queues q)) (hg : s.heap.AllGranted) (hm : Copyable message) :
    ∃ s' cs, routeCopies exchange message bs s = some (s', cs) ∧ Appends s s' cs ∧
      (∀ q, cs.countP (·.queue = q) = min (hits s exchange message.routingKey q bs) (room (s.queues q))) ∧
      ∀ c ∈ cs, SameAs c.copy message := by
  induction bs generalizing s with
  | nil =>
    refine ⟨s, [], rfl, appends_heap hs fun hg => hg, fun q => (Nat.zero_min _).symm, ?_⟩
    intro c hc
    cases hc
  | cons b bs ih =>
    obtain ⟨hit, hm1⟩ := bindingMatches_returns s exchange hm.routingKey b
    rw [routeCopies, hm1]
    cases hit with
    | false =>
      obtain ⟨s', cs, hr, happ, hcount, hsame⟩ := ih hs hg
      refine ⟨s', cs, hr, happ, fun q => ?_, hsame⟩
      have hno : ¬ (b.queue = q ∧ bindingMatches s exchange message.routingKey b = some true) := by
        intro h
        rw [hm1] at h
        cases h.2
      rw [hits_cons, if_neg hno]
      exact hcount q
    | true =>
      obtain ⟨s1, c1, hr1, happ1, hcount1, hsame1⟩ := routeTo_stores (b := b) hs hg hm
      obtain ⟨s2, c2, hr2, happ2, hcount2, hsame2⟩ := ih happ1.slots (happ1.granted hg)
      refine ⟨s2, c1 ++ c2, ?_, happ1.trans happ2, fun q => ?_, ?_⟩
      · simp only [hr1, Option.bind_some, hr2, Option.map_some]
      · have hsize := happ1.size q
        rw [List.countP_append, hcount2 q, hits_congr happ1.exchanges, hits_cons, hm1]
        rw [hcount1 q] at hsize ⊢
        simp only [room, happ1.capacity q] at hsize ⊢
        by_cases hq : q = b.queue
        · subst hq
          simp only [if_true, true_and] at hsize ⊢
          omega
        · have hq' : ¬ b.queue = q := fun e => hq e.symm
          simp only [if_neg hq, hq', false_and, if_false] at hsize ⊢
          omega
      · intro c hc
        rcases List.mem_append.mp hc with hc | hc
        · exact hsame1 c hc
        · exact hsame2 c hc

/-- The bindings of `q` that match. -/
def matching (s : Server) (exchange : Nat) (routingKey : Option CString) (q : Nat) : Nat :=
  s.broker.bindings.countP fun b => b.queue = q ∧ Matches s exchange routingKey b

theorem matching_hits (s : Server) (exchange : Nat) (routingKey : Option CString) (q : Nat) :
    hits s exchange routingKey q s.broker.bindings = matching s exchange routingKey q := by
  simp only [hits, matching, bindingMatches_iff]

/-- The queues with a binding. -/
def boundQueues (s : Server) : Finset Nat := (s.broker.bindings.map (·.queue)).toFinset

/-- From `s` to `s'` queue `q` got the messages `copies q`, one for each match while it had
    room, and nothing else of the queues or tables changed. -/
structure RoutedTo (s s' : Server) (exchange : Nat) (m : Message) (copies : Nat → List Message) : Prop where
  ready : ∀ q, ready (s'.queues q) = ready (s.queues q) ++ copies q
  number : ∀ q, (copies q).length = min (matching s exchange m.routingKey q) (room (s.queues q))
  same : ∀ q, ∀ c ∈ copies q, SameAs c m
  rings : ∀ q, RingOk (s'.queues q)
  unacked : ∀ q, unacked (s'.queues q) = unacked (s.queues q)
  tags : ∀ q, (s'.queues q).nextDeliveryTag = (s.queues q).nextDeliveryTag
  names : ∀ q, (s'.queues q).name = (s.queues q).name
  broker : s'.broker = s.broker
  exchanges : s'.exchanges = s.exchanges
  consumers : s'.consumers = s.consumers
  clients : s'.clients = s.clients

/-- The copies a queue got. -/
def copiesIn (cs : List Stored) (q : Nat) : List Message := (cs.filter (·.queue = q)).map (·.copy)

theorem copiesIn_length (cs : List Stored) (q : Nat) : (copiesIn cs q).length = cs.countP (·.queue = q) := by
  rw [copiesIn, List.length_map, List.countP_eq_length_filter]

theorem sum_copiesIn {s : Server} {cs : List Stored} (h : ∀ q, q ∉ boundQueues s → cs.countP (·.queue = q) = 0) :
    ∑ q ∈ boundQueues s, (copiesIn cs q).length = cs.length := by
  have hmem : ∀ c ∈ cs, c.queue ∈ boundQueues s := by
    intro c hc
    by_contra hn
    have := List.countP_eq_zero.mp (h c.queue hn) c hc
    simp at this
  simp only [copiesIn_length]
  clear h
  induction cs with
  | nil => simp
  | cons c cs ih =>
    rw [List.length_cons, ← ih fun c' hc' => hmem c' (List.mem_cons_of_mem c hc')]
    simp only [List.countP_cons, decide_eq_true_eq, Finset.sum_add_distrib, Finset.sum_ite_eq,
      if_pos (hmem c List.mem_cons_self)]

theorem stored_routed {s s' : Server} {exchange : Nat} {m : Message} {cs : List Stored} (hr : ∀ q, RingOk (s.queues q))
    (happ : Appends s s' cs)
    (hcount : ∀ q, cs.countP (·.queue = q) = min (matching s exchange m.routingKey q) (room (s.queues q)))
    (hsame : ∀ c ∈ cs, SameAs c.copy m) : RoutedTo s s' exchange m (copiesIn cs) where
  ready := happ.ready
  number q := by rw [copiesIn_length, hcount q]
  same q c hc := by
    obtain ⟨stored, hstored, rfl⟩ := List.mem_map.mp hc
    exact hsame stored (List.mem_filter.mp hstored).1
  rings q := happ.ring (hr q)
  unacked q := happ.unacked q
  tags q := by rw [happ.queues q]
  names q := by rw [happ.queues q]
  broker := by rw [happ.tables]
  exchanges := happ.exchanges
  consumers := by rw [happ.tables]
  clients := by rw [happ.tables]

/-- A queue without a binding gets nothing. -/
theorem matching_unbound {s : Server} {exchange : Nat} {routingKey : Option CString} {q : Nat} (h : q ∉ boundQueues s) :
    matching s exchange routingKey q = 0 := by
  apply List.countP_eq_zero.mpr
  intro b hb hd
  simp only [decide_eq_true_eq] at hd
  refine h (List.mem_toFinset.mpr (List.mem_map.mpr ⟨b, hb, hd.1⟩))

theorem route_stores {s : Server} {m : Message} (hs : ∀ q, SlotsOk (s.queues q)) (hg : s.heap.AllGranted)
    (hm : Copyable m) (exchange : Nat) : ∃ s' cs, routeCopies exchange m s.broker.bindings s = some (s', cs) ∧
      Appends s s' cs ∧
      (∀ q, cs.countP (·.queue = q) = min (matching s exchange m.routingKey q) (room (s.queues q))) ∧
      ∀ c ∈ cs, SameAs c.copy m := by
  obtain ⟨s', cs, hrun, happ, hcount, hsame⟩ :=
    routeCopies_stores exchange s.broker.bindings hs hg hm
  simp only [matching_hits] at hcount
  exact ⟨s', cs, hrun, happ, hcount, hsame⟩

/-- The clone a publish routes matches as its message does, so every match gets a copy. -/
theorem publish_stores {s : Server} {m : Message} (hs : ∀ q, SlotsOk (s.queues q)) (hg : s.heap.AllGranted)
    (hm : Copyable m) (exchange : Nat) : ∃ s' cs, publishCopies exchange m s = some (s', cs) ∧ Appends s s' cs ∧
      (∀ q, cs.countP (·.queue = q) = min (matching s exchange m.routingKey q) (room (s.queues q))) ∧
      ∀ c ∈ cs, SameAs c.copy m := by
  obtain ⟨c, heap, hc, hclone, hcopy⟩ := clone_same hg hm
  have hs1 : ∀ q, SlotsOk (({ s with heap } : Server).queues q) := hs
  obtain ⟨s', cs, hrun, happ, hcount, hsame⟩ := route_stores hs1 (clone_granted hc hg) hcopy exchange
  have hrun' : routeCopies exchange c s.broker.bindings { s with heap } = some (s', cs) := hrun
  have hpub : ∃ s'', publishCopies exchange m s = some (s'', cs) := by
    unfold publishCopies
    rw [hc]
    simp only [hrun', Option.map_some]
    exact ⟨_, rfl⟩
  obtain ⟨s'', hpub⟩ := hpub
  refine ⟨s'', cs, hpub, (publish_appends hs hpub).1, ?_, ?_⟩
  · intro q
    rw [hcount q, hclone.routingKey]
    rfl
  · exact fun stored hmem => (hsame stored hmem).trans hclone

/-- The copies in the queues with a binding are all there are. -/
theorem stored_sum {s : Server} {exchange : Nat} {routingKey : Option CString} {cs : List Stored}
    (hcount : ∀ q, cs.countP (·.queue = q) = min (matching s exchange routingKey q) (room (s.queues q))) :
    ∑ q ∈ boundQueues s, (copiesIn cs q).length = cs.length := by
  apply sum_copiesIn
  intro q hq
  rw [hcount q, matching_unbound hq, Nat.zero_min]

theorem routes_to_every_match {s : Server} {m : Message} (hr : ∀ q, RingOk (s.queues q)) (hg : s.heap.AllGranted)
    (hm : Copyable m) (exchange : Nat) :
    (∃ s' copies, brokerRouteMessage exchange m s = some (∑ q ∈ boundQueues s, (copies q).length, s') ∧
      RoutedTo s s' exchange m copies) ∧
    ∃ s' copies val, brokerPublish exchange m s = some (val, s') ∧ RoutedTo s s' exchange m copies ∧
      (val = 1 ↔ 0 < ∑ q ∈ boundQueues s, (copies q).length) := by
  have hs : ∀ q, SlotsOk (s.queues q) := fun q => (hr q).slots
  constructor
  · obtain ⟨s', cs, hrun, happ, hcount, hsame⟩ := route_stores hs hg hm exchange
    refine ⟨afterRouting m s' cs.length, copiesIn cs, ?_, stored_routed hr ?_ hcount hsame⟩
    · rw [route_copies, hrun, stored_sum hcount]
      rfl
    · exact afterRouting_appends happ m _
  · obtain ⟨s', cs, hrun, happ, hcount, hsame⟩ := publish_stores hs hg hm exchange
    refine ⟨s', copiesIn cs, if cs = [] then 0 else 1, ?_, stored_routed hr happ hcount hsame, ?_⟩
    · rw [publish_copies, hrun]
      rfl
    · rw [stored_sum hcount]
      by_cases h0 : cs = []
      · simp [h0]
      · simp [h0, List.length_pos_iff]

theorem aMessage_copyable : Copyable aMessage := ⟨by decide, by decide, by decide⟩

/-- A queue of one slot that is bound twice. -/
theorem routes_to_a_queue_bound_twice : ∃ s, matching s 0 aMessage.routingKey 0 = 2 ∧ room (s.queues 0) = 1 ∧
    (∃ s' copies, brokerRouteMessage 0 aMessage s = some (∑ q ∈ boundQueues s, (copies q).length, s') ∧
      RoutedTo s s' 0 aMessage copies) ∧
    ∃ s' copies val, brokerPublish 0 aMessage s = some (val, s') ∧ RoutedTo s s' 0 aMessage copies ∧
      (val = 1 ↔ 0 < ∑ q ∈ boundQueues s, (copies q).length) :=
  ⟨serverWith (fun _ => emptyQueue) [⟨0, 0, none⟩, ⟨0, 0, none⟩] (by decide), by decide, by decide,
    routes_to_every_match (fun _ => emptyQueue_ring) (fun _ => rfl) aMessage_copyable 0⟩

end RabbitMQ.Core
