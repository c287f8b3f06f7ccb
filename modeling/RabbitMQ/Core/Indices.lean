/-
  RabbitMQ.Core.Indices — where the operations of `queue.c` reach into `messages`.

  `accesses` lists what a call does with the slot array: each index it reads or writes, and
  each time it evaluates `head + capacity - 1`. The block has `capacity * sizeof(Message*)`
  bytes, a product of two `size_t`: it wraps from a capacity of 2^61 on, and then the block
  has fewer slots than the ring takes it to have (`slots_lt`).

  Below that every run keeps inside the block, and above no capacity does: as many messages
  as the block has slots go in, and the next is written behind it (`in_block_iff`,
  `a_product_that_wraps_overruns`).
-/

import RabbitMQ.Core.QueueRuns

namespace RabbitMQ.Core

open Lib

variable {μ : Type}

/-! ## Accesses -/

/-- The whole pointers in the block that `queue_create` asks for. -/
def slots (capacity : UInt64) : Nat := (capacity * 8).toNat / 8

inductive Access where
  /-- `messages[i]`, read or written. -/
  | slot (i : Nat)
  /-- `head + capacity - 1`. -/
  | back (head : UInt64)
  deriving DecidableEq, Repr

/-- Inside the block, and without a wrap. -/
def Access.Ok (capacity : UInt64) : Access → Prop
  | .slot i => i < slots capacity
  | .back head => 1 ≤ head.toNat + capacity.toNat ∧ head.toNat + capacity.toNat < 2 ^ 64

instance (capacity : UInt64) : DecidablePred (Access.Ok capacity) := fun a => by
  cases a <;> unfold Access.Ok <;> infer_instance

/-- A message put in front. -/
def moveBack (q : Queue μ) : List Access := [.back q.head, .slot ((q.head + q.capacity - 1) % q.capacity).toNat]

def enqueueAccesses (q : Queue μ) (message : Option μ) : List Access :=
  match message with
  | none => []
  | some _ => if q.size = q.capacity then [] else [.slot q.tail.toNat]

/-- The way back, where the message could not be tracked, only computes the head. -/
def dequeueAccesses (q : Queue μ) (realloc : Bool) : List Access :=
  if q.size = 0 then []
  else
    .slot q.head.toNat ::
      if q.unackedCapacity ≤ q.unackedCount ∧ realloc = false then [.back ((q.head + 1) % q.capacity)] else []

def rejectAccesses (q : Queue μ) (tag : UInt64) (requeue : Int) : List Access :=
  match findTag q tag with
  | none => []
  | some _ => if requeue = 0 then [] else if q.size = q.capacity then [] else moveBack q

def timeoutAccesses (now timeout : Int) (p : Pass μ) (i : Nat) : List Access :=
  if expired now timeout (p.q.unackedMessages i) then if p.q.size < p.q.capacity then moveBack p.q else [] else []

def passAccesses (now timeout : Int) : List Nat → Pass μ → List Access
  | [], _ => []
  | i :: cells, p => timeoutAccesses now timeout p i ++ passAccesses now timeout cells (timeoutStep now timeout p i)

def accesses (q : Queue μ) : Call μ → List Access
  | .enqueue message | .tryEnqueue message => enqueueAccesses q message
  | .dequeue _ realloc | .tryDequeue _ realloc => dequeueAccesses q realloc
  | .reject tag requeue => rejectAccesses q tag requeue
  | .processTimeouts now timeout =>
    if timeout ≤ 0 then [] else passAccesses now timeout (List.range q.unackedCount) ⟨q, 0, [], []⟩
  | .ack _ | .size | .setDurable _ => []

/-- The first loop of `queue_free`. -/
def freeAccesses (q : Queue μ) : List Access :=
  (List.range q.size.toNat).map fun i => .slot ((q.head + UInt64.ofNat i) % q.capacity).toNat

/-! ## No other slot is written -/

theorem moveBack_frame (q : Queue μ) (m : μ) {i : Nat} (h : .slot i ∉ moveBack q) : (pushHead q m).messages i = q.messages i := by
  refine Function.update_of_ne (fun he => h ?_) m q.messages
  rw [he]
  exact List.mem_cons_of_mem _ List.mem_cons_self

theorem enqueue_frame (q : Queue μ) (m : μ) {i : Nat} (hfull : q.size ≠ q.capacity)
    (h : .slot i ∉ enqueueAccesses q (some m)) : (pushTail q m).messages i = q.messages i := by
  refine Function.update_of_ne (fun he => h ?_) m q.messages
  rw [he, enqueueAccesses, if_neg hfull]
  exact List.mem_cons_self

theorem takeHead_frame (q : Queue μ) (now : Int) (realloc : Bool) :
    (takeHead q now realloc).2.messages = q.messages := by
  by_cases hr : q.unackedCapacity ≤ q.unackedCount ∧ realloc = false
  · simp only [takeHead, addToUnacked, if_pos hr]
  · simp only [takeHead, addToUnacked, if_neg hr]
    split <;> rfl

theorem reject_frame (q : Queue μ) (tag : UInt64) (requeue : Int) {i : Nat} (h : .slot i ∉ rejectAccesses q tag requeue) :
    (queueReject q tag requeue).1.messages i = q.messages i := by
  unfold queueReject
  unfold rejectAccesses at h
  cases hfind : findTag q tag with
  | none => rfl
  | some k =>
    simp only [hfind] at h ⊢
    by_cases h0 : requeue = 0
    · rw [if_pos h0]
      rfl
    rw [if_neg h0] at h ⊢
    by_cases hfull : q.size = q.capacity
    · rw [if_pos (show (cleanUp (markAcknowledged q k)).size = (cleanUp (markAcknowledged q k)).capacity from hfull)]
      rfl
    · rw [if_neg hfull] at h
      rw [if_neg (show ¬ (cleanUp (markAcknowledged q k)).size = (cleanUp (markAcknowledged q k)).capacity from hfull)]
      exact moveBack_frame (cleanUp (markAcknowledged q k)) _ h

theorem timeoutStep_slots (now timeout : Int) (p : Pass μ) (k : Nat) {i : Nat}
    (h : .slot i ∉ timeoutAccesses now timeout p k) : (timeoutStep now timeout p k).q.messages i = p.q.messages i := by
  unfold timeoutStep
  unfold timeoutAccesses at h
  by_cases he : expired now timeout (p.q.unackedMessages k) = true
  · simp only [if_pos he] at h ⊢
    by_cases hroom : p.q.size < p.q.capacity
    · rw [if_pos hroom] at h
      rw [if_pos (show (markAcknowledged p.q k).size < (markAcknowledged p.q k).capacity from hroom)]
      exact moveBack_frame (markAcknowledged p.q k) _ h
    · rw [if_neg (show ¬ (markAcknowledged p.q k).size < (markAcknowledged p.q k).capacity from hroom)]
      rfl
  · rw [if_neg he]

theorem pass_slots (now timeout : Int) (cells : List Nat) (p : Pass μ) {i : Nat}
    (h : .slot i ∉ passAccesses now timeout cells p) :
    (cells.foldl (timeoutStep now timeout) p).q.messages i = p.q.messages i := by
  induction cells generalizing p with
  | nil => rfl
  | cons k cells ih =>
    obtain ⟨hstep, hrest⟩ := not_or.mp (mt List.mem_append.mpr h)
    rw [List.foldl_cons, ih _ hrest]
    exact timeoutStep_slots now timeout p k hstep

theorem tryEnqueue_frame (q : Queue μ) (message : Option μ) {i : Nat} (h : .slot i ∉ enqueueAccesses q message) :
    (call q (.tryEnqueue message)).1.messages i = q.messages i := by
  cases message with
  | none => rfl
  | some m =>
    simp only [call, queueTryEnqueue]
    by_cases hfull : q.size = q.capacity
    · simp only [if_pos hfull]
    · simp only [if_neg hfull]
      exact enqueue_frame q m hfull h

theorem tryDequeue_frame (q : Queue μ) (now : Int) (realloc : Bool) :
    (call q (.tryDequeue now realloc)).1.messages = q.messages := by
  simp only [call, queueTryDequeue]
  by_cases hempty : q.size = 0
  · rw [if_pos hempty]
  · rw [if_neg hempty, takeHead_frame]

/-- A slot that a call leaves out of its accesses is as it was. -/
theorem call_frame (q : Queue μ) (c : Call μ) {i : Nat} (h : .slot i ∉ accesses q c) :
    (call q c).1.messages i = q.messages i := by
  cases c with
  | enqueue message =>
    rw [call_enqueue]
    exact tryEnqueue_frame q message h
  | tryEnqueue message => exact tryEnqueue_frame q message h
  | dequeue now realloc => rw [call_dequeue, tryDequeue_frame]
  | tryDequeue now realloc => rw [tryDequeue_frame]
  | ack tag =>
    simp only [call, queueAck]
    split <;> rfl
  | reject tag requeue => exact reject_frame q tag requeue h
  | processTimeouts now timeout =>
    simp only [accesses] at h
    simp only [call, queueProcessTimeouts]
    by_cases ht : timeout ≤ 0
    · rw [if_pos ht]
    · rw [if_neg ht] at h ⊢
      simp only
      split
      · exact pass_slots now timeout _ _ h
      · exact pass_slots now timeout _ _ h
  | size => rfl
  | setDurable durable => rfl

/-! ## Below 2^61 -/

theorem slots_eq {capacity : UInt64} (h : capacity.toNat < 2 ^ 61) : slots capacity = capacity.toNat := by
  have h8 : (8 : UInt64).toNat = 8 := rfl
  rw [slots, UInt64.toNat_mul, h8]
  omega

/-- From there on the product wraps. -/
theorem slots_lt {capacity : UInt64} (h : 2 ^ 61 ≤ capacity.toNat) : slots capacity < capacity.toNat := by
  have h8 : (8 : UInt64).toNat = 8 := rfl
  have hcap := capacity.toNat_lt
  rw [slots, UInt64.toNat_mul, h8]
  omega

section Ring

variable {q : Queue μ}

theorem slot_ok (h : RingOk q) {i : Nat} (hi : i < q.capacity.toNat) : Access.Ok q.capacity (.slot i) := by
  show i < slots q.capacity
  rwa [slots_eq h.capLt]

theorem back_ok (h : RingOk q) {head : UInt64} (hhead : head.toNat < q.capacity.toNat) :
    Access.Ok q.capacity (.back head) := by
  have hlt := h.capLt
  exact ⟨by omega, by omega⟩

theorem moveBack_ok (h : RingOk q) : ∀ a ∈ moveBack q, a.Ok q.capacity := by
  intro a ha
  rcases List.mem_cons.mp ha with rfl | ha
  · exact back_ok h h.headLt
  · rw [List.mem_singleton.mp ha]
    refine slot_ok h ?_
    rw [back_index h.headLt h.capLt]
    exact Circular.back_lt _ h.capPos

theorem timeoutStep_ring {p : Pass μ} (h : RingOk p.q) (now timeout : Int) (i : Nat) :
    RingOk (timeoutStep now timeout p i).q ∧ (timeoutStep now timeout p i).q.capacity = p.q.capacity := by
  unfold timeoutStep
  by_cases he : expired now timeout (p.q.unackedMessages i) = true
  · simp only [if_pos he]
    split
    · rename_i hroom
      exact ⟨(pushHead_spec (ringOk_mark h i) _ (UInt64.lt_iff_toNat_lt.mp hroom)).1, rfl⟩
    · exact ⟨ringOk_mark h i, rfl⟩
  · rw [if_neg he]
    exact ⟨h, rfl⟩

theorem pass_ok (now timeout : Int) (cells : List Nat) {p : Pass μ} (h : RingOk p.q) :
    ∀ a ∈ passAccesses now timeout cells p, a.Ok p.q.capacity := by
  induction cells generalizing p with
  | nil => exact fun a ha => absurd ha List.not_mem_nil
  | cons i cells ih =>
    intro a ha
    rcases List.mem_append.mp ha with ha | ha
    · unfold timeoutAccesses at ha
      split at ha
      · split at ha
        · exact moveBack_ok h a ha
        · cases ha
      · cases ha
    · obtain ⟨hring, hcap⟩ := timeoutStep_ring h now timeout i
      rw [← hcap]
      exact ih hring a ha

theorem accesses_ok (h : RingOk q) (c : Call μ) : ∀ a ∈ accesses q c, a.Ok q.capacity := by
  intro a ha
  cases c with
  | enqueue message | tryEnqueue message =>
    simp only [accesses, enqueueAccesses] at ha
    split at ha
    · cases ha
    · split at ha
      · cases ha
      · rw [List.mem_singleton.mp ha]
        exact slot_ok h h.slots.tailLt
  | dequeue now realloc | tryDequeue now realloc =>
    simp only [accesses, dequeueAccesses] at ha
    split at ha
    · cases ha
    · rcases List.mem_cons.mp ha with rfl | ha
      · exact slot_ok h h.headLt
      · split at ha
        · rw [List.mem_singleton.mp ha]
          refine back_ok h ?_
          rw [next_index h.headLt]
          exact Nat.mod_lt _ h.capPos
        · cases ha
  | ack tag | size | setDurable durable => cases ha
  | reject tag requeue =>
    simp only [accesses, rejectAccesses] at ha
    split at ha
    · cases ha
    · split at ha
      · cases ha
      · split at ha
        · cases ha
        · exact moveBack_ok h a ha
  | processTimeouts now timeout =>
    simp only [accesses] at ha
    split at ha
    · cases ha
    · have hp : RingOk (Pass.mk q 0 [] []).q := h
      exact pass_ok now timeout (List.range q.unackedCount) hp a ha

theorem freeAccesses_ok (h : RingOk q) : ∀ a ∈ freeAccesses q, a.Ok q.capacity := by
  intro a ha
  obtain ⟨i, -, rfl⟩ := List.mem_map.mp ha
  refine slot_ok h ?_
  rw [UInt64.toNat_mod]
  exact Nat.mod_lt _ h.capPos

end Ring

/-- Whatever the run does next, and `queue_free` at its end. -/
def InBlock (capacity : UInt64) (q : Queue μ) : Prop :=
  ∀ calls, (∀ c, ∀ a ∈ accesses (Hist.run q calls).q c, a.Ok capacity) ∧
    ∀ a ∈ freeAccesses (Hist.run q calls).q, a.Ok capacity

theorem does_capacity {s s' : Store μ} {c : Call μ} {o : Out μ} (h : Does s c s' o) : s'.capacity = s.capacity := by
  cases h <;> rfl

theorem small_in_block {name : Option CString} {capacity : UInt64} {garbage : Nat → μ} {info : Nat → DeliveryInfo μ}
    {sync : SyncInit} {h : Heap} {q : Queue μ} (hq : (queueCreate name capacity garbage info sync h).1 = some q)
    (hcap : capacity.toNat < 2 ^ 61) : InBlock capacity q := by
  obtain ⟨hring, hstore⟩ := created_ok hq hcap
  intro calls
  obtain ⟨hring', hsame⟩ := hist_inv (P := fun s _ => s.capacity = capacity.toNat)
    (fun s g c s' o hp _ hd => (does_capacity hd).trans hp) hring (by rw [hstore]) (along_true q calls)
  have hcapacity : (Hist.run q calls).q.capacity = capacity := UInt64.toNat_inj.mp hsame
  refine ⟨fun c => ?_, ?_⟩
  · rw [← hcapacity]
    exact accesses_ok hring' c
  · rw [← hcapacity]
    exact freeAccesses_ok hring'

/-! ## From 2^61 on -/

/-- `n` messages in the first `n` slots. -/
structure FilledUpTo (n : Nat) (capacity : UInt64) (q : Queue μ) : Prop where
  capacity : q.capacity = capacity
  size : q.size.toNat = n
  tail : q.tail.toNat = n

theorem filled_enqueue {n : Nat} {capacity : UInt64} {q : Queue μ} (m : μ) (h : FilledUpTo n capacity q)
    (hn : n + 1 < capacity.toNat) : FilledUpTo (n + 1) capacity (call q (.enqueue (some m))).1 := by
  have hfull : q.size ≠ q.capacity := by
    intro he
    have hsize := h.size
    rw [he, h.capacity] at hsize
    omega
  have hsize : q.size.toNat < q.capacity.toNat := by
    rw [h.size, h.capacity]
    omega
  have htail : q.tail.toNat < q.capacity.toNat := by
    rw [h.tail, h.capacity]
    omega
  rw [call_enqueue]
  simp only [call, queueTryEnqueue, if_neg hfull]
  refine ⟨h.capacity, ?_, ?_⟩
  · simp only [pushTail, succ_size hsize, h.size]
  · show ((q.tail + 1) % q.capacity).toNat = n + 1
    rw [next_index htail, h.tail, h.capacity]
    exact Nat.mod_eq_of_lt hn

theorem filled_run {capacity : UInt64} {q : Queue μ} (m : μ) (h : FilledUpTo 0 capacity q) :
    ∀ n, n < capacity.toNat → FilledUpTo n capacity (Hist.run q (List.replicate n (.enqueue (some m)))).q := by
  intro n
  induction n with
  | zero => exact fun _ => h
  | succ n ih =>
    intro hn
    have hprev := ih (by omega)
    rw [List.replicate_succ', Hist.run, Run.run_append]
    exact filled_enqueue m hprev hn

/-- The message after the first `n` goes to slot `n`. -/
theorem filled_access {n : Nat} {capacity : UInt64} {q : Queue μ} (m : μ) (h : FilledUpTo n capacity q)
    (hn : n < capacity.toNat) : .slot n ∈ accesses q (.enqueue (some m)) := by
  have hfull : q.size ≠ q.capacity := by
    intro he
    have hsize := h.size
    rw [he, h.capacity] at hsize
    omega
  rw [accesses, enqueueAccesses, if_neg hfull, h.tail]
  exact List.mem_cons_self

theorem overruns {capacity : UInt64} {q : Queue μ} (m : μ) (h : FilledUpTo 0 capacity q)
    (hcap : 2 ^ 61 ≤ capacity.toNat) : ¬ InBlock capacity q := by
  intro hin
  have hlt := slots_lt hcap
  have hbehind := filled_access m (filled_run m h (slots capacity) hlt) hlt
  have hok : slots capacity < slots capacity := (hin _).1 _ _ hbehind
  exact absurd hok (Nat.lt_irrefl _)

theorem in_block_iff {name : Option CString} {capacity : UInt64} {garbage : Nat → μ} {info : Nat → DeliveryInfo μ}
    {sync : SyncInit} {h : Heap} {q : Queue μ} (hq : (queueCreate name capacity garbage info sync h).1 = some q) :
    InBlock capacity q ↔ capacity.toNat < 2 ^ 61 := by
  refine ⟨fun hin => ?_, small_in_block hq⟩
  by_contra hcap
  have hc := created hq
  have hempty : FilledUpTo 0 capacity q := ⟨hc.capacity, by rw [hc.size]; rfl, by rw [hc.tail]; rfl⟩
  exact overruns (garbage 0) hempty (by omega) hin

theorem in_block_iff_of_one_slot : ∃ q, oneSlot = some q ∧ (InBlock 1 q ↔ (1 : UInt64).toNat < 2 ^ 61) :=
  ⟨_, rfl, in_block_iff (show oneSlot = some _ from rfl)⟩

/-- A queue of 2^61 + 1 slots, in a block of 8 bytes. -/
def wideQueue : Option (Queue Nat) × Heap :=
  queueCreate (some ⟨[113, 57], by decide⟩) 2305843009213693953 (fun _ => 0) (fun _ => ⟨0, 0, 0, .ready⟩) ⟨true, true, true⟩
    ⟨1, fun _ => false, [], []⟩

/-- The second of two messages enqueued. -/
theorem a_product_that_wraps_overruns : ∃ q, wideQueue.1 = some q ∧ (⟨3, .plain⟩, 8) ∈ wideQueue.2.blocks ∧
    Access.slot 1 ∈ accesses (Hist.run q [.enqueue (some 1)]).q (.enqueue (some 2)) ∧ ¬ InBlock 2305843009213693953 q := by
  refine ⟨_, rfl, by decide +kernel, by decide +kernel, fun hin => ?_⟩
  have hok := (hin [.enqueue (some 1)]).1 (.enqueue (some 2)) (.slot 1) (by decide +kernel)
  exact absurd hok (by decide +kernel)

end RabbitMQ.Core
