/-
  RabbitMQ.Core.Waiting — who sleeps on the queue's condition variables, and beside what.

  A step of a thread does one of five things (`Section`): it goes to sleep on a full ring or
  on an empty one, it puts a message in and signals `not_empty`, it takes one out and signals
  `not_full`, or it changes the queue without a signal.

  (1) Free slots appear only by a signalled take, so no caller of `queue_enqueue` sleeps
      beside more free slots than there are woken callers (`no_producer_sleeps`).
  (2) Ready messages appear without a signal when `queue_reject` or a timeout pass puts them
      back, and stay behind without one when a woken `queue_dequeue` cannot track its
      message. No caller of `queue_dequeue` sleeps beside more messages than there are woken
      callers exactly as long as no such step meets a sleeper it leaves short
      (`no_consumer_sleeps_iff`, `a_requeue_wakes_nobody`).
-/

import RabbitMQ.Core.Monitor
import RabbitMQ.Core.QueueRuns

namespace RabbitMQ.Core

open Lib
open Lib.CondVar (Cond Paid)

variable {μ : Type}

/-! ## Sizes -/

def SizeOk (q : Queue μ) : Prop := q.size.toNat ≤ q.capacity.toNat

theorem pushTail_size {q : Queue μ} (h : SizeOk q) (hf : q.size ≠ q.capacity) (m : μ) :
    (pushTail q m).size.toNat = q.size.toNat + 1 := succ_size (size_lt h hf)

/-- A dequeue that hands nothing out leaves the size, one that does takes one off. -/
theorem takeHead_size {q : Queue μ} (hs : q.size ≠ 0) (now : Int) (realloc : Bool) :
    (takeHead q now realloc).2.capacity = q.capacity ∧
      (((takeHead q now realloc).1 = none ∧ (q.unackedCapacity ≤ q.unackedCount ∧ realloc = false) ∧
          (takeHead q now realloc).2.size = q.size) ∨
        ((takeHead q now realloc).1 ≠ none ∧ ¬ (q.unackedCapacity ≤ q.unackedCount ∧ realloc = false) ∧
          (takeHead q now realloc).2.size.toNat + 1 = q.size.toNat)) := by
  by_cases hr : q.unackedCapacity ≤ q.unackedCount ∧ realloc = false
  · have hsize : q.size - 1 + 1 = q.size := by simp
    have htake : takeHead q now realloc =
        (none, { q with head := ((q.head + 1) % q.capacity + q.capacity - 1) % q.capacity, size := q.size - 1 + 1 }) := by
      simp only [takeHead, addToUnacked, if_pos hr]
    rw [htake]
    exact ⟨rfl, Or.inl ⟨rfl, hr, hsize⟩⟩
  · have hpred := pred_size hs
    refine ⟨?_, Or.inr ⟨?_, hr, ?_⟩⟩
    all_goals simp only [takeHead, addToUnacked, if_neg hr]
    · split <;> rfl
    · exact Option.some_ne_none _
    · split
      · exact hpred
      · exact hpred

/-- What the first `n` turns of a pass have put back. -/
structure BackAt (q : Queue μ) (now timeout : Int) (n : Nat) (p : Pass μ) : Prop where
  cap : p.q.capacity = q.capacity
  ahead : ∀ i, n ≤ i → p.q.unackedMessages i = q.unackedMessages i
  size : p.q.size.toNat =
    q.size.toNat + min ((Segment.seg q.unackedMessages n).countP (expired now timeout)) (room q)

theorem backAt_succ {q : Queue μ} (h : SizeOk q) {now timeout : Int} {n : Nat} {p : Pass μ}
    (hp : BackAt q now timeout n p) : BackAt q now timeout (n + 1) (timeoutStep now timeout p n) := by
  have hn : p.q.unackedMessages n = q.unackedMessages n := hp.ahead n (Nat.le_refl n)
  have hcount : (Segment.seg q.unackedMessages (n + 1)).countP (expired now timeout) =
      (Segment.seg q.unackedMessages n).countP (expired now timeout) +
        if expired now timeout (q.unackedMessages n) then 1 else 0 := by
    rw [Segment.seg_succ, List.countP_append, List.countP_singleton]
  have hsz := hp.size
  have hle : q.size.toNat ≤ q.capacity.toNat := h
  simp only [timeoutStep, hn]
  by_cases he : expired now timeout (q.unackedMessages n) = true
  · rw [if_pos he] at hcount
    have hahead : ∀ i, n + 1 ≤ i → (markAcknowledged p.q n).unackedMessages i = q.unackedMessages i := by
      intro i hi
      rw [← hp.ahead i (by omega)]
      exact Function.update_of_ne (by omega) _ _
    simp only [he, if_true]
    by_cases hroom : (markAcknowledged p.q n).size < (markAcknowledged p.q n).capacity
    · have hlt : p.q.size.toNat < p.q.capacity.toNat := hroom
      have hs : (p.q.size + 1).toNat = p.q.size.toNat + 1 := succ_size hlt
      rw [if_pos hroom]
      refine ⟨hp.cap, hahead, ?_⟩
      show (p.q.size + 1).toNat = _
      rw [hp.cap] at hlt
      rw [hs, hsz, hcount]
      unfold room at hsz ⊢
      omega
    · have hge : ¬ p.q.size.toNat < p.q.capacity.toNat := hroom
      rw [if_neg hroom]
      refine ⟨hp.cap, hahead, ?_⟩
      show p.q.size.toNat = _
      rw [hp.cap] at hge
      rw [hcount]
      unfold room at hsz ⊢
      omega
  · rw [if_neg he] at hcount
    rw [if_neg he]
    refine ⟨hp.cap, fun i hi => hp.ahead i (by omega), ?_⟩
    rw [hcount]
    exact hsz

theorem backAt {q : Queue μ} (h : SizeOk q) (now timeout : Int) (n : Nat) :
    BackAt q now timeout n ((List.range n).foldl (timeoutStep now timeout) ⟨q, 0, [], []⟩) := by
  induction n with
  | zero => exact ⟨rfl, fun _ _ => rfl, by simp⟩
  | succ n ih =>
    rw [List.range_succ, List.foldl_append]
    exact backAt_succ h ih

/-- How many messages a call puts back in the ring. -/
def putsBack (q : Queue μ) : Call μ → Nat
  | .reject tag requeue => if (findTag q tag).isSome ∧ requeue ≠ 0 ∧ q.size ≠ q.capacity then 1 else 0
  | .processTimeouts now timeout => if 0 < timeout then min ((unacked q).countP (expired now timeout)) (room q) else 0
  | _ => 0

/-- The calls that neither wait nor signal. -/
theorem call_size {q : Queue μ} (h : SizeOk q) {c : Call μ}
    (hc : match c with | .enqueue _ | .tryEnqueue _ | .dequeue .. | .tryDequeue .. => False | _ => True) :
    (call q c).1.capacity = q.capacity ∧ (call q c).1.size.toNat = q.size.toNat + putsBack q c := by
  cases c with
  | enqueue | tryEnqueue | dequeue | tryDequeue => exact hc.elim
  | ack tag =>
    simp only [call, queueAck]
    split
    · exact ⟨rfl, rfl⟩
    · exact ⟨rfl, rfl⟩
  | reject tag requeue =>
    simp only [call, queueReject, putsBack]
    cases hf : findTag q tag with
    | none => exact ⟨rfl, rfl⟩
    | some i =>
      simp only [Option.isSome_some, true_and]
      by_cases h0 : requeue = 0
      · rw [if_pos h0, if_neg (fun hn => hn.1 h0)]
        exact ⟨rfl, rfl⟩
      rw [if_neg h0]
      by_cases hfull : q.size = q.capacity
      · have hfull' : (cleanUp (markAcknowledged q i)).size = (cleanUp (markAcknowledged q i)).capacity := hfull
        rw [if_pos hfull', if_neg (fun hn => hn.2 hfull)]
        exact ⟨rfl, rfl⟩
      · have hfull' : ¬ (cleanUp (markAcknowledged q i)).size = (cleanUp (markAcknowledged q i)).capacity := hfull
        rw [if_neg hfull', if_pos ⟨h0, hfull⟩]
        exact ⟨rfl, succ_size (size_lt h hfull)⟩
  | processTimeouts now timeout =>
    simp only [call, queueProcessTimeouts, putsBack]
    by_cases ht : timeout ≤ 0
    · rw [if_pos ht, if_neg (by omega)]
      exact ⟨rfl, rfl⟩
    · have hb := backAt h now timeout q.unackedCount
      have hpos : 0 < timeout := by omega
      rw [if_neg ht, if_pos hpos]
      split
      · exact ⟨hb.cap, hb.size⟩
      · exact ⟨hb.cap, hb.size⟩
  | size => exact ⟨rfl, rfl⟩
  | setDurable => exact ⟨rfl, rfl⟩

/-! ## The five things a step does -/

/-- From the test of the loop to the end of the section, or to the wait. -/
inductive Section (s : Monitor μ) (back : Nat) : Monitor μ → Prop
  | sleepsFull (w : Nat × μ) : s.q.size = s.q.capacity → Section s back { s with notFull := s.notFull.sleep w }
  | sleepsEmpty (t : Nat) : s.q.size = 0 → Section s back { s with notEmpty := s.notEmpty.sleep t }
  | puts (q : Queue μ) (p : Nat → Bool) : q.capacity = s.q.capacity → SizeOk q → q.size.toNat = s.q.size.toNat + 1 →
      Section s back { s with q, notEmpty := s.notEmpty.signal p }
  | takes (q : Queue μ) (p : Nat × μ → Bool) : q.capacity = s.q.capacity → q.size.toNat + 1 = s.q.size.toNat →
      Section s back { s with q, notFull := s.notFull.signal p }
  | quiet (q : Queue μ) : q.capacity = s.q.capacity → SizeOk q → q.size.toNat = s.q.size.toNat + back →
      Section s back { s with q }

theorem puts_pushTail {s : Monitor μ} (h : SizeOk s.q) (hf : s.q.size ≠ s.q.capacity) (m : μ) (p : Nat → Bool)
    (back : Nat) : Section s back { s with q := pushTail s.q m, notEmpty := s.notEmpty.signal p } := by
  have hsize := pushTail_size h hf m
  have hlt := size_lt h hf
  refine .puts _ p rfl ?_ hsize
  show (pushTail s.q m).size.toNat ≤ s.q.capacity.toNat
  omega

/-- `queue_enqueue` of a message. -/
theorem enqueue_section (s : Monitor μ) (h : SizeOk s.q) (t : Nat) (m : μ) (wakes : List Nat) :
    (s.q.size = s.q.capacity ∧ s.critical t (.enqueue (some m)) wakes = { s with notFull := s.notFull.sleep (t, m) }) ∨
      (s.q.size.toNat < s.q.capacity.toNat ∧ ∃ p, s.critical t (.enqueue (some m)) wakes =
        { s with q := pushTail s.q m, notEmpty := s.notEmpty.signal p }) := by
  by_cases hf : s.q.size = s.q.capacity
  · left
    refine ⟨hf, ?_⟩
    simp only [Monitor.critical, queueEnqueue, if_pos hf]
  · right
    refine ⟨size_lt h hf, (wakes.contains ·), ?_⟩
    simp only [Monitor.critical, queueEnqueue, if_neg hf]

/-- A woken `queue_dequeue` cannot track the message it takes. -/
def Untracked (q : Queue μ) (realloc : Bool) : Prop :=
  q.size ≠ 0 ∧ q.unackedCapacity ≤ q.unackedCount ∧ realloc = false

theorem dequeue_section (s : Monitor μ) (t : Nat) (now : Int) (realloc : Bool) (wakes : List Nat) :
    (s.q.size = 0 ∧ s.critical t (.dequeue now realloc) wakes = { s with notEmpty := s.notEmpty.sleep t }) ∨
      (Untracked s.q realloc ∧ ∃ q, q.capacity = s.q.capacity ∧ q.size = s.q.size ∧
        s.critical t (.dequeue now realloc) wakes = { s with q }) ∨
      (¬ Untracked s.q realloc ∧ ∃ q p, q.capacity = s.q.capacity ∧ q.size.toNat + 1 = s.q.size.toNat ∧
        s.critical t (.dequeue now realloc) wakes = { s with q, notFull := s.notFull.signal p }) := by
  by_cases hs : s.q.size = 0
  · left
    refine ⟨hs, ?_⟩
    simp only [Monitor.critical, queueDequeue, if_pos hs]
  · right
    have htake := takeHead_size hs now realloc
    cases e : takeHead s.q now realloc with
    | mk got q =>
    rw [e] at htake
    obtain ⟨hcap, ⟨hgot, hr, hsize⟩ | ⟨hgot, hr, hsize⟩⟩ := htake
    · left
      cases hgot
      refine ⟨⟨hs, hr⟩, q, hcap, hsize, ?_⟩
      simp only [Monitor.critical, queueDequeue, if_neg hs, e]
    · right
      obtain ⟨r, rfl⟩ := Option.ne_none_iff_exists'.mp hgot
      refine ⟨fun hn => hr hn.2, q, (wakes.contains ·.1), hcap, hsize, ?_⟩
      simp only [Monitor.critical, queueDequeue, if_neg hs, e]

theorem critical_section (s : Monitor μ) (h : SizeOk s.q) (t : Nat) (c : Call μ) (wakes : List Nat) :
    Section s (putsBack s.q c) (s.critical t c wakes) := by
  have hquiet : ∀ q, q.capacity = s.q.capacity → q.size = s.q.size → Section s 0 { s with q } := by
    intro q hcap hsize
    refine .quiet q hcap ?_ (by rw [hsize]; rfl)
    rw [SizeOk, hcap, hsize]
    exact h
  have hrest : ∀ {c : Call μ}, (match c with | .enqueue _ | .tryEnqueue _ | .dequeue .. | .tryDequeue .. => False | _ => True) →
      (call s.q c).1.size.toNat ≤ s.q.capacity.toNat → Section s (putsBack s.q c) { s with q := (call s.q c).1 } := by
    intro c hc hle
    obtain ⟨hcap, hsize⟩ := call_size h hc
    refine .quiet _ hcap ?_ hsize
    rw [SizeOk, hcap]
    exact hle
  have hroom : s.q.size.toNat + room s.q = s.q.capacity.toNat := by
    have hle : s.q.size.toNat ≤ s.q.capacity.toNat := h
    unfold room
    omega
  cases c with
  | enqueue message =>
    cases message with
    | none => exact hquiet s.q rfl rfl
    | some m =>
      obtain ⟨hf, e⟩ | ⟨hlt, p, e⟩ := enqueue_section s h t m wakes
      · rw [e]
        exact .sleepsFull _ hf
      · rw [e]
        exact puts_pushTail h (fun hf => absurd hlt (by rw [hf]; exact Nat.lt_irrefl _)) m p _
  | tryEnqueue message =>
    cases message with
    | none => exact hquiet s.q rfl rfl
    | some m =>
      by_cases hf : s.q.size = s.q.capacity
      · simp only [Monitor.critical, queueTryEnqueue, if_pos hf]
        exact hquiet s.q rfl rfl
      · simp only [Monitor.critical, queueTryEnqueue, if_neg hf]
        exact puts_pushTail h hf m _ _
  | dequeue now realloc =>
    obtain ⟨hs, e⟩ | ⟨-, q, hcap, hsize, e⟩ | ⟨-, q, p, hcap, hsize, e⟩ := dequeue_section s t now realloc wakes
    · rw [e]
      exact .sleepsEmpty t hs
    · rw [e]
      exact hquiet q hcap hsize
    · rw [e]
      exact .takes q p hcap hsize
  | tryDequeue now realloc =>
    by_cases hs : s.q.size = 0
    · simp only [Monitor.critical, queueTryDequeue, if_pos hs]
      exact hquiet s.q rfl rfl
    · have htake := takeHead_size hs now realloc
      simp only [Monitor.critical, queueTryDequeue, if_neg hs]
      cases e : takeHead s.q now realloc with
      | mk got q =>
      rw [e] at htake
      obtain ⟨hcap, ⟨hgot, -, hsize⟩ | ⟨hgot, -, hsize⟩⟩ := htake
      · cases hgot
        exact hquiet q hcap hsize
      · obtain ⟨r, rfl⟩ := Option.ne_none_iff_exists'.mp hgot
        exact .takes q _ hcap hsize
  | ack tag => exact hrest trivial (by rw [(call_size h trivial).2]; exact h)
  | reject tag requeue =>
    refine hrest trivial ?_
    rw [(call_size h trivial).2, putsBack]
    split
    · rename_i hp
      exact size_lt h hp.2.2
    · exact h
  | processTimeouts now timeout =>
    refine hrest trivial ?_
    rw [(call_size h trivial).2, putsBack]
    split
    · have := Nat.min_le_right ((unacked s.q).countP (expired now timeout)) (room s.q)
      omega
    · exact h
  | size => exact hrest trivial h
  | setDurable => exact hrest trivial h

theorem section_sizeOk {s s' : Monitor μ} {back : Nat} (hs : Section s back s') (h : SizeOk s.q) : SizeOk s'.q := by
  cases hs with
  | sleepsFull | sleepsEmpty => exact h
  | puts q p hcap hle => exact hle
  | takes q p hcap hsize =>
    show q.size.toNat ≤ q.capacity.toNat
    rw [hcap]
    have hle : s.q.size.toNat ≤ s.q.capacity.toNat := h
    omega
  | quiet q hcap hle => exact hle

theorem sizeOk_step (s : Monitor μ) (e : MonitorEvent μ) (h : SizeOk s.q) : SizeOk (monitorStep s e).q := by
  cases e with
  | call t c wakes =>
    simp only [monitorStep]
    split
    · exact h
    · exact section_sizeOk (critical_section s h t c wakes) h
  | dequeuer t now realloc wakes =>
    simp only [monitorStep]
    split
    · exact section_sizeOk (critical_section { s with notEmpty := s.notEmpty.resume (· == t) } h t _ wakes) h
    · exact h
  | enqueuer t wakes =>
    simp only [monitorStep]
    split
    · exact h
    · exact section_sizeOk (critical_section { s with notFull := s.notFull.resume (·.1 == t) } h t _ wakes) h
  | spurious wakes => exact h

theorem sizeOk_created {name : Option CString} {capacity : UInt64} {garbage : Nat → μ} {info : Nat → DeliveryInfo μ}
    {sync : SyncInit} {h : Heap} {q : Queue μ} (hq : (queueCreate name capacity garbage info sync h).1 = some q) :
    SizeOk q := by
  have hsize := (created hq).size
  rw [SizeOk, hsize]
  exact Nat.zero_le _

/-! ## (1) Producers -/

/-- If a caller of `queue_enqueue` sleeps, no more slots are free than callers are awake to
    take them. -/
def NoProducerSleeps (s : Monitor μ) : Prop :=
  s.notFull.asleep ≠ [] → s.q.capacity.toNat - s.q.size.toNat ≤ s.notFull.woken.length

theorem producer_step (s : Monitor μ) (e : MonitorEvent μ) (h : SizeOk s.q ∧ Paid (room s.q) s.notFull) :
    SizeOk (monitorStep s e).q ∧ Paid (room (monitorStep s e).q) (monitorStep s e).notFull := by
  obtain ⟨hok, hpaid⟩ := h
  refine ⟨sizeOk_step s e hok, ?_⟩
  have hcritical : ∀ {s s' : Monitor μ} {back : Nat}, Section s back s' → Paid (room s.q) s.notFull →
      Paid (room s'.q) s'.notFull := by
    intro s s' back hs hpaid
    cases hs with
    | sleepsFull w hf =>
      have hzero : room s.q = 0 := by rw [room, hf, Nat.sub_self]
      show Paid (room s.q) (s.notFull.sleep w)
      rw [hzero]
      exact CondVar.paid_sleep w
    | sleepsEmpty t => exact hpaid
    | puts q p hcap _ hsize =>
      apply CondVar.paid_mono hpaid
      show q.capacity.toNat - q.size.toNat ≤ s.q.capacity.toNat - s.q.size.toNat
      rw [hcap]
      omega
    | takes q p hcap hsize =>
      apply CondVar.paid_mono (CondVar.paid_signal hpaid p)
      show q.capacity.toNat - q.size.toNat ≤ s.q.capacity.toNat - s.q.size.toNat + 1
      rw [hcap]
      omega
    | quiet q hcap _ hsize =>
      apply CondVar.paid_mono hpaid
      show q.capacity.toNat - q.size.toNat ≤ s.q.capacity.toNat - s.q.size.toNat
      rw [hcap]
      omega
  cases e with
  | call t c wakes =>
    simp only [monitorStep]
    split
    · exact hpaid
    · exact hcritical (critical_section s hok t c wakes) hpaid
  | dequeuer t now realloc wakes =>
    simp only [monitorStep]
    split
    · exact hcritical (critical_section { s with notEmpty := s.notEmpty.resume (· == t) } hok t _ wakes) hpaid
    · exact hpaid
  | enqueuer t wakes =>
    simp only [monitorStep]
    split
    · exact hpaid
    · -- the woken caller takes a slot, or finds none and sleeps again
      rename_i m _
      have hless := CondVar.paid_resume hpaid (·.1 == t)
      obtain ⟨hf, e⟩ | ⟨hlt, p, e⟩ :=
        enqueue_section { s with notFull := s.notFull.resume (·.1 == t) } hok t m wakes
      · have hzero : room s.q = 0 := by rw [room, show s.q.size = s.q.capacity from hf, Nat.sub_self]
        rw [e]
        show Paid (room s.q) _
        rw [hzero]
        exact CondVar.paid_sleep _
      · have hsize : (s.q.size + 1).toNat = s.q.size.toNat + 1 := succ_size hlt
        rw [e]
        apply CondVar.paid_mono hless
        show s.q.capacity.toNat - (s.q.size + 1).toNat ≤ s.q.capacity.toNat - s.q.size.toNat - 1
        omega
  | spurious wakes => exact CondVar.paid_wake hpaid _

/-- No producer sleeps beside a free slot that nobody is on the way to. -/
theorem no_producer_sleeps {name : Option CString} {capacity : UInt64} {garbage : Nat → μ}
    {info : Nat → DeliveryInfo μ} {sync : SyncInit} {h : Heap} {q : Queue μ}
    (hq : (queueCreate name capacity garbage info sync h).1 = some q) (events : List (MonitorEvent μ)) :
    NoProducerSleeps (Run.run monitorStep (Monitor.start q) events) := by
  have h0 : SizeOk (Monitor.start q).q ∧ Paid (room (Monitor.start q).q) (Monitor.start q).notFull :=
    ⟨sizeOk_created hq, fun hne => absurd rfl hne⟩
  exact (Run.run_inv producer_step events h0).2

/-- A producer waits, a slot is freed and stolen, the producer sleeps again. -/
theorem no_producer_sleeps_when_robbed : ∃ q, oneSlot = some q ∧
    NoProducerSleeps (Run.run monitorStep (Monitor.start q) [.call 0 (.enqueue (some 7)) [], .call 1 (.enqueue (some 8)) [],
      .call 2 (.tryDequeue 0 true) [], .call 2 (.tryEnqueue (some 9)) [], .enqueuer 1 []]) :=
  ⟨_, rfl, no_producer_sleeps (show oneSlot = some _ from rfl) _⟩

/-! ## (2) Consumers -/

/-- If a caller of `queue_dequeue` sleeps, no more messages are ready than callers are awake
    to take them. -/
def NoConsumerSleeps (s : Monitor μ) : Prop := s.notEmpty.asleep ≠ [] → s.q.size.toNat ≤ s.notEmpty.woken.length

/-- What the step leaves in the ring without a signal meets no sleeper, or enough callers
    are awake: a call that puts messages back, and a woken caller that cannot track the
    message it takes. -/
def Covered (s : Monitor μ) : MonitorEvent μ → Prop
  | .call t c _ => s.Blocked t ∨ putsBack s.q c = 0 ∨ s.notEmpty.asleep = [] ∨
      s.q.size.toNat + putsBack s.q c ≤ s.notEmpty.woken.length
  | .dequeuer t _ realloc _ => t ∉ s.notEmpty.woken ∨ ¬ Untracked s.q realloc ∨ s.notEmpty.asleep = [] ∨
      s.q.size.toNat + 1 ≤ s.notEmpty.woken.length
  | _ => True

theorem consumer_critical {s s' : Monitor μ} (hs : Section s 0 s') (hpaid : Paid s.q.size.toNat s.notEmpty) :
    Paid s'.q.size.toNat s'.notEmpty := by
  cases hs with
  | sleepsFull => exact hpaid
  | sleepsEmpty t hzero =>
    show Paid s.q.size.toNat (s.notEmpty.sleep t)
    rw [hzero]
    exact CondVar.paid_sleep t
  | puts q p _ _ hsize =>
    show Paid q.size.toNat (s.notEmpty.signal p)
    rw [hsize]
    exact CondVar.paid_signal hpaid p
  | takes q p _ hsize => exact CondVar.paid_mono hpaid (by show q.size.toNat ≤ s.q.size.toNat; omega)
  | quiet q _ _ hsize =>
    show Paid q.size.toNat s.notEmpty
    rw [hsize]
    exact hpaid

theorem putsBack_critical {s : Monitor μ} (h : SizeOk s.q) (t : Nat) {c : Call μ} (wakes : List Nat)
    (hb : putsBack s.q c ≠ 0) :
    (s.critical t c wakes).q.size.toNat = s.q.size.toNat + putsBack s.q c ∧
      (s.critical t c wakes).notEmpty = s.notEmpty := by
  cases c with
  | reject tag requeue => exact ⟨(call_size h trivial).2, rfl⟩
  | processTimeouts now timeout => exact ⟨(call_size h trivial).2, rfl⟩
  | enqueue | tryEnqueue | dequeue | tryDequeue | ack | size | setDurable => exact absurd rfl hb

/-- A step keeps the consumers' account exactly when it is covered. -/
theorem covered_iff (s : Monitor μ) (e : MonitorEvent μ) (h : SizeOk s.q) (hpaid : NoConsumerSleeps s) :
    Covered s e ↔ NoConsumerSleeps (monitorStep s e) := by
  show Covered s e ↔ Paid (monitorStep s e).q.size.toNat (monitorStep s e).notEmpty
  cases e with
  | call t c wakes =>
    simp only [Covered, monitorStep]
    by_cases hblocked : s.Blocked t
    · rw [if_pos hblocked]
      exact iff_of_true (Or.inl hblocked) hpaid
    rw [if_neg hblocked]
    by_cases hb : putsBack s.q c = 0
    · have hs := critical_section s h t c wakes
      rw [hb] at hs
      exact iff_of_true (Or.inr (Or.inl hb)) (consumer_critical hs hpaid)
    · obtain ⟨hsize, hcond⟩ := putsBack_critical h t wakes hb
      rw [hsize, hcond, CondVar.paid_iff]
      simp only [hblocked, hb, false_or]
  | dequeuer t now realloc wakes =>
    simp only [Covered, monitorStep]
    by_cases hw : t ∈ s.notEmpty.woken
    · have hless := CondVar.paid_resume (c := s.notEmpty) hpaid (· == t)
      have hlen := CondVar.resume_length (c := s.notEmpty) (p := (· == t)) hw (beq_self_eq_true t)
      rw [if_pos hw]
      obtain ⟨hzero, e⟩ | ⟨hun, q, -, hsize, e⟩ | ⟨hun, q, p, -, hsize, e⟩ :=
        dequeue_section { s with notEmpty := s.notEmpty.resume (· == t) } t now realloc wakes
      · have hzero' : s.q.size = 0 := hzero
        rw [e]
        refine iff_of_true (Or.inr (Or.inl fun hn => hn.1 hzero')) ?_
        show Paid s.q.size.toNat _
        rw [hzero']
        exact CondVar.paid_sleep t
      · -- the message stays, the caller is gone
        have hun' : Untracked s.q realloc := hun
        rw [e]
        show _ ↔ Paid q.size.toNat (s.notEmpty.resume (· == t))
        rw [hsize, CondVar.paid_iff, ← hlen]
        simp only [hw, hun', not_true, false_or, Nat.add_le_add_iff_right]
        exact Iff.rfl
      · rw [e]
        refine iff_of_true (Or.inr (Or.inl hun)) ?_
        have hsize' : q.size.toNat + 1 = s.q.size.toNat := hsize
        exact CondVar.paid_mono hless (by show q.size.toNat ≤ s.q.size.toNat - 1; omega)
    · rw [if_neg hw]
      exact iff_of_true (Or.inl hw) hpaid
  | enqueuer t wakes =>
    refine iff_of_true trivial ?_
    simp only [monitorStep]
    split
    · exact hpaid
    · rename_i m _
      exact consumer_critical
        (critical_section { s with notFull := s.notFull.resume (·.1 == t) } h t (.enqueue (some m)) wakes) hpaid
  | spurious wakes => exact iff_of_true trivial (CondVar.paid_wake hpaid _)

/-- In every state of a run no consumer sleeps beside a message that nobody is on the way to
    exactly when every step of the run is covered. -/
theorem no_consumer_sleeps_iff {name : Option CString} {capacity : UInt64} {garbage : Nat → μ}
    {info : Nat → DeliveryInfo μ} {sync : SyncInit} {h : Heap} {q : Queue μ}
    (hq : (queueCreate name capacity garbage info sync h).1 = some q) (events : List (MonitorEvent μ)) :
    (∀ es, es <+: events → NoConsumerSleeps (Run.run monitorStep (Monitor.start q) es)) ↔
      Run.Along monitorStep Covered (Monitor.start q) events :=
  Run.along_iff sizeOk_step covered_iff (sizeOk_created hq) fun hne => absurd rfl hne

/-- A consumer sleeps on the empty ring while another rejects its message with requeue: the
    message is ready and nobody is woken. -/
theorem a_requeue_wakes_nobody : ∃ q, oneSlot = some q ∧
    ¬ NoConsumerSleeps (Run.run monitorStep (Monitor.start q) [.call 0 (.tryEnqueue (some 7)) [],
      .call 0 (.tryDequeue 0 true) [], .call 1 (.dequeue 0 true) [], .call 0 (.reject 1 1) []]) := by
  refine ⟨_, rfl, ?_⟩
  intro h
  exact absurd (h (by decide +kernel)) (by decide +kernel)

theorem no_consumer_sleeps_when_signalled : ∃ q, oneSlot = some q ∧
    ∀ es, es <+: [.call 1 (.dequeue 0 true) [], .call 0 (.tryEnqueue (some 7)) [], .dequeuer 1 0 true []] →
      NoConsumerSleeps (Run.run monitorStep (Monitor.start q) es) :=
  ⟨_, rfl, (no_consumer_sleeps_iff (show oneSlot = some _ from rfl) _).mpr
    ⟨Or.inr (Or.inl rfl), Or.inr (Or.inl rfl), Or.inr (Or.inl fun hn => absurd hn.2.2 (by decide)), trivial⟩⟩

end RabbitMQ.Core
