/-
  RabbitMQ.Core.EventLoop — the loop that takes overdue deliveries back, beside the threads
  that use the queues.

  A turn of `broker_event_loop` looks at `broker->running`, reads the clock, and five seconds
  after the last pass makes another: `queue_process_timeouts` for one queue after another,
  under `broker->mutex`, each with a reading of the clock of its own. Between any two of its
  steps the clock may go on, other threads may hold the mutex and create queues under it, and
  they may call any function of `queue.c` on any queue.

  No delivery is outstanding for long: when the loop goes to sleep, none that is in a queue of
  the table is more than 34 seconds old at the turn's reading (`overdue_are_taken_back`), and
  34 is reached (`four_seconds_late`). A pass settles every entry it finds expired, whether or
  not its message fits in the ring or the count of the requeued wraps (`pass_outstanding`).
-/

import RabbitMQ.Core.Interleavings
import RabbitMQ.Core.Pushes

namespace RabbitMQ.Core

open Lib

variable {μ : Type}

/-! ## Outstanding deliveries -/

/-- The deliveries that wait for an ack. -/
def outstanding (q : Queue μ) : List (DeliveryInfo μ) := (unacked q).filter (·.status == .delivered)

/-- The cells of `q'` are those of `q`, some of them settled. -/
structure Settles (q q' : Queue μ) : Prop where
  count : q'.unackedCount = q.unackedCount
  cell : ∀ i, q'.unackedMessages i = q.unackedMessages i ∨ (q'.unackedMessages i).status = .acknowledged

theorem Settles.refl (q : Queue μ) : Settles q q := ⟨rfl, fun _ => Or.inl rfl⟩

theorem Settles.trans {q q' q'' : Queue μ} (h : Settles q q') (h' : Settles q' q'') : Settles q q'' := by
  refine ⟨h'.count.trans h.count, fun i => ?_⟩
  rcases h'.cell i with he | hs
  · rw [he]
    exact h.cell i
  · exact Or.inr hs

theorem settles_mark (q : Queue μ) (i : Nat) : Settles q (markAcknowledged q i) := by
  refine ⟨rfl, fun j => ?_⟩
  by_cases hj : j = i
  · subst hj
    exact Or.inr (by simp only [markAcknowledged, Function.update_self])
  · exact Or.inl (Function.update_of_ne hj ..)

theorem mem_outstanding {q : Queue μ} {x : DeliveryInfo μ} :
    x ∈ outstanding q ↔ x.status = .delivered ∧ ∃ i < q.unackedCount, q.unackedMessages i = x := by
  rw [outstanding, List.mem_filter, unacked, Segment.mem_seg, and_comm, beq_iff_eq]

theorem Settles.outstanding {q q' : Queue μ} (h : Settles q q') {x : DeliveryInfo μ} (hx : x ∈ outstanding q') :
    x ∈ outstanding q := by
  obtain ⟨hstatus, i, hi, rfl⟩ := mem_outstanding.mp hx
  rcases h.cell i with he | hs
  · exact mem_outstanding.mpr ⟨hstatus, i, h.count ▸ hi, he.symm⟩
  · rw [hs] at hstatus
    cases hstatus

theorem outstanding_cleanUp {q : Queue μ} {x : DeliveryInfo μ} (hx : x ∈ outstanding (cleanUp q)) : x ∈ outstanding q := by
  rw [outstanding, List.mem_filter, unacked_cleanUp] at hx
  exact List.mem_filter.mpr ⟨List.mem_of_mem_filter hx.1, hx.2⟩

/-! ## A pass -/

theorem settles_timeoutStep (now timeout : Int) (p : Pass μ) (i : Nat) : Settles p.q (timeoutStep now timeout p i).q := by
  unfold timeoutStep
  split
  · have hmark := settles_mark p.q i
    dsimp only
    split
    · exact ⟨hmark.count, hmark.cell⟩
    · exact hmark
  · exact Settles.refl p.q

/-- The cell it is at is not expired after it. -/
theorem timeoutStep_here (now timeout : Int) (p : Pass μ) (i : Nat) :
    expired now timeout ((timeoutStep now timeout p i).q.unackedMessages i) = false := by
  have hmark : expired now timeout ((markAcknowledged p.q i).unackedMessages i) = false := by
    simp only [expired, markAcknowledged, Function.update_self]
    rfl
  unfold timeoutStep
  split
  · dsimp only
    split
    · exact hmark
    · exact hmark
  · rename_i he
    simpa using he

theorem Settles.expired {q q' : Queue μ} (h : Settles q q') {now timeout : Int} {i : Nat}
    (he : expired now timeout (q.unackedMessages i) = false) : expired now timeout (q'.unackedMessages i) = false := by
  rcases h.cell i with hsame | hs
  · rw [hsame]
    exact he
  · rw [Core.expired, hs]
    rfl

theorem pass_settles (now timeout : Int) (cells : List Nat) (p : Pass μ) :
    Settles p.q (cells.foldl (timeoutStep now timeout) p).q ∧
      ∀ i ∈ cells, expired now timeout ((cells.foldl (timeoutStep now timeout) p).q.unackedMessages i) = false := by
  induction cells generalizing p with
  | nil => exact ⟨Settles.refl p.q, fun _ hi => absurd hi List.not_mem_nil⟩
  | cons j cells ih =>
    obtain ⟨hsettles, hcells⟩ := ih (timeoutStep now timeout p j)
    refine ⟨(settles_timeoutStep now timeout p j).trans hsettles, fun i hi => ?_⟩
    rcases List.mem_cons.mp hi with rfl | hi
    · exact hsettles.expired (timeoutStep_here now timeout p i)
    · exact hcells i hi

/-- What is outstanding after a pass was before it, and is not overdue. -/
theorem pass_outstanding (q : Queue μ) {now timeout : Int} (ht : 0 < timeout) {x : DeliveryInfo μ}
    (hx : x ∈ outstanding (queueProcessTimeouts q now timeout).1) : x ∈ outstanding q ∧ now - x.deliveryTime ≤ timeout := by
  obtain ⟨hsettles, hcells⟩ := pass_settles now timeout (List.range q.unackedCount) ⟨q, 0, [], []⟩
  rw [queueProcessTimeouts, if_neg (by omega)] at hx
  have hmarked : x ∈ outstanding ((List.range q.unackedCount).foldl (timeoutStep now timeout) ⟨q, 0, [], []⟩).q := by
    dsimp only at hx
    split at hx
    · exact outstanding_cleanUp hx
    · exact hx
  refine ⟨hsettles.outstanding hmarked, ?_⟩
  obtain ⟨hstatus, i, hi, rfl⟩ := mem_outstanding.mp hmarked
  have hin := hcells i (List.mem_range.mpr (hsettles.count ▸ hi))
  rw [expired, hstatus] at hin
  simpa using hin

/-! ## The other calls -/

theorem outstanding_takeHead (q : Queue μ) (now : Int) (realloc : Bool) {x : DeliveryInfo μ}
    (hx : x ∈ outstanding (takeHead q now realloc).2) : x ∈ outstanding q ∨ x.deliveryTime = now := by
  by_cases hfull : q.unackedCapacity ≤ q.unackedCount ∧ realloc = false
  · simp only [takeHead, addToUnacked, hfull, and_self, if_true] at hx
    exact Or.inl hx
  · simp only [takeHead, addToUnacked, if_neg hfull] at hx
    have hpush := Segment.seg_push q.unackedMessages q.unackedCount
      ⟨q.messages q.head.toNat, q.nextDeliveryTag, now, .delivered⟩
    have hmem : x ∈ Segment.seg q.unackedMessages q.unackedCount ++
        [⟨q.messages q.head.toNat, q.nextDeliveryTag, now, .delivered⟩] ∧ (x.status == .delivered) = true := by
      rw [← hpush]
      rw [outstanding, List.mem_filter, unacked] at hx
      split at hx
      · exact hx
      · exact hx
    obtain ⟨hmem, hstatus⟩ := hmem
    rcases List.mem_append.mp hmem with hold | hnew
    · exact Or.inl (List.mem_filter.mpr ⟨hold, hstatus⟩)
    · rw [List.mem_singleton.mp hnew]
      exact Or.inr rfl

theorem outstanding_dequeue (q : Queue μ) (now : Int) (realloc : Bool) {x : DeliveryInfo μ}
    (hx : x ∈ outstanding (call q (.tryDequeue now realloc)).1) : x ∈ outstanding q ∨ x.deliveryTime = now := by
  simp only [call, queueTryDequeue] at hx
  split at hx
  · exact Or.inl hx
  · exact outstanding_takeHead q now realloc hx

theorem outstanding_enqueue (q : Queue μ) (message : Option μ) : outstanding (call q (.tryEnqueue message)).1 = outstanding q := by
  cases message with
  | none => rfl
  | some m =>
    simp only [call, queueTryEnqueue]
    split
    · rfl
    · rfl

theorem outstanding_settled (q : Queue μ) (i : Nat) {x : DeliveryInfo μ}
    (hx : x ∈ outstanding (cleanUp (markAcknowledged q i))) : x ∈ outstanding q :=
  (settles_mark q i).outstanding (outstanding_cleanUp hx)

/-- A call at `now`: whatever it leaves outstanding was, or is delivered at `now`. -/
theorem outstanding_call (q : Queue μ) (c : Call μ) (now : Int) (realloc : Bool) {x : DeliveryInfo μ}
    (hx : x ∈ outstanding (call q (c.at now realloc)).1) : x ∈ outstanding q ∨ x.deliveryTime = now := by
  cases c with
  | enqueue message =>
    have hsame : (call q (.enqueue message)).1 = (call q (.tryEnqueue message)).1 := by rw [call_enqueue]
    refine Or.inl ?_
    rw [← outstanding_enqueue q message, ← hsame]
    exact hx
  | tryEnqueue message =>
    refine Or.inl ?_
    rw [← outstanding_enqueue q message]
    exact hx
  | dequeue now' realloc' =>
    have hsame : (call q (.dequeue now realloc)).1 = (call q (.tryDequeue now realloc)).1 := by rw [call_dequeue]
    exact outstanding_dequeue q now realloc (hsame ▸ hx)
  | tryDequeue now' realloc' => exact outstanding_dequeue q now realloc hx
  | ack tag =>
    simp only [Call.at, call, queueAck] at hx
    split at hx
    · exact Or.inl hx
    · exact Or.inl (outstanding_settled q _ hx)
  | reject tag requeue =>
    simp only [Call.at, call, queueReject] at hx
    split at hx
    · exact Or.inl hx
    · split at hx
      · exact Or.inl (outstanding_settled q _ hx)
      · split at hx
        · exact Or.inl (outstanding_settled q _ hx)
        · exact Or.inl (outstanding_settled q _ hx)
  | processTimeouts now' timeout =>
    simp only [Call.at, call] at hx
    by_cases ht : 0 < timeout
    · exact Or.inl (pass_outstanding q ht hx).1
    · rw [queueProcessTimeouts, if_pos (by omega)] at hx
      exact Or.inl hx
  | size => exact Or.inl hx
  | setDurable durable => exact Or.inl hx

/-! ## The loop -/

/-- What the loop does next. -/
inductive LoopStage where
  /-- Looks at `running`, under the mutex. -/
  | looking
  /-- Reads the clock. -/
  | timing
  /-- Takes the mutex for a pass. -/
  | locking
  /-- Calls `queue_process_timeouts` for `queues[i]`, with the mutex. -/
  | passing (i : Nat)
  | sleeping
  | terminated
  deriving DecidableEq, Repr

/-- `taken`: another thread holds `broker->mutex`. -/
structure EventLoop (μ : Type) where
  queues : Nat → Queue μ
  table : List Nat
  running : Bool
  taken : Bool
  clock : Int
  lastTimeoutCheck : Int
  currentTime : Int
  stage : LoopStage

/-- `time_t last_timeout_check = time(NULL)`. -/
def newLoop (queues : Nat → Queue μ) (table : List Nat) (clock : Int) : EventLoop μ where
  queues := queues
  table := table
  running := true
  taken := false
  clock := clock
  lastTimeoutCheck := clock
  currentTime := clock
  stage := .looking

def TIMEOUT_CHECK_SECONDS : Int := 5

def brokerEventLoop (w : EventLoop μ) : EventLoop μ :=
  match w.stage with
  | .looking =>
    if w.taken then w else { w with stage := if w.running then .timing else .terminated }
  | .timing =>
    { w with
      currentTime := w.clock
      stage := if TIMEOUT_CHECK_SECONDS ≤ w.clock - w.lastTimeoutCheck then .locking else .sleeping }
  | .locking => if w.taken then w else { w with stage := .passing 0 }
  | .passing i =>
    match w.table[i]? with
    | none => { w with lastTimeoutCheck := w.currentTime, stage := .sleeping }
    | some q =>
      { w with
        queues := Function.update w.queues q (queueProcessTimeouts (w.queues q) w.clock ACK_TIMEOUT_SECONDS).1
        stage := .passing (i + 1) }
  | .sleeping => { w with stage := .looking }
  | .terminated => w

/-- Whether the loop holds the mutex between two of its steps. -/
def LoopStage.holds : LoopStage → Bool
  | .passing _ => true
  | .looking | .timing | .locking | .sleeping | .terminated => false

inductive LoopEvent (μ : Type) where
  | loop
  | tick (seconds : Nat)
  /-- A critical section of a call by another thread on a queue of the table. -/
  | call (q : Nat) (c : Call μ) (realloc : Bool)
  /-- Another thread takes the mutex or gives it back. -/
  | mutex (taken : Bool)
  /-- The thread that has the mutex enters queue `q`, which is new, in the table. -/
  | create (q : Nat)
  /-- The thread that has the mutex sets `running`. -/
  | running (on : Bool)

def loopStep (w : EventLoop μ) : LoopEvent μ → EventLoop μ
  | .loop => brokerEventLoop w
  | .tick seconds => { w with clock := w.clock + seconds }
  | .call q c realloc =>
    if q ∈ w.table then
      { w with queues := Function.update w.queues q (call (w.queues q) (c.at w.clock realloc)).1 }
    else w
  | .mutex taken => if w.stage.holds then w else { w with taken }
  | .create q => if w.taken ∧ q ∉ w.table then { w with table := w.table ++ [q] } else w
  | .running on => if w.taken then { w with running := on } else w

/-! ## What every step keeps -/

/-- No delivery in `q` is older than 30 seconds at `t`. -/
def Checked (q : Queue μ) (t : Int) : Prop := ∀ x ∈ outstanding q, t - x.deliveryTime ≤ ACK_TIMEOUT_SECONDS

structure Prompt (w : EventLoop μ) : Prop where
  last : w.lastTimeoutCheck ≤ w.currentTime
  current : w.currentTime ≤ w.clock
  fresh : ∀ q, q ∉ w.table → outstanding (w.queues q) = []
  checked : ∀ q ∈ w.table, Checked (w.queues q) w.lastTimeoutCheck
  passed : ∀ i, w.stage = .passing i → i ≤ w.table.length ∧ ∀ q ∈ w.table.take i, Checked (w.queues q) w.currentTime
  rests : w.stage = .sleeping → w.currentTime - w.lastTimeoutCheck < TIMEOUT_CHECK_SECONDS
  alone : w.stage.holds = true → w.taken = false

theorem prompt_new {queues : Nat → Queue μ} (hq : ∀ q, (queues q).unackedCount = 0) (table : List Nat) (clock : Int) :
    Prompt (newLoop queues table clock) := by
  have hnone : ∀ q, outstanding (queues q) = [] := by
    intro q
    rw [outstanding, unacked, hq q]
    rfl
  refine ⟨Int.le_refl _, Int.le_refl _, fun q _ => hnone q, ?_, ?_, ?_, ?_⟩
  · intro q _ x hx
    rw [show (newLoop queues table clock).queues q = queues q from rfl, hnone q] at hx
    exact absurd hx List.not_mem_nil
  · exact fun i hi => by cases hi
  · exact fun hs => by cases hs
  · exact fun hh => by cases hh

section Step

variable {w : EventLoop μ}

/-- A queue that a call leaves as `q'`: old entries stay as they are, new ones are of now. -/
theorem checked_update {q : Nat} {q' : Queue μ}
    (hkeep : ∀ x ∈ outstanding q', x ∈ outstanding (w.queues q) ∨ x.deliveryTime = w.clock) {t : Int} (ht : t ≤ w.clock)
    {j : Nat} (hj : Checked (w.queues j) t) : Checked (Function.update w.queues q q' j) t := by
  intro x hx
  by_cases he : j = q
  · subst he
    rw [Function.update_self] at hx
    rcases hkeep x hx with hold | hnew
    · exact hj x hold
    · rw [hnew]
      have : (0 : Int) ≤ ACK_TIMEOUT_SECONDS := by decide
      omega
  · rw [Function.update_of_ne he] at hx
    exact hj x hx

theorem Prompt.keeps (h : Prompt w) {q : Nat} (hq : q ∈ w.table) (q' : Queue μ)
    (hkeep : ∀ x ∈ outstanding q', x ∈ outstanding (w.queues q) ∨ x.deliveryTime = w.clock) :
    Prompt { w with queues := Function.update w.queues q q' } := by
  refine ⟨h.last, h.current, ?_, ?_, ?_, h.rests, h.alone⟩
  · intro j hj
    have hne : j ≠ q := fun he => hj (he ▸ hq)
    show outstanding (Function.update w.queues q q' j) = []
    rw [Function.update_of_ne hne]
    exact h.fresh j hj
  · exact fun j hj => checked_update hkeep (Int.le_trans h.last h.current) (h.checked j hj)
  · intro i hi
    obtain ⟨hle, hpassed⟩ := h.passed i hi
    exact ⟨hle, fun j hj => checked_update hkeep h.current (hpassed j hj)⟩

theorem prompt_loop (h : Prompt w) : Prompt (brokerEventLoop w) := by
  unfold brokerEventLoop
  cases hs : w.stage with
  | looking =>
    dsimp only
    split
    · exact h
    · have hstage : (if w.running then LoopStage.timing else .terminated).holds = false ∧
          (if w.running then LoopStage.timing else .terminated) ≠ .sleeping := by
        split
        · exact ⟨rfl, fun he => by cases he⟩
        · exact ⟨rfl, fun he => by cases he⟩
      refine ⟨h.last, h.current, h.fresh, h.checked, fun i hi => ?_, fun hr => absurd hr hstage.2, fun hh => ?_⟩
      · have hholds := hstage.1
        rw [show (if w.running then LoopStage.timing else .terminated) = .passing i from hi] at hholds
        cases hholds
      · rw [hstage.1] at hh
        cases hh
  | timing =>
    refine ⟨by have := h.last; have := h.current; dsimp only; omega, Int.le_refl _, h.fresh, h.checked, fun i hi => ?_,
      fun hr => ?_, fun hh => ?_⟩
    · dsimp only at hi
      split at hi
      · cases hi
      · cases hi
    · dsimp only at hr ⊢
      split at hr
      · cases hr
      · rename_i hlt
        omega
    · dsimp only at hh
      split at hh
      · cases hh
      · cases hh
  | locking =>
    dsimp only
    split
    · exact h
    · rename_i hfree
      refine ⟨h.last, h.current, h.fresh, h.checked, fun i hi => ?_, fun hr => ?_, fun _ => by simpa using hfree⟩
      · cases hi
        exact ⟨Nat.zero_le _, fun q hq => absurd hq List.not_mem_nil⟩
      · cases hr
  | passing i =>
    obtain ⟨hle, hpassed⟩ := h.passed i hs
    dsimp only
    cases hq : w.table[i]? with
    | none =>
      have hall : w.table.take i = w.table := List.take_of_length_le (List.getElem?_eq_none_iff.mp hq)
      rw [hall] at hpassed
      refine ⟨Int.le_refl _, h.current, h.fresh, hpassed, fun j hj => ?_, fun _ => ?_, fun hh => ?_⟩
      · cases hj
      · show w.currentTime - w.currentTime < TIMEOUT_CHECK_SECONDS
        rw [Int.sub_self]
        decide
      · cases hh
    | some q =>
      obtain ⟨hlt, hhere⟩ := List.getElem?_eq_some_iff.mp hq
      have hmem : q ∈ w.table := List.mem_of_getElem? hq
      have htimeout : (0 : Int) < ACK_TIMEOUT_SECONDS := by decide
      have hkept := h.keeps hmem (queueProcessTimeouts (w.queues q) w.clock ACK_TIMEOUT_SECONDS).1 fun x hx =>
        Or.inl (pass_outstanding _ htimeout hx).1
      refine ⟨hkept.last, hkept.current, hkept.fresh, hkept.checked, fun j hj => ?_, fun hr => ?_, fun _ => h.alone (by rw [hs]; rfl)⟩
      · cases hj
        refine ⟨hlt, fun j hj => ?_⟩
        rw [List.take_succ_eq_append_getElem hlt, hhere] at hj
        rcases List.mem_append.mp hj with hj | hj
        · exact (hkept.passed i hs).2 j hj
        · rw [List.mem_singleton.mp hj]
          intro x hx
          dsimp only at hx
          rw [Function.update_self] at hx
          have := (pass_outstanding _ htimeout hx).2
          have := h.current
          dsimp only
          omega
      · cases hr
  | sleeping =>
    refine ⟨h.last, h.current, h.fresh, h.checked, fun i hi => ?_, fun hr => ?_, fun hh => ?_⟩
    · cases hi
    · cases hr
    · cases hh
  | terminated => exact h

theorem prompt_step (w : EventLoop μ) (e : LoopEvent μ) (h : Prompt w) : Prompt (loopStep w e) := by
  cases e with
  | loop => exact prompt_loop h
  | tick seconds => exact ⟨h.last, by have := h.current; dsimp only [loopStep]; omega, h.fresh, h.checked, h.passed, h.rests, h.alone⟩
  | call q c realloc =>
    simp only [loopStep]
    split
    · rename_i hq
      exact h.keeps hq _ fun x hx => outstanding_call _ c w.clock realloc hx
    · exact h
  | mutex taken =>
    simp only [loopStep]
    split
    · exact h
    · rename_i hfree
      exact ⟨h.last, h.current, h.fresh, h.checked, h.passed, h.rests, fun hh => absurd hh hfree⟩
  | create q =>
    simp only [loopStep]
    split
    · rename_i hnew
      refine ⟨h.last, h.current, fun j hj => h.fresh j fun hm => hj (List.mem_append_left _ hm), ?_, ?_, h.rests, h.alone⟩
      · intro j hj
        rcases List.mem_append.mp hj with hj | hj
        · exact h.checked j hj
        · rw [List.mem_singleton.mp hj]
          intro x hx
          dsimp only at hx
          rw [h.fresh q hnew.2] at hx
          exact absurd hx List.not_mem_nil
      · intro i hi
        have halone := h.alone (by rw [show w.stage = .passing i from hi]; rfl)
        rw [halone] at hnew
        exact absurd hnew.1 Bool.false_ne_true
    · exact h
  | running on =>
    simp only [loopStep]
    split
    · exact ⟨h.last, h.current, h.fresh, h.checked, h.passed, h.rests, h.alone⟩
    · exact h

end Step

/-! ## Whole runs -/

/-- `broker->mutex` is not held twice, and no delivery is left outstanding for long. -/
structure NoneOverdue (w : EventLoop μ) : Prop where
  alone : w.stage.holds = true → w.taken = false
  lastPass : ∀ q ∈ w.table, ∀ x ∈ outstanding (w.queues q), w.lastTimeoutCheck - x.deliveryTime ≤ 30
  turn : w.stage = .sleeping → ∀ q ∈ w.table, ∀ x ∈ outstanding (w.queues q), w.currentTime - x.deliveryTime ≤ 34

/-- From the loop's start, with the steps of the loop and of the other threads and the clock's
    ticks in any order. -/
theorem overdue_are_taken_back {queues : Nat → Queue μ} (hq : ∀ q, (queues q).unackedCount = 0) (table : List Nat)
    (clock : Int) (es : List (LoopEvent μ)) : NoneOverdue (Run.run loopStep (newLoop queues table clock) es) := by
  have h := Run.run_inv prompt_step es (prompt_new hq table clock)
  refine ⟨h.alone, h.checked, fun hs q hq x hx => ?_⟩
  have hchecked := h.checked q hq x hx
  have hrests := h.rests hs
  rw [ACK_TIMEOUT_SECONDS] at hchecked
  rw [TIMEOUT_CHECK_SECONDS] at hrests
  omega

/-- A message delivered at 5, a pass at 35, a turn at 39. -/
def lateTurn : List (LoopEvent Message) :=
  [.call 0 (.tryEnqueue (some aMessage)) true, .tick 5, .call 0 (.tryDequeue 0 true) true, .tick 30, .loop, .loop, .loop, .loop,
    .loop, .tick 4, .loop, .loop, .loop]

theorem none_overdue_when_late : NoneOverdue (Run.run loopStep (newLoop (fun _ => emptyQueue) [0] 0) lateTurn) :=
  overdue_are_taken_back (fun _ => rfl) [0] 0 lateTurn

/-- No bound below 34 holds. -/
theorem four_seconds_late : ∃ w, w = Run.run loopStep (newLoop (fun _ => emptyQueue) [0] 0) lateTurn ∧ w.stage = .sleeping ∧
    (outstanding (w.queues 0)).map (fun x => w.currentTime - x.deliveryTime) = [34] :=
  ⟨_, rfl, by decide +kernel, by decide +kernel⟩

end RabbitMQ.Core
