/-
  RabbitMQ.Core.Interleavings — threads inside `queue.c`, access by access, in any order.

  A thread that calls takes `queue->mutex`, makes the accesses of its section one at a time,
  signals and gives the mutex back, or waits, which gives it back too. Any thread may take
  its next step at any time; only the mutex holds one up. What `time(NULL)` reads and whether
  `realloc` succeeds is settled when a section is entered.

  A call's entry in `log` is made at the last step of its section. Proved:
  (1) The calls take effect one at a time, in the order of the log, each with the result it
      would have alone; between the accesses of a section nobody else's change is seen
      (`linearizable`).
  (2) The queue and its waiters are those of a run of `Core.Monitor`, whose steps are whole
      sections, with the same results (`sections_are_atomic`). So what is proved of its runs
      holds of these.
-/

import RabbitMQ.Core.Accesses
import RabbitMQ.Core.Waiting
import RabbitMQ.Lib.Lock

namespace RabbitMQ.Core

open Lib
open Lib.CondVar (Cond)

variable {μ : Type}

/-! ## The threads -/

inductive SectionPlace (μ : Type) where
  | idle
  /-- About to take the mutex. -/
  | locking (c : Call μ)
  | inside (c : Call μ) (rest : Prog (Queue μ) (SectionEnd μ))
  /-- About to give it back. -/
  | leaving
  /-- In `pthread_cond_wait`. -/
  | waiting (c : Call μ)

/-- Between taking `queue->mutex` and giving it back. -/
def SectionPlace.Holds : SectionPlace μ → Prop
  | .inside _ _ | .leaving => True
  | .idle | .locking _ | .waiting _ => False

/-- A call whose section is over, and what it returns. -/
structure Entry (μ : Type) where
  thread : Nat
  call : Call μ
  result : Out μ

/-- `begun` has the calls in the order they were made, with their threads. -/
structure Interleaved (μ : Type) extends Monitor μ where
  holder : Option Nat
  threads : Nat → SectionPlace μ
  begun : List (Nat × Call μ)
  log : List (Entry μ)

/-- The call, with what the clock and the allocator have for its section. -/
def Call.at (now : Int) (realloc : Bool) : Call μ → Call μ
  | .dequeue _ _ => .dequeue now realloc
  | .tryDequeue _ _ => .tryDequeue now realloc
  | .processTimeouts _ timeout => .processTimeouts now timeout
  | c => c

namespace Monitor

/-- `pthread_cond_wait` on the condition variable of the call. -/
def sleeps (s : Monitor μ) (t : Nat) : Call μ → Monitor μ
  | .enqueue (some m) => { s with notFull := s.notFull.sleep (t, m) }
  | _ => { s with notEmpty := s.notEmpty.sleep t }

def signals (s : Monitor μ) (wakes : List Nat) : Option Signal → Monitor μ
  | none => s
  | some .notEmpty => { s with notEmpty := s.notEmpty.signal (wakes.contains ·) }
  | some .notFull => { s with notFull := s.notFull.signal (wakes.contains ·.1) }

end Monitor

namespace Interleaved

def go (s : Interleaved μ) (t : Nat) (p : SectionPlace μ) : Interleaved μ := { s with threads := Function.update s.threads t p }

theorem go_self (s : Interleaved μ) (t : Nat) (p : SectionPlace μ) : (s.go t p).threads t = p := Function.update_self ..

theorem go_of_ne (s : Interleaved μ) {t u : Nat} (h : u ≠ t) (p : SectionPlace μ) : (s.go t p).threads u = s.threads u :=
  Function.update_of_ne h ..

def calls (s : Interleaved μ) (t : Nat) (c : Call μ) : Interleaved μ :=
  match s.threads t with
  | .idle =>
    match c.early with
    | some o => { s with begun := s.begun ++ [(t, c)], log := s.log ++ [⟨t, c, o⟩] }
    | none => { s.go t (.locking c) with begun := s.begun ++ [(t, c)] }
  | _ => s

def enters (s : Interleaved μ) (t : Nat) (c : Call μ) : Interleaved μ := { s.go t (.inside c c.critical) with holder := some t }

/-- Thread `t` gets the mutex, for the first time or after a wait. -/
def locks (s : Interleaved μ) (t : Nat) (now : Int) (realloc : Bool) : Interleaved μ :=
  if s.holder = none then
    match s.threads t with
    | .locking c => s.enters t (c.at now realloc)
    | .waiting (.enqueue (some m)) =>
      if t ∈ s.notFull.woken.map (·.1) then
        { s with notFull := s.notFull.resume (·.1 == t) }.enters t (.enqueue (some m))
      else s
    | .waiting c =>
      if t ∈ s.notEmpty.woken then { s with notEmpty := s.notEmpty.resume (· == t) }.enters t (c.at now realloc) else s
    | _ => s
  else s

/-- The next step of thread `t` that is not the taking of the mutex. -/
def goesOn (s : Interleaved μ) (t : Nat) (wakes : List Nat) : Interleaved μ :=
  match s.threads t with
  | .inside c (.act write next) => { s.go t (.inside c (next s.q)) with q := write s.q }
  | .inside c (.ret .waits) => { s.go t (.waiting c) with toMonitor := s.sleeps t c, holder := none }
  | .inside c (.ret (.returns o signal)) => { s.go t .leaving with toMonitor := s.signals wakes signal, log := s.log ++ [⟨t, c, o⟩] }
  | .leaving => { s.go t .idle with holder := none }
  | _ => s

end Interleaved

inductive AccessEvent (μ : Type) where
  | call (t : Nat) (c : Call μ)
  | lock (t : Nat) (now : Int) (realloc : Bool)
  | goOn (t : Nat) (wakes : List Nat)
  | spurious (wakes : List Nat)

def accessStep (s : Interleaved μ) : AccessEvent μ → Interleaved μ
  | .call t c => s.calls t c
  | .lock t now realloc => s.locks t now realloc
  | .goOn t wakes => s.goesOn t wakes
  | .spurious wakes =>
    { s with notEmpty := s.notEmpty.wake (wakes.contains ·), notFull := s.notFull.wake (wakes.contains ·.1) }

/-- No thread is in a call. -/
def Interleaved.start (q : Queue μ) : Interleaved μ := ⟨Monitor.start q, none, fun _ => .idle, [], []⟩

/-! ## Whole sections -/

instance (q : Queue μ) : (c : Call μ) → Decidable (c.Waits q)
  | .enqueue (some _) => inferInstanceAs (Decidable (q.size = q.capacity))
  | .dequeue _ _ => inferInstanceAs (Decidable (q.size = 0))
  | .enqueue none | .tryEnqueue _ | .tryDequeue _ _ | .ack _ | .reject _ _ | .processTimeouts _ _ | .size | .setDurable _ =>
    inferInstanceAs (Decidable False)

/-- A monitor's run, with the calls that have returned. -/
structure Atomic (μ : Type) where
  monitor : Monitor μ
  log : List (Entry μ)

/-- The entry of a section, unless it ends in a wait. -/
def entryOf (q : Queue μ) (t : Nat) (c : Call μ) : Option (Entry μ) :=
  if c.Waits q then none else some ⟨t, c, (call q c).2⟩

def monitorEntry (s : Monitor μ) : MonitorEvent μ → Option (Entry μ)
  | .call t c _ => if s.Blocked t then none else entryOf s.q t c
  | .dequeuer t now realloc _ => if t ∈ s.notEmpty.woken then entryOf s.q t (.dequeue now realloc) else none
  | .enqueuer t _ => (s.notFull.woken.find? (·.1 == t)).bind fun w => entryOf s.q t (.enqueue (some w.2))
  | .spurious _ => none

def atomicStep (a : Atomic μ) (e : MonitorEvent μ) : Atomic μ :=
  ⟨monitorStep a.monitor e, a.log ++ (monitorEntry a.monitor e).toList⟩

def Atomic.start (q : Queue μ) : Atomic μ := ⟨Monitor.start q, []⟩

/-! ### What a section does -/

theorem early_at {c : Call μ} (hc : c.early = none) (now : Int) (realloc : Bool) : (c.at now realloc).early = none := by
  cases c with
  | processTimeouts _ timeout => exact hc
  | dequeue => rfl
  | tryDequeue => rfl
  | _ => exact hc

theorem critical_waits {s : Monitor μ} {c : Call μ} (hw : c.Waits s.q) (t : Nat) (wakes : List Nat) :
    s.critical t c wakes = s.sleeps t c := by
  cases c with
  | enqueue message =>
    cases message with
    | none => cases hw
    | some m =>
      have hfull : s.q.size = s.q.capacity := hw
      simp only [Monitor.critical, queueEnqueue, if_pos hfull, Monitor.sleeps]
  | dequeue now realloc =>
    have hempty : s.q.size = 0 := hw
    simp only [Monitor.critical, queueDequeue, if_pos hempty, Monitor.sleeps]
  | _ => cases hw

theorem critical_returns {s : Monitor μ} {c : Call μ} (hc : c.early = none) (hw : ¬ c.Waits s.q) (t : Nat) (wakes : List Nat) :
    s.critical t c wakes = { s with q := (call s.q c).1 }.signals wakes (signalOf c (call s.q c).2) := by
  cases c with
  | enqueue message =>
    cases message with
    | none => cases hc
    | some m =>
      have hroom : ¬ s.q.size = s.q.capacity := hw
      simp only [Monitor.critical, call, queueEnqueue, if_neg hroom]
      rfl
  | tryEnqueue message =>
    cases message with
    | none => cases hc
    | some m =>
      simp only [Monitor.critical, call, queueTryEnqueue]
      by_cases hfull : s.q.size = s.q.capacity
      · simp only [if_pos hfull]
        rfl
      · simp only [if_neg hfull]
        rfl
  | dequeue now realloc =>
    have hthere : ¬ s.q.size = 0 := hw
    simp only [Monitor.critical, call, queueDequeue, if_neg hthere]
    obtain ⟨got, q⟩ := takeHead s.q now realloc
    cases got <;> rfl
  | tryDequeue now realloc =>
    simp only [Monitor.critical, call]
    obtain ⟨got, q⟩ := queueTryDequeue s.q now realloc
    cases got <;> rfl
  | _ => rfl

/-! ## The threads that wait -/

/-- Who is at a condition variable is in `pthread_cond_wait` there, once. -/
structure Parked (s : Monitor μ) (threads : Nat → SectionPlace μ) : Prop where
  empty : ∀ t ∈ s.notEmpty.waiters, ∃ now realloc, threads t = .waiting (.dequeue now realloc)
  full : ∀ w ∈ s.notFull.waiters, threads w.1 = .waiting (.enqueue (some w.2))
  onceEmpty : s.notEmpty.waiters.Nodup
  onceFull : (s.notFull.waiters.map (·.1)).Nodup

variable {s a : Monitor μ} {threads : Nat → SectionPlace μ} {t : Nat} {p : SectionPlace μ}

/-- The same waiters, in whatever order. -/
theorem Parked.perm (h : Parked s threads) (he : a.notEmpty.waiters.Perm s.notEmpty.waiters)
    (hf : a.notFull.waiters.Perm s.notFull.waiters) : Parked a threads where
  empty t ht := h.empty t (he.mem_iff.mp ht)
  full w hw := h.full w (hf.mem_iff.mp hw)
  onceEmpty := he.nodup_iff.mpr h.onceEmpty
  onceFull := (hf.map _).nodup_iff.mpr h.onceFull

theorem Parked.signals (h : Parked s threads) (wakes : List Nat) (signal : Option Signal) : Parked (s.signals wakes signal) threads := by
  cases signal with
  | none => exact h
  | some signal =>
    cases signal with
    | notEmpty => exact h.perm (CondVar.waiters_signal _ _) (List.Perm.refl _)
    | notFull => exact h.perm (List.Perm.refl _) (CondVar.waiters_signal _ _)

/-- A thread that does not wait is at no condition variable. -/
theorem Parked.absent (h : Parked s threads) (ht : ∀ c, threads t ≠ .waiting c) :
    t ∉ s.notEmpty.waiters ∧ t ∉ s.notFull.waiters.map (·.1) := by
  constructor
  · intro hm
    obtain ⟨now, realloc, hwait⟩ := h.empty t hm
    exact ht _ hwait
  · intro hm
    obtain ⟨w, hw, rfl⟩ := List.mem_map.mp hm
    exact ht _ (h.full w hw)

/-- A thread that is at no condition variable moves. -/
theorem Parked.moves (h : Parked s threads) (habsent : t ∉ s.notEmpty.waiters ∧ t ∉ s.notFull.waiters.map (·.1)) (p : SectionPlace μ) :
    Parked s (Function.update threads t p) where
  empty u hu := by
    have hne : u ≠ t := fun he => habsent.1 (he ▸ hu)
    rw [Function.update_of_ne hne]
    exact h.empty u hu
  full w hw := by
    have hne : w.1 ≠ t := fun he => habsent.2 (List.mem_map.mpr ⟨w, hw, he⟩)
    rw [Function.update_of_ne hne]
    exact h.full w hw
  onceEmpty := h.onceEmpty
  onceFull := h.onceFull

/-- A woken `queue_dequeue` is at no condition variable any more. -/
theorem Parked.resumeEmpty (h : Parked s threads) (ht : t ∈ s.notEmpty.woken) (p : SectionPlace μ) :
    Parked { s with notEmpty := s.notEmpty.resume (· == t) } (Function.update threads t p) := by
  obtain ⟨v, hv, hperm⟩ := CondVar.waiters_resume (p := (· == t)) ht (beq_self_eq_true t)
  obtain rfl : v = t := eq_of_beq hv
  have honce := hperm.nodup_iff.mp h.onceEmpty
  obtain ⟨now, realloc, hwait⟩ := h.empty v (hperm.mem_iff.mpr List.mem_cons_self)
  have hrest : Parked { s with notEmpty := s.notEmpty.resume (· == v) } threads :=
    ⟨fun u hu => h.empty u (hperm.mem_iff.mpr (List.mem_cons_of_mem v hu)), h.full, (List.nodup_cons.mp honce).2, h.onceFull⟩
  refine hrest.moves ⟨(List.nodup_cons.mp honce).1, fun hm => ?_⟩ p
  obtain ⟨w, hw, rfl⟩ := List.mem_map.mp hm
  have hother := h.full w hw
  rw [hwait] at hother
  cases hother

/-- A woken `queue_enqueue` is at no condition variable any more. -/
theorem Parked.resumeFull (h : Parked s threads) {m : μ} (ht : (t, m) ∈ s.notFull.woken) (p : SectionPlace μ) :
    Parked { s with notFull := s.notFull.resume (·.1 == t) } (Function.update threads t p) := by
  obtain ⟨v, hv, hperm⟩ := CondVar.waiters_resume (p := (·.1 == t)) ht (beq_self_eq_true t)
  obtain rfl : v.1 = t := eq_of_beq hv
  have honce := (hperm.map (·.1)).nodup_iff.mp h.onceFull
  have hwait := h.full v (hperm.mem_iff.mpr List.mem_cons_self)
  have hrest : Parked { s with notFull := s.notFull.resume (·.1 == v.1) } threads :=
    ⟨h.empty, fun w hw => h.full w (hperm.mem_iff.mpr (List.mem_cons_of_mem v hw)), h.onceEmpty, (List.nodup_cons.mp honce).2⟩
  refine hrest.moves ⟨fun hm => ?_, (List.nodup_cons.mp honce).1⟩ p
  obtain ⟨now, realloc, hother⟩ := h.empty _ hm
  rw [hwait] at hother
  cases hother

/-- A thread goes to sleep. -/
theorem Parked.sleeps (h : Parked s threads) {c : Call μ} (hw : c.Waits s.q)
    (habsent : t ∉ s.notEmpty.waiters ∧ t ∉ s.notFull.waiters.map (·.1)) :
    Parked (s.sleeps t c) (Function.update threads t (.waiting c)) := by
  have hmoved := h.moves habsent (.waiting c)
  cases c with
  | enqueue message =>
    cases message with
    | none => cases hw
    | some m =>
      have hperm := CondVar.waiters_sleep s.notFull (t, m)
      refine ⟨hmoved.empty, fun w hw => ?_, h.onceEmpty, ?_⟩
      · rcases List.mem_cons.mp (hperm.mem_iff.mp hw) with rfl | hold
        · exact Function.update_self ..
        · exact hmoved.full w hold
      · exact (hperm.map _).nodup_iff.mpr (List.nodup_cons.mpr ⟨habsent.2, h.onceFull⟩)
  | dequeue now realloc =>
    have hperm := CondVar.waiters_sleep s.notEmpty t
    refine ⟨fun u hu => ?_, hmoved.full, ?_, h.onceFull⟩
    · rcases List.mem_cons.mp (hperm.mem_iff.mp hu) with rfl | hold
      · exact ⟨now, realloc, Function.update_self ..⟩
      · exact hmoved.empty u hold
    · exact hperm.nodup_iff.mpr (List.nodup_cons.mpr ⟨habsent.1, h.onceEmpty⟩)
  | _ => cases hw

/-! ## The whole sections behind a run -/

/-- Thread `t` is in the section of `c`, which the monitor `a` has yet to make: as a call, or
    as the return from a wait. -/
def Entered (a s : Monitor μ) (t : Nat) (c : Call μ) : Prop :=
  (a.notEmpty = s.notEmpty ∧ a.notFull = s.notFull ∧ ¬ a.Blocked t) ∨
    (∃ m, c = .enqueue (some m) ∧ a.notEmpty = s.notEmpty ∧ a.notFull.woken.find? (·.1 == t) = some (t, m) ∧
      s.notFull = a.notFull.resume (·.1 == t)) ∨
    ∃ now realloc, c = .dequeue now realloc ∧ t ∈ a.notEmpty.woken ∧ s.notEmpty = a.notEmpty.resume (· == t) ∧
      a.notFull = s.notFull

/-- The monitor is where the threads are, but for the section one of them is in. -/
inductive Mirrors (a : Monitor μ) (s : Interleaved μ) : Prop
  | settled : (∀ t c rest, s.threads t ≠ .inside c rest) → a = s.toMonitor → Mirrors a s
  | within (t : Nat) (c : Call μ) (rest : Prog (Queue μ) (SectionEnd μ)) : s.holder = some t → s.threads t = .inside c rest →
      c.early = none → Prog.Within c.critical a.q rest s.q → Entered a s.toMonitor t c → Mirrors a s

/-- The event of the monitor that a section in progress comes to. -/
theorem entered_event {a s : Monitor μ} {t : Nat} {c : Call μ} (h : Entered a s t c) (wakes : List Nat) :
    ∃ e, monitorStep a e = { s with q := a.q }.critical t c wakes ∧ monitorEntry a e = entryOf a.q t c := by
  obtain ⟨he, hf, hfree⟩ | ⟨m, rfl, he, hfind, hf⟩ | ⟨now, realloc, rfl, hwoken, he, hf⟩ := h
  · refine ⟨.call t c wakes, ?_, ?_⟩
    · rw [monitorStep, if_neg hfree, ← he, ← hf]
    · rw [monitorEntry, if_neg hfree]
  · refine ⟨.enqueuer t wakes, ?_, ?_⟩
    · simp only [monitorStep, hfind, ← he, hf]
    · simp only [monitorEntry, hfind, Option.bind_some]
  · refine ⟨.dequeuer t now realloc wakes, ?_, ?_⟩
    · rw [monitorStep, if_pos hwoken, he, ← hf]
    · rw [monitorEntry, if_pos hwoken]

/-- A spurious wake-up beside a section in progress comes before it. -/
theorem entered_spurious {a s : Monitor μ} {t : Nat} {c : Call μ} (h : Entered a s t c) (wakes : List Nat) :
    Entered (monitorStep a (.spurious wakes)) (monitorStep s (.spurious wakes)) t c := by
  obtain ⟨he, hf, hfree⟩ | ⟨m, rfl, he, hfind, hf⟩ | ⟨now, realloc, rfl, hwoken, he, hf⟩ := h
  · refine Or.inl ⟨by simp only [monitorStep, he], by simp only [monitorStep, hf], fun hb => hfree ?_⟩
    rcases hb with hb | hb
    · exact Or.inl ((CondVar.waiters_wake a.notEmpty _).mem_iff.mp hb)
    · exact Or.inr (((CondVar.waiters_wake a.notFull _).map _).mem_iff.mp hb)
  · refine Or.inr (Or.inl ⟨m, rfl, by simp only [monitorStep, he], ?_, ?_⟩)
    · simp only [monitorStep, Cond.wake, List.find?_append, hfind, Option.some_or]
    · simp only [monitorStep, hf]
      exact CondVar.wake_resume (List.mem_of_find?_eq_some hfind) (beq_self_eq_true t)
  · refine Or.inr (Or.inr ⟨now, realloc, rfl, ?_, ?_, by simp only [monitorStep, hf]⟩)
    · exact List.mem_append_left _ hwoken
    · simp only [monitorStep, he]
      exact CondVar.wake_resume hwoken (beq_self_eq_true t)

/-- What every state of a run is to some run of whole sections. -/
structure Simulates (q : Queue μ) (s : Interleaved μ) : Prop where
  exclusive : Lock.Excludes SectionPlace.Holds s.holder s.threads
  checked : ∀ t c, s.threads t = .locking c → c.early = none
  parked : Parked s.toMonitor s.threads
  mirrored : ∃ ms a, Run.run atomicStep (Atomic.start q) ms = ⟨a, s.log⟩ ∧ Mirrors a s

section Step

variable {q : Queue μ} {s : Interleaved μ} {a : Monitor μ} {t : Nat} {c : Call μ} {p : SectionPlace μ}

/-- One more event of the monitor. -/
theorem mirrors_event {s' : Interleaved μ} {ms : List (MonitorEvent μ)} (hrun : Run.run atomicStep (Atomic.start q) ms = ⟨a, s.log⟩)
    (e : MonitorEvent μ) (hlog : s'.log = s.log ++ (monitorEntry a e).toList) (hm : Mirrors (monitorStep a e) s') :
    ∃ ms a, Run.run atomicStep (Atomic.start q) ms = ⟨a, s'.log⟩ ∧ Mirrors a s' := by
  refine ⟨ms ++ [e], monitorStep a e, ?_, hm⟩
  rw [Run.run_append, hrun, hlog]
  rfl

/-- Outside a section a thread moves to another place outside. -/
theorem Mirrors.moves (h : Mirrors a s) (ht : ∀ c rest, s.threads t ≠ .inside c rest) (hp : ∀ c rest, p ≠ .inside c rest) :
    Mirrors a (s.go t p) := by
  cases h with
  | settled hout ha =>
    refine .settled (fun u c rest hu => ?_) ha
    by_cases hut : u = t
    · subst hut
      exact hp c rest ((s.go_self u p).symm.trans hu)
    · exact hout u c rest ((s.go_of_ne hut p).symm.trans hu)
  | within u c rest hholder hu hearly hwithin hentered =>
    have hut : u ≠ t := by
      rintro rfl
      exact ht c rest hu
    exact .within u c rest hholder ((s.go_of_ne hut p).trans hu) hearly hwithin hentered

/-- A thread that waits nowhere is free to call, also for the monitor. -/
theorem Mirrors.free (h : Mirrors a s) (hparked : Parked s.toMonitor s.threads) (hidle : s.threads t = .idle) : ¬ a.Blocked t := by
  have habsent := hparked.absent (t := t) fun c he => by
    rw [hidle] at he
    cases he
  have hblocked : ∀ b : Monitor μ, t ∉ b.notEmpty.waiters → t ∉ b.notFull.waiters.map (·.1) → ¬ b.Blocked t := by
    intro b he hf hb
    rcases hb with hb | hb
    · exact he hb
    · exact hf hb
  cases h with
  | settled _ ha =>
    rw [ha]
    exact hblocked _ habsent.1 habsent.2
  | within u c rest _ hu _ _ hentered =>
    have hut : t ≠ u := by
      rintro rfl
      rw [hidle] at hu
      cases hu
    obtain ⟨he, hf, -⟩ | ⟨m, -, he, hfind, hf⟩ | ⟨now, realloc, -, hwoken, he, hf⟩ := hentered
    · exact hblocked a (he ▸ habsent.1) (hf ▸ habsent.2)
    · obtain ⟨v, hv, hperm⟩ := CondVar.waiters_resume (p := (·.1 == u)) (List.mem_of_find?_eq_some hfind) (beq_self_eq_true u)
      refine hblocked a (he ▸ habsent.1) fun hm => ?_
      rcases List.mem_cons.mp ((hperm.map (·.1)).mem_iff.mp hm) with htv | hrest
      · exact hut (htv.trans (eq_of_beq hv))
      · rw [← hf] at hrest
        exact habsent.2 hrest
    · obtain ⟨v, hv, hperm⟩ := CondVar.waiters_resume (p := (· == u)) hwoken (beq_self_eq_true u)
      refine hblocked a (fun hm => ?_) (hf ▸ habsent.2)
      rcases List.mem_cons.mp (hperm.mem_iff.mp hm) with htv | hrest
      · exact hut (htv.trans (eq_of_beq hv))
      · rw [← he] at hrest
        exact habsent.1 hrest

theorem critical_early {a : Monitor μ} {o : Out μ} (hc : c.early = some o) (t : Nat) (wakes : List Nat) : a.critical t c wakes = a := by
  cases c with
  | enqueue message =>
    cases message with
    | none => rfl
    | some m => cases hc
  | tryEnqueue message =>
    cases message with
    | none => rfl
    | some m => cases hc
  | processTimeouts now timeout =>
    show { a with q := (call a.q (.processTimeouts now timeout)).1 } = a
    rw [early_call hc]
  | _ => cases hc

theorem not_waits_of_early {o : Out μ} (hc : c.early = some o) (q : Queue μ) : ¬ c.Waits q := by
  intro hw
  cases c with
  | enqueue message =>
    cases message with
    | none => exact hw
    | some m => cases hc
  | dequeue => cases hc
  | _ => exact hw

theorem simulates_call (h : Simulates q s) (t : Nat) (c : Call μ) : Simulates q (s.calls t c) := by
  unfold Interleaved.calls
  cases ht : s.threads t with
  | idle =>
    cases hc : c.early with
    | some o =>
      obtain ⟨ms, a, hrun, hm⟩ := h.mirrored
      refine ⟨h.exclusive, h.checked, h.parked, mirrors_event hrun (.call t c []) ?_ ?_⟩
      · rw [monitorEntry, if_neg (hm.free h.parked ht), entryOf, if_neg (not_waits_of_early hc a.q), early_call hc]
        rfl
      · rw [monitorStep, if_neg (hm.free h.parked ht), critical_early hc]
        cases hm with
        | settled hout ha => exact .settled hout ha
        | within u d rest hholder hu hearly hwithin hentered => exact .within u d rest hholder hu hearly hwithin hentered
    | none =>
      have habsent := h.parked.absent (t := t) fun d he => by
        rw [ht] at he
        cases he
      obtain ⟨ms, a, hrun, hm⟩ := h.mirrored
      refine ⟨h.exclusive.stay (by rw [ht]; exact Iff.rfl), fun u d hu => ?_, h.parked.moves habsent _, ms, a, hrun, ?_⟩
      · by_cases hut : u = t
        · subst hut
          cases (s.go_self u _).symm.trans hu
          exact hc
        · exact h.checked u d ((s.go_of_ne hut _).symm.trans hu)
      · have hmoved := hm.moves (t := t) (p := .locking c) (fun d rest he => by rw [ht] at he; cases he) fun d rest he => by cases he
        cases hmoved with
        | settled hout ha => exact .settled hout ha
        | within u d rest hholder hu hearly hwithin hentered => exact .within u d rest hholder hu hearly hwithin hentered
  | locking d => exact h
  | inside d rest => exact h
  | leaving => exact h
  | waiting d => exact h

/-- Other threads than `t` have been checked as before. -/
theorem checked_moves {threads : Nat → SectionPlace μ} (h : ∀ t c, threads t = .locking c → c.early = none)
    (hp : ∀ c, p ≠ .locking c) : ∀ u c, Function.update threads t p u = .locking c → c.early = none := by
  intro u c hu
  by_cases hut : u = t
  · subst hut
    exact absurd ((Function.update_self u p threads).symm.trans hu) (hp c)
  · exact h u c ((Function.update_of_ne hut p threads).symm.trans hu)

/-- The mutex is free: nobody is in a section. -/
theorem Mirrors.of_free (h : Mirrors a s) (hfree : s.holder = none) : a = s.toMonitor := by
  cases h with
  | settled _ ha => exact ha
  | within u c rest hholder => rw [hfree] at hholder; cases hholder

theorem simulates_lock (h : Simulates q s) (t : Nat) (now : Int) (realloc : Bool) : Simulates q (s.locks t now realloc) := by
  unfold Interleaved.locks
  by_cases hfree : s.holder = none
  · rw [if_pos hfree]
    obtain ⟨ms, a, hrun, hm⟩ := h.mirrored
    have ha := hm.of_free hfree
    subst ha
    have htake : ∀ c, Lock.Excludes SectionPlace.Holds (some t) (Function.update s.threads t (.inside c c.critical)) := by
      intro c
      have hexclusive := h.exclusive
      rw [hfree] at hexclusive
      exact hexclusive.take trivial
    cases ht : s.threads t with
    | locking c =>
      have habsent := h.parked.absent (t := t) fun d he => by
        rw [ht] at he
        cases he
      refine ⟨htake _, checked_moves h.checked (fun d he => by cases he), h.parked.moves habsent _, ms, _, hrun,
        .within t _ _ rfl (s.go_self t _) (early_at (h.checked t c ht) now realloc) (Prog.within_enter _ _) (Or.inl ⟨rfl, rfl, ?_⟩)⟩
      rintro (hb | hb)
      · exact habsent.1 hb
      · exact habsent.2 hb
    | waiting c =>
      by_cases hc : ∃ m, c = .enqueue (some m)
      · obtain ⟨m, rfl⟩ := hc
        dsimp only
        split
        · rename_i hwoken
          obtain ⟨w, hw, hwt⟩ := List.mem_map.mp hwoken
          -- the waiter found is this thread, with its message
          obtain ⟨v, hfind⟩ := Option.isSome_iff_exists.mp (List.find?_isSome (p := (·.1 == t)).mpr ⟨w, hw, beq_iff_eq.mpr hwt⟩)
          have hv := List.mem_of_find?_eq_some hfind
          have hvt : v.1 = t := eq_of_beq (List.find?_some (p := fun w : Nat × μ => w.1 == t) hfind)
          have hvwaits := h.parked.full v (List.mem_append_right _ hv)
          rw [hvt, ht] at hvwaits
          cases hvwaits
          subst hvt
          exact ⟨htake _, checked_moves h.checked (fun d he => by cases he), h.parked.resumeFull hv _, ms, _, hrun,
            .within v.1 _ _ rfl (s.go_self v.1 _) rfl (Prog.within_enter _ _) (Or.inr (Or.inl ⟨v.2, rfl, rfl, hfind, rfl⟩))⟩
        · exact h
      · split
        · rename_i he
          cases he
        · rename_i m he
          exact absurd ⟨m, SectionPlace.waiting.inj he⟩ hc
        · rename_i d _ he
          cases he
          split
          · rename_i hwoken
            obtain ⟨now', realloc', hwaits⟩ := h.parked.empty t (List.mem_append_right _ hwoken)
            rw [ht] at hwaits
            cases hwaits
            exact ⟨htake _, checked_moves h.checked (fun d he => by cases he), h.parked.resumeEmpty hwoken _, ms, _, hrun,
              .within t _ _ rfl (s.go_self t _) rfl (Prog.within_enter _ _) (Or.inr (Or.inr ⟨now, realloc, rfl, hwoken, rfl, rfl⟩))⟩
          · exact h
        · rename_i hother
          exact absurd rfl (hother _)
    | idle => exact h
    | inside c rest => exact h
    | leaving => exact h
  · rw [if_neg hfree]
    exact h

theorem goesOn_act {write : Queue μ → Queue μ} {next : Queue μ → Prog (Queue μ) (SectionEnd μ)}
    (ht : s.threads t = .inside c (.act write next))
    (wakes : List Nat) : s.goesOn t wakes = { s.go t (.inside c (next s.q)) with q := write s.q } := by
  rw [Interleaved.goesOn, ht]

theorem goesOn_waits (ht : s.threads t = .inside c (.ret .waits)) (wakes : List Nat) :
    s.goesOn t wakes = { s.go t (.waiting c) with toMonitor := s.sleeps t c, holder := none } := by
  rw [Interleaved.goesOn, ht]

theorem goesOn_returns {o : Out μ} {signal : Option Signal} (ht : s.threads t = .inside c (.ret (.returns o signal)))
    (wakes : List Nat) : s.goesOn t wakes =
      { s.go t .leaving with toMonitor := s.signals wakes signal, log := s.log ++ [⟨t, c, o⟩] } := by
  rw [Interleaved.goesOn, ht]

theorem goesOn_leaving (ht : s.threads t = .leaving) (wakes : List Nat) :
    s.goesOn t wakes = { s.go t .idle with holder := none } := by
  rw [Interleaved.goesOn, ht]

/-- While thread `t` is in a section, nobody else is in one. -/
theorem others_outside (h : Simulates q s) (hholder : s.holder = some t) (hp : ∀ d rest, p ≠ .inside d rest) :
    ∀ u d rest, (s.go t p).threads u ≠ .inside d rest := by
  intro u d rest hu
  by_cases hut : u = t
  · subst hut
    exact hp d rest ((s.go_self u p).symm.trans hu)
  · have hinside := (h.exclusive u).mp (by rw [(s.go_of_ne hut p).symm.trans hu]; trivial)
    rw [hholder] at hinside
    exact hut (Option.some.inj hinside).symm

/-- The last step of a section, or its wait. -/
theorem simulates_ending (h : Simulates q s) {ending : SectionEnd μ} (ht : s.threads t = .inside c (.ret ending)) (wakes : List Nat) :
    Simulates q (s.goesOn t wakes) := by
  have hholder : s.holder = some t := (h.exclusive t).mp (by rw [ht]; trivial)
  have habsent := h.parked.absent (t := t) fun d he => by
    rw [ht] at he
    cases he
  have hexclusive := h.exclusive
  rw [hholder] at hexclusive
  obtain ⟨ms, a, hrun, hm⟩ := h.mirrored
  cases hm with
  | settled hout _ => exact absurd ht (hout t c _)
  | within u d rest hu hthread hearly hwithin hentered =>
    obtain rfl : t = u := Option.some.inj (hholder.symm.trans hu)
    rw [ht] at hthread
    cases hthread
    have hdone := Prog.within_done hwithin
    obtain ⟨e, hstep, hentry⟩ := entered_event hentered wakes
    by_cases hwaits : c.Waits a.q
    · obtain ⟨rfl, hq⟩ := Prod.mk.inj ((section_waits hwaits).symm.trans hdone)
      have hsame : ({ s.toMonitor with q := a.q } : Monitor μ) = s.toMonitor := by rw [hq]
      rw [hsame, critical_waits (hq ▸ hwaits)] at hstep
      rw [goesOn_waits ht]
      refine ⟨hexclusive.release id, checked_moves h.checked (fun d he => by cases he), h.parked.sleeps (hq ▸ hwaits) habsent,
        mirrors_event hrun e ?_ ?_⟩
      · rw [hentry, entryOf, if_pos hwaits]
        exact (List.append_nil _).symm
      · rw [hstep]
        exact .settled (others_outside h hholder fun d rest he => by cases he) rfl
    · obtain ⟨rfl, hq⟩ := Prod.mk.inj ((section_returns hearly hwaits).symm.trans hdone)
      rw [critical_returns (s := { s.toMonitor with q := a.q }) hearly hwaits, hq] at hstep
      rw [goesOn_returns ht]
      refine ⟨?_, checked_moves h.checked (fun d he => by cases he), (h.parked.moves habsent _).signals wakes _,
        mirrors_event hrun e ?_ ?_⟩
      · show Lock.Excludes _ s.holder _
        rw [hholder]
        exact hexclusive.stay (by rw [ht]; exact Iff.rfl)
      · rw [hentry, entryOf, if_neg hwaits]
        rfl
      · rw [hstep]
        exact .settled (others_outside h hholder fun d rest he => by cases he) rfl

theorem simulates_access (h : Simulates q s) {write : Queue μ → Queue μ} {next : Queue μ → Prog (Queue μ) (SectionEnd μ)}
    (ht : s.threads t = .inside c (.act write next)) (wakes : List Nat) : Simulates q (s.goesOn t wakes) := by
  have hholder : s.holder = some t := (h.exclusive t).mp (by rw [ht]; trivial)
  have habsent := h.parked.absent (t := t) fun d he => by
    rw [ht] at he
    cases he
  obtain ⟨ms, a, hrun, hm⟩ := h.mirrored
  rw [goesOn_act ht]
  cases hm with
  | settled hout _ => exact absurd ht (hout t c _)
  | within u d rest hu hthread hearly hwithin hentered =>
    obtain rfl : t = u := Option.some.inj (hholder.symm.trans hu)
    rw [ht] at hthread
    cases hthread
    exact ⟨h.exclusive.stay (by rw [ht]; exact Iff.rfl), checked_moves h.checked (fun d he => by cases he),
      (h.parked.moves habsent _).perm (List.Perm.refl _) (List.Perm.refl _), ms, a, hrun,
      .within t c _ hholder (s.go_self t _) hearly (Prog.within_access hwithin) hentered⟩

theorem simulates_leaving (h : Simulates q s) (ht : s.threads t = .leaving) (wakes : List Nat) : Simulates q (s.goesOn t wakes) := by
  have hholder : s.holder = some t := (h.exclusive t).mp (by rw [ht]; trivial)
  have habsent := h.parked.absent (t := t) fun d he => by
    rw [ht] at he
    cases he
  have hexclusive := h.exclusive
  rw [hholder] at hexclusive
  obtain ⟨ms, a, hrun, hm⟩ := h.mirrored
  rw [goesOn_leaving ht]
  refine ⟨hexclusive.release id, checked_moves h.checked (fun d he => by cases he), h.parked.moves habsent _, ms, a, hrun, ?_⟩
  cases hm.moves (t := t) (p := .idle) (fun d rest he => by rw [ht] at he; cases he) (fun d rest he => by cases he) with
  | settled hout ha => exact .settled hout ha
  | within u d rest hu hthread =>
    obtain rfl : t = u := Option.some.inj (hholder.symm.trans hu)
    cases (s.go_self t .idle).symm.trans hthread

theorem simulates_goOn (h : Simulates q s) (t : Nat) (wakes : List Nat) : Simulates q (s.goesOn t wakes) := by
  cases ht : s.threads t with
  | inside c rest =>
    cases rest with
    | act write next => exact simulates_access h ht wakes
    | ret ending => exact simulates_ending h ht wakes
  | leaving => exact simulates_leaving h ht wakes
  | idle | locking c | waiting c =>
    rw [Interleaved.goesOn, ht]
    exact h

theorem simulates_spurious (h : Simulates q s) (wakes : List Nat) : Simulates q (accessStep s (.spurious wakes)) := by
  obtain ⟨ms, a, hrun, hm⟩ := h.mirrored
  refine ⟨h.exclusive, h.checked, h.parked.perm (CondVar.waiters_wake _ _) (CondVar.waiters_wake _ _),
    mirrors_event hrun (.spurious wakes) (List.append_nil _).symm ?_⟩
  cases hm with
  | settled hout ha =>
    subst ha
    exact .settled hout rfl
  | within u c rest hholder hu hearly hwithin hentered =>
    exact .within u c rest hholder hu hearly hwithin (entered_spurious hentered wakes)

theorem simulates_step (s : Interleaved μ) (e : AccessEvent μ) (h : Simulates q s) : Simulates q (accessStep s e) := by
  cases e with
  | call t c => exact simulates_call h t c
  | lock t now realloc => exact simulates_lock h t now realloc
  | goOn t wakes => exact simulates_goOn h t wakes
  | spurious wakes => exact simulates_spurious h wakes

theorem simulates_start (q : Queue μ) : Simulates q (Interleaved.start q) where
  exclusive _ := iff_of_false id (Option.some_ne_none _).symm
  checked _ _ h := by cases h
  parked := ⟨fun _ h => (List.not_mem_nil h).elim, fun _ h => (List.not_mem_nil h).elim, List.nodup_nil, List.nodup_nil⟩
  mirrored := ⟨[], _, rfl, .settled (fun _ _ _ h => by cases h) rfl⟩

end Step

/-- Every run of the accesses has a run of whole sections behind it that has the same waiters
    and has returned the same results in the same order; while no thread is in a section it
    has the same queue, too. -/
theorem sections_are_atomic (q : Queue μ) (es : List (AccessEvent μ)) :
    ∃ ms a, Run.run atomicStep (Atomic.start q) ms = ⟨a, (Run.run accessStep (Interleaved.start q) es).log⟩ ∧
      Mirrors a (Run.run accessStep (Interleaved.start q) es) :=
  (Run.run_inv simulates_step es (simulates_start q)).mirrored

/-! ## One call after another -/

/-- The calls of a log made one after another, none of which waits, lead from one queue to
    another, each with its result. -/
inductive Serially : Queue μ → List (Entry μ) → Queue μ → Prop
  | nil (q : Queue μ) : Serially q [] q
  | snoc {q q' : Queue μ} {log : List (Entry μ)} (t : Nat) (c : Call μ) : Serially q log q' → ¬ c.Waits q' →
      Serially q (log ++ [⟨t, c, (call q' c).2⟩]) (call q' c).1

theorem call_waits {c : Call μ} {q : Queue μ} (hw : c.Waits q) : (call q c).1 = q := by
  cases c with
  | enqueue message =>
    cases message with
    | none => cases hw
    | some m =>
      have hfull : q.size = q.capacity := hw
      simp only [call, queueEnqueue, if_pos hfull]
  | dequeue now realloc =>
    have hempty : q.size = 0 := hw
    simp only [call, queueDequeue, if_pos hempty]
  | _ => cases hw

theorem signals_q (s : Monitor μ) (wakes : List Nat) (signal : Option Signal) : (s.signals wakes signal).q = s.q := by
  cases signal with
  | none => rfl
  | some signal => cases signal <;> rfl

theorem critical_q (s : Monitor μ) (t : Nat) (c : Call μ) (wakes : List Nat) : (s.critical t c wakes).q = (call s.q c).1 := by
  cases hc : c.early with
  | some o => rw [critical_early hc, early_call hc]
  | none =>
    by_cases hw : c.Waits s.q
    · rw [critical_waits hw, call_waits hw]
      unfold Monitor.sleeps
      split
      · rfl
      · rfl
    · rw [critical_returns hc hw, signals_q]

/-- A section, made or waited in. -/
theorem serially_entry {q : Queue μ} {a : Monitor μ} {log : List (Entry μ)} (h : Serially q log a.q) (t : Nat) (c : Call μ) :
    Serially q (log ++ (entryOf a.q t c).toList) (call a.q c).1 := by
  unfold entryOf
  by_cases hw : c.Waits a.q
  · rw [if_pos hw, call_waits hw]
    simpa using h
  · rw [if_neg hw]
    exact .snoc t c h hw

theorem serially_step {q : Queue μ} (a : Atomic μ) (e : MonitorEvent μ) (h : Serially q a.log a.monitor.q) :
    Serially q (atomicStep a e).log (atomicStep a e).monitor.q := by
  have hstay : Serially q (a.log ++ (none : Option (Entry μ)).toList) a.monitor.q := by simpa using h
  cases e with
  | call t c wakes =>
    simp only [atomicStep, monitorStep, monitorEntry]
    split
    · exact hstay
    · rw [critical_q]
      exact serially_entry h t c
  | dequeuer t now realloc wakes =>
    simp only [atomicStep, monitorStep, monitorEntry]
    split
    · rw [critical_q]
      exact serially_entry h t _
    · exact hstay
  | enqueuer t wakes =>
    simp only [atomicStep, monitorStep, monitorEntry]
    cases hfind : a.monitor.notFull.woken.find? (·.1 == t) with
    | none => exact hstay
    | some w =>
      simp only [Option.bind_some, critical_q]
      exact serially_entry h t _
  | spurious wakes => exact hstay

/-! ## Each call once -/

/-- The call, whatever the clock and the allocator had for it. -/
def Call.kind (c : Call μ) : Call μ := c.at 0 false

@[simp] theorem kind_at (c : Call μ) (now : Int) (realloc : Bool) : (c.at now realloc).kind = c.kind := by
  cases c <;> rfl

/-- The call a thread is in, before its section's last step. -/
def SectionPlace.pending : SectionPlace μ → List (Call μ)
  | .locking c | .inside c _ | .waiting c => [c.kind]
  | .idle | .leaving => []

/-- The calls a thread has made are those in the log, in order, and the one it is in. -/
def Accounted (s : Interleaved μ) : Prop :=
  ∀ t, (s.begun.filter (·.1 = t)).map (·.2.kind) =
    (s.log.filter (·.thread = t)).map (·.call.kind) ++ (s.threads t).pending

/-- Thread `t` makes the calls `cs`, has the entries `es` made, and goes to `p`. -/
theorem Accounted.extends {s s' : Interleaved μ} (h : Accounted s) (t : Nat) (p : SectionPlace μ) (cs : List (Call μ))
    (es : List (Call μ × Out μ))
    (hbegun : s'.begun = s.begun ++ cs.map fun c => (t, c)) (hlog : s'.log = s.log ++ es.map fun e => ⟨t, e.1, e.2⟩)
    (hthreads : s'.threads = Function.update s.threads t p)
    (hbalance : (s.threads t).pending ++ cs.map Call.kind = es.map (·.1.kind) ++ p.pending) : Accounted s' := by
  intro u
  rw [hbegun, hlog, hthreads]
  by_cases hut : u = t
  · subst hut
    have hcs : ((cs.map fun c => (u, c)).filter (·.1 = u)).map (·.2.kind) = cs.map Call.kind := by
      rw [List.filter_eq_self.mpr (by simp)]
      simp
    have hes : ((es.map fun e => (⟨u, e.1, e.2⟩ : Entry μ)).filter (·.thread = u)).map (·.call.kind) = es.map (·.1.kind) := by
      rw [List.filter_eq_self.mpr fun e he => ?_, List.map_map]
      · rfl
      · obtain ⟨x, -, rfl⟩ := List.mem_map.mp he
        exact decide_eq_true rfl
    rw [List.filter_append, List.map_append, List.filter_append, List.map_append, hcs, hes, h u, List.append_assoc, hbalance,
      Function.update_self, List.append_assoc]
  · have hcs : (cs.map fun c => (t, c)).filter (·.1 = u) = [] := by
      rw [List.filter_eq_nil_iff]
      simp [Ne.symm hut]
    have hes : (es.map fun e => (⟨t, e.1, e.2⟩ : Entry μ)).filter (·.thread = u) = [] := by
      rw [List.filter_eq_nil_iff]
      intro e he
      obtain ⟨x, -, rfl⟩ := List.mem_map.mp he
      simp [Ne.symm hut]
    rw [List.filter_append, hcs, List.append_nil, List.filter_append, hes, List.append_nil, Function.update_of_ne hut]
    exact h u

/-- A step that makes no call and no entry. -/
theorem Accounted.goes {s s' : Interleaved μ} (h : Accounted s) (t : Nat) (p : SectionPlace μ) (hbegun : s'.begun = s.begun)
    (hlog : s'.log = s.log) (hthreads : s'.threads = Function.update s.threads t p) (hp : (s.threads t).pending = p.pending) :
    Accounted s' :=
  h.extends t p [] [] (hbegun.trans (List.append_nil _).symm) (hlog.trans (List.append_nil _).symm) hthreads
    ((List.append_nil _).trans hp)

theorem accounted_calls {s : Interleaved μ} (h : Accounted s) (t : Nat) (c : Call μ) : Accounted (s.calls t c) := by
  unfold Interleaved.calls
  cases ht : s.threads t with
  | idle =>
    cases hc : c.early with
    | some o => exact h.extends t (s.threads t) [c] [(c, o)] rfl rfl (Function.update_eq_self t _).symm (by rw [ht]; rfl)
    | none => exact h.extends t (.locking c) [c] [] rfl (List.append_nil _).symm rfl (by rw [ht]; rfl)
  | locking d => exact h
  | inside d rest => exact h
  | leaving => exact h
  | waiting d => exact h

theorem accounted_locks {s : Interleaved μ} (h : Accounted s) (t : Nat) (now : Int) (realloc : Bool) :
    Accounted (s.locks t now realloc) := by
  unfold Interleaved.locks
  split
  · split
    · rename_i c ht
      exact h.goes t _ rfl rfl rfl (by rw [ht]; simp [SectionPlace.pending])
    · rename_i m ht
      split
      · exact h.goes t _ rfl rfl rfl (by rw [ht]; rfl)
      · exact h
    · rename_i c _ ht
      split
      · exact h.goes t _ rfl rfl rfl (by rw [ht]; simp [SectionPlace.pending])
      · exact h
    · exact h
  · exact h

theorem accounted_goesOn {s : Interleaved μ} (h : Accounted s) (t : Nat) (wakes : List Nat) : Accounted (s.goesOn t wakes) := by
  unfold Interleaved.goesOn
  split
  · rename_i c write next ht
    exact h.goes t _ rfl rfl rfl (by rw [ht]; rfl)
  · rename_i c ht
    exact h.goes t _ rfl rfl rfl (by rw [ht]; rfl)
  · rename_i c o signal ht
    exact h.extends t .leaving [] [(c, o)] (List.append_nil _).symm rfl rfl (by rw [ht]; rfl)
  · rename_i ht
    exact h.goes t _ rfl rfl rfl (by rw [ht]; rfl)
  · exact h

theorem accounted_step (s : Interleaved μ) (e : AccessEvent μ) (h : Accounted s) : Accounted (accessStep s e) := by
  cases e with
  | call t c => exact accounted_calls h t c
  | lock t now realloc => exact accounted_locks h t now realloc
  | goOn t wakes => exact accounted_goesOn h t wakes
  | spurious wakes => exact h

/-- What the threads of a run have done to the queue. -/
structure Linearizes (q : Queue μ) (s : Interleaved μ) : Prop where
  /-- With the mutex free, the queue is what the logged calls make of it one after another. -/
  free : s.holder = none → Serially q s.log s.q
  /-- A thread in a section has seen that queue, and nothing since but its own writes. -/
  within : ∀ t c rest, s.threads t = .inside c rest →
    ∃ found, Serially q s.log found ∧ rest.eval s.q = c.critical.eval found
  alone : ∀ t u, (s.threads t).Holds → (s.threads u).Holds → t = u
  once : Accounted s

theorem linearizable (q : Queue μ) (es : List (AccessEvent μ)) : Linearizes q (Run.run accessStep (Interleaved.start q) es) := by
  have hsim := Run.run_inv simulates_step es (simulates_start q)
  have honce : Accounted (Run.run accessStep (Interleaved.start q) es) := Run.run_inv accounted_step es fun t => rfl
  obtain ⟨ms, a, hrun, hm⟩ := hsim.mirrored
  have hserial : Serially q (Run.run accessStep (Interleaved.start q) es).log a.q := by
    have h := Run.run_inv serially_step (s := Atomic.start q) ms (.nil q)
    rw [hrun] at h
    exact h
  refine ⟨fun hfree => ?_, fun t c rest ht => ⟨a.q, hserial, ?_⟩, fun t u ht hu => ?_, honce⟩
  · rw [hm.of_free hfree] at hserial
    exact hserial
  · cases hm with
    | settled hout _ => exact absurd ht (hout t c rest)
    | within u d rest' hholder hu _ hwithin =>
      obtain rfl : t = u := by
        have hinside := (hsim.exclusive t).mp (by rw [ht]; trivial)
        exact Option.some.inj (hinside.symm.trans hholder)
      rw [ht] at hu
      cases hu
      exact hwithin
  · exact Option.some.inj (((hsim.exclusive t).mp ht).symm.trans ((hsim.exclusive u).mp hu))

end RabbitMQ.Core
