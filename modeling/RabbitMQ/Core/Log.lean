/-
  RabbitMQ.Core.Log — the log that all threads write.

  A line is printed in three pieces, with `log_mutex` held, to whatever `log_output` is then;
  `current_level` is read and set without the mutex. Each access to the file and to
  `log_output` is a step, and the threads take their steps in any order.

  Whatever the order, a file has whole lines, those of a thread in the order of its calls,
  and at its end a piece of the line of the thread that has the mutex, if any
  (`lines_are_whole`). `log_fatal` gets past every level and does not return.
-/

import RabbitMQ.Core.Memory
import RabbitMQ.Lib.Lock
import RabbitMQ.Lib.Prog
import RabbitMQ.Lib.Run

namespace RabbitMQ.Core

open Lib

/-! ## One call -/

inductive LogLevel where
  | debug
  | info
  | warning
  | error
  | fatal
  deriving DecidableEq, Repr

namespace LogLevel

def value : LogLevel → Nat
  | debug => 0
  | info => 1
  | warning => 2
  | error => 3
  | fatal => 4

/-- `level_names`. -/
def name : LogLevel → Bytes
  | debug => [68, 69, 66, 85, 71]
  | info => [73, 78, 70, 79]
  | warning => [87, 65, 82, 78, 73, 78, 71]
  | error => [69, 82, 82, 79, 82]
  | fatal => [70, 65, 84, 65, 76]

/-- Only from `LOG_LEVEL_DEBUG` to `LOG_LEVEL_FATAL`. -/
def ofInt? (n : Int) : Option LogLevel := [debug, info, warning, error, fatal].find? fun l => n = l.value

end LogLevel

/-- What was printed to a file, and how much of it the last `fflush` passed on. -/
structure Stream where
  written : Bytes
  flushed : Nat

/-- `log_output`, NULL at first. `crashed`: a NULL was printed to. -/
structure LogState where
  output : Option Nat
  files : Nat → Stream
  crashed : Bool

def STDOUT : Nat := 0

namespace LogState

def on (s : LogState) (output : Option Nat) (f : Stream → Stream) : LogState :=
  match output with
  | none => { s with crashed := true }
  | some file => { s with files := Function.update s.files file (f (s.files file)) }

def initLogOutput : Prog LogState Unit := do
  let output ← Prog.read (·.output)
  if output = none then Prog.write fun s => { s with output := some STDOUT } else pure ()

def fprintf (text : Bytes) : Prog LogState Unit := do
  let output ← Prog.read (·.output)
  Prog.write fun s => s.on output fun f => { f with written := f.written ++ text }

def fflush : Prog LogState Unit := do
  let output ← Prog.read (·.output)
  Prog.write fun s => s.on output fun f => { f with flushed := f.written.length }

end LogState

/-- "%lu" -/
def decimal (n : Nat) : Bytes := (Nat.toDigits 10 n).map fun c => UInt8.ofNat c.toNat

/-- "[%s] [%s] [%lu] ", with the time, the level and the thread. -/
def logHeader (time : Bytes) (level : LogLevel) (tid : Nat) : Bytes :=
  [91] ++ time ++ [93, 32, 91] ++ level.name ++ [93, 32, 91] ++ decimal tid ++ [93, 32]

/-- What is done with `log_mutex` held. -/
inductive LogSection where
  | line (level : LogLevel) (message : Bytes)
  | setOutput (output : Option Nat)

/-- `time`: what `strftime` makes of the clock. -/
def LogSection.critical (tid : Nat) (time : Bytes) : LogSection → Prog LogState Unit
  | .line level message => do
    LogState.initLogOutput
    LogState.fprintf (logHeader time level tid)
    LogState.fprintf message
    LogState.fprintf [10]
    LogState.fflush
  | .setOutput output => Prog.write fun s => { s with output := some (output.getD STDOUT) }

/-- The calls; `log` is `log_debug` to `log_fatal`, with its message as formatted. -/
inductive LogCall where
  | log (level : LogLevel) (message : Bytes)
  | setLevel (level : Int)
  | setOutput (output : Option Nat)

/-- What is left to do when `current_level` was read; none where the call has returned. -/
def LogCall.logSection (current : LogLevel) : LogCall → Option LogSection
  | .log level message => if level.value < current.value then none else some (.line level message)
  | .setLevel _ => none
  | .setOutput output => some (.setOutput output)

def LogCall.levelAfter (current : LogLevel) : LogCall → LogLevel
  | .setLevel n => (LogLevel.ofInt? n).getD current
  | _ => current

/-! ## The threads -/

inductive LogPlace where
  | idle
  | locking (c : LogSection)
  | inside (c : LogSection) (time : Bytes) (rest : Prog LogState Unit)
  /-- In `exit`. -/
  | exiting

def LogPlace.Inside : LogPlace → Prop
  | .inside _ _ _ => True
  | _ => False

/-- The place after the mutex is given back. -/
def LogSection.after : LogSection → LogPlace
  | .line .fatal _ => .exiting
  | _ => .idle

/-- A section that is over. -/
structure LogEntry where
  thread : Nat
  time : Bytes
  done : LogSection

/-- A call, and the level it found. -/
structure LogMade where
  thread : Nat
  call : LogCall
  found : LogLevel

structure Logging extends LogState where
  level : LogLevel
  holder : Option Nat
  threads : Nat → LogPlace
  made : List LogMade
  log : List LogEntry
  ended : Bool

namespace Logging

/-- As the static variables are initialised. -/
def start : Logging where
  output := none
  files := fun _ => ⟨[], 0⟩
  crashed := false
  level := .info
  holder := none
  threads := fun _ => .idle
  made := []
  log := []
  ended := false

def go (s : Logging) (t : Nat) (p : LogPlace) : Logging := { s with threads := Function.update s.threads t p }

def calls (s : Logging) (t : Nat) (c : LogCall) : Logging :=
  match s.threads t with
  | .idle =>
    let s' := { s with level := c.levelAfter s.level, made := s.made ++ [⟨t, c, s.level⟩] }
    match c.logSection s.level with
    | none => s'
    | some c => s'.go t (.locking c)
  | _ => s

def locks (s : Logging) (t : Nat) (time : Bytes) : Logging :=
  if s.holder = none then
    match s.threads t with
    | .locking c => { s.go t (.inside c time (c.critical t time)) with holder := some t }
    | _ => s
  else s

/-- The next step of thread `t` that is neither a call nor the taking of the mutex. -/
def goesOn (s : Logging) (t : Nat) : Logging :=
  match s.threads t with
  | .inside c time (.act write next) => { s.go t (.inside c time (next s.toLogState)) with toLogState := write s.toLogState }
  | .inside c time (.ret _) => { s.go t c.after with holder := none, log := s.log ++ [⟨t, time, c⟩] }
  | .exiting => { s with ended := true }
  | _ => s

end Logging

inductive LogEvent where
  | call (t : Nat) (c : LogCall)
  | lock (t : Nat) (time : Bytes)
  | goOn (t : Nat)

def loggingStep (s : Logging) (e : LogEvent) : Logging :=
  if s.ended then s
  else match e with
    | .call t c => s.calls t c
    | .lock t time => s.locks t time
    | .goOn t => s.goesOn t

/-! ## What the files have -/

def LogSection.text (tid : Nat) (time : Bytes) : LogSection → Bytes
  | .line level message => logHeader time level tid ++ message ++ [10]
  | .setOutput _ => []

def LogEntry.text (e : LogEntry) : Bytes := e.done.text e.thread e.time

/-- Where the next line goes, if this one went to `file`. -/
def LogEntry.redirects (file : Nat) (e : LogEntry) : Nat :=
  match e.done with
  | .line _ _ => file
  | .setOutput output => output.getD STDOUT

def fileAfter (es : List LogEntry) : Nat := es.foldl LogEntry.redirects STDOUT

theorem fileAfter_append (es : List LogEntry) (e : LogEntry) : fileAfter (es ++ [e]) = e.redirects (fileAfter es) := List.foldl_append

/-- What of `text` is in `f`, when it goes to `file`. -/
def toFile (f file : Nat) (text : Bytes) : Bytes := if file = f then text else []

/-- What the sections one after the other print to `f`, the first of them to `file`. -/
def textTo (f file : Nat) : List LogEntry → Bytes
  | [] => []
  | e :: es => toFile f file e.text ++ textTo f (e.redirects file) es

@[simp] theorem toFile_self (f : Nat) (text : Bytes) : toFile f f text = text := if_pos rfl

theorem toFile_of_ne {f file : Nat} (h : f ≠ file) (text : Bytes) : toFile f file text = [] := if_neg h.symm

@[simp] theorem toFile_nil (f file : Nat) : toFile f file [] = [] := ite_self _

theorem textTo_append (f file : Nat) (es : List LogEntry) (e : LogEntry) :
    textTo f file (es ++ [e]) = textTo f file es ++ toFile f (es.foldl LogEntry.redirects file) e.text := by
  induction es generalizing file with
  | nil => simp [textTo]
  | cons a es ih => simp [textTo, ih]

/-- Between two sections. -/
structure Flushed (es : List LogEntry) (s : LogState) : Prop where
  safe : s.crashed = false
  output : s.output.getD STDOUT = fileAfter es
  written : ∀ f, (s.files f).written = textTo f STDOUT es
  flushed : ∀ f, (s.files f).flushed = (s.files f).written.length

/-- Within a section that prints `text`. -/
def Midway (es : List LogEntry) (text : Bytes) (s : LogState) : Prop :=
  s.crashed = false ∧ ∃ part, part <+: text ∧ ∀ f, (s.files f).written = textTo f STDOUT es ++ toFile f (fileAfter es) part

/-- `log_output` is set, and `part` is printed. -/
structure Printed (es : List LogEntry) (part : Bytes) (s : LogState) : Prop where
  safe : s.crashed = false
  output : s.output = some (fileAfter es)
  written : ∀ f, (s.files f).written = textTo f STDOUT es ++ toFile f (fileAfter es) part
  others : ∀ f, f ≠ fileAfter es → (s.files f).flushed = (s.files f).written.length

variable {es : List LogEntry} {part text : Bytes} {s : LogState}

theorem Flushed.midway (h : Flushed es s) (text : Bytes) : Midway es text s :=
  ⟨h.safe, [], List.nil_prefix, fun f => by rw [h.written f, toFile_nil, List.append_nil]⟩

theorem Printed.midway (h : Printed es part s) (hpart : part <+: text) : Midway es text s := ⟨h.safe, part, hpart, h.written⟩

theorem Flushed.printed (h : Flushed es s) : Printed es [] { s with output := some (s.output.getD STDOUT) } :=
  ⟨h.safe, congrArg some h.output, fun f => by rw [h.written f, toFile_nil, List.append_nil], fun f _ => h.flushed f⟩

theorem Printed.on (h : Printed es part s) {g : Stream → Stream} {part' : Bytes}
    (hg : (g (s.files (fileAfter es))).written = textTo (fileAfter es) STDOUT es ++ part') : Printed es part' (s.on s.output g) := by
  rw [h.output]
  refine ⟨h.safe, h.output, fun f => ?_, fun f hf => ?_⟩
  · by_cases hf : f = fileAfter es
    · subst hf
      simpa [LogState.on] using hg
    · have hwas := h.written f
      rw [toFile_of_ne hf] at hwas ⊢
      simpa [LogState.on, Function.update_of_ne hf] using hwas
  · simpa [LogState.on, Function.update_of_ne hf] using h.others f hf

theorem Printed.fprintf (h : Printed es part s) (more : Bytes) :
    Printed es (part ++ more) (s.on s.output fun f => { f with written := f.written ++ more }) := by
  refine h.on ?_
  rw [h.written, toFile_self, List.append_assoc]

theorem Printed.fflush (h : Printed es part s) : Printed es part (s.on s.output fun f => { f with flushed := f.written.length }) := by
  refine h.on ?_
  rw [h.written, toFile_self]

/-- After the last `fflush`. -/
theorem Printed.flushed (h : Printed es part s) {e : LogEntry} (htext : e.text = part)
    (hfile : e.redirects (fileAfter es) = fileAfter es) :
    Flushed (es ++ [e]) (s.on s.output fun f => { f with flushed := f.written.length }) := by
  have hflushed := h.fflush
  refine ⟨hflushed.safe, ?_, fun f => ?_, fun f => ?_⟩
  · rw [hflushed.output, Option.getD_some, fileAfter_append, hfile]
  · rw [hflushed.written f, textTo_append, htext]
    rfl
  · by_cases hf : f = fileAfter es
    · subst hf
      simp [h.output, LogState.on]
    · exact hflushed.others f hf

/-! ## A section -/

theorem always_init {k : Unit → Prog LogState Unit} {P : LogState → Prop} (hs : P s)
    (h : (k ()).Always P { s with output := some (s.output.getD STDOUT) }) : (LogState.initLogOutput >>= k).Always P s := by
  refine ⟨hs, ?_⟩
  obtain ⟨output, files, crashed⟩ := s
  cases output with
  | none => exact ⟨hs, h⟩
  | some f => exact h

theorem eval_init (k : Unit → Prog LogState Unit) (s : LogState) :
    (LogState.initLogOutput >>= k).eval s = (k ()).eval { s with output := some (s.output.getD STDOUT) } := by
  obtain ⟨output, files, crashed⟩ := s
  cases output with
  | none => rfl
  | some f => rfl

theorem always_fprintf {more : Bytes} {k : Unit → Prog LogState Unit} {P : LogState → Prop} (hs : P s)
    (h : (k ()).Always P (s.on s.output fun f => { f with written := f.written ++ more })) : (LogState.fprintf more >>= k).Always P s :=
  ⟨hs, hs, h⟩

theorem critical_midway (h : Flushed es s) (t : Nat) (time : Bytes) (c : LogSection) :
    (c.critical t time).Always (Midway es (c.text t time)) s := by
  cases c with
  | setOutput output => exact ⟨h.midway _, h.safe, [], List.nil_prefix, h.printed.written⟩
  | line level message =>
    have hset := h.printed
    have hheader := hset.fprintf (logHeader time level t)
    have hmessage := hheader.fprintf message
    have hline := hmessage.fprintf [10]
    have hwhole : Midway es ((LogSection.line level message).text t time) _ := hline.midway List.prefix_rfl
    refine always_init (h.midway _) (always_fprintf (hset.midway List.nil_prefix) (always_fprintf (hheader.midway ?_)
      (always_fprintf (hmessage.midway (List.prefix_append ..)) ⟨hwhole, hwhole, hline.fflush.midway List.prefix_rfl⟩)))
    show logHeader time level t <+: logHeader time level t ++ message ++ [10]
    rw [List.append_assoc]
    exact List.prefix_append ..

theorem critical_flushed (h : Flushed es s) (t : Nat) (time : Bytes) (c : LogSection) :
    Flushed (es ++ [⟨t, time, c⟩]) ((c.critical t time).eval s).2 := by
  cases c with
  | setOutput output =>
    refine ⟨h.safe, ?_, fun f => ?_, h.flushed⟩
    · rw [fileAfter_append]
      rfl
    · rw [textTo_append]
      exact h.printed.written f
  | line level message =>
    have hline := ((h.printed.fprintf (logHeader time level t)).fprintf message).fprintf [10]
    have heval : ((LogSection.line level message).critical t time).eval s = _ := eval_init _ s
    rw [heval]
    exact hline.flushed rfl rfl

/-! ## Any order -/

/-- The section that a thread is in or about to enter. -/
def LogPlace.pending : LogPlace → List LogSection
  | .locking c | .inside c _ _ => [c]
  | .idle | .exiting => []

/-- In `log_fatal`. -/
def LogPlace.Dying : LogPlace → Prop
  | .locking (.line .fatal _) | .inside (.line .fatal _) _ _ | .exiting => True
  | _ => False

def LogMade.Fatal (m : LogMade) : Prop := ∃ text, m.call = .log .fatal text

/-- What is to be done for the calls of `t`, in their order. -/
def sectionsOf (t : Nat) (made : List LogMade) : List LogSection :=
  (made.filter (·.thread = t)).filterMap fun m => m.call.logSection m.found

def levelAfter (made : List LogMade) : LogLevel := made.foldl (fun level m => m.call.levelAfter level) .info

/-- Each call found the level that the calls before it left. -/
def FindLevels (made : List LogMade) : Prop := ∀ ms m, ms ++ [m] <+: made → m.found = levelAfter ms

/-- What the calls came to. -/
structure LogBooks (s : Logging) : Prop where
  turns : ∀ t, sectionsOf t s.made = (s.log.filter (·.thread = t)).map (·.done) ++ (s.threads t).pending
  levels : FindLevels s.made
  /-- `log_fatal` does not return. -/
  fatal : ∀ t, (s.threads t).Dying ↔ ∃ m ∈ s.made, m.thread = t ∧ m.Fatal
  /-- And nothing else ends the program. -/
  ends : s.ended = true → ∃ m ∈ s.made, m.Fatal

/-- A file has the lines that went to it, one after the other, and what the thread that has the
    mutex has printed of its line. -/
structure WholeLines (s : Logging) : Prop where
  safe : s.crashed = false
  whole : ∃ part, (∀ f, (s.files f).written = textTo f STDOUT s.log ++ toFile f (fileAfter s.log) part) ∧
    (part = [] ∨ ∃ t c time rest, s.holder = some t ∧ s.threads t = .inside c time rest ∧ part <+: c.text t time)
  flushed : s.holder = none → ∀ f, (s.files f).flushed = (s.files f).written.length
  books : LogBooks s

/-- A thread in a section is where its program has brought what it found. -/
def InSection (es : List LogEntry) (s : LogState) (t : Nat) (p : LogPlace) : Prop :=
  ∀ c time rest, p = .inside c time rest → ∃ found, Flushed es found ∧ Prog.Within (c.critical t time) found rest s ∧
    rest.Always (Midway es (c.text t time)) s

/-- The invariant. -/
structure Logs (s : Logging) : Prop where
  excludes : Lock.Excludes LogPlace.Inside s.holder s.threads
  outside : s.holder = none → Flushed s.log s.toLogState
  inside : ∀ t, InSection s.log s.toLogState t (s.threads t)
  level : s.level = levelAfter s.made
  books : LogBooks s

theorem sectionsOf_append (t : Nat) (made : List LogMade) (m : LogMade) :
    sectionsOf t (made ++ [m]) = sectionsOf t made ++ if m.thread = t then (m.call.logSection m.found).toList else [] := by
  by_cases ht : m.thread = t
  · cases hc : m.call.logSection m.found <;> simp [sectionsOf, ht, hc]
  · simp [sectionsOf, ht]

theorem findLevels_append {made : List LogMade} (h : FindLevels made) {m : LogMade} (hm : m.found = levelAfter made) :
    FindLevels (made ++ [m]) := by
  intro ms m' hms
  rcases List.prefix_concat_iff.mp hms with heq | hbefore
  · obtain ⟨rfl, rfl⟩ := List.append_inj' heq rfl |>.imp_right List.singleton_inj.mp
    exact hm
  · exact h ms m' hbefore

theorem levelAfter_append (made : List LogMade) (m : LogMade) : levelAfter (made ++ [m]) = m.call.levelAfter (levelAfter made) :=
  List.foldl_append

theorem fatal_append (made : List LogMade) (m : LogMade) (t : Nat) :
    (∃ m' ∈ made ++ [m], m'.thread = t ∧ m'.Fatal) ↔ (∃ m' ∈ made, m'.thread = t ∧ m'.Fatal) ∨ m.thread = t ∧ m.Fatal := by
  simp only [List.mem_append, List.mem_singleton, or_and_right, exists_or, exists_eq_left]

/-- Where a call leaves its thread. -/
def LogCall.place (current : LogLevel) (c : LogCall) : LogPlace := (c.logSection current).elim .idle .locking

theorem place_pending (current : LogLevel) (c : LogCall) : (c.place current).pending = (c.logSection current).toList := by
  unfold LogCall.place
  cases c.logSection current <;> rfl

theorem place_outside (current : LogLevel) (c : LogCall) : ¬ (c.place current).Inside := by
  unfold LogCall.place
  cases c.logSection current <;> exact id

/-- A fatal line is not below any level. -/
theorem place_dying (current : LogLevel) (c : LogCall) : (c.place current).Dying ↔ ∃ text, c = .log .fatal text := by
  cases c with
  | setLevel n => simp [LogCall.place, LogCall.logSection, LogPlace.Dying]
  | setOutput output => simp [LogCall.place, LogCall.logSection, LogPlace.Dying]
  | log level message =>
    by_cases hl : level.value < current.value
    · have hne : level ≠ .fatal := by
        rintro rfl
        cases current <;> exact absurd hl (by decide)
      simp [LogCall.place, LogCall.logSection, hl, hne, LogPlace.Dying]
    · cases level <;> simp [LogCall.place, LogCall.logSection, hl, LogPlace.Dying]

theorem calls_idle {s : Logging} {t : Nat} (ht : s.threads t = .idle) (c : LogCall) :
    s.calls t c = { s with
      level := c.levelAfter s.level, made := s.made ++ [⟨t, c, s.level⟩]
      threads := Function.update s.threads t (c.place s.level) } := by
  unfold Logging.calls LogCall.place
  rw [ht]
  cases c.logSection s.level with
  | none =>
    have hsame : Function.update s.threads t .idle = s.threads := by rw [← ht, Function.update_eq_self]
    simp only [Option.elim_none, hsame]
  | some d => rfl

theorem Logs.wholeLines {s : Logging} (h : Logs s) : WholeLines s := by
  cases hholder : s.holder with
  | none =>
    have hflushed := h.outside hholder
    refine ⟨hflushed.safe, ⟨[], ?_, Or.inl rfl⟩, fun _ => hflushed.flushed, h.books⟩
    exact fun f => by rw [hflushed.written f, toFile_nil, List.append_nil]
  | some t =>
    have hinside : (s.threads t).Inside := (h.excludes t).mpr hholder
    cases hp : s.threads t with
    | inside c time rest =>
      obtain ⟨found, -, -, halways⟩ := h.inside t c time rest hp
      obtain ⟨hsafe, part, hpart, hwritten⟩ := halways.here
      exact ⟨hsafe, ⟨part, hwritten, Or.inr ⟨t, c, time, rest, hholder, hp, hpart⟩⟩, fun hfree => by simp [hholder] at hfree, h.books⟩
    | idle =>
      rw [hp] at hinside
      exact hinside.elim
    | locking c =>
      rw [hp] at hinside
      exact hinside.elim
    | exiting =>
      rw [hp] at hinside
      exact hinside.elim

theorem inSection_outside {p : LogPlace} (hp : ¬ p.Inside) {t : Nat} : InSection es s t p := by
  rintro c time rest rfl
  exact absurd trivial hp

theorem inside_dying (c : LogSection) (time : Bytes) (rest : Prog LogState Unit) :
    (LogPlace.inside c time rest).Dying ↔ (LogPlace.locking c).Dying := by
  cases c with
  | setOutput output => rfl
  | line level message => cases level <;> rfl

theorem LogBooks.calls {s : Logging} (h : LogBooks s) {t : Nat} (ht : s.threads t = .idle) (c : LogCall)
    (hlevel : s.level = levelAfter s.made) :
    LogBooks { s with
      level := c.levelAfter s.level, made := s.made ++ [⟨t, c, s.level⟩]
      threads := Function.update s.threads t (c.place s.level) } where
  turns := by
    refine (Function.forall_update_iff s.threads fun u p => _ = _ ++ p.pending).mpr ⟨?_, fun u hu => ?_⟩
    · rw [sectionsOf_append, if_pos rfl, h.turns t, ht, place_pending, List.append_assoc]
      rfl
    · rw [sectionsOf_append, if_neg (Ne.symm hu), List.append_nil]
      exact h.turns u
  levels := findLevels_append h.levels hlevel
  fatal := by
    refine (Function.forall_update_iff s.threads fun u p => p.Dying ↔ _).mpr ⟨?_, fun u hu => ?_⟩
    · have hnone : ¬ ∃ m ∈ s.made, m.thread = t ∧ m.Fatal := fun hm => by
        have hdying := (h.fatal t).mpr hm
        rw [ht] at hdying
        exact hdying
      rw [fatal_append, place_dying, or_iff_right hnone]
      exact (and_iff_right rfl).symm
    · rw [fatal_append, or_iff_left fun hm => hu hm.1.symm]
      exact h.fatal u
  ends := fun he => (h.ends he).imp fun m hm => ⟨List.mem_append_left _ hm.1, hm.2⟩

/-- A thread goes on with what it is in, or ends it. -/
theorem LogBooks.goes {s s' : Logging} (h : LogBooks s) {t : Nat} {p : LogPlace} (hthreads : s'.threads = Function.update s.threads t p)
    (hmade : s'.made = s.made) (hended : s'.ended = s.ended) (es : List LogEntry) (hlog : s'.log = s.log ++ es)
    (hes : ∀ e ∈ es, e.thread = t) (hp : (s.threads t).pending = es.map (·.done) ++ p.pending)
    (hdying : p.Dying ↔ (s.threads t).Dying) : LogBooks s' where
  turns := by
    rw [hthreads, hmade, hlog]
    refine (Function.forall_update_iff s.threads fun u p => _ = _ ++ p.pending).mpr ⟨?_, fun u hu => ?_⟩
    · have hall : es.filter (·.thread = t) = es := List.filter_eq_self.mpr fun e he => decide_eq_true (hes e he)
      rw [h.turns t, hp, List.filter_append, hall, List.map_append, List.append_assoc]
    · have hnone : es.filter (·.thread = u) = [] := by
        refine List.filter_eq_nil_iff.mpr fun e he hthread => hu ?_
        rw [← of_decide_eq_true hthread, hes e he]
      rw [h.turns u, List.filter_append, hnone, List.append_nil]
  levels := hmade ▸ h.levels
  fatal := by
    rw [hthreads, hmade]
    exact (Function.forall_update_iff s.threads fun u p => p.Dying ↔ _).mpr ⟨hdying.trans (h.fatal t), fun u _ => h.fatal u⟩
  ends := by
    rw [hended, hmade]
    exact h.ends

theorem logs_calls {s : Logging} (h : Logs s) (t : Nat) (c : LogCall) : Logs (s.calls t c) := by
  by_cases ht : s.threads t = .idle
  · have hout := place_outside s.level c
    rw [calls_idle ht]
    refine ⟨h.excludes.stay ?_, h.outside, ?_, ?_, ?_⟩
    · rw [ht]
      exact iff_of_false hout id
    · exact (Function.forall_update_iff s.threads (InSection s.log s.toLogState)).mpr ⟨inSection_outside hout, fun u _ => h.inside u⟩
    · exact (congrArg c.levelAfter h.level).trans (levelAfter_append s.made ⟨t, c, s.level⟩).symm
    · exact h.books.calls ht c h.level
  · unfold Logging.calls
    split
    · contradiction
    · exact h

theorem logs_locks {s : Logging} (h : Logs s) (t : Nat) (time : Bytes) : Logs (s.locks t time) := by
  unfold Logging.locks
  split
  · rename_i hfree
    split
    · rename_i c ht
      have hflushed := h.outside hfree
      have hex : Lock.Excludes LogPlace.Inside none s.threads := hfree ▸ h.excludes
      have hbooks : LogBooks { s.go t (.inside c time (c.critical t time)) with holder := some t } :=
        h.books.goes rfl rfl rfl [] (List.append_nil _).symm (fun _ he => absurd he List.not_mem_nil) (congrArg LogPlace.pending ht)
          (ht ▸ inside_dying c time _)
      refine ⟨hex.take trivial, fun he => (Option.some_ne_none t he).elim, ?_, h.level, hbooks⟩
      · refine (Function.forall_update_iff s.threads (InSection s.log s.toLogState)).mpr ⟨?_, fun u _ => h.inside u⟩
        rintro d time' rest ⟨⟩
        exact ⟨s.toLogState, hflushed, Prog.within_enter .., critical_midway hflushed t time c⟩
    · exact h
  · exact h

theorem after_pending (c : LogSection) : c.after.pending = [] := by
  cases c with
  | setOutput output => rfl
  | line level message => cases level <;> rfl

theorem after_outside (c : LogSection) : ¬ c.after.Inside := by
  cases c with
  | setOutput output => exact id
  | line level message => cases level <;> exact id

theorem after_dying (c : LogSection) : c.after.Dying ↔ (LogPlace.locking c).Dying := by
  cases c with
  | setOutput output => rfl
  | line level message => cases level <;> rfl

/-- An access of the thread that has the mutex. -/
theorem logs_access {s : Logging} (h : Logs s) {t : Nat} {c : LogSection} {time : Bytes} {write : LogState → LogState}
    {next : LogState → Prog LogState Unit} (ht : s.threads t = .inside c time (.act write next)) :
    Logs { s.go t (.inside c time (next s.toLogState)) with toLogState := write s.toLogState } := by
  have hholder : s.holder = some t := (h.excludes t).mp (ht ▸ trivial)
  obtain ⟨found, hfound, hwithin, halways⟩ := h.inside t c time _ ht
  have hbooks : LogBooks { s.go t (.inside c time (next s.toLogState)) with toLogState := write s.toLogState } :=
    h.books.goes rfl rfl rfl [] (List.append_nil _).symm (fun _ he => absurd he List.not_mem_nil) (congrArg LogPlace.pending ht)
      (ht ▸ (inside_dying c time _).trans (inside_dying c time _).symm)
  refine ⟨h.excludes.stay (ht ▸ Iff.rfl), fun hfree => ?_, ?_, h.level, hbooks⟩
  · rw [show s.holder = none from hfree] at hholder
    cases hholder
  · refine (Function.forall_update_iff s.threads (InSection s.log (write s.toLogState))).mpr
      ⟨?_, fun u hu => inSection_outside fun hin => ?_⟩
    · rintro d time' rest ⟨⟩
      exact ⟨found, hfound, Prog.within_access hwithin, Prog.always_access halways⟩
    · rw [(h.excludes u).mp hin] at hholder
      exact hu (Option.some.inj hholder)

/-- The mutex is given back. -/
theorem logs_unlock {s : Logging} (h : Logs s) {t : Nat} {c : LogSection} {time : Bytes} (ht : s.threads t = .inside c time (.ret ())) :
    Logs { s.go t c.after with holder := none, log := s.log ++ [⟨t, time, c⟩] } := by
  have hholder : s.holder = some t := (h.excludes t).mp (ht ▸ trivial)
  have hex : Lock.Excludes LogPlace.Inside (some t) s.threads := hholder ▸ h.excludes
  obtain ⟨found, hfound, hwithin, -⟩ := h.inside t c time _ ht
  have hflushed := critical_flushed hfound t time c
  rw [Prog.within_done hwithin] at hflushed
  have hpending : (s.threads t).pending = [c] ++ c.after.pending := by
    rw [ht, after_pending]
    rfl
  have hbooks : LogBooks { s.go t c.after with holder := none, log := s.log ++ [⟨t, time, c⟩] } :=
    h.books.goes rfl rfl rfl [⟨t, time, c⟩] rfl (fun e he => List.mem_singleton.mp he ▸ rfl) hpending
      (ht ▸ (after_dying c).trans (inside_dying c time _).symm)
  refine ⟨hex.release (after_outside c), fun _ => hflushed, ?_, h.level, hbooks⟩
  refine (Function.forall_update_iff s.threads (InSection _ s.toLogState)).mpr ⟨inSection_outside (after_outside c), fun u hu => ?_⟩
  refine inSection_outside fun hin => ?_
  rw [(h.excludes u).mp hin] at hholder
  exact hu (Option.some.inj hholder)

theorem logs_goesOn {s : Logging} (h : Logs s) (t : Nat) : Logs (s.goesOn t) := by
  unfold Logging.goesOn
  split
  · rename_i ht
    exact logs_access h ht
  · rename_i ht
    exact logs_unlock h ht
  · rename_i ht
    have hdying : (s.threads t).Dying := ht ▸ trivial
    obtain ⟨m, hm, -, hfatal⟩ := (h.books.fatal t).mp hdying
    exact ⟨h.excludes, h.outside, h.inside, h.level, h.books.turns, h.books.levels, h.books.fatal, fun _ => ⟨m, hm, hfatal⟩⟩
  · exact h

theorem logs_step (s : Logging) (e : LogEvent) (h : Logs s) : Logs (loggingStep s e) := by
  unfold loggingStep
  split
  · exact h
  · cases e with
    | call t c => exact logs_calls h t c
    | lock t time => exact logs_locks h t time
    | goOn t => exact logs_goesOn h t

theorem logs_start : Logs Logging.start where
  excludes := fun _ => iff_of_false id (Option.some_ne_none _).symm
  outside := fun _ => ⟨rfl, rfl, fun _ => rfl, fun _ => rfl⟩
  inside := fun _ _ _ _ hp => by cases hp
  level := rfl
  books :=
    { turns := fun _ => rfl
      levels := fun ms m hms => absurd (List.prefix_nil.mp hms) (List.append_ne_nil_of_right_ne_nil ms (List.cons_ne_nil m []))
      fatal := fun _ => iff_of_false id fun hm => List.not_mem_nil hm.choose_spec.1
      ends := fun he => by cases he }

/-- Whatever the order of the steps. -/
theorem lines_are_whole (es : List LogEvent) : WholeLines (Run.run loggingStep Logging.start es) :=
  (Run.run_inv logs_step es logs_start).wholeLines

/-- Thread 1 waits for the line of thread 2, and has got as far as the header of its own. -/
example : ((Run.run loggingStep Logging.start
    ([.call 1 (.log .info [65]), .call 3 (.log .debug [66]), .call 2 (.log .error [67]), .lock 2 []] ++
      List.replicate 11 (.goOn 2) ++ [.lock 1 []] ++ List.replicate 3 (.goOn 1))).files STDOUT).written =
    logHeader [] .error 2 ++ [67, 10] ++ logHeader [] .info 1 := by
  decide +kernel

end RabbitMQ.Core
