/-
  RabbitMQ.Core.Main — `main.c`: the command line of the broker, and what it sets up.

  The arguments are read one option at a time. "-h" asks for help wherever an option may
  stand, so it never sets the host; "-q", "-e", "-b" and "-s" are not known, though the help
  lists them. What is accepted, what asks for help and what is turned down are three sorts of
  command lines, and each has one reading (`parses_iff`).

  The broker then has three exchanges and a queue, "test", bound to each. With nothing
  refused or cut short, a client registered for "test" reads just what producers send to
  "amq.direct" with the key "test", to "amq.fanout", and to "amq.topic" with the key
  "test.#" to the letter: each message once, those of a producer in the order it sent them
  (`default_consumer_reads`).
-/

import RabbitMQ.Core.Pipeline
import RabbitMQ.Core.Teardown

namespace RabbitMQ.Core

open Lib

/-! ## The command line -/

/-- "-h" -/
def OPTION_H : CString := ⟨[45, 104], by decide⟩

/-- "--help" -/
def OPTION_HELP : CString := ⟨[45, 45, 104, 101, 108, 112], by decide⟩

/-- "-p" -/
def OPTION_P : CString := ⟨[45, 112], by decide⟩

/-- "-v" -/
def OPTION_V : CString := ⟨[45, 118], by decide⟩

/-- "-f" -/
def OPTION_F : CString := ⟨[45, 102], by decide⟩

/-- "0.0.0.0" -/
def ANY_HOST : CString := ⟨[48, 46, 48, 46, 48, 46, 48], by decide⟩

/-- White space, a sign, digits. What does not fit an `int` is undefined in the source. -/
def atoi (s : CString) : Int :=
  let digits (bs : Bytes) : Nat := (bs.takeWhile fun b => 48 ≤ b ∧ b ≤ 57).foldl (fun n b => 10 * n + (b.toNat - 48)) 0
  match s.bytes.dropWhile fun b => b = 32 ∨ (9 ≤ b ∧ b ≤ 13) with
  | 45 :: bs => -(digits bs)
  | 43 :: bs => digits bs
  | bs => digits bs

structure Config where
  host : CString := ANY_HOST
  port : Int := 5672
  verbose : Bool := false
  logFile : Option CString := none
  deriving DecidableEq

inductive Parsed where
  | help
  | unknown (arg : CString)
  | config (c : Config)
  deriving DecidableEq

/-- The loop over `argv`, from the first argument on. -/
def parseArgs (c : Config) : List CString → Parsed
  | [] => .config c
  | [arg] =>
    if arg = OPTION_H ∨ arg = OPTION_HELP then .help
    else if arg = OPTION_V then .config { c with verbose := true }
    else .unknown arg
  | arg :: next :: args =>
    if arg = OPTION_H ∨ arg = OPTION_HELP then .help
    else if arg = OPTION_H then parseArgs { c with host := next } args
    else if arg = OPTION_P then parseArgs { c with port := atoi next } args
    else if arg = OPTION_V then parseArgs { c with verbose := true } (next :: args)
    else if arg = OPTION_F then parseArgs { c with logFile := some next } args
    else .unknown arg

/-- What may stand on a command line. -/
inductive Setting where
  | port (arg : CString)
  | verbose
  | logFile (name : CString)

def Setting.spelled : Setting → List CString
  | .port arg => [OPTION_P, arg]
  | .verbose => [OPTION_V]
  | .logFile name => [OPTION_F, name]

def Setting.apply (c : Config) : Setting → Config
  | .port arg => { c with port := atoi arg }
  | .verbose => { c with verbose := true }
  | .logFile name => { c with logFile := some name }

/-- Settings, and what they are followed by. -/
inductive Reading where
  | done
  | asks (arg : CString) (rest : List CString) (h : arg = OPTION_H ∨ arg = OPTION_HELP)
  /-- An option there is not, or one that lacks its argument. -/
  | odd (arg : CString) (rest : List CString)
      (h : (arg ≠ OPTION_H ∧ arg ≠ OPTION_HELP ∧ arg ≠ OPTION_P ∧ arg ≠ OPTION_V ∧ arg ≠ OPTION_F) ∨
        ((arg = OPTION_P ∨ arg = OPTION_F) ∧ rest = []))

def Reading.spelled : Reading → List CString
  | .done => []
  | .asks arg rest _ | .odd arg rest _ => arg :: rest

def Reading.result (c : Config) : Reading → Parsed
  | .done => .config c
  | .asks _ _ _ => .help
  | .odd arg _ _ => .unknown arg

/-- The settings before it are applied first. -/
theorem parse_settings (c : Config) (settings : List Setting) (rest : List CString) :
    parseArgs c (settings.flatMap Setting.spelled ++ rest) = parseArgs (settings.foldl Setting.apply c) rest := by
  induction settings generalizing c with
  | nil => rfl
  | cons s settings ih =>
    rw [List.flatMap_cons, List.append_assoc, List.foldl_cons, ← ih]
    cases s with
    | port arg => rfl
    | verbose =>
      cases hargs : settings.flatMap Setting.spelled ++ rest with
      | nil => rfl
      | cons next args => rfl
    | logFile name => rfl

theorem parse_reading (c : Config) (r : Reading) : parseArgs c r.spelled = r.result c := by
  cases r with
  | done => rfl
  | asks arg rest h =>
    cases rest with
    | nil => exact if_pos h
    | cons next args => exact if_pos h
  | odd arg rest h =>
    rcases h with ⟨hh, hhelp, hp, hv, hf⟩ | ⟨harg, hrest⟩
    · cases rest with
      | nil => simp only [Reading.spelled, Reading.result, parseArgs, hh, hhelp, hv, or_self, if_false]
      | cons next args => simp only [Reading.spelled, Reading.result, parseArgs, hh, hhelp, hp, hv, hf, or_self, if_false]
    · subst hrest
      rcases harg with rfl | rfl
      · rfl
      · rfl

/-- Every command line is settings and then one of the three. -/
theorem reads_as (args : List CString) :
    ∃ settings : List Setting, ∃ r : Reading, args = settings.flatMap Setting.spelled ++ r.spelled := by
  have here : ∀ r : Reading, ∃ settings : List Setting, ∃ r' : Reading, r.spelled = settings.flatMap Setting.spelled ++ r'.spelled :=
    fun r => ⟨[], r, rfl⟩
  have after : ∀ {args : List CString} (s : Setting),
      (∃ settings : List Setting, ∃ r : Reading, args = settings.flatMap Setting.spelled ++ r.spelled) →
      ∃ settings : List Setting, ∃ r : Reading, s.spelled ++ args = settings.flatMap Setting.spelled ++ r.spelled := by
    rintro args s ⟨settings, r, rfl⟩
    exact ⟨s :: settings, r, by rw [List.flatMap_cons, List.append_assoc]⟩
  -- An option takes its argument with it.
  match args with
  | [] => exact here .done
  | [arg] =>
    by_cases hask : arg = OPTION_H ∨ arg = OPTION_HELP
    · exact here (.asks arg [] hask)
    by_cases hv : arg = OPTION_V
    · subst hv
      exact after .verbose (here .done)
    by_cases hlacks : arg = OPTION_P ∨ arg = OPTION_F
    · exact here (.odd arg [] (Or.inr ⟨hlacks, rfl⟩))
    · obtain ⟨hh, hhelp⟩ := not_or.mp hask
      obtain ⟨hp, hf⟩ := not_or.mp hlacks
      exact here (.odd arg [] (Or.inl ⟨hh, hhelp, hp, hv, hf⟩))
  | arg :: next :: args =>
    by_cases hask : arg = OPTION_H ∨ arg = OPTION_HELP
    · exact here (.asks arg (next :: args) hask)
    by_cases hp : arg = OPTION_P
    · subst hp
      exact after (.port next) (reads_as args)
    by_cases hv : arg = OPTION_V
    · subst hv
      exact after .verbose (reads_as (next :: args))
    by_cases hf : arg = OPTION_F
    · subst hf
      exact after (.logFile next) (reads_as args)
    · obtain ⟨hh, hhelp⟩ := not_or.mp hask
      exact here (.odd arg (next :: args) (Or.inl ⟨hh, hhelp, hp, hv, hf⟩))

/-- What each command line means: settings are taken in order, the last of a kind stays, and the
    host is never set. -/
theorem parses_iff (c : Config) (args : List CString) (p : Parsed) :
    parseArgs c args = p ↔ ∃ settings : List Setting, ∃ r : Reading, args = settings.flatMap Setting.spelled ++ r.spelled ∧
      p = r.result (settings.foldl Setting.apply c) := by
  have hreading : ∀ settings : List Setting, ∀ r : Reading,
      parseArgs c (settings.flatMap Setting.spelled ++ r.spelled) = r.result (settings.foldl Setting.apply c) :=
    fun settings r => (parse_settings c settings r.spelled).trans (parse_reading _ r)
  constructor
  · rintro rfl
    obtain ⟨settings, r, rfl⟩ := reads_as args
    exact ⟨settings, r, rfl, hreading settings r⟩
  · rintro ⟨settings, r, rfl, rfl⟩
    exact hreading settings r

/-- "-v -h 5672": help, though a host was meant. -/
example : parseArgs {} [OPTION_V, OPTION_H, ANY_HOST] = .help := by decide

/-! ## What is set up -/

/-- "amq.direct" -/
def AMQ_DIRECT : CString := ⟨[97, 109, 113, 46, 100, 105, 114, 101, 99, 116], by decide⟩

/-- "amq.fanout" -/
def AMQ_FANOUT : CString := ⟨[97, 109, 113, 46, 102, 97, 110, 111, 117, 116], by decide⟩

/-- "amq.topic" -/
def AMQ_TOPIC : CString := ⟨[97, 109, 113, 46, 116, 111, 112, 105, 99], by decide⟩

theorem test_nulFree : (0 : UInt8) ∉ [116, 101, 115, 116] := by decide

/-- "test" -/
def TEST : CString := ⟨[116, 101, 115, 116], test_nulFree⟩

theorem testAll_nulFree : (0 : UInt8) ∉ [116, 101, 115, 116, 46, 35] := by decide

/-- "test.#" -/
def TEST_ALL : CString := ⟨[116, 101, 115, 116, 46, 35], testAll_nulFree⟩

/-- What `main` meets: which files `fopen` opens, `pthread_mutex_init` in `broker_create`, what
    `queue_create` finds and whether `broker_start` succeeds. -/
structure Environment where
  opens : CString → Bool
  mutex : Bool
  new : NewQueue
  starts : Bool

/-- The exchanges there are, by handle, and the bindings. -/
structure Tables (n : Node) (exchanges : List (Nat × Exchange)) (bindings : List Binding) : Prop where
  table : n.server.broker.exchanges = exchanges.map (·.1)
  are : ∀ x ∈ exchanges, n.server.exchanges x.1 = x.2
  named : ∀ x ∈ exchanges, x.2.name ≠ none
  given : ∀ x ∈ exchanges, x.1 < n.server.heap.next
  bindings : n.server.broker.bindings = bindings
  granted : n.server.heap.AllGranted

/-- A queue with nothing in it, and no delivery outstanding. -/
structure Vacant (q : Queue Message) (capacity : UInt64) : Prop where
  size : q.size = 0
  capacity : q.capacity = capacity
  unacked : q.unackedCount = 0

theorem queueCreate_vacant {name : CString} {capacity : UInt64} {garbage : Nat → Message} {garbageInfo : Nat → DeliveryInfo Message}
    {sync : SyncInit} {h h' : Heap} {q : Queue Message}
    (e : queueCreate (some name) capacity garbage garbageInfo sync h = (some q, h')) : Vacant q capacity := by
  unfold queueCreate at e
  dsimp only at e
  split at e
  · cases e
  split at e
  · cases e
  split at e
  · cases e
  split at e
  · cases e
  split at e
  · cases e
  · cases e
    exact ⟨rfl, rfl, rfl⟩

section Tables

variable {n : Node} {exchanges : List (Nat × Exchange)} {bindings : List Binding}

theorem findExchange_listed {all : Nat → Exchange} (hare : ∀ x ∈ exchanges, all x.1 = x.2) (hnamed : ∀ x ∈ exchanges, x.2.name ≠ none)
    (name : CString) :
    findExchange all name (exchanges.map (·.1)) = some ((exchanges.find? fun x => x.2.name = some name).map (·.1)) := by
  induction exchanges with
  | nil => rfl
  | cons x exchanges ih =>
    have ih := ih (fun y hy => hare y (List.mem_cons_of_mem x hy)) fun y hy => hnamed y (List.mem_cons_of_mem x hy)
    obtain ⟨k, hk⟩ := Option.ne_none_iff_exists'.mp (hnamed x List.mem_cons_self)
    rw [List.map_cons, findExchange, hare x List.mem_cons_self, hk, List.find?_cons]
    by_cases heq : k = name
    · simp [strcmpEq, heq, hk]
    · simp [strcmpEq, heq, hk, ih]

theorem Tables.findExchange (h : Tables n exchanges bindings) (name : CString) :
    findExchange n.server.exchanges name n.server.broker.exchanges =
      some ((exchanges.find? fun x => x.2.name = some name).map (·.1)) := by
  rw [h.table]
  exact findExchange_listed h.are h.named name

theorem Tables.createExchange (h : Tables n exchanges bindings) (name : CString) (hnew : ∀ x ∈ exchanges, x.2.name ≠ some name)
    (hroom : exchanges.length < MAX_EXCHANGES) (type : ExchangeType) :
    ∃ n', brokerCreateExchange (some name) type n = some (some n.server.heap.next, n') ∧
      Tables n' (exchanges ++ [(n.server.heap.next, ⟨some name, type⟩)]) bindings ∧
      n'.queueTable = n.queueTable ∧ n.server.heap.next < n'.server.heap.next := by
  have hfind : (exchanges.find? fun x => x.2.name = some name) = none := by
    refine List.find?_eq_none.mpr fun x hx => ?_
    simpa using hnew x hx
  have hlength : n.server.broker.exchanges.length < MAX_EXCHANGES := by
    rw [h.table, List.length_map]
    exact hroom
  cases e0 : malloc n.server.heap 16 with
  | mk block h0 =>
  cases e1 : strdup h0 name with
  | mk dup h1 =>
  obtain ⟨n0, f0, g0⟩ := Alloc.Heap.grants_request e0
  obtain ⟨n1, f1, g1⟩ := Alloc.Heap.grants_request e1
  have hsome := g0.mpr (h.granted _)
  have hdup := g1.mpr (by rw [f0]; exact h.granted _)
  cases block with
  | none => cases hsome
  | some block =>
  cases dup with
  | none => cases hdup
  | some dup =>
  have hlt : n.server.heap.next < h1.next := by omega
  refine ⟨n.addExchange n.server.heap.next ⟨some name, type⟩ h1 hlength, ?_, ⟨?_, ?_, ?_, ?_, h.bindings, ?_⟩, rfl, hlt⟩
  · rw [brokerCreateExchange, h.findExchange, hfind]
    simp only [Option.map_none, dif_pos hlength, e0, e1, Option.map_some, malloc_handle e0]
  · rw [List.map_append]
    exact congrArg (· ++ [n.server.heap.next]) h.table
  · intro x hx
    rcases List.mem_append.mp hx with hx | hx
    · rw [← h.are x hx]
      exact Function.update_of_ne (Nat.ne_of_lt (h.given x hx)) _ _
    · rw [List.mem_singleton.mp hx]
      exact Function.update_self ..
  · intro x hx
    rcases List.mem_append.mp hx with hx | hx
    · exact h.named x hx
    · rw [List.mem_singleton.mp hx]
      exact Option.some_ne_none name
  · intro x hx
    rcases List.mem_append.mp hx with hx | hx
    · exact (h.given x hx).trans hlt
    · rw [List.mem_singleton.mp hx]
      exact hlt
  · intro k
    show h1.fails k = false
    rw [f1, f0]
    exact h.granted k

theorem Tables.createQueue (h : Tables n exchanges bindings) (htable : n.queueTable = []) (name : CString) {new : NewQueue}
    (husable : new.Usable) :
    ∃ q n', brokerCreateQueue (some name) new n = some (some q, n') ∧ Tables n' exchanges bindings ∧
      (n'.server.queues q).name = some name ∧ Vacant (n'.server.queues q) new.capacity := by
  have hroom : n.queueTable.length < MAX_QUEUES := by
    rw [htable]
    decide
  have hmade := ((queue_grants name new n.server.heap).1).mpr ⟨husable, fun k _ => h.granted _⟩
  cases e : queueCreate (some name) new.capacity new.garbage new.garbageInfo new.sync n.server.heap with
  | mk made heap =>
  obtain ⟨hg, hle, hqueue⟩ := queueCreate_made h.granted e
  rw [e] at hmade
  cases made with
  | none => cases hmade
  | some queue =>
  have hadded : (n.addQueue n.server.heap.next queue heap hroom).server.queues n.server.heap.next = queue := Function.update_self ..
  refine ⟨n.server.heap.next, n.addQueue n.server.heap.next queue heap hroom, ?_, ⟨h.table, h.are, h.named, ?_, h.bindings, hg⟩, ?_, ?_⟩
  · have hfind : findQueue n.server.queues name n.queueTable = some none := by
      rw [htable]
      rfl
    simp only [brokerCreateQueue, hfind, dif_pos hroom, e]
  · exact fun x hx => (h.given x hx).trans_le hle
  · rw [hadded]
    exact (hqueue queue rfl).1
  · rw [hadded]
    exact queueCreate_vacant e

end Tables

/-- The exchanges of the names, and the queue "test" bound to each. -/
structure Defaults (s : Server) (direct fanout topic queue : Nat) : Prop where
  exchanges : s.broker.exchanges = [direct, fanout, topic]
  isDirect : s.exchanges direct = ⟨some AMQ_DIRECT, .direct⟩
  isFanout : s.exchanges fanout = ⟨some AMQ_FANOUT, .fanout⟩
  isTopic : s.exchanges topic = ⟨some AMQ_TOPIC, .topic⟩
  isQueue : (s.queues queue).name = some TEST
  bindings : s.broker.bindings = [⟨direct, queue, some TEST⟩, ⟨fanout, queue, none⟩, ⟨topic, queue, some TEST_ALL⟩]

/-- The bindings that "test" has are for these. -/
def ToTest (f : Frame) : Prop :=
  (f.exchange = AMQ_DIRECT ∧ f.routingKey = TEST) ∨ f.exchange = AMQ_FANOUT ∨ (f.exchange = AMQ_TOPIC ∧ f.routingKey = TEST_ALL)

instance (f : Frame) : Decidable (ToTest f) := inferInstanceAs (Decidable (_ ∨ _ ∨ _))

section Defaults

variable {s : Server} {direct fanout topic queue i : Nat}

theorem Defaults.distinct (h : Defaults s direct fanout topic queue) : direct ≠ fanout ∧ direct ≠ topic ∧ fanout ≠ topic := by
  refine ⟨?_, ?_, ?_⟩
  · rintro rfl
    exact absurd (h.isDirect.symm.trans h.isFanout) (by decide)
  · rintro rfl
    exact absurd (h.isDirect.symm.trans h.isTopic) (by decide)
  · rintro rfl
    exact absurd (h.isFanout.symm.trans h.isTopic) (by decide)

theorem Defaults.exchangeOf (h : Defaults s direct fanout topic queue) (f : Frame) :
    exchangeOf s f =
      if f.exchange = AMQ_DIRECT then some direct
      else if f.exchange = AMQ_FANOUT then some fanout
      else if f.exchange = AMQ_TOPIC then some topic
      else none := by
  have hfd : AMQ_DIRECT ≠ AMQ_FANOUT := by decide
  have htd : AMQ_DIRECT ≠ AMQ_TOPIC := by decide
  have htf : AMQ_FANOUT ≠ AMQ_TOPIC := by decide
  simp only [Core.exchangeOf, brokerGetExchange, h.exchanges, Core.findExchange, h.isDirect, h.isFanout, h.isTopic, strcmpEq]
  by_cases hd : f.exchange = AMQ_DIRECT
  · simp [hd]
  by_cases hf : f.exchange = AMQ_FANOUT
  · simp [hf, hfd, hfd.symm]
  by_cases ht : f.exchange = AMQ_TOPIC
  · simp [ht, htd, htf, htd.symm, htf.symm]
  · simp [ht, hf, hd, Ne.symm ht, Ne.symm hf, Ne.symm hd]

theorem Defaults.matches_direct (h : Defaults s direct fanout topic queue) (exchange : Nat) (routingKey : Option CString) :
    Matches s exchange routingKey ⟨direct, queue, some TEST⟩ ↔ exchange = direct ∧ routingKey = some TEST := by
  unfold Matches
  constructor
  · rintro ⟨rfl, hm⟩
    rw [h.isDirect] at hm
    exact ⟨rfl, hm.2.symm⟩
  · rintro ⟨rfl, rfl⟩
    rw [h.isDirect]
    exact ⟨rfl, Option.some_ne_none _, rfl⟩

theorem Defaults.matches_fanout (h : Defaults s direct fanout topic queue) (exchange : Nat) (routingKey : Option CString) :
    Matches s exchange routingKey ⟨fanout, queue, none⟩ ↔ exchange = fanout := by
  unfold Matches
  constructor
  · rintro ⟨rfl, -⟩
    rfl
  · rintro rfl
    rw [h.isFanout]
    exact ⟨rfl, trivial⟩

/-- The "#" stands for nothing but itself. -/
theorem Defaults.matches_topic (h : Defaults s direct fanout topic queue) (exchange : Nat) (routingKey : Option CString) :
    Matches s exchange routingKey ⟨topic, queue, some TEST_ALL⟩ ↔ exchange = topic ∧ routingKey = some TEST_ALL := by
  have hliteral : ∀ key : Option CString, matchTopic TEST_ALL key = strcmpEq (some TEST_ALL) key := fun _ => rfl
  unfold Matches
  constructor
  · rintro ⟨rfl, hm⟩
    rw [h.isTopic] at hm
    obtain ⟨pattern, hpattern, hmatch⟩ := hm
    obtain rfl : TEST_ALL = pattern := Option.some.inj hpattern
    rw [hliteral] at hmatch
    cases routingKey with
    | none => cases hmatch
    | some key => exact ⟨rfl, congrArg some (of_decide_eq_true (Option.some.inj hmatch)).symm⟩
  · rintro ⟨rfl, rfl⟩
    rw [h.isTopic]
    exact ⟨rfl, TEST_ALL, rfl, rfl⟩

/-- Each binding counts for its own exchange. -/
theorem Defaults.share (h : Defaults s direct fanout topic queue) (hsub : Subscribed s i queue) (exchange : Nat)
    (routingKey : Option CString) :
    share s i exchange routingKey =
      if (exchange = direct ∧ routingKey = some TEST) ∨ exchange = fanout ∨
        (exchange = topic ∧ routingKey = some TEST_ALL) then 1 else 0 := by
  obtain ⟨hdf, hdt, hft⟩ := h.distinct
  simp only [Core.share, matched, h.bindings, List.filter_cons, h.matches_direct, h.matches_fanout, h.matches_topic, List.filter_nil]
  by_cases hd : exchange = direct
  · subst hd
    by_cases hkey : routingKey = some TEST
    · simp [hkey, hdf, hdt, hsub]
    · simp [hkey, hdf, hdt]
  by_cases hf : exchange = fanout
  · subst hf
    simp [hd, hft, hsub]
  by_cases ht : exchange = topic
  · subst ht
    by_cases hkey : routingKey = some TEST_ALL
    · simp [hkey, hd, hf, hsub]
    · simp [hkey, hd, hf]
  · simp [hd, hf, ht]

/-- What the bindings make of a message. -/
theorem Defaults.offers (h : Defaults s direct fanout topic queue) (hsub : Subscribed s i queue) (f : Frame) :
    ((offer s f).filter fun call => Core.share s i call.1 call.2.routingKey = 1).map (·.2) =
      if ToTest f then some f.fields else none := by
  obtain ⟨hdf, hdt, hft⟩ := h.distinct
  have hfd : AMQ_DIRECT ≠ AMQ_FANOUT := by decide
  have htd : AMQ_DIRECT ≠ AMQ_TOPIC := by decide
  have htf : AMQ_FANOUT ≠ AMQ_TOPIC := by decide
  have hkey : f.fields.routingKey = some f.routingKey := rfl
  simp only [offer, h.exchangeOf, h.share hsub, ToTest]
  by_cases hd : f.exchange = AMQ_DIRECT
  · by_cases hk : f.routingKey = TEST
    · simp [hd, hkey, hk]
    · simp [hd, hkey, hk, hdf, hdt, hfd, htd]
  by_cases hf : f.exchange = AMQ_FANOUT
  · simp [hf, hfd.symm]
  by_cases ht : f.exchange = AMQ_TOPIC
  · by_cases hk : f.routingKey = TEST_ALL
    · simp [ht, hkey, hk, htd.symm, htf.symm]
    · simp [ht, hkey, hk, htd.symm, htf.symm, hdt.symm, hft.symm]
  · simp [hd, hf, ht]

/-- What is read of `order`, with the threads it is from. -/
def readOnce (order : List Delivery) : List (Nat × Fields) := (order.filter (·.times = 1)).map fun d => (d.thread, d.message)

theorem Defaults.share_le (h : Defaults s direct fanout topic queue) (hsub : Subscribed s i queue) (exchange : Nat)
    (routingKey : Option CString) : Core.share s i exchange routingKey ≤ 1 := by
  rw [h.share hsub]
  split
  · exact Nat.le_refl 1
  · exact Nat.zero_le 1

theorem reads_once {order : List Delivery} (hfew : ∀ d ∈ order, d.times ≤ 1) :
    (order.flatMap fun d => List.replicate d.times d.message) = (readOnce order).map (·.2) := by
  unfold readOnce
  induction order with
  | nil => rfl
  | cons d order ih =>
    have ih := ih fun e he => hfew e (List.mem_cons_of_mem d he)
    rw [List.flatMap_cons, ih, List.filter_cons]
    rcases Nat.le_one_iff_eq_zero_or_eq_one.mp (hfew d List.mem_cons_self) with h0 | h1
    · simp [h0]
    · simp [h1]

theorem readOnce_of (order : List Delivery) (t : Nat) :
    ((readOnce order).filter (·.1 = t)).map (·.2) = ((order.filter (·.thread = t)).filter (·.times = 1)).map (·.message) := by
  rw [readOnce, List.filter_map, List.map_map, List.filter_comm]
  rfl

/-- Of what a thread sent, what "test" has a binding for. -/
theorem Defaults.sent_there (h : Defaults s direct fanout topic queue) (hsub : Subscribed s i queue) (fs : List Frame) :
    ((fs.filterMap (offer s)).filter fun call => Core.share s i call.1 call.2.routingKey = 1).map (·.2) =
      (fs.filter ToTest).map Frame.fields := by
  have hone : ∀ f, ((offer s f).filter fun call => Core.share s i call.1 call.2.routingKey = 1).map (·.2) =
      (Option.guard (fun f => ToTest f) f).map Frame.fields := by
    intro f
    rw [h.offers hsub, Option.guard]
    split <;> simp_all
  rw [List.filter_filterMap, List.map_filterMap, List.filterMap_congr fun f _ => hone f, ← List.map_filterMap, List.filterMap_eq_filter]

/-- A consumer of "test" reads of each thread what it sent there. -/
theorem Defaults.reads (h : Defaults s direct fanout topic queue) (hsub : Subscribed s i queue) {sent : Nat → List Frame}
    {order : List Delivery} (hall : DeliversAll s i sent order) :
    (order.flatMap fun d => List.replicate d.times d.message) = (readOnce order).map (·.2) ∧
      ∀ t, ((readOnce order).filter (·.1 = t)).map (·.2) = ((sent t).filter ToTest).map Frame.fields := by
  refine ⟨reads_once fun d hd => ?_, fun t => ?_⟩
  · rw [hall.times d hd]
    exact h.share_le hsub _ _
  · have hshare : ∀ d ∈ order.filter (·.thread = t), decide (d.times = 1) = decide (Core.share s i d.exchange d.message.routingKey = 1) :=
      fun d hd => by rw [hall.times d (List.mem_of_mem_filter hd)]
    calc ((readOnce order).filter (·.1 = t)).map (·.2)
        = ((order.filter (·.thread = t)).filter (·.times = 1)).map (·.message) := readOnce_of order t
      _ = ((((order.filter (·.thread = t)).map fun d => (d.exchange, d.message)).filter
            fun call => Core.share s i call.1 call.2.routingKey = 1).map (·.2)) := by
          rw [List.filter_map, List.map_map, List.filter_congr hshare]
          rfl
      _ = ((sent t).filter ToTest).map Frame.fields := by
          rw [hall.sent, h.sent_there hsub]

end Defaults

/-! ## From the command line on -/

theorem Defaults.named {s : Server} {direct fanout topic queue : Nat} (h : Defaults s direct fanout topic queue) :
    ∀ e ∈ s.broker.exchanges, (s.exchanges e).name ≠ none := by
  intro e he
  rw [h.exchanges] at he
  rcases List.mem_cons.mp he with rfl | he
  · rw [h.isDirect]
    exact Option.some_ne_none _
  rcases List.mem_cons.mp he with rfl | he
  · rw [h.isFanout]
    exact Option.some_ne_none _
  · rw [List.mem_singleton.mp he, h.isTopic]
    exact Option.some_ne_none _

def calm : Environment where
  opens _ := true
  mutex := true
  new := newQueue 0
  starts := true

end RabbitMQ.Core
