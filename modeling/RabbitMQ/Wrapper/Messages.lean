/-
  RabbitMQ.Wrapper.Messages — who frees the C message in a `rabbitmq::Message`.

  Wrappers are objects with numbers; each is made by a constructor in a place where there is
  none, moved from, assigned to, and destroyed. A handle is the address of its C message.
  Next to the wrappers a run notes the handles passed to `message_free`, and of each
  construction the handle, whether it is owned, and the tag.

  A wrapper that owns a handle is its holder in the sense of `Lib.Holders`: a constructor
  takes, a move passes, an assignment releases and passes, a destructor releases
  (`estate_step`). So handles wrapped as owned once have one owner at a time and are freed
  exactly once, the others never (`owners_are_sole`).

  The message callback breaks this rule where the handler throws: the wrapper that owns the
  handle frees it while the stack is unwound, or later if the handler has kept it, and the
  `catch` block frees it too (`freed_once_iff`, `a_throwing_consumer_frees_twice`).
-/

import RabbitMQ.Lib.Holders
import RabbitMQ.Wrapper.Client

namespace RabbitMQ.Wrapper

open Lib RabbitMQ.Core

/-! ## Wrappers -/

namespace Message

/-- The constructor that makes its own C message; `std::string`s are passed on as C strings. -/
def create (exchange routingKey : Bytes) (body : Option Bytes) (bodySize : UInt64) (heap : Heap) :
    Except String Message × Heap :=
  match messageCreate (some (CString.ofBuffer exchange)) (some (CString.ofBuffer routingKey)) body bodySize heap with
  | (none, heap) => (.error "Failed to create message", heap)
  | (some msg, heap) => (.ok ⟨some msg, true, 0⟩, heap)

/-- The move constructor: the new wrapper, and what the other becomes. -/
def move (other : Message) : Message × Message := (other, movedFrom)

/-- `operator=` on two different wrappers. -/
def moveAssign (m other : Message) (heap : Heap) : Message × Message × Heap := (other, movedFrom, m.destroy heap)

/-- The C message that the destructor frees. -/
def owns (m : Message) : Option Core.Message := if m.owned then m.msg else none

theorem destroy_eq (m : Message) (heap : Heap) : m.destroy heap = (m.owns.toList).foldl (fun heap msg => messageFree msg heap) heap := by
  obtain ⟨msg, owned, tag⟩ := m
  cases msg with
  | none => cases owned <;> rfl
  | some msg => cases owned <;> rfl

end Message

structure Wrappers where
  wrappers : Nat → Option Message
  heap : Heap
  freed : List Ptr
  /-- Handle, ownership and tag of each construction. -/
  wrapped : List (Ptr × Bool × UInt64)

inductive WrapperEvent where
  | create (k : Nat) (exchange routingKey : Bytes) (body : Option Bytes) (bodySize : UInt64)
  | wrap (k : Nat) (msg : Option Core.Message) (owned : Bool) (deliveryTag : UInt64)
  /-- `target` is constructed from `source`. -/
  | move (source target : Nat)
  | assign (source target : Nat)
  | destroy (k : Nat)

/-- Wrapper `k` constructed; an exception leaves none. -/
def construct (s : Wrappers) (k : Nat) (r : Except String Message) (heap : Heap) : Wrappers :=
  match r with
  | .error _ => { s with heap }
  | .ok m =>
    { s with
      wrappers := Function.update s.wrappers k (some m)
      heap
      wrapped := s.wrapped ++ (m.msg.map fun msg => (msg.addr, m.owned, m.deliveryTag)).toList }

/-- The handle a destructor or an assignment frees. -/
def handleOf (m : Message) : Option Ptr := m.owns.map (·.addr)

/-- An event about a wrapper that is not there, or is there already, is none. -/
def wrapperStep (s : Wrappers) : WrapperEvent → Wrappers
  | .create k exchange routingKey body bodySize =>
    match s.wrappers k with
    | some _ => s
    | none => let r := Message.create exchange routingKey body bodySize s.heap; construct s k r.1 r.2
  | .wrap k msg owned deliveryTag =>
    match s.wrappers k with
    | some _ => s
    | none => construct s k (Message.wrap msg owned deliveryTag) s.heap
  | .move source target =>
    match s.wrappers source, s.wrappers target with
    | some other, none =>
      let r := other.move
      { s with wrappers := Function.update (Function.update s.wrappers target (some r.1)) source (some r.2) }
    | _, _ => s
  | .assign source target =>
    match s.wrappers source, s.wrappers target with
    | some other, some m =>
      if target = source then s
      else
        let r := m.moveAssign other s.heap
        { s with
          wrappers := Function.update (Function.update s.wrappers target (some r.1)) source (some r.2.1)
          heap := r.2.2
          freed := s.freed ++ (handleOf m).toList }
    | _, _ => s
  | .destroy k =>
    match s.wrappers k with
    | none => s
    | some m =>
      { s with
        wrappers := Function.update s.wrappers k none
        heap := m.destroy s.heap
        freed := s.freed ++ (handleOf m).toList }

def noWrappers (heap : Heap) : Wrappers := ⟨fun _ => none, heap, [], []⟩

/-- The handles wrapped as owned so far. -/
def ownedHandles (s : Wrappers) : List Ptr := (s.wrapped.filter (·.2.1)).map (·.1)

/-- A construction that makes a handle owned is the first to. -/
def FirstOwner (s : Wrappers) (r : Except String Message) : Prop :=
  ∀ m, r = .ok m → ∀ p, handleOf m = some p → p ∉ ownedHandles s

def OwnsOnce (s : Wrappers) : WrapperEvent → Prop
  | .create k exchange routingKey body bodySize =>
    s.wrappers k = none → FirstOwner s (Message.create exchange routingKey body bodySize s.heap).1
  | .wrap k msg owned deliveryTag => s.wrappers k = none → FirstOwner s (Message.wrap msg owned deliveryTag)
  | .move _ _ | .assign _ _ | .destroy _ => True

/-- A constructor that makes its own C message meets the condition by itself, where only
    handles that exist were wrapped. -/
theorem create_first {s : Wrappers} (h : ∀ p ∈ ownedHandles s, p.request < s.heap.next) (exchange routingKey : Bytes)
    (body : Option Bytes) (bodySize : UInt64) :
    FirstOwner s (Message.create exchange routingKey body bodySize s.heap).1 := by
  intro m hm p hp hmem
  have hledger := create_ledger (some (CString.ofBuffer exchange)) (some (CString.ofBuffer routingKey)) body bodySize s.heap
  unfold Message.create at hm
  cases e : messageCreate (some (CString.ofBuffer exchange)) (some (CString.ofBuffer routingKey)) body bodySize s.heap with
  | mk made heap =>
  rw [e] at hm hledger
  cases made with
  | none => cases hm
  | some msg =>
    cases hm
    cases hp
    have hnew := (hledger.kept_range (List.mem_append_right msg.owned (List.mem_singleton.mpr rfl))).1
    have hold := h msg.addr hmem
    omega

structure SoleOwners (s : Wrappers) : Prop where
  one : ∀ i j m m' p, s.wrappers i = some m → s.wrappers j = some m' → handleOf m = some p → handleOf m' = some p → i = j
  alive : ∀ i m p, s.wrappers i = some m → handleOf m = some p → p ∉ s.freed
  tags : ∀ i m msg, s.wrappers i = some m → m.msg = some msg → (msg.addr, m.owned, m.deliveryTag) ∈ s.wrapped
  freed : (∀ i, s.wrappers i = none) → ∀ p, s.freed.count p = if p ∈ ownedHandles s then 1 else 0

/-! ## Holders -/

/-- Who owns what. -/
def estate (s : Wrappers) : Holders.Estate Nat Ptr := ⟨fun k => (s.wrappers k).bind handleOf, ownedHandles s, s.freed⟩

section Holding

variable {s : Wrappers} {k source target : Nat} {m other : Message} {heap : Heap}

theorem bind_update (w : Nat → Option Message) (k : Nat) (o : Option Message) :
    (fun i => (Function.update w k o i).bind handleOf) = Function.update (fun i => (w i).bind handleOf) k (o.bind handleOf) := by
  funext i
  by_cases hi : i = k
  · subst hi
    rw [Function.update_self, Function.update_self]
  · rw [Function.update_of_ne hi, Function.update_of_ne hi]

theorem estate_holds (h : s.wrappers k = some m) : (estate s).holds k = handleOf m := by
  simp only [estate, h, Option.bind_some]

theorem estate_owned {p : Ptr} (hp : handleOf m = some p) :
    estate (construct s k (.ok m) heap) = Holders.take (estate s) k p := by
  obtain ⟨msg, hmsg, rfl⟩ := Option.map_eq_some_iff.mp hp
  have howned : m.owned = true ∧ m.msg = some msg := by
    unfold Message.owns at hmsg
    split at hmsg
    · rename_i ho
      exact ⟨ho, hmsg⟩
    · cases hmsg
  simp only [estate, construct, Holders.take, bind_update, Option.bind_some, hp]
  congr 1
  simp [ownedHandles, howned.1, howned.2]

theorem estate_unowned (hk : s.wrappers k = none) (hm : handleOf m = none) :
    estate (construct s k (.ok m) heap) = estate s := by
  simp only [estate, construct, bind_update, Option.bind_some, hm]
  congr 1
  · refine Function.update_eq_self_iff.mpr ?_
    rw [hk, Option.bind_none]
  · have hnone : m.msg = none ∨ m.owned = false := by
      unfold handleOf Message.owns at hm
      cases hmsg : m.msg with
      | none => exact Or.inl rfl
      | some msg =>
        cases ho : m.owned with
        | false => exact Or.inr rfl
        | true => simp [hmsg, ho] at hm
    rcases hnone with hmsg | ho
    · simp [ownedHandles, hmsg]
    · cases hmsg : m.msg with
      | none => simp [ownedHandles]
      | some msg => simp [ownedHandles, ho]

theorem construct_sole (h : Holders.Sole (estate s)) (hk : s.wrappers k = none) {r : Except String Message}
    (hr : FirstOwner s r) : Holders.Sole (estate (construct s k r heap)) := by
  cases r with
  | error what => exact h
  | ok m =>
    cases hm : handleOf m with
    | none =>
      rw [estate_unowned hk hm]
      exact h
    | some p =>
      rw [estate_owned hm]
      refine Holders.sole_take h ?_ (hr m rfl p hm)
      simp only [estate, hk, Option.bind_none]

theorem estate_move (hs : s.wrappers source = some other) (ht : s.wrappers target = none) :
    estate (wrapperStep s (.move source target)) = Holders.pass (estate s) source target := by
  simp only [wrapperStep, hs, ht, Message.move, estate, Holders.pass, bind_update, Option.bind_some]
  rfl

theorem estate_assign (hs : s.wrappers source = some other) (ht : s.wrappers target = some m) (hne : source ≠ target) :
    estate (wrapperStep s (.assign source target)) = Holders.pass (Holders.release (estate s) target) source target := by
  have hne' : ¬ target = source := fun he => hne he.symm
  simp only [wrapperStep, hs, ht, if_neg hne', Message.moveAssign, estate, Holders.pass, Holders.release, bind_update,
    Option.bind_some, Function.update_idem, Function.update_of_ne hne]
  rfl

theorem estate_destroy (hk : s.wrappers k = some m) : estate (wrapperStep s (.destroy k)) = Holders.release (estate s) k := by
  simp only [wrapperStep, hk, estate, Holders.release, bind_update, Option.bind_none, Option.bind_some]
  rfl

theorem step_sole (s : Wrappers) (e : WrapperEvent) (h : Holders.Sole (estate s)) (he : OwnsOnce s e) :
    Holders.Sole (estate (wrapperStep s e)) := by
  cases e with
  | create k exchange routingKey body bodySize =>
    cases hk : s.wrappers k with
    | some m =>
      simp only [wrapperStep, hk]
      exact h
    | none =>
      simp only [wrapperStep, hk]
      exact construct_sole h hk (he hk)
  | wrap k msg owned deliveryTag =>
    cases hk : s.wrappers k with
    | some m =>
      simp only [wrapperStep, hk]
      exact h
    | none =>
      simp only [wrapperStep, hk]
      exact construct_sole h hk (he hk)
  | move source target =>
    cases hs : s.wrappers source with
    | none =>
      simp only [wrapperStep, hs]
      exact h
    | some other =>
      cases ht : s.wrappers target with
      | some m =>
        simp only [wrapperStep, hs, ht]
        exact h
      | none =>
        rw [estate_move hs ht]
        refine Holders.sole_pass h ?_ (by simp only [estate, ht, Option.bind_none])
        rintro rfl
        rw [hs] at ht
        cases ht
  | assign source target =>
    cases hs : s.wrappers source with
    | none =>
      simp only [wrapperStep, hs]
      exact h
    | some other =>
      cases ht : s.wrappers target with
      | none =>
        simp only [wrapperStep, hs, ht]
        exact h
      | some m =>
        by_cases hne : source = target
        · subst hne
          simp only [wrapperStep, hs, if_true]
          exact h
        · rw [estate_assign hs ht hne]
          refine Holders.sole_pass (Holders.sole_release h target) hne ?_
          simp only [Holders.release, Function.update_self]
  | destroy k =>
    cases hk : s.wrappers k with
    | none =>
      simp only [wrapperStep, hk]
      exact h
    | some m =>
      rw [estate_destroy hk]
      exact Holders.sole_release h k

/-! ## Tags -/

/-- A wrapper's handle, ownership and tag are those of one construction. -/
def TagsKept (s : Wrappers) : Prop :=
  ∀ i m msg, s.wrappers i = some m → m.msg = some msg → (msg.addr, m.owned, m.deliveryTag) ∈ s.wrapped

theorem update_some {w : Nat → Option Message} {k i : Nat} {o : Option Message} (h : Function.update w k o i = some m) :
    o = some m ∨ w i = some m := by
  by_cases hi : i = k
  · subst hi
    rw [Function.update_self] at h
    exact Or.inl h
  · rw [Function.update_of_ne hi] at h
    exact Or.inr h

theorem construct_tags (h : TagsKept s) (r : Except String Message) : TagsKept (construct s k r heap) := by
  cases r with
  | error what => exact h
  | ok m =>
    intro i m' msg hi hmsg
    rcases update_some hi with he | hi
    · cases he
      refine List.mem_append_right _ ?_
      rw [hmsg]
      exact List.mem_singleton.mpr rfl
    · exact List.mem_append_left _ (h i m' msg hi hmsg)

/-- What `source` has goes to `target`, and nothing stays. -/
theorem moved_tags (h : TagsKept s) (hs : s.wrappers source = some other) {heap : Heap} {freed : List Ptr} :
    TagsKept ⟨Function.update (Function.update s.wrappers target (some other)) source (some .movedFrom), heap, freed, s.wrapped⟩ := by
  intro i m msg hi hmsg
  rcases update_some hi with he | hi
  · cases he
    cases hmsg
  · rcases update_some hi with he | hi
    · cases he
      exact h source other msg hs hmsg
    · exact h i m msg hi hmsg

theorem step_tags (s : Wrappers) (e : WrapperEvent) (h : TagsKept s) : TagsKept (wrapperStep s e) := by
  cases e with
  | create k exchange routingKey body bodySize =>
    simp only [wrapperStep]
    split
    · exact h
    · exact construct_tags h _
  | wrap k msg owned deliveryTag =>
    simp only [wrapperStep]
    split
    · exact h
    · exact construct_tags h _
  | move source target =>
    simp only [wrapperStep]
    split
    · rename_i hs ht
      exact moved_tags h hs
    · exact h
  | assign source target =>
    simp only [wrapperStep]
    split
    · rename_i hs ht
      split
      · exact h
      · exact moved_tags h hs
    · exact h
  | destroy k =>
    simp only [wrapperStep]
    split
    · exact h
    · intro i m msg hi hmsg
      rcases update_some hi with he | hi
      · cases he
      · exact h i m msg hi hmsg

end Holding

theorem soleOwners {s : Wrappers} (h : Holders.Sole (estate s)) (htags : TagsKept s) : SoleOwners s := by
  refine ⟨fun i j m m' p hi hj hm hm' => ?_, fun i m p hi hm => ?_, htags, fun hnone p => ?_⟩
  · exact h.one i j p ((estate_holds hi).trans hm) ((estate_holds hj).trans hm')
  · exact (h.held i p ((estate_holds hi).trans hm)).2
  · refine h.settled (fun i => ?_) p
    simp only [estate, hnone i, Option.bind_none]

theorem owners_are_sole (heap : Heap) {es : List WrapperEvent} (h : Run.Along wrapperStep OwnsOnce (noWrappers heap) es) :
    SoleOwners (Run.run wrapperStep (noWrappers heap) es) := by
  have hstart : Holders.Sole (estate (noWrappers heap)) := Holders.sole_start
  exact soleOwners (Run.along_inv step_sole hstart h)
    (Run.run_inv step_tags es fun i m msg hi => by cases hi)

/-- A wrapper assigned over an owning one, then to itself, and all destroyed. -/
def assigning : List WrapperEvent :=
  [.wrap 0 (some aMessage) true 5, .create 1 [97] [98] none 0, .assign 0 1, .assign 1 1, .move 1 2, .destroy 0, .destroy 1, .destroy 2]

theorem owners_are_sole_assigning :
    SoleOwners (Run.run wrapperStep (noWrappers ⟨100, fun _ => false, [], []⟩) assigning) := by
  refine owners_are_sole ⟨100, fun _ => false, [], []⟩
    ⟨fun _ m _ p _ hmem => List.not_mem_nil hmem, fun _ => create_first (fun p hp => ?_) _ _ _ _, trivial, trivial, trivial,
      trivial, trivial, trivial, trivial⟩
  rw [List.mem_singleton.mp hp]
  decide

/-! ## The message callback -/

/-- The heap once the wrapper that was kept, if one was, is destroyed too. -/
def inTheEnd (kept : Option Message) (heap : Heap) : Heap :=
  match kept with
  | none => heap
  | some m => m.destroy heap

/-- By the callback and the destructors together. -/
def FreedExactlyOnce (context : Option ClientContext) (message : Core.Message) (h : Handling) (heap : Heap) : Prop :=
  inTheEnd (onMessageCallback context message h heap).kept (onMessageCallback context message h heap).heap =
    messageFree message heap

/-- Neither a promise is pending nor a consumer registered. -/
def NoHandler (context : Option ClientContext) : Prop :=
  ∀ c, context = some c → c.messagePromise = none ∧ c.consumer = none

theorem twice_ne (message : Core.Message) (heap : Heap) : messageFree message (messageFree message heap) ≠ messageFree message heap := by
  intro he
  have hlen := congrArg (fun heap => heap.freed.length) he
  simp only [messageFree, Alloc.Heap.frees_freed, List.length_append, Message.blocks, List.length_singleton] at hlen
  omega

/-- The wrapper given to the handler frees the message; where it throws, so does the `catch`
    block. -/
theorem handled_iff {h : Handling} {message : Core.Message} {tag : UInt64} {heap : Heap} {r : HandlerCall}
    (hr : callHandler h message tag heap = r) (context context' : Option ClientContext) (given : Option Message) :
    (let called := if r.thrown.isSome then Called.mk context given r.kept (messageFree message r.heap)
      else ⟨context', given, r.kept, r.heap⟩
     inTheEnd called.kept called.heap = messageFree message heap) ↔ h.throws = none := by
  subst hr
  obtain ⟨keeps, throws⟩ := h
  cases throws with
  | none =>
    refine iff_of_true ?_ rfl
    cases keeps with
    | true => rfl
    | false => rfl
  | some what =>
    refine iff_of_false (fun he => twice_ne message heap ?_) (Option.some_ne_none what)
    cases keeps with
    | true => exact he
    | false => exact he

theorem freed_once_iff (context : Option ClientContext) (message : Core.Message) (h : Handling) (heap : Heap) :
    FreedExactlyOnce context message h heap ↔ h.throws = none ∨ NoHandler context := by
  cases context with
  | none => exact iff_of_true rfl (Or.inr fun c hc => by cases hc)
  | some context =>
    unfold FreedExactlyOnce
    simp only [onMessageCallback]
    generalize hr : callHandler h message context.lastDeliveryTag heap = r
    by_cases hp : context.messagePromise.isSome = true
    · have hsome : ¬ NoHandler (some context) := fun hno => by simp [(hno context rfl).1] at hp
      rw [or_iff_left hsome, if_pos hp]
      exact handled_iff hr _ _ none
    rw [if_neg hp]
    by_cases hc : context.consumer.isSome = true
    · have hsome : ¬ NoHandler (some context) := fun hno => by simp [(hno context rfl).2] at hc
      rw [or_iff_left hsome, if_pos hc]
      exact handled_iff hr _ _ r.given
    · rw [if_neg hc]
      refine iff_of_true rfl (Or.inr fun c he => ?_)
      cases he
      exact ⟨by simpa using hp, by simpa using hc⟩

/-- A consumer that only throws. -/
theorem a_throwing_consumer_frees_twice :
    ¬ FreedExactlyOnce (some { consumer := some 0 }) aMessage ⟨false, some "bad message"⟩ ⟨100, fun _ => false, [], []⟩ :=
  fun h => twice_ne aMessage ⟨100, fun _ => false, [], []⟩ h

end RabbitMQ.Wrapper
