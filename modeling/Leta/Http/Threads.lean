import Leta.Foundation.Machine
import Leta.Http.Library

/-! # The threads of the library

The library serves each message on a thread of its pool. A connection waits for a thread and holds
it until it is closed, and its messages are served one after the other. -/

namespace Leta

namespace Httplib

variable {τ ι κ ω : Type}

/-- What the library's threads do, as far as its clients see it, or what is installed. -/
inductive ThreadEvent (ι κ ω : Type) where
  /-- A client has sent the message. -/
  | arrive (i : ι) (connection : κ) (message : Message)
  /-- A worker has read the message, and calls what is installed for it. -/
  | call (i : ι) (worker : ω) (message : Message)
  | send (i : ι)
  | internal

/-- How the library's threads work. -/
abbrev Threads (τ ι κ ω : Type) := Machine τ (ThreadEvent ι κ ω)

/-- What is documented of the threads, as laws on what a run of them ends with. -/
structure Threads.Lawful (threads : Threads τ ι κ ω) : Prop where
  arrives_once : ∀ {events s i connection message},
    threads.Run (events ++ [.arrive i connection message]) s →
    ∀ connection' message', .arrive i connection' message' ∉ events
  calls_arrived : ∀ {events s i worker message},
    threads.Run (events ++ [.call i worker message]) s →
    ∃ connection, .arrive i connection message ∈ events
  calls_once : ∀ {events s i worker message},
    threads.Run (events ++ [.call i worker message]) s →
    ∀ worker' message', .call i worker' message' ∉ events
  /-- What came on the connection before has been answered. -/
  calls_in_turn : ∀ {events s i j connection worker message message'},
    threads.Run (events ++ [.call j worker message']) s →
    [.arrive i connection message, .arrive j connection message'].Sublist events →
    .send i ∈ events

namespace Threads.Lawful

variable {threads : Threads τ ι κ ω} {s : τ} {before after : List (ThreadEvent ι κ ω)} {i : ι}
  {connection : κ} {message : Message}

/-- What has arrived does not arrive again. -/
theorem not_mem_after (laws : threads.Lawful) (h : threads.Run (before ++ after) s)
    (harrived : .arrive i connection message ∈ before) (connection' : κ) (message' : Message) :
    .arrive i connection' message' ∉ after := by
  intro hagain
  obtain ⟨between, rest, rfl⟩ := List.append_of_mem hagain
  have hlabels : before ++ (between ++ .arrive i connection' message' :: rest) =
      before ++ between ++ [.arrive i connection' message'] ++ rest := by simp
  rw [hlabels] at h
  obtain ⟨t, hrun⟩ := h.exists_front
  exact laws.arrives_once hrun connection message (List.mem_append_left _ harrived)

/-- A message arrives on one connection. -/
theorem arrive_unique (laws : threads.Lawful) {events : List (ThreadEvent ι κ ω)}
    (h : threads.Run events s) (harrived : .arrive i connection message ∈ events)
    {connection' : κ} {message' : Message} (hagain : .arrive i connection' message' ∈ events) :
    connection = connection' ∧ message = message' := by
  obtain ⟨before, after, rfl⟩ := List.append_of_mem harrived
  rcases List.mem_append.mp hagain with hbefore | hafter
  · exact absurd List.mem_cons_self (laws.not_mem_after h hbefore connection message)
  · rcases List.mem_cons.mp hafter with heq | hafter
    · cases heq
      exact ⟨rfl, rfl⟩
    · rw [List.append_cons] at h
      have hmem : .arrive i connection message ∈ before ++ [.arrive i connection message] :=
        List.mem_append_right _ (List.mem_singleton_self _)
      exact absurd hafter (laws.not_mem_after h hmem connection' message')

/-- When a worker calls what is installed for a message, what came on its connection before has
been answered. -/
theorem sent_of_call (laws : threads.Lawful) {j : ι} {worker : ω} {message' message'' : Message}
    (h : threads.Run (before ++ .call j worker message'' :: after) s)
    (harrived : [.arrive i connection message, .arrive j connection message'].Sublist
      (before ++ .call j worker message'' :: after)) : .send i ∈ before := by
  have hlabels : before ++ .call j worker message'' :: after =
      before ++ [.call j worker message''] ++ after := by simp
  obtain ⟨t, hrun⟩ := (hlabels ▸ h).exists_front
  obtain ⟨connection', hj⟩ := laws.calls_arrived hrun
  have hlast : .arrive j connection message' ∈ before ++ .call j worker message'' :: after :=
    harrived.subset (List.mem_cons_of_mem _ (List.mem_singleton_self _))
  obtain ⟨rfl, rfl⟩ := laws.arrive_unique h hlast (List.mem_append_left _ hj)
  -- The second of the two has arrived before it is called, so the first has.
  obtain ⟨front, back, hpair, hfront, hback⟩ := List.sublist_append_iff.mp harrived
  by_cases hnil : back = []
  · rw [hnil, List.append_nil] at hpair
    exact laws.calls_in_turn hrun (hpair ▸ hfront)
  · have hpairLast := congrArg List.getLast? hpair
    rw [List.getLast?_append_of_ne_nil _ hnil] at hpairLast
    exact absurd (hback.subset (List.mem_of_getLast? hpairLast.symm))
      (laws.not_mem_after h hj _ _)

end Threads.Lawful

/-! ## A pool of workers -/

/-- A pool whose workers each hold one connection at most. -/
structure Connections (ι κ ω : Type) where
  /-- The connections that wait for a worker. -/
  waiting : List κ
  held : ω → Option κ
  /-- The messages that have not been read. -/
  inbox : κ → List (ι × Message)
  serving : ω → Option ι
  arrived : List ι

variable [DecidableEq κ] [DecidableEq ω]

namespace Connections

inductive Step : Connections ι κ ω → ThreadEvent ι κ ω → Connections ι κ ω → Prop where
  | accept {s : Connections ι κ ω} (connection) : connection ∉ s.waiting →
      (∀ worker, s.held worker ≠ some connection) →
      Step s .internal { s with waiting := s.waiting ++ [connection] }
  | hold {s : Connections ι κ ω} {connection rest} (worker) : s.waiting = connection :: rest →
      s.held worker = none →
      Step s .internal
        { s with waiting := rest, held := Function.update s.held worker (some connection) }
  | arrive {s : Connections ι κ ω} {i} (connection message) : i ∉ s.arrived →
      Step s (.arrive i connection message)
        { s with
          inbox := Function.update s.inbox connection (s.inbox connection ++ [(i, message)])
          arrived := i :: s.arrived }
  | call {s : Connections ι κ ω} {i connection message rest} (worker) :
      s.held worker = some connection → s.serving worker = none →
      s.inbox connection = (i, message) :: rest →
      Step s (.call i worker message)
        { s with
          inbox := Function.update s.inbox connection rest
          serving := Function.update s.serving worker (some i) }
  | send {s : Connections ι κ ω} {i} (worker) : s.serving worker = some i →
      Step s (.send i) { s with serving := Function.update s.serving worker none }
  | close {s : Connections ι κ ω} (worker) : s.serving worker = none →
      Step s .internal { s with held := Function.update s.held worker none }

end Connections

def keepAlive : Threads (Connections ι κ ω) ι κ ω where
  Initial s := s = ⟨[], fun _ => none, fun _ => [], fun _ => none, []⟩
  Step := Connections.Step

namespace Connections

variable {events : List (ThreadEvent ι κ ω)} {s s' : Connections ι κ ω}

/-- A connection waits, or one worker holds it. -/
structure Apart (s : Connections ι κ ω) : Prop where
  waiting : s.waiting.Nodup
  held : ∀ worker connection, s.held worker = some connection → connection ∉ s.waiting
  alone : ∀ worker worker' connection, s.held worker = some connection →
    s.held worker' = some connection → worker = worker'

theorem Apart.step {event : ThreadEvent ι κ ω} (h : Apart s) (hstep : Step s event s') :
    Apart s' := by
  cases hstep with
  | accept connection hwaiting hheld =>
      refine ⟨?_, ?_, h.alone⟩
      · exact List.nodup_append.mpr ⟨h.waiting, List.nodup_singleton _, by
          intro a ha b hb hab
          rw [List.mem_singleton.mp hb] at hab
          exact hwaiting (hab ▸ ha)⟩
      · intro worker connection hconnection
        rw [List.mem_append, not_or]
        refine ⟨h.held worker connection hconnection, fun hnew => ?_⟩
        rw [List.mem_singleton.mp hnew] at hconnection
        exact hheld worker hconnection
  | @hold connection rest worker hwaiting hnone =>
      have hnodup := h.waiting
      rw [hwaiting, List.nodup_cons] at hnodup
      have hfree : ∀ other, s.held other ≠ some connection := fun other hother =>
        h.held other connection hother (by rw [hwaiting]; exact List.mem_cons_self)
      refine ⟨hnodup.2, fun other c hother => ?_, fun other other' c hother hother' => ?_⟩
      · dsimp only at hother ⊢
        rw [Function.update_apply] at hother
        split_ifs at hother with hworker
        · exact Option.some.inj hother ▸ hnodup.1
        · have hrest := h.held other c hother
          rw [hwaiting] at hrest
          exact fun hmem => hrest (List.mem_cons_of_mem _ hmem)
      · dsimp only at hother hother'
        rw [Function.update_apply] at hother hother'
        split_ifs at hother hother' with hworker hworker' hworker'
        · rw [hworker, hworker']
        · exact absurd (Option.some.inj hother ▸ hother') (hfree other')
        · exact absurd (Option.some.inj hother' ▸ hother) (hfree other)
        · exact h.alone other other' c hother hother'
  | arrive | call | send => exact ⟨h.waiting, h.held, h.alone⟩
  | close worker _ =>
      have hheld : ∀ {other c}, Function.update s.held worker none other = some c →
          s.held other = some c := by
        intro other c hother
        rw [Function.update_apply] at hother
        split_ifs at hother
        exact hother
      exact ⟨h.waiting, fun other c hother => h.held other c (hheld hother),
        fun other other' c hother hother' => h.alone other other' c (hheld hother) (hheld hother')⟩

/-- What has arrived on the connection, in order. -/
def arrivals (events : List (ThreadEvent ι κ ω)) (connection : κ) : List (ι × Message) :=
  events.filterMap fun
    | .arrive i other message => if other = connection then some (i, message) else none
    | _ => none

omit [DecidableEq ω] in
theorem mem_arrivals {connection : κ} {item : ι × Message} :
    item ∈ arrivals events connection ↔ .arrive item.1 connection item.2 ∈ events := by
  rw [arrivals, List.mem_filterMap]
  constructor
  · rintro ⟨event, hevent, hitem⟩
    cases event with
    | arrive i other message =>
        obtain ⟨rfl, hsome⟩ := Option.ite_none_right_eq_some.mp hitem
        cases hsome
        exact hevent
    | call _ _ _ | send _ | internal => cases hitem
  · intro hevent
    exact ⟨_, hevent, if_pos rfl⟩

/-- A message that has been read is served by the worker that holds its connection, or has been
answered. -/
def IsHandled (events : List (ThreadEvent ι κ ω)) (s : Connections ι κ ω) (connection : κ)
    (i : ι) : Prop :=
  .send i ∈ events ∨ ∃ worker, s.held worker = some connection ∧ s.serving worker = some i

/-- What the events say of the state. -/
structure Follows (events : List (ThreadEvent ι κ ω)) (s : Connections ι κ ω) : Prop where
  apart : Apart s
  arrived : ∀ {i connection message}, .arrive i connection message ∈ events → i ∈ s.arrived
  called : ∀ {i worker message}, .call i worker message ∈ events → i ∈ s.arrived
  unique : ∀ {i connection connection' message message'}, .arrive i connection message ∈ events →
    .arrive i connection' message' ∈ events → connection = connection'
  nodup : ∀ connection, ((arrivals events connection).map Prod.fst).Nodup
  /-- The inbox is the end of what has arrived, and what comes before has been read. -/
  inbox : ∀ connection, ∃ front, arrivals events connection = front ++ s.inbox connection ∧
    ∀ item ∈ front, IsHandled events s connection item.1
  unread : ∀ {connection item}, item ∈ s.inbox connection →
    ∀ worker message, .call item.1 worker message ∉ events

omit [DecidableEq ω] in
theorem follows_start : Follows [] (⟨[], fun _ => none, fun _ => [], fun _ => none, []⟩ :
    Connections ι κ ω) where
  apart := ⟨List.nodup_nil, by simp, by simp⟩
  arrived := by simp
  called := by simp
  unique := by simp
  nodup := by simp [arrivals]
  inbox connection := ⟨[], rfl, by simp⟩
  unread := by simp

omit [DecidableEq ω] in
theorem Follows.arrive_of_mem (h : Follows events s) {connection : κ} {item : ι × Message}
    (hitem : item ∈ s.inbox connection) : .arrive item.1 connection item.2 ∈ events := by
  obtain ⟨front, hfront, -⟩ := h.inbox connection
  apply mem_arrivals.mp
  rw [hfront]
  exact List.mem_append_right _ hitem

/-- A step at which nothing arrives. What leaves an inbox is handled from then on, and what was
handled stays so. -/
theorem Follows.quiet (h : Follows events s) {event : ThreadEvent ι κ ω}
    (hstep : Step s event s')
    (hevent : ∀ i connection message, event ≠ .arrive i connection message)
    (harrived : s'.arrived = s.arrived)
    (hcalled : ∀ i worker message, event = .call i worker message → i ∈ s.arrived)
    (hinbox : ∀ connection, ∃ front, s.inbox connection = front ++ s'.inbox connection ∧
      ∀ item ∈ front, IsHandled (events ++ [event]) s' connection item.1)
    (hhandled : ∀ connection i, IsHandled events s connection i →
      IsHandled (events ++ [event]) s' connection i)
    (hunread : ∀ connection, ∀ item ∈ s'.inbox connection, ∀ worker message,
      event ≠ .call item.1 worker message) : Follows (events ++ [event]) s' := by
  have hold : ∀ {i connection message}, .arrive i connection message ∈ events ++ [event] →
      .arrive i connection message ∈ events := by
    intro i connection message hmem
    refine (List.mem_append.mp hmem).resolve_right fun hlast => ?_
    exact hevent i connection message (List.mem_singleton.mp hlast).symm
  have harrivals : ∀ connection, arrivals (events ++ [event]) connection =
      arrivals events connection := by
    intro connection
    rw [arrivals, List.filterMap_append]
    cases event with
    | arrive i other message => exact absurd rfl (hevent i other message)
    | call _ _ _ | send _ | internal => exact List.append_nil _
  refine ⟨h.apart.step hstep, fun hmem => ?_, fun hmem => ?_,
    fun hmem hmem' => h.unique (hold hmem) (hold hmem'), fun connection => ?_,
    fun connection => ?_, fun {connection item} hitem worker message hmem => ?_⟩
  · rw [harrived]
    exact h.arrived (hold hmem)
  · rw [harrived]
    rcases List.mem_append.mp hmem with hmem | hmem
    · exact h.called hmem
    · exact hcalled _ _ _ (List.mem_singleton.mp hmem).symm
  · rw [harrivals]
    exact h.nodup connection
  · obtain ⟨front, hfront, hread⟩ := h.inbox connection
    obtain ⟨taken, htaken, htakenHandled⟩ := hinbox connection
    refine ⟨front ++ taken, ?_, fun item hitem => ?_⟩
    · rw [harrivals, hfront, htaken, List.append_assoc]
    · rcases List.mem_append.mp hitem with hitem | hitem
      · exact hhandled connection item.1 (hread item hitem)
      · exact htakenHandled item hitem
  · obtain ⟨front, hfront, -⟩ := hinbox connection
    have hbefore : item ∈ s.inbox connection := by
      rw [hfront]
      exact List.mem_append_right _ hitem
    rcases List.mem_append.mp hmem with hmem | hmem
    · exact h.unread hbefore worker message hmem
    · exact hunread connection item hitem worker message (List.mem_singleton.mp hmem).symm

/-- A step that no client sees. -/
theorem Follows.internal (h : Follows events s) (hstep : Step s .internal s')
    (hinbox : s'.inbox = s.inbox) (harrived : s'.arrived = s.arrived)
    (hserving : ∀ worker connection i, s.held worker = some connection →
      s.serving worker = some i →
        s'.held worker = some connection ∧ s'.serving worker = some i) :
    Follows (events ++ [.internal]) s' := by
  apply h.quiet hstep (by simp) harrived (by simp) _ _ (by simp)
  · intro connection
    exact ⟨[], by rw [hinbox]; rfl, by simp⟩
  · rintro connection i (hsent | ⟨worker, hheld, hi⟩)
    · exact .inl (List.mem_append_left _ hsent)
    · exact .inr ⟨worker, hserving worker connection i hheld hi⟩

theorem Follows.arrive (h : Follows events s) {i : ι} (connection : κ) (message : Message)
    (hi : i ∉ s.arrived) (hstep : Step s (.arrive i connection message) s')
    (hs' : s' = { s with
      inbox := Function.update s.inbox connection (s.inbox connection ++ [(i, message)])
      arrived := i :: s.arrived }) :
    Follows (events ++ [.arrive i connection message]) s' := by
  have hnew : ∀ {connection' message'}, .arrive i connection' message' ∉ events :=
    fun hmem => hi (h.arrived hmem)
  have harrivals : ∀ other, arrivals (events ++ [.arrive i connection message]) other =
      arrivals events other ++ if connection = other then [(i, message)] else [] := by
    intro other
    rw [arrivals, List.filterMap_append]
    split_ifs with hother
    · simp [arrivals, hother]
    · simp [arrivals, hother]
  refine ⟨h.apart.step hstep, fun {j c m} hmem => ?_, fun {j w m} hmem => ?_,
    fun {j c c' m m'} hmem hmem' => ?_, fun c => ?_, fun c => ?_, fun {c item} hitem w m hmem => ?_⟩
  · rw [hs']
    rcases List.mem_append.mp hmem with hmem | hmem
    · exact List.mem_cons_of_mem _ (h.arrived hmem)
    · cases List.mem_singleton.mp hmem
      exact List.mem_cons_self
  · rw [hs']
    exact List.mem_cons_of_mem _ (h.called (by simpa using hmem))
  · rcases List.mem_append.mp hmem with hmem | hmem <;>
      rcases List.mem_append.mp hmem' with hmem' | hmem'
    · exact h.unique hmem hmem'
    · cases List.mem_singleton.mp hmem'
      exact absurd hmem hnew
    · cases List.mem_singleton.mp hmem
      exact absurd hmem' hnew
    · cases List.mem_singleton.mp hmem
      cases List.mem_singleton.mp hmem'
      rfl
  · rw [harrivals]
    split_ifs with hc
    · rw [List.map_append, List.nodup_append]
      refine ⟨h.nodup c, List.nodup_singleton _, fun j hj k hk hjk => ?_⟩
      obtain ⟨item, hitem, rfl⟩ := List.mem_map.mp hj
      obtain rfl : k = i := List.mem_singleton.mp hk
      exact hnew (hjk ▸ mem_arrivals.mp hitem)
    · rw [List.append_nil]
      exact h.nodup c
  · obtain ⟨front, hfront, hread⟩ := h.inbox c
    refine ⟨front, ?_, fun item hitem => ?_⟩
    · rw [harrivals, hfront, hs']
      dsimp only
      rw [Function.update_apply, List.append_assoc]
      by_cases hc : c = connection
      · rw [if_pos hc, if_pos hc.symm, hc]
      · rw [if_neg hc, if_neg (Ne.symm hc), List.append_nil]
    · rw [hs']
      exact (hread item hitem).imp_left (List.mem_append_left _)
  · have hcalled : .call item.1 w m ∈ events := by simpa using hmem
    rw [hs'] at hitem
    dsimp only at hitem
    rw [Function.update_apply] at hitem
    split_ifs at hitem with hc
    · rcases List.mem_append.mp hitem with hitem | hitem
      · exact h.unread hitem w m hcalled
      · obtain rfl := List.mem_singleton.mp hitem
        exact hi (h.called hcalled)
    · exact h.unread hitem w m hcalled

theorem Follows.call (h : Follows events s) {i : ι} {worker : ω} {connection : κ}
    {message : Message} {rest : List (ι × Message)} (hheld : s.held worker = some connection)
    (hidle : s.serving worker = none) (hinbox : s.inbox connection = (i, message) :: rest)
    (hstep : Step s (.call i worker message) s')
    (hs' : s' = { s with
      inbox := Function.update s.inbox connection rest
      serving := Function.update s.serving worker (some i) }) :
    Follows (events ++ [.call i worker message]) s' := by
  have hfirst : (i, message) ∈ s.inbox connection := by
    rw [hinbox]
    exact List.mem_cons_self
  have harrived := h.arrive_of_mem hfirst
  apply h.quiet hstep (by simp) (by rw [hs'])
  · rintro j w m hcall
    cases hcall
    exact h.arrived harrived
  · intro c
    rw [hs']
    dsimp only
    rw [Function.update_apply]
    split_ifs with hc
    · refine ⟨[(i, message)], by rw [hc, hinbox]; rfl, fun item hitem => .inr ⟨worker, ?_, ?_⟩⟩
      · rw [hc]
        exact hheld
      · rw [List.mem_singleton.mp hitem]
        exact Function.update_self ..
    · exact ⟨[], rfl, by simp⟩
  · rintro c j (hsent | ⟨w, hw, hj⟩)
    · exact .inl (List.mem_append_left _ hsent)
    · have hother : w ≠ worker := by
        rintro rfl
        rw [hidle] at hj
        cases hj
      rw [hs']
      exact .inr ⟨w, hw, (Function.update_of_ne hother _ _).trans hj⟩
  · rintro c ⟨j, m⟩ hitem w m' hcall
    cases hcall
    rw [hs'] at hitem
    dsimp only at hitem
    rw [Function.update_apply] at hitem
    split_ifs at hitem with hc
    · -- It would have arrived twice on the connection.
      obtain ⟨front, hfront, -⟩ := h.inbox connection
      have hnodup := h.nodup connection
      rw [hfront, hinbox, List.map_append, List.map_cons] at hnodup
      have hrest := (List.nodup_cons.mp (List.nodup_append.mp hnodup).2.1).1
      exact hrest (List.mem_map.mpr ⟨(j, m), hitem, rfl⟩)
    · exact hc (h.unique (h.arrive_of_mem hitem) harrived)

theorem Follows.send (h : Follows events s) {i : ι} {worker : ω}
    (hserving : s.serving worker = some i) (hstep : Step s (.send i) s')
    (hs' : s' = { s with serving := Function.update s.serving worker none }) :
    Follows (events ++ [.send i]) s' := by
  apply h.quiet hstep (by simp) (by rw [hs']) (by simp) _ _ (by simp)
  · intro c
    exact ⟨[], by rw [hs']; rfl, by simp⟩
  · rintro c j (hsent | ⟨w, hw, hj⟩)
    · exact .inl (List.mem_append_left _ hsent)
    · by_cases hother : w = worker
      · rw [hother, hserving] at hj
        exact .inl (by simp [Option.some.inj hj])
      · rw [hs']
        exact .inr ⟨w, hw, (Function.update_of_ne hother _ _).trans hj⟩

theorem keeps_follows : (keepAlive : Threads (Connections ι κ ω) ι κ ω).Keeps Follows where
  start s hinitial := by
    rw [hinitial]
    exact follows_start
  step events s event s' h hstep := by
    have hstep : Step s event s' := hstep
    cases hstep' : hstep with
    | accept _ _ _ => exact h.internal hstep rfl rfl fun _ _ _ hheld hi => ⟨hheld, hi⟩
    | hold worker _ hnone =>
        refine h.internal hstep rfl rfl fun other c i hheld hi => ⟨?_, hi⟩
        have hother : other ≠ worker := by
          rintro rfl
          rw [hnone] at hheld
          cases hheld
        dsimp only
        rwa [Function.update_of_ne hother]
    | arrive connection message hi => exact h.arrive connection message hi hstep rfl
    | call worker hheld hidle hinbox => exact h.call hheld hidle hinbox hstep rfl
    | send worker hserving => exact h.send hserving hstep rfl
    | close worker hidle =>
        refine h.internal hstep rfl rfl fun other c i hheld hi => ⟨?_, hi⟩
        have hother : other ≠ worker := by
          rintro rfl
          rw [hidle] at hi
          cases hi
        dsimp only
        rwa [Function.update_of_ne hother]

theorem mem_front_of_sublist {α : Type} {front rest : List α} {a b : α}
    (hnodup : (front ++ b :: rest).Nodup) (h : [a, b].Sublist (front ++ b :: rest)) :
    a ∈ front := by
  have hrest : b ∉ rest := (List.nodup_cons.mp (List.nodup_append.mp hnodup).2.1).1
  obtain ⟨early, late, hpair, hearly, hlate⟩ := List.sublist_append_iff.mp h
  cases early with
  | nil =>
      rw [List.nil_append] at hpair
      rw [← hpair] at hlate
      cases hlate with
      | cons _ hlate => exact absurd (hlate.subset (by simp)) hrest
      | cons_cons _ hlate => exact absurd (hlate.subset (by simp)) hrest
  | cons first early =>
      obtain ⟨rfl, -⟩ := List.cons.inj hpair
      exact hearly.subset List.mem_cons_self

/-- A worker that holds a connection has answered what came on it before. -/
theorem Follows.sent_of_call (h : Follows events s) {i j : ι} {connection : κ} {worker : ω}
    {message message' : Message} (hstep : Step s (.call j worker message') s')
    (hevents : [.arrive i connection message, .arrive j connection message'].Sublist events) :
    .send i ∈ events := by
  cases hstep with
  | @call _ c _ rest _ hheld hidle hinbox =>
      have hj := h.arrive_of_mem (by rw [hinbox]; exact List.mem_cons_self)
      have hlast : .arrive j connection message' ∈ events := hevents.subset (by simp)
      obtain rfl := h.unique hlast hj
      obtain ⟨front, hfront, hread⟩ := h.inbox connection
      have hnodup := h.nodup connection
      have hpair : [(i, message), (j, message')].Sublist (arrivals events connection) := by
        simpa [arrivals] using hevents.filterMap fun
          | .arrive i other message => if other = connection then some (i, message) else none
          | _ => none
      rw [hfront, hinbox] at hnodup hpair
      -- The first of the two has been read.
      have hfirst := mem_front_of_sublist hnodup.of_map hpair
      rcases hread _ hfirst with hsent | ⟨w, hw, hi⟩
      · exact hsent
      · rw [h.apart.alone _ _ connection hw hheld, hidle] at hi
        cases hi

theorem Step.exists_unread {i : ι} {worker : ω} {message : Message}
    (h : Step s (.call i worker message) s') : ∃ connection, (i, message) ∈ s.inbox connection := by
  cases h with
  | call worker hheld hidle hinbox => exact ⟨_, by rw [hinbox]; exact List.mem_cons_self⟩

theorem keepAlive_lawful : (keepAlive : Threads (Connections ι κ ω) ι κ ω).Lawful where
  arrives_once h connection' message' hevent := by
    obtain ⟨s, hrun, hstep⟩ := h.exists_last
    have hstep : Step s _ _ := hstep
    cases hstep with
    | arrive connection message hi => exact hi ((keeps_follows.run hrun).arrived hevent)
  calls_arrived h := by
    obtain ⟨s, hrun, hstep⟩ := h.exists_last
    obtain ⟨connection, hunread⟩ := Step.exists_unread hstep
    exact ⟨connection, (keeps_follows.run hrun).arrive_of_mem hunread⟩
  calls_once h := by
    obtain ⟨s, hrun, hstep⟩ := h.exists_last
    obtain ⟨connection, hunread⟩ := Step.exists_unread hstep
    exact (keeps_follows.run hrun).unread hunread
  calls_in_turn h hevents := by
    obtain ⟨s, hrun, hstep⟩ := h.exists_last
    exact (keeps_follows.run hrun).sent_of_call hstep hevents

end Connections

end Httplib

end Leta
