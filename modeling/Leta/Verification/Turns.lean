import Leta.Foundation.Linearization
import Leta.Http.InterruptedWorkers

/-! # Messages on threads

What the pool does with a message follows what the library's threads do with it, so the messages of
a connection are served one after the other. -/

namespace Leta

open Httplib

variable {τ ι κ ω ε : Type} [DecidableEq ι] [DecidableEq ω] {S : Ondemand} {library : Library}
  {draw : ε → UInt64 × ε} {threads : Threads τ ι κ ω}

/-! ## Moments -/

def Progress.stage : Progress ω → Stage
  | .absent => .absent
  | .queued _ | .begun _ _ | .stamped _ _ _ => .pending
  | .replied _ _ _ | .answered _ _ => .effective
  | .sent _ _ => .returned

def PoolEvent.moments : PoolEvent ι κ ω → List (Moment ι)
  | .arrive i _ _ => [.invoked i]
  | .answer i _ _ | .loadReadiness i | .commit i => [.effect i]
  | .internal | .begin _ _ _ | .readClock _ _ | .write _ _ => []
  | .send i => [.returned i]

def PoolFault.moments : PoolFault ι ω → List (Moment ι)
  | .read i _ _ | .access i | .commit i => [.effect i]
  -- The message has taken effect before.
  | .write _ => []

def interruptedMoments : PoolEvent ι κ ω ⊕ PoolFault ι ω → List (Moment ι) :=
  Sum.elim PoolEvent.moments PoolFault.moments

/-- Every message goes through the moments. -/
def Moves (before after : ι → Progress ω) (moments : List (Moment ι)) : Prop :=
  ∀ i, (after i).stage.moments i = (before i).stage.moments i ++ momentsOf i moments

omit [DecidableEq ω] in
/-- One message goes to its next stage. -/
theorem moves_update {before : ι → Progress ω} {i : ι} {old next : Progress ω}
    {moments : List (Moment ι)} (hof : ∀ moment ∈ moments, moment.operation = i)
    (hi : before i = old) (hstage : next.stage.moments i = old.stage.moments i ++ moments) :
    Moves before (Function.update before i next) moments := by
  intro j
  rw [Function.update_apply]
  split_ifs with hij
  · subst hij
    rw [hi, hstage, momentsOf, List.filter_eq_self.mpr (by simpa using hof)]
  · rw [momentsOf, List.filter_eq_nil_iff.mpr, List.append_nil]
    intro moment hmoment hj
    exact hij ((of_decide_eq_true hj).symm.trans (hof moment hmoment))

/-! ## What the threads have done -/

def interruptedThread? : PoolEvent ι κ ω ⊕ PoolFault ι ω → Option (ThreadEvent ι κ ω) :=
  Sum.elim PoolEvent.thread? PoolFault.thread?

/-- What the threads have done with a message of this progress. -/
def Tracked (events : List (ThreadEvent ι κ ω)) (i : ι) : Progress ω → Prop
  | .absent => ∀ connection message, .arrive i connection message ∉ events
  | .queued message => (∃ connection, .arrive i connection message ∈ events) ∧
      ∀ worker message, .call i worker message ∉ events
  | .begun _ _ | .stamped _ _ _ | .replied _ _ _ | .answered _ _ | .sent _ _ =>
      (∃ connection message, .arrive i connection message ∈ events) ∧
        ∃ worker message, .call i worker message ∈ events

/-- A worker has called what is installed. -/
def Progress.IsCalled : Progress ω → Prop
  | .absent | .queued _ => False
  | .begun _ _ | .stamped _ _ _ | .replied _ _ _ | .answered _ _ | .sent _ _ => True

omit [DecidableEq ι] [DecidableEq ω] in
theorem tracked_iff {progress : Progress ω} (h : progress.IsCalled)
    (events : List (ThreadEvent ι κ ω)) (i : ι) : Tracked events i progress ↔
      (∃ connection message, .arrive i connection message ∈ events) ∧
        ∃ worker message, .call i worker message ∈ events := by
  cases progress with
  | absent => cases h
  | queued _ => cases h
  | begun _ _ | stamped _ _ _ | replied _ _ _ | answered _ _ | sent _ _ => exact Iff.rfl

omit [DecidableEq ι] [DecidableEq ω] in
theorem Tracked.append {events more : List (ThreadEvent ι κ ω)} {i : ι} {progress : Progress ω}
    (h : Tracked events i progress)
    (harrive : ∀ connection message, .arrive i connection message ∉ more)
    (hcall : ∀ worker message, .call i worker message ∉ more) :
    Tracked (events ++ more) i progress := by
  cases progress with
  | absent =>
      intro connection message hevent
      rcases List.mem_append.mp hevent with hevent | hevent
      · exact h connection message hevent
      · exact harrive connection message hevent
  | queued message =>
      obtain ⟨⟨connection, harrived⟩, hnone⟩ := h
      refine ⟨⟨connection, List.mem_append_left _ harrived⟩, fun worker message' hevent => ?_⟩
      rcases List.mem_append.mp hevent with hevent | hevent
      · exact hnone worker message' hevent
      · exact hcall worker message' hevent
  | begun _ _ | stamped _ _ _ | replied _ _ _ | answered _ _ | sent _ _ =>
      obtain ⟨⟨connection, message, harrived⟩, worker, message', hcalled⟩ := h
      exact ⟨⟨connection, message, List.mem_append_left _ harrived⟩, worker, message',
        List.mem_append_left _ hcalled⟩

/-- The threads have run as the progress of the messages says. -/
structure Tracks (threads : Threads τ ι κ ω) (events : List (ThreadEvent ι κ ω))
    (pool : Pool τ ι ω ε) : Prop where
  run : threads.Run events pool.threads
  tracked : ∀ i, Tracked events i (pool.progress i)

namespace Tracks

variable {events more : List (ThreadEvent ι κ ω)} {pool pool' : Pool τ ι ω ε} {i : ι} {s : τ}

omit [DecidableEq ι] [DecidableEq ω] in
theorem absent_of_arrive (h : Tracks threads events pool) (laws : threads.Lawful) {connection : κ}
    {message : Message} (hstep : threads.Step pool.threads (.arrive i connection message) s) :
    pool.progress i = .absent := by
  have hnone := laws.arrives_once (h.run.step hstep)
  have htracked := h.tracked i
  cases hprogress : pool.progress i with
  | absent => rfl
  | queued message' =>
      rw [hprogress] at htracked
      obtain ⟨⟨connection', harrived⟩, -⟩ := htracked
      exact absurd harrived (hnone connection' message')
  | begun _ _ | stamped _ _ _ | replied _ _ _ | answered _ _ | sent _ _ =>
      rw [hprogress] at htracked
      obtain ⟨⟨connection', message', harrived⟩, -⟩ := htracked
      exact absurd harrived (hnone connection' message')

omit [DecidableEq ι] [DecidableEq ω] in
theorem queued_of_call (h : Tracks threads events pool) (laws : threads.Lawful) {worker : ω}
    {message : Message} (hstep : threads.Step pool.threads (.call i worker message) s) :
    pool.progress i = .queued message := by
  obtain ⟨connection, harrived⟩ := laws.calls_arrived (h.run.step hstep)
  have hnone := laws.calls_once (h.run.step hstep)
  have htracked := h.tracked i
  cases hprogress : pool.progress i with
  | absent =>
      rw [hprogress] at htracked
      exact absurd harrived (htracked connection message)
  | queued message' =>
      rw [hprogress] at htracked
      obtain ⟨⟨connection', harrived'⟩, -⟩ := htracked
      rw [(laws.arrive_unique h.run harrived harrived').2]
  | begun _ _ | stamped _ _ _ | replied _ _ _ | answered _ _ | sent _ _ =>
      rw [hprogress] at htracked
      obtain ⟨-, worker', message', hcalled⟩ := htracked
      exact absurd hcalled (hnone worker' message')

omit [DecidableEq ω] in
/-- A step of one message. -/
theorem update (h : Tracks threads events pool) (hrun : threads.Run (events ++ more) pool'.threads)
    {next : Progress ω} (hprogress : pool'.progress = Function.update pool.progress i next)
    (hi : Tracked (events ++ more) i next)
    (hothers : ∀ j ≠ i, (∀ connection message, .arrive j connection message ∉ more) ∧
      ∀ worker message, .call j worker message ∉ more) :
    Tracks threads (events ++ more) pool' where
  run := hrun
  tracked j := by
    rw [hprogress, Function.update_apply]
    split_ifs with hj
    · rwa [hj]
    · exact (h.tracked j).append (hothers j hj).1 (hothers j hj).2

omit [DecidableEq ω] in
theorem arrive (h : Tracks threads events pool) {connection : κ} {message : Message}
    (hstep : threads.Step pool.threads (.arrive i connection message) s)
    (laws : threads.Lawful) :
    Tracks threads (events ++ [.arrive i connection message])
      ((pool.setThreads s).setProgress i (.queued message)) := by
  refine h.update (h.run.step hstep) rfl ⟨⟨connection, by simp⟩, fun worker message' hcalled => ?_⟩
    fun j hj => ⟨by simp [hj], by simp⟩
  have hcalled : .call i worker message' ∈ events := by simpa using hcalled
  have habsent := h.absent_of_arrive laws hstep
  obtain ⟨front, back, rfl⟩ := List.append_of_mem hcalled
  have hlabels : front ++ .call i worker message' :: back =
      front ++ [.call i worker message'] ++ back := by simp
  obtain ⟨t, hrun⟩ := (hlabels ▸ h.run).exists_front
  obtain ⟨connection', harrived⟩ := laws.calls_arrived hrun
  have htracked := h.tracked i
  rw [habsent] at htracked
  exact htracked connection' message' (List.mem_append_left _ harrived)

omit [DecidableEq ω] in
theorem call (h : Tracks threads events pool) (laws : threads.Lawful) {worker : ω}
    {message : Message} (hstep : threads.Step pool.threads (.call i worker message) s)
    (hthreads : pool'.threads = s) {next : Progress ω}
    (hprogress : pool'.progress = Function.update pool.progress i next)
    (hcalled : next.IsCalled) : Tracks threads (events ++ [.call i worker message]) pool' := by
  obtain ⟨connection, harrived⟩ := laws.calls_arrived (h.run.step hstep)
  refine h.update (hthreads ▸ h.run.step hstep) hprogress ?_ fun j hj => ⟨by simp, by simp [hj]⟩
  exact (tracked_iff hcalled _ i).mpr
    ⟨⟨connection, message, List.mem_append_left _ harrived⟩, worker, message, by simp⟩

omit [DecidableEq ω] in
/-- A step of a handler. -/
theorem handle (h : Tracks threads events pool) (hthreads : pool'.threads = pool.threads)
    {next : Progress ω} (hprogress : pool'.progress = Function.update pool.progress i next)
    {before : Progress ω} (hi : pool.progress i = before) (hbefore : before.IsCalled)
    (hcalled : next.IsCalled) : Tracks threads (events ++ []) pool' := by
  have htracked := h.tracked i
  rw [hi, tracked_iff hbefore, ← tracked_iff hcalled, ← List.append_nil events] at htracked
  have hrun : threads.Run (events ++ []) pool'.threads := by
    rw [List.append_nil, hthreads]
    exact h.run
  exact h.update hrun hprogress htracked fun j hj => ⟨by simp, by simp⟩

theorem step (h : Tracks threads events pool) (laws : threads.Lawful) {event : PoolEvent ι κ ω}
    (hstep : PoolStep S library draw threads pool event pool') :
    Tracks threads (events ++ event.thread?.toList) pool' := by
  cases hstep with
  | arrive harrive => exact h.arrive harrive laws
  | internal hinternal =>
      exact ⟨h.run.step hinternal, fun i => (h.tracked i).append (by simp [PoolEvent.thread?])
        (by simp [PoolEvent.thread?])⟩
  | reject hcall _ => exact h.call laws hcall rfl rfl trivial
  | answer hcall _ _ _ => exact h.call laws hcall rfl rfl trivial
  | begin hcall _ _ _ => exact h.call laws hcall rfl rfl trivial
  | loadReadiness hi => exact h.handle rfl rfl hi trivial trivial
  | readClock now hi => exact h.handle rfl rfl hi trivial trivial
  | commit hi _ => exact h.handle rfl rfl hi trivial trivial
  | write elapsed hi => exact h.handle rfl rfl hi trivial trivial
  | @send i task ending finished s hi _ hsend =>
      have htracked := h.tracked i
      rw [hi] at htracked
      obtain ⟨⟨connection, message, harrived⟩, worker, message', hcalled⟩ := htracked
      refine h.update (h.run.step hsend) rfl ?_ fun j hj =>
        ⟨by simp [PoolEvent.thread?], by simp [PoolEvent.thread?]⟩
      exact ⟨⟨connection, message, List.mem_append_left _ harrived⟩, worker, message',
        List.mem_append_left _ hcalled⟩

theorem throw (h : Tracks threads events pool) (laws : threads.Lawful) {fault : PoolFault ι ω}
    (hstep : ThrowStep S library draw threads pool fault pool') :
    Tracks threads (events ++ (fault.thread?.toList : List (ThreadEvent ι κ ω))) pool' := by
  cases hstep with
  | read _ hcall _ _ _ => exact h.call laws hcall rfl rfl trivial
  | access _ hi => exact h.handle rfl rfl hi trivial trivial
  | commit _ hi _ => exact h.handle rfl rfl hi trivial trivial
  | write _ hi => exact h.handle rfl rfl hi trivial trivial

end Tracks

theorem keeps_tracks (laws : threads.Lawful) :
    (interruptedPool S library draw threads : Machine (Pool τ ι ω ε) _).Keeps fun events pool =>
      Tracks threads (events.filterMap interruptedThread?) pool where
  start pool hstart := by
    refine ⟨.start hstart.1, fun i => ?_⟩
    rw [hstart.2.2 i]
    exact fun _ _ => List.not_mem_nil
  step events pool event pool' h hstep := by
    rw [List.filterMap_append]
    have hlast : [event].filterMap interruptedThread? = (interruptedThread? event).toList := by
      cases hevent : interruptedThread? event <;> simp [hevent]
    rw [hlast]
    cases event with
    | inl event => exact h.step laws hstep
    | inr fault => exact h.throw laws hstep

/-! ## Stages -/

section Stages

variable {events : List (ThreadEvent ι κ ω)} {pool pool' : Pool τ ι ω ε}

theorem PoolStep.moves (h : Tracks threads events pool) (laws : threads.Lawful)
    {event : PoolEvent ι κ ω} (hstep : PoolStep S library draw threads pool event pool') :
    Moves pool.progress pool'.progress event.moments := by
  cases hstep with
  | arrive harrive =>
      exact moves_update (by simp [PoolEvent.moments, Moment.operation])
        (h.absent_of_arrive laws harrive) rfl
  | internal _ => exact fun i => (List.append_nil _).symm
  | reject hcall _ =>
      exact moves_update (by simp [PoolEvent.moments, Moment.operation])
        (h.queued_of_call laws hcall) rfl
  | answer hcall _ _ _ =>
      exact moves_update (by simp [PoolEvent.moments, Moment.operation])
        (h.queued_of_call laws hcall) rfl
  | begin hcall _ _ _ =>
      exact moves_update (by simp [PoolEvent.moments])
        (h.queued_of_call laws hcall) rfl
  | loadReadiness hi => exact moves_update (by simp [PoolEvent.moments, Moment.operation]) hi rfl
  | readClock now hi => exact moves_update (by simp [PoolEvent.moments]) hi rfl
  | commit hi _ => exact moves_update (by simp [PoolEvent.moments, Moment.operation]) hi rfl
  | write elapsed hi => exact moves_update (by simp [PoolEvent.moments]) hi rfl
  | send hi _ _ => exact moves_update (by simp [PoolEvent.moments, Moment.operation]) hi rfl

theorem ThrowStep.moves (h : Tracks threads events pool) (laws : threads.Lawful)
    {fault : PoolFault ι ω} (hstep : ThrowStep S library draw threads pool fault pool') :
    Moves pool.progress pool'.progress fault.moments := by
  cases hstep with
  | read _ hcall _ _ _ =>
      exact moves_update (by simp [PoolFault.moments, Moment.operation])
        (h.queued_of_call laws hcall) rfl
  | access _ hi => exact moves_update (by simp [PoolFault.moments, Moment.operation]) hi rfl
  | commit _ hi _ => exact moves_update (by simp [PoolFault.moments, Moment.operation]) hi rfl
  | write _ hi => exact moves_update (by simp [PoolFault.moments]) hi rfl

end Stages

theorem staged_interrupted (laws : threads.Lawful) :
    (interruptedPool S library draw threads : Machine (Pool τ ι ω ε) _).Staged
      (fun pool i => (pool.progress i).stage) interruptedMoments where
  start pool hstart i := by
    rw [hstart.2.2]
    rfl
  step events pool event pool' hrun hstep j := by
    have htracks := (keeps_tracks laws).run hrun
    cases event with
    | inl event => exact PoolStep.moves htracks laws hstep j
    | inr fault => exact ThrowStep.moves htracks laws hstep j

/-! ## Turns -/

variable {pool : Pool τ ι ω ε} {events : List (PoolEvent ι κ ω ⊕ PoolFault ι ω)}

/-- What has taken effect has been called. -/
theorem exists_call (laws : threads.Lawful)
    (h : (interruptedPool S library draw threads).Run events pool) {i : ι}
    (hi : i ∈ effects (history interruptedMoments events)) :
    ∃ worker message, .call i worker message ∈ events.filterMap interruptedThread? := by
  have hmoment : .effect i ∈ momentsOf i (history interruptedMoments events) :=
    mem_momentsOf.mpr ⟨mem_effects.mp hi, rfl⟩
  rw [(staged_interrupted laws).momentsOf_eq h] at hmoment
  have htracked := ((keeps_tracks laws).run h).tracked i
  have hcalled : (pool.progress i).IsCalled := by
    cases hprogress : pool.progress i <;>
      simp [hprogress, Progress.stage, Stage.moments, Progress.IsCalled] at hmoment ⊢
  exact ((tracked_iff hcalled _ i).mp htracked).2

omit [DecidableEq ι] [DecidableEq ω] in
theorem returned_of_send {event : PoolEvent ι κ ω ⊕ PoolFault ι ω} {i : ι}
    (h : interruptedThread? event = some (.send i)) : .returned i ∈ interruptedMoments event := by
  rcases event with event | fault
  · cases event <;> simp_all [interruptedThread?, PoolEvent.thread?, interruptedMoments,
      PoolEvent.moments]
  · cases fault <;> simp_all [interruptedThread?, PoolFault.thread?]

/-- Of two messages of a connection, the first one takes effect first. -/
theorem in_turn (laws : threads.Lawful)
    (h : (interruptedPool S library draw threads).Run events pool) {i j : ι} {connection : κ}
    {message message' : Message}
    (harrived : [.inl (.arrive i connection message), .inl (.arrive j connection message')].Sublist
      events) (hj : j ∈ effects (history interruptedMoments events)) :
    [i, j].Sublist (effects (history interruptedMoments events)) := by
  obtain ⟨worker, message'', hcall⟩ := exists_call laws h hj
  obtain ⟨event, hevent, hthread⟩ := List.mem_filterMap.mp hcall
  obtain ⟨before, after, rfl⟩ := List.append_of_mem hevent
  have hthreads := ((keeps_tracks laws).run h).run
  have hpair := harrived.filterMap interruptedThread?
  rw [List.filterMap_append, List.filterMap_cons_some hthread] at hthreads hpair
  have hsent : .send i ∈ before.filterMap interruptedThread? :=
    laws.sent_of_call hthreads hpair
  -- The second message is called after the first one has been answered.
  have hlabels : before ++ event :: after = before ++ [event] ++ after := by simp
  obtain ⟨pool'', hrun'⟩ := (hlabels ▸ h).exists_front
  obtain ⟨pool', hrun, hstep⟩ := hrun'.exists_last
  have hi : i ∈ effects (history interruptedMoments before) := by
    rw [mem_effects]
    obtain ⟨sent, hmem, hsend⟩ := List.mem_filterMap.mp hsent
    have hreturned : .returned i ∈ history interruptedMoments before :=
      List.mem_flatMap.mpr ⟨sent, hmem, returned_of_send hsend⟩
    obtain ⟨front, back, hhistory⟩ := List.append_of_mem hreturned
    have heffect := ((staged_interrupted laws).orderly hrun).effect_of_returned hhistory
    rw [hhistory]
    exact List.mem_append_left _ heffect
  have hlate : j ∈ effects (history interruptedMoments (event :: after)) := by
    rw [history, List.flatMap_append, effects_append] at hj
    refine (List.mem_append.mp hj).resolve_left fun hearly => ?_
    obtain ⟨worker', message', hcalled⟩ := exists_call laws hrun hearly
    have hthreads := ((keeps_tracks laws).run hrun').run
    rw [List.filterMap_append, List.filterMap_cons_some hthread] at hthreads
    exact laws.calls_once hthreads worker' message' hcalled
  rw [history, List.flatMap_append, effects_append]
  exact (List.singleton_sublist.mpr hi).append (List.singleton_sublist.mpr hlate)

/-! ## Workers that do not throw -/

theorem run_interrupted {events : List (PoolEvent ι κ ω)}
    (h : (workerPool S library draw threads).Run events pool) :
    (interruptedPool S library draw threads).Run (events.map .inl) pool := by
  induction h with
  | start hinitial => exact .start hinitial
  | step _ hstep ih =>
      rw [List.map_append]
      exact run_inl ih hstep

theorem tracks_workers {events : List (PoolEvent ι κ ω)} (laws : threads.Lawful)
    (h : (workerPool S library draw threads).Run events pool) :
    Tracks threads (events.filterMap PoolEvent.thread?) pool := by
  have htracks := (keeps_tracks laws).run (run_interrupted h)
  rwa [List.filterMap_map] at htracks

theorem staged_workers (laws : threads.Lawful) :
    (workerPool S library draw threads : Machine (Pool τ ι ω ε) _).Staged
      (fun pool i => (pool.progress i).stage) PoolEvent.moments where
  start pool hstart i := by
    rw [hstart.2.2]
    rfl
  step _ _ _ _ hrun hstep := PoolStep.moves (tracks_workers laws hrun) laws hstep

theorem in_turn_workers {events : List (PoolEvent ι κ ω)} (laws : threads.Lawful)
    (h : (workerPool S library draw threads).Run events pool) {i j : ι} {connection : κ}
    {message message' : Message}
    (harrived : [.arrive i connection message, .arrive j connection message'].Sublist events)
    (hj : j ∈ effects (history PoolEvent.moments events)) :
    [i, j].Sublist (effects (history PoolEvent.moments events)) := by
  have hhistory : history PoolEvent.moments events =
      history (interruptedMoments : PoolEvent ι κ ω ⊕ PoolFault ι ω → _) (events.map .inl) := by
    rw [history, history, List.flatMap_map]
    rfl
  rw [hhistory] at hj ⊢
  exact in_turn laws (run_interrupted h) (harrived.map Sum.inl) hj

end Leta
