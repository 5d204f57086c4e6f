import Leta.Verification.Catalogue

/-! # Concurrent calls

Every call first reads the clock and later commits, in one operation of the repository under
its mutex. Any interleaving gives the replies and the repository of the calls one at a time,
in the order of their commits. -/

namespace Leta

variable {ι : Type} [DecidableEq ι]

/-- How far a call has come. -/
inductive Status where
  | waiting
  | stamped (now : Timestamp)
  | done (now : Timestamp) (reply : Reply)

structure World (ι : Type) where
  repository : InMemoryIndexRepository
  status : ι → Status

def World.initial : World ι := ⟨.empty, fun _ => .waiting⟩

inductive Event (ι : Type) where
  | readClock (i : ι) (now : Timestamp)
  | commit (i : ι)

/-- One step of one call. The clock may read anything. -/
inductive CallStep (calls : ι → Call) : World ι → Event ι → World ι → Prop where
  | readClock {w i} (now) : w.status i = .waiting →
      CallStep calls w (.readClock i now)
        ⟨w.repository, Function.update w.status i (.stamped now)⟩
  | commit {w i now} : w.status i = .stamped now →
      CallStep calls w (.commit i) ⟨((calls i).run now w.repository).2,
        Function.update w.status i (.done now ((calls i).run now w.repository).1)⟩

/-- Any interleaving of the calls' steps. -/
inductive CallSteps (calls : ι → Call) : List (Event ι) → World ι → Prop where
  | nil : CallSteps calls [] .initial
  | snoc {events w event w'} : CallSteps calls events w → CallStep calls w event w' →
      CallSteps calls (events ++ [event]) w'

/-- The calls that have committed, in order. -/
def commits (events : List (Event ι)) : List ι :=
  events.filterMap fun
    | .commit i => some i
    | .readClock _ _ => none

/-- The calls of an order, with their clock readings. -/
def historyOf (calls : ι → Call) (order : List (ι × Timestamp)) : List (Call × Timestamp) :=
  order.map fun entry => (calls entry.1, entry.2)

/-- The order explains the world: it is the order of the commits, with the clock readings the
calls took, and running the calls in it gives their replies and the repository. -/
structure Linearizes (calls : ι → Call) (events : List (Event ι)) (w : World ι)
    (order : List (ι × Timestamp)) : Prop where
  commits : order.map Prod.fst = commits events
  nodup : (order.map Prod.fst).Nodup
  clock : ∀ entry ∈ order, .readClock entry.1 entry.2 ∈ events
  repository : w.repository = runCalls (historyOf calls order) .empty
  reply : ∀ before i now after, order = before ++ (i, now) :: after →
    w.status i = .done now ((calls i).run now (runCalls (historyOf calls before) .empty)).1
  finished : ∀ i now reply, w.status i = .done now reply → i ∈ order.map Prod.fst

omit [DecidableEq ι] in
theorem historyOf_append (calls : ι → Call) (front back : List (ι × Timestamp)) :
    historyOf calls (front ++ back) = historyOf calls front ++ historyOf calls back :=
  List.map_append

/-- A call that holds a reading took it. -/
def Stamped (events : List (Event ι)) (w : World ι) : Prop :=
  ∀ i now, w.status i = .stamped now → .readClock i now ∈ events

theorem stamped_step {calls : ι → Call} {events : List (Event ι)} {w w' : World ι}
    {event : Event ι} (h : Stamped events w) (hstep : CallStep calls w event w') :
    Stamped (events ++ [event]) w' := by
  intro i now hi
  cases hstep with
  | @readClock j now' hj =>
      simp only [Function.update_apply] at hi
      split_ifs at hi with hij
      · cases hi
        simp [hij]
      · exact List.mem_append_left _ (h i now hi)
  | @commit j now' hj =>
      simp only [Function.update_apply] at hi
      split_ifs at hi with hij
      exact List.mem_append_left _ (h i now hi)

/-- Reading the clock changes nothing that the order explains. -/
theorem linearizes_readClock {calls : ι → Call} {events : List (Event ι)} {w : World ι}
    {order : List (ι × Timestamp)} {i : ι} (h : Linearizes calls events w order)
    (hi : w.status i = .waiting) (now : Timestamp) :
    Linearizes calls (events ++ [.readClock i now])
      ⟨w.repository, Function.update w.status i (.stamped now)⟩ order where
  commits := by simp [h.commits, Leta.commits]
  nodup := h.nodup
  clock entry hentry := List.mem_append_left _ (h.clock entry hentry)
  repository := h.repository
  reply before j now' after horder := by
    have hj := h.reply before j now' after horder
    have hne : j ≠ i := by
      rintro rfl
      rw [hi] at hj
      cases hj
    exact (Function.update_of_ne hne _ _).trans hj
  finished j now' reply hj := by
    simp only [Function.update_apply] at hj
    split_ifs at hj
    exact h.finished j now' reply hj

/-- A commit comes last in the order. -/
theorem linearizes_commit {calls : ι → Call} {events : List (Event ι)} {w : World ι}
    {order : List (ι × Timestamp)} {i : ι} {now : Timestamp} (h : Linearizes calls events w order)
    (hstamped : Stamped events w) (hi : w.status i = .stamped now) :
    Linearizes calls (events ++ [.commit i]) ⟨((calls i).run now w.repository).2,
      Function.update w.status i (.done now ((calls i).run now w.repository).1)⟩
      (order ++ [(i, now)]) := by
  have hnew : i ∉ order.map Prod.fst := by
    intro hmem
    obtain ⟨⟨j, now'⟩, hentry, rfl⟩ := List.mem_map.mp hmem
    obtain ⟨before, after, horder⟩ := List.append_of_mem hentry
    have hdone := h.reply before j now' after horder
    rw [hi] at hdone
    cases hdone
  refine ⟨by simp [h.commits, Leta.commits], ?_, ?_, ?_, ?_, ?_⟩
  · rw [List.map_append]
    exact h.nodup.append (by simp) (by simpa using hnew)
  · intro entry hentry
    rcases List.mem_append.mp hentry with hentry | hentry
    · exact List.mem_append_left _ (h.clock entry hentry)
    · obtain rfl := List.mem_singleton.mp hentry
      exact List.mem_append_left _ (hstamped i now hi)
  · rw [historyOf_append, runCalls_append, ← h.repository]
    rfl
  · intro before j now' after horder
    rcases List.eq_nil_or_concat after with rfl | ⟨front, last, rfl⟩
    · obtain ⟨rfl, hlast⟩ := List.append_inj' horder rfl
      obtain ⟨rfl, rfl⟩ := Prod.mk.inj (List.singleton_inj.mp hlast)
      rw [← h.repository]
      exact Function.update_self _ _ _
    · rw [List.concat_eq_append, ← List.cons_append, ← List.append_assoc] at horder
      obtain ⟨rfl, -⟩ := List.append_inj' horder rfl
      have hne : j ≠ i := by
        rintro rfl
        simp at hnew
      exact (Function.update_of_ne hne _ _).trans (h.reply before j now' front rfl)
  · intro j now' reply hj
    simp only [Function.update_apply] at hj
    split_ifs at hj with hij
    · simp [hij]
    · rw [List.map_append]
      exact List.mem_append_left _ (h.finished j now' reply hj)

theorem exists_order {calls : ι → Call} {events : List (Event ι)} {w : World ι}
    (h : CallSteps calls events w) :
    Stamped events w ∧ ∃ order, Linearizes calls events w order := by
  induction h with
  | nil =>
      refine ⟨?_, [], rfl, by simp, by simp, rfl, by simp, ?_⟩
      · intro i now hi
        cases hi
      · intro i now reply hi
        cases hi
  | snoc _ hstep ih =>
      obtain ⟨hstamped, order, horder⟩ := ih
      refine ⟨stamped_step hstamped hstep, ?_⟩
      cases hstep with
      | readClock now hi => exact ⟨order, linearizes_readClock horder hi now⟩
      | commit hi => exact ⟨_, linearizes_commit horder hstamped hi⟩

/-! ## What the calls answer -/

/-- A call of the history is for the uid. -/
def Named (history : List (Call × Timestamp)) (uid : IndexUid) : Prop :=
  ∃ entry ∈ history, entry.1.uid = uid

theorem isFor_iff {uid : IndexUid} {entry : Call × Timestamp} :
    IsFor uid.value entry ↔ entry.1.uid = uid := by
  rw [IsFor, beq_iff_eq, IndexUid.ext_iff]

theorem find?_isFor_eq_none {history : List (Call × Timestamp)} {uid : IndexUid} :
    history.find? (IsFor uid.value) = none ↔ ¬ Named history uid := by
  simp only [List.find?_eq_none, isFor_iff, Named, not_exists, not_and]

/-- A create after a call for its uid fails, and changes nothing. -/
theorem run_create_named {history : List (Call × Timestamp)} {command : CreateIndexCommand}
    (h : Named history command.uid) (now : Timestamp) :
    (Call.create command).run now (runCalls history .empty) =
      (.created (.error ⟨.indexAlreadyExists,
        InMemoryIndexRepository.alreadyExistsMessage command.uid⟩), runCalls history .empty) := by
  cases hfirst : history.find? (IsFor command.uid.value) with
  | none => exact absurd h (find?_isFor_eq_none.mp hfirst)
  | some first =>
      have hstored := getElem?_runCalls history command.uid.value
      rw [hfirst] at hstored
      exact run_create_taken hstored now

/-- A create before any call for its uid succeeds. -/
theorem run_create_unnamed {history : List (Call × Timestamp)} {command : CreateIndexCommand}
    (h : ¬ Named history command.uid) (now : Timestamp) :
    ((Call.create command).run now (runCalls history .empty)).1 =
      .created (.ok (indexCreatedAt now command.uid command.primaryKey)) := by
  have hstored := getElem?_runCalls history command.uid.value
  rw [find?_isFor_eq_none.mpr h] at hstored
  rw [run_create_free hstored]

/-- An ingest succeeds. It answers with the number of its documents, and with the primary key of
the first call for its uid. -/
theorem run_ingest (history : List (Call × Timestamp)) (command : AddDocumentsCommand)
    (now : Timestamp) : ∃ first,
    (history ++ [(Call.ingest command, now)]).find? (IsFor command.uid.value) = some first ∧
      ((Call.ingest command).run now (runCalls history .empty)).1 =
        .ingested (.ok ⟨command.documents.length, (metadataOf first).primaryKey⟩) := by
  have hstored := getElem?_runCalls history command.uid.value
  rw [List.find?_append]
  cases hfirst : history.find? (IsFor command.uid.value) with
  | none =>
      rw [hfirst] at hstored
      refine ⟨(Call.ingest command, now), by simp [IsFor, Call.uid], ?_⟩
      rw [run_ingest_reply, storedOrNew, hstored]
      rfl
  | some first =>
      rw [hfirst] at hstored
      refine ⟨first, rfl, ?_⟩
      rw [run_ingest_reply, storedOrNew, hstored]
      rfl

/-- Concurrent calls take effect one at a time, in the order of their operations on the
repository. -/
theorem concurrent_calls {calls : ι → Call} {events : List (Event ι)} {w : World ι}
    (h : CallSteps calls events w) :
    ∃ order, Linearizes calls events w order ∧
      (∀ before i now after, order = before ++ (i, now) :: after →
        let history := historyOf calls before
        (∀ command, calls i = .create command → Named history command.uid →
          w.status i = .done now (.created (.error ⟨.indexAlreadyExists,
              InMemoryIndexRepository.alreadyExistsMessage command.uid⟩)) ∧
            runCalls (history ++ [(calls i, now)]) .empty = runCalls history .empty) ∧
        (∀ command, calls i = .create command → ¬ Named history command.uid →
          w.status i = .done now
            (.created (.ok (indexCreatedAt now command.uid command.primaryKey)))) ∧
        (∀ command, calls i = .ingest command → ∃ first,
          (history ++ [(calls i, now)]).find? (IsFor command.uid.value) = some first ∧
            w.status i = .done now (.ingested
              (.ok ⟨command.documents.length, (metadataOf first).primaryKey⟩)))) ∧
      ∀ before after, order = before ++ after → ∀ uid,
        let history := historyOf calls before
        (∀ first, history.find? (IsFor uid) = some first → ∃ stored,
          (runCalls history .empty).indexes[uid]? = some stored ∧
            stored.metadata = metadataOf first ∧
            stored.documents = .ofDocuments (batchesFor uid history) ∧
            stored.documents.sources = (batchesFor uid history).map Document.source) ∧
        (history.find? (IsFor uid) = none → (runCalls history .empty).indexes[uid]? = none) := by
  obtain ⟨-, order, horder⟩ := exists_order h
  refine ⟨order, horder, fun before i now after hsplit => ?_, fun before after _ uid => ?_⟩
  · have hreply := horder.reply before i now after hsplit
    refine ⟨fun command hcall hnamed => ?_, fun command hcall hnamed => ?_,
      fun command hcall => ?_⟩
    · rw [hcall] at hreply ⊢
      rw [runCalls_append]
      have hrun := run_create_named hnamed now
      exact ⟨hreply.trans (by rw [hrun]), congrArg Prod.snd hrun⟩
    · rw [hcall] at hreply
      exact hreply.trans (by rw [run_create_unnamed hnamed])
    · rw [hcall] at hreply ⊢
      obtain ⟨first, hfirst, hrun⟩ := run_ingest (historyOf calls before) command now
      exact ⟨first, hfirst, hreply.trans (by rw [hrun])⟩
  · have hstored := getElem?_runCalls (historyOf calls before) uid
    refine ⟨fun first hfirst => ?_, fun hfirst => ?_⟩
    · rw [hfirst] at hstored
      exact ⟨_, hstored, rfl, rfl, ExactMatchIndex.sources_ofDocuments _⟩
    · rwa [hfirst] at hstored

/-- An index of the uid `a`, with no primary key, and a batch of one document. -/
def raceCalls : Bool → Call
  | true => .create ⟨⟨ascii "a", by decide⟩, some (ascii "id")⟩
  | false => .ingest ⟨⟨ascii "a", by decide⟩, [⟨ascii "\x7b\x7d", []⟩]⟩

/-- The create reads its clock first and commits last. -/
def raceEvents : List (Event Bool) :=
  [.readClock true 1, .readClock false 2, .commit false, .commit true]

theorem raceSteps : ∃ w, CallSteps raceCalls raceEvents w :=
  ⟨_, .snoc (.snoc (.snoc (.snoc .nil (.readClock 1 rfl)) (.readClock 2 rfl)) (.commit rfl))
    (.commit rfl)⟩

theorem concurrent_calls_race : ∃ w, CallSteps raceCalls raceEvents w ∧
    ∃ now message, w.status true =
      .done now (.created (.error ⟨.indexAlreadyExists, message⟩)) := by
  obtain ⟨w, hsteps⟩ := raceSteps
  obtain ⟨order, horder, hreplies, -⟩ := concurrent_calls hsteps
  obtain ⟨⟨i, now₁⟩, ⟨j, now₂⟩, rfl⟩ : ∃ first second, order = [first, second] := by
    have hlength := congrArg List.length horder.commits
    rw [List.length_map] at hlength
    exact List.length_eq_two.mp hlength
  obtain ⟨rfl, rfl⟩ : i = false ∧ j = true := by simpa [commits, raceEvents] using horder.commits
  have hcreate := (hreplies [(false, now₁)] true now₂ [] rfl).1 _ rfl
    ⟨(raceCalls false, now₁), List.mem_singleton_self _, rfl⟩
  exact ⟨w, hsteps, now₂, _, hcreate.1⟩

end Leta
