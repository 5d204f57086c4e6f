import Leta.Foundation.Costs
import Leta.Verification.Acknowledgement

/-! # What the storage grows by

However many handlers run out of memory: what is stored is paid for, byte by byte, by what was
sent. -/

namespace Leta

open Allocating Httplib Json Ondemand

/-! ## Texts -/

/-- A string literal is longer than its text. -/
theorem length_fieldText_le (field : StringLiteral × Json.Value) :
    ((fieldText field).map fun text => text.length + 1).sum ≤ field.2.render.length := by
  obtain ⟨key, value⟩ := field
  cases value with
  | string s =>
      cases htext : s.text with
      | none => simp [fieldText, htext]
      | some text =>
          have hlength := ((unescape_eq_some_iff s.body text).mp htext).length_le
          simp only [fieldText, htext, Option.toList_some, List.map_cons, List.map_nil,
            List.sum_cons, List.sum_nil, Value.render, StringLiteral.render, List.length_append,
            List.length_cons, List.length_nil]
          omega
  | null | bool | number | emptyArray | array | emptyObject | object => simp [fieldText]

theorem length_membersText_le : ∀ members : Members,
    ((members.fields.flatMap fieldText).map fun text => text.length + 1).sum ≤
      members.render.length
  | .last key _ _ v _ => by
      have hfield := length_fieldText_le (key, v)
      simp only [Members.fields, Members.render, List.flatMap_cons, List.flatMap_nil,
        List.append_nil, List.length_append, List.length_cons] at hfield ⊢
      omega
  | .cons key _ _ v _ _ rest => by
      have hfield := length_fieldText_le (key, v)
      have hrest := length_membersText_le rest
      simp only [Members.fields, Members.render, List.flatMap_cons, List.map_append,
        List.sum_append, List.length_append, List.length_cons] at hfield ⊢
      omega

theorem length_valueText_le (v : Json.Value) :
    ((v.fields.flatMap fieldText).map fun text => text.length + 1).sum ≤ v.render.length := by
  cases v with
  | object before members =>
      have hmembers := length_membersText_le members
      simp only [Value.fields, Value.render, List.length_append, List.length_cons]
      omega
  | null | bool | number | string | emptyArray | array | emptyObject => simp [Value.fields]

theorem length_items_le : ∀ items : Items,
    (items.values.map fun v => v.render.length).sum ≤ items.render.length
  | .last v _ => by simp [Items.values, Items.render]
  | .cons v _ _ rest => by
      have hrest := length_items_le rest
      simp only [Items.values, Items.render, List.map_cons, List.sum_cons, List.length_append,
        List.length_cons]
      omega

theorem length_elements_le (v : Json.Value) :
    (v.elements.map fun v => v.render.length).sum ≤ v.render.length := by
  cases v with
  | array before items =>
      have hitems := length_items_le items
      simp only [Value.elements, Value.render, List.length_append, List.length_cons]
      omega
  | null | bool | number | string | emptyArray | emptyObject | object => simp [Value.elements]

/-! ## One index -/

namespace ExactMatchIndex

def bytesPerDocId : ℕ := 4

/-- The bytes of a term and of its posting list. -/
def postingsSize (term : Bytes) (documents : List DocId) : ℕ :=
  term.length + bytesPerDocId * documents.length

/-- The bytes of the sources, the terms and the posting lists. -/
def size (index : ExactMatchIndex) : ℕ :=
  (index.sources.map List.length).sum + weight postingsSize index.postings

theorem size_insert (index : ExactMatchIndex) (term : Bytes) (documents : List DocId) :
    size { index with postings := index.postings.insert term documents } +
        index.postings[term]?.elim 0 (postingsSize term) =
      index.size + postingsSize term documents := by
  have hweight := weight_eq_off postingsSize term fun other hother =>
    (getElem?_insert index.postings term other documents).trans (if_neg hother)
  rw [getElem?_insert, if_pos rfl, Option.elim_some] at hweight
  simp only [size]
  omega

theorem postingsSize_append (term : Bytes) (documents : List DocId) (documentId : DocId) :
    postingsSize term (documents ++ [documentId]) =
      postingsSize term documents + bytesPerDocId := by
  simp only [postingsSize, List.length_append, List.length_singleton]
  ring

theorem costs_record (term : Bytes) (documentId : DocId) :
    Costs size (record term documentId) (term.length + bytesPerDocId) := by
  intro index
  by_cases hlast : (index.documentsContaining term).getLast? = some documentId
  · rw [record_repeated hlast]
    simp
  · by_cases hterm : term ∈ index.postings
    · have hstored : index.postings[term]? = some (index.documentsContaining term) :=
        Std.ExtTreeMap.getElem?_eq_some_getD hterm
      have hinsert := size_insert index term (index.documentsContaining term ++ [documentId])
      rw [hstored, Option.elim_some, postingsSize_append] at hinsert
      rw [record_known hterm hlast]
      refine ⟨?_, by simp⟩
      dsimp only
      omega
    · have hopen := size_insert index term []
      have hinsert := size_insert { index with postings := index.postings.insert term [] } term
        [documentId]
      rw [Std.ExtTreeMap.getElem?_eq_none hterm, Option.elim_none] at hopen
      rw [getElem?_insert, if_pos rfl, Option.elim_some] at hinsert
      rw [record_unknown hterm]
      simp only [postingsSize, List.length_nil, List.length_singleton, Nat.mul_zero, Nat.mul_one,
        Nat.add_zero] at hopen hinsert
      simp only [List.forall_mem_cons]
      exact ⟨by omega, by omega, by omega, by omega, by simp⟩

theorem costs_splitting (text : Bytes) : Costs size (splitting text) 0 := by
  have hloop : Costs size ((splitOnWhitespace text).forM fun _ => allocate) _ :=
    Costs.forM (fun _ => costs_allocate) (splitOnWhitespace text)
  exact (hloop.bind fun _ => costs_pure (splitOnWhitespace text)).mono (by simp)

/-- A word is not empty, so it pays for its posting with what keeps it from the next. -/
theorem size_words_le (text : Bytes) :
    ((words isAsciiWhitespace text).map fun word => word.length + bytesPerDocId).sum ≤
      3 * (text.length + 1) := by
  have hword : ∀ word ∈ words isAsciiWhitespace text,
      word.length + bytesPerDocId ≤ 3 * (word.length + 1) := by
    intro word hword
    have hpositive := List.length_pos_iff.mpr (isMaximalRun_of_mem_words hword).ne_nil
    rw [bytesPerDocId]
    omega
  calc ((words isAsciiWhitespace text).map fun word => word.length + bytesPerDocId).sum
      ≤ ((words isAsciiWhitespace text).map fun word => 3 * (word.length + 1)).sum :=
        List.sum_le_sum hword
    _ = 3 * ((words isAsciiWhitespace text).map fun word => word.length + 1).sum :=
        List.sum_map_mul_left ..
    _ ≤ 3 * (text.length + 1) := Nat.mul_le_mul_left 3 (length_words_le text)

/-- The words of a text and their postings take no more than three times the text with one byte
behind it. -/
theorem costs_recordText (documentId : DocId) (text : Bytes) :
    Costs size (recordText documentId text) (3 * (text.length + 1)) := by
  have hwords : Costs size (recordText documentId text)
      (0 + ((splitOnWhitespace text).map fun word => word.length + bytesPerDocId).sum) :=
    (costs_splitting text).bind fun _ =>
      Costs.forM (fun word => costs_record word documentId) (splitOnWhitespace text)
  apply hwords.mono
  rw [Nat.zero_add, splitOnWhitespace_eq_words]
  exact size_words_le text

end ExactMatchIndex

/-- What a document takes: its source, and its texts three times, with one byte behind each. -/
def Document.cost (document : Document) : ℕ :=
  (document.searchableText.map fun text => 3 * (text.length + 1)).sum + document.source.length

/-- What is read from an object takes no more than the object four times. -/
theorem cost_documentOf_le (v : Json.Value) : (documentOf v).cost ≤ 4 * v.render.length := by
  have htext := length_valueText_le v
  simp only [Document.cost, documentOf, List.sum_map_mul_left]
  omega

namespace ExactMatchIndex

theorem costs_add (document : Document) : Costs size (add document) document.cost := by
  have hsource : ∀ index : ExactMatchIndex,
      size { index with sources := index.sources ++ [document.source] } ≤
        index.size + document.source.length := by
    intro index
    simp only [size, List.map_append, List.sum_append, List.map_cons, List.map_nil,
      List.sum_cons, List.sum_nil]
    omega
  have hadd : Costs size (add document) (0 + ((document.searchableText.map fun text =>
      3 * (text.length + 1)).sum + (0 + (document.source.length + 0)))) :=
    costs_getState.bind fun index =>
      (Costs.forM (costs_recordText (UInt32.ofNat index.sources.length))
        document.searchableText).bind fun _ =>
      costs_allocate.bind fun _ => (costs_modifyState hsource).bind fun _ =>
      costs_pure (UInt32.ofNat index.sources.length)
  exact hadd.mono (by simp [Document.cost])

theorem size_path {index after : ExactMatchIndex} {events : List AddEvent}
    (h : calls.Path index events after) :
    after.size ≤ index.size + (events.map fun event => event.document.cost).sum := by
  induction h with
  | refl => simp
  | @step events middle event after _ hstep ih =>
      have hcosts : after.size ≤ middle.size + event.document.cost := by
        cases event with
        | returned document =>
            obtain ⟨failure, documentId, hrun⟩ := hstep
            exact (costs_add document).run.1 documentId after hrun
        | threw document =>
            obtain ⟨k, hrun⟩ := hstep
            exact (costs_add document).run.2 after hrun
      simp only [List.map_append, List.sum_append, List.map_cons, List.map_nil, List.sum_cons,
        List.sum_nil]
      omega

end ExactMatchIndex

/-! ## The repository -/

def bytesPerTimestamp : ℕ := 8

/-- The uid, the primary key and when it was created and updated. -/
def IndexMetadata.size (index : IndexMetadata) : ℕ :=
  index.uid.value.length + index.primaryKey.elim 0 List.length + 2 * bytesPerTimestamp

/-- The bytes of an index under its uid. -/
def StoredIndex.size (uid : Bytes) (stored : StoredIndex) : ℕ :=
  uid.length + stored.metadata.size + stored.documents.size

namespace InMemoryIndexRepository

open ExactMatchIndex (AddEvent size_path)

def size (repository : InMemoryIndexRepository) : ℕ :=
  weight StoredIndex.size repository.indexes

/-- What an operation brings. -/
def RepositoryEvent.cost (event : RepositoryEvent) : ℕ :=
  event.uid.length + event.index.size + (event.documents.map Document.cost).sum

/-- Also a document whose adding throws is paid for. -/
theorem Does.cost_le {event : RepositoryEvent} {part : List AddEvent} (h : Does event part) :
    (part.map fun event => event.document.cost).sum ≤
      (event.documents.map Document.cost).sum := by
  cases h with
  | added _ | addThrew _ => exact le_rfl
  | ingested _ documents =>
      rw [List.map_map]
      exact le_rfl
  | between _ hfront =>
      obtain ⟨rest, rfl⟩ := hfront
      rw [List.map_map]
      simp only [RepositoryEvent.documents, List.map_append, List.sum_append]
      exact Nat.le_add_right _ _
  | within _ hfront =>
      obtain ⟨rest, rfl⟩ := hfront
      rw [List.map_append, List.map_map]
      simp only [RepositoryEvent.documents, List.map_append, List.sum_append]
      exact Nat.le_add_right _ _

theorem size_step {repository after : InMemoryIndexRepository} {event : RepositoryEvent}
    (h : operations.Step repository event after) : after.size ≤ repository.size + event.cost := by
  obtain ⟨haffects, hothers⟩ := affects_step h
  have hweight := weight_eq_off StoredIndex.size event.uid hothers
  have hindex : after.indexes[event.uid]?.elim 0 (StoredIndex.size event.uid) ≤
      repository.indexes[event.uid]?.elim 0 (StoredIndex.size event.uid) + event.cost := by
    generalize repository.indexes[event.uid]? = before at haffects
    generalize after.indexes[event.uid]? = now at haffects
    cases haffects with
    | nothing => exact Nat.zero_le _
    | created hdoes hpath =>
        have hsize := size_path hpath
        have hcost := hdoes.cost_le
        have hempty : ExactMatchIndex.empty.size = 0 := by
          simp [ExactMatchIndex.size, ExactMatchIndex.empty, weight_empty]
        simp only [Option.elim_none, Option.elim_some, StoredIndex.size, RepositoryEvent.cost]
        omega
    | extended hdoes hpath =>
        have hsize := size_path hpath
        have hcost := hdoes.cost_le
        simp only [Option.elim_some, StoredIndex.size, RepositoryEvent.cost]
        omega
  simp only [size]
  omega

end InMemoryIndexRepository

/-! ## One message -/

def memberText (member : Bytes × Data) : List Bytes :=
  match member.2 with
  | .string text => [text]
  | _ => []

theorem flatMap_fieldText {fields : List (StringLiteral × Json.Value)}
    {members : List (Bytes × Data)} (h : List.Forall₂ FieldMeans fields members) :
    fields.flatMap fieldText = members.flatMap memberText := by
  induction h with
  | nil => rfl
  | @cons field member _ _ hfield _ ih =>
      rw [List.flatMap_cons, List.flatMap_cons, ih]
      congr 1
      obtain ⟨key, value⟩ := field
      obtain ⟨name, data⟩ := member
      have hvalue : value.decode = some data := hfield.2
      cases value with
      | string s =>
          obtain ⟨text, htext, rfl⟩ := Option.map_eq_some_iff.mp hvalue
          simp [fieldText, memberText, htext]
      | array | object =>
          obtain ⟨_, -, rfl⟩ := Option.map_eq_some_iff.mp hvalue
          rfl
      | null | bool | number | emptyArray | emptyObject =>
          cases hvalue
          rfl

/-- The names of an index are in the body that asks for it. -/
theorem length_isCreateIndex {body uid : Bytes} {primaryKey : Option Bytes}
    (h : IsCreateIndex body uid primaryKey) :
    uid.length + primaryKey.elim 0 List.length ≤ body.length := by
  obtain ⟨-, members, ⟨before, after, v, htext, hdecode⟩, hnames⟩ := h
  have hvalue := length_valueText_le v
  rw [flatMap_fieldText (Value.decode_eq_object.mp hdecode).2] at hvalue
  have hbody := length_dropByteOrderMark_le body
  rw [htext, List.length_append, List.length_append] at hbody
  have hperm : ∀ members', members.Perm members' →
      ((members.flatMap memberText).map fun text => text.length + 1).sum =
        ((members'.flatMap memberText).map fun text => text.length + 1).sum :=
    fun members' hperm => ((hperm.flatMap_right memberText).map _).sum_eq
  cases primaryKey with
  | some key =>
      have hsum := hperm _ hnames
      simp only [List.flatMap_cons, List.flatMap_nil, memberText, List.append_nil,
        List.cons_append, List.nil_append, List.map_cons, List.map_nil, List.sum_cons,
        List.sum_nil] at hsum
      simp only [Option.elim_some]
      omega
  | none =>
      have hsum : ((members.flatMap memberText).map fun text => text.length + 1).sum =
          uid.length + 1 := by
        rcases hnames with hnames | hnames
        · exact hperm _ hnames
        · exact hperm _ hnames
      simp only [Option.elim_none]
      omega

theorem cost_batch_le {body : Bytes} {before : Ws} {batch : Json.Value} {after : Ws}
    (h : IsBatch body before batch after) :
    ((batch.elements.map documentOf).map Document.cost).sum ≤ 4 * body.length := by
  have hbody := length_dropByteOrderMark_le body
  have helements := length_elements_le batch
  rw [h.text, List.length_append, List.length_append] at hbody
  calc ((batch.elements.map documentOf).map Document.cost).sum
      ≤ (batch.elements.map fun v => 4 * v.render.length).sum := by
        rw [List.map_map]
        exact List.sum_le_sum fun v _ => cost_documentOf_le v
    _ = 4 * (batch.elements.map fun v => v.render.length).sum := List.sum_map_mul_left ..
    _ ≤ 4 * body.length := by omega

/-- An operation brings what its message carries. -/
theorem cost_event_le {library : Library} {message : Message} {operation : Operation}
    {call : Call} (hasks : Asks library message operation)
    (hstarts : operation.Starts message.body call) (now : Timestamp)
    {event : InMemoryIndexRepository.RepositoryEvent}
    (hevent : event = call.returned now ∨ event = call.threw now) :
    event.cost ≤ 2 * message.path.length + 4 * message.body.length := by
  have hpath := ((asks_iff _).mp hasks).2
  cases hstarts with
  | @create uid primaryKey hcreate =>
      have hlength := length_isCreateIndex hcreate
      have hcost : event.cost = uid.value.length + (uid.value.length +
          primaryKey.elim 0 List.length + 2 * bytesPerTimestamp) + 0 := by
        rcases hevent with rfl | rfl <;> rfl
      -- The path pays for the two timestamps.
      have htimestamps : 2 * bytesPerTimestamp ≤ 2 * message.path.length := by
        rw [hpath]
        decide
      omega
  | @ingest uid before batch after hbatch =>
      have hlength := cost_batch_le hbatch
      have hcost : event.cost = uid.value.length + (uid.value.length + 0 +
          2 * bytesPerTimestamp) + ((batch.elements.map documentOf).map Document.cost).sum := by
        rcases hevent with rfl | rfl <;> rfl
      have htimestamps : bytesPerTimestamp + uid.value.length ≤ message.path.length := by
        have hfront : bytesPerTimestamp ≤ (ascii "/indexes/").length := by decide
        rw [hpath.2, List.length_append, List.length_append]
        omega
      omega

variable {S : Ondemand} {library : Library} {ε : Type} {draw : ε → UInt64 × ε}

/-- The client is told that its request is at fault. -/
def Entry.Refused (entry : Entry) : Prop := 400 ≤ entry.status ∧ entry.status < 500

instance (entry : Entry) : Decidable entry.Refused := inferInstanceAs (Decidable (_ ∧ _))

/-- What a message may add to the storage. -/
def Entry.brought (entry : Entry) : ℕ :=
  if entry.Refused then 0 else 2 * entry.message.path.length + 4 * entry.message.body.length

theorem Comes.eq_of_refused {message : Message} {now : Timestamp}
    {before after : InMemoryIndexRepository} {status : ℤ}
    (h : Comes library message now before status after) (hleast : 400 ≤ status)
    (hmost : status < 500) : after = before := by
  cases h with
  | refused _ => rfl
  | health _ => rfl
  | threw _ _ _ => omega
  | replied _ hstarts =>
      cases hstarts with
      | ingest _ =>
          rw [run_ingest_reply] at hleast
          change (400 : ℤ) ≤ 200 at hleast
          omega
      | @create uid primaryKey _ =>
          cases hfound : before.indexes[uid.value]? with
          | some stored => rw [run_create_taken hfound]
          | none =>
              rw [run_create_free hfound] at hleast
              change (400 : ℤ) ≤ 201 at hleast
              omega

theorem Comes.size_le {entry : Entry} {before after : InMemoryIndexRepository}
    (h : Comes library entry.message entry.now before entry.status after) :
    after.size ≤ before.size + entry.brought := by
  rw [Entry.brought]
  split_ifs with hrefused
  · rw [h.eq_of_refused hrefused.1 hrefused.2]
    exact le_rfl
  · rcases h.step with rfl | ⟨operation, call, event, hasks, hstarts, hevent, hstep⟩
    · exact Nat.le_add_right _ _
    · have hsize := InMemoryIndexRepository.size_step hstep
      have hcost := cost_event_le hasks hstarts entry.now hevent
      omega

/-! ## Runs -/

theorem keeps_size_le (library : Library) : (ledger library).Keeps fun entries repository =>
    repository.size ≤ (entries.map Entry.brought).sum where
  start repository hinitial := by
    rw [hinitial]
    simp [InMemoryIndexRepository.size, InMemoryIndexRepository.empty, weight_empty]
  step entries before entry after hkept henters := by
    have hsize := henters.comes.size_le
    simp only [List.map_append, List.sum_append, List.map_cons, List.map_nil, List.sum_cons,
      List.sum_nil]
    omega

/-- What the message of an exchange may add. -/
def Exchange.brought (exchange : Exchange) : ℕ :=
  if 400 ≤ exchange.response.status ∧ exchange.response.status < 500 then 0
  else 2 * exchange.message.path.length + 4 * exchange.message.body.length

theorem Records.brought_eq {exchange : Exchange} {entry : Entry} (h : Records exchange entry) :
    exchange.brought = entry.brought := by
  simp only [Exchange.brought, Entry.brought, Entry.Refused, h.message, h.status]

/-- What a server stores is no more than twice the paths and four times the bodies that it was
sent, without the messages that it refused, and whatever allocations of its handlers throw. -/
theorem server_size_le (laws : library.Lawful) (parser : S.Lawful) {exchanges : List Exchange}
    {state : ServerState ε} (h : (interruptedServer S library draw).Run exchanges state) :
    state.application.indexes.size ≤ (exchanges.map Exchange.brought).sum := by
  obtain ⟨entries, repository, hrecords, hrun, hrelated⟩ :=
    (server_simulates_ledger laws parser).run h
  have hbrought : exchanges.map Exchange.brought = entries.map Entry.brought := by
    rw [← List.forall₂_eq_eq_eq, List.forall₂_map_left_iff, List.forall₂_map_right_iff]
    exact hrecords.imp fun _ _ hrecord => hrecord.brought_eq
  rw [hrelated, hbrought]
  exact (keeps_size_le library).run hrun

theorem server_size_le_retried : ∃ exchanges state, exchanges.map Exchange.sent = retriedSent ∧
    exchanges.map (fun exchange => exchange.response.status) = [201, 500, 200] ∧
    (interruptedServer reference (referenceLibrary 100) fun engine : Unit => (0, engine)).Run
      exchanges state ∧
    state.application.indexes.size ≤ (exchanges.map Exchange.brought).sum := by
  obtain ⟨exchanges, state, hsent, hstatuses, hrun⟩ := run_retried fun engine => (0, engine)
  exact ⟨exchanges, state, hsent, hstatuses, hrun,
    server_size_le (referenceLibrary_lawful 100) reference_lawful hrun⟩

end Leta
