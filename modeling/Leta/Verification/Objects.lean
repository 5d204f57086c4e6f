import Leta.Verification.Requests

/-! # Any run of requests refines a catalogue of objects

The catalogue maps a uid to the JSON objects that clients sent in batches answered 200. Its
index holds their texts, and finds them by the words of their strings. -/

namespace Leta

open Json Ondemand

variable {S : Ondemand}

/-! ## What clients sent -/

/-- The objects that clients sent for a uid in batches answered 200, in order. -/
inductive Sent (uid : Bytes) : List (Request × HttpResponse) → List Json.Value → Prop where
  | nil : Sent uid [] []
  | batch {now elapsed body response exchanges objects} {before after : Ws} {batch : Json.Value} :
      response.status = 200 → dropByteOrderMark body = before.1 ++ (batch.render ++ after.1) →
      batch.isArray → Sent uid exchanges objects →
      Sent uid ((.addDocuments now elapsed uid body, response) :: exchanges)
        (batch.elements ++ objects)
  | other {request response exchanges objects} :
      (∀ now elapsed body, request = .addDocuments now elapsed uid body → response.status ≠ 200) →
      Sent uid exchanges objects → Sent uid ((request, response) :: exchanges) objects

theorem Sent.append {uid : Bytes} {front back : List (Request × HttpResponse)}
    {objects more : List Json.Value} (h : Sent uid front objects) (h' : Sent uid back more) :
    Sent uid (front ++ back) (objects ++ more) := by
  induction h with
  | nil => exact h'
  | batch hstatus hbody harray _ ih =>
      rw [List.append_assoc]
      exact .batch hstatus hbody harray ih
  | other hother _ ih => exact .other hother ih

/-- What was sent is determined by the exchanges. -/
theorem Sent.unique {uid : Bytes} {exchanges : List (Request × HttpResponse)}
    {objects objects' : List Json.Value} (h : Sent uid exchanges objects)
    (h' : Sent uid exchanges objects') : objects = objects' := by
  induction h generalizing objects' with
  | nil =>
      cases h'
      rfl
  | batch hstatus hbody _ _ ih =>
      cases h' with
      | batch _ hbody' _ hrest =>
          obtain ⟨-, rfl, -⟩ := text_unique (hbody.symm.trans hbody')
          rw [ih hrest]
      | other hother _ => exact absurd hstatus (hother _ _ _ rfl)
  | other hother _ ih =>
      cases h' with
      | batch hstatus _ _ _ => exact absurd hstatus (hother _ _ _ rfl)
      | other _ hrest => exact ih hrest

/-- The exchange made the uid's index, or added documents to it. -/
def Touches (uid : Bytes) (exchange : Request × HttpResponse) : Prop :=
  (exchange.2.status = 201 ∧ ∃ now body primaryKey,
    exchange.1 = .createIndex now body ∧ IsCreateIndex body uid primaryKey) ∨
  (exchange.2.status = 200 ∧ ∃ now elapsed body, exchange.1 = .addDocuments now elapsed uid body)

/-- Some top-level string value of the object has the word, after unescaping. -/
def ObjectHasWord (object : Json.Value) (word : Bytes) : Prop :=
  ∃ key s text, (key, Json.Value.string s) ∈ object.fields ∧ s.text = some text ∧
    IsMaximalRun isAsciiWhitespace text word

theorem hasWord_documentOf {object : Json.Value} {word : Bytes} :
    (documentOf object).HasWord word ↔ ObjectHasWord object word := by
  simp only [Document.HasWord, documentOf, List.mem_flatMap, mem_words_iff]
  constructor
  · rintro ⟨text, ⟨⟨key, value⟩, hfield, htext⟩, hrun⟩
    cases value with
    | string s => exact ⟨key, s, text, hfield, by simpa [fieldText] using htext, hrun⟩
    | null | bool | number | emptyArray | array | emptyObject | object =>
        simp [fieldText] at htext
  · rintro ⟨key, s, text, hfield, htext, hrun⟩
    exact ⟨text, ⟨_, hfield, by simp [fieldText, htext]⟩, hrun⟩

/-! ## One exchange -/

theorem batchesFor_append (uid : Bytes) (front back : List (Call × Timestamp)) :
    batchesFor uid (front ++ back) = batchesFor uid front ++ batchesFor uid back := by
  simp [batchesFor]

/-- The objects of one exchange are the documents of its call. -/
theorem sent_respond (laws : S.Lawful) (request : Request) (repository : InMemoryIndexRepository)
    (uid : Bytes) : ∃ objects, Sent uid [(request, (request.respond S repository).1)] objects ∧
      batchesFor uid (request.call S).toList = objects.map documentOf := by
  cases request with
  | createIndex now body =>
      refine ⟨[], .other (fun _ _ _ h => by cases h) .nil, ?_⟩
      cases hparse : parseCreateIndexRequest S body with
      | error error => simp [Request.call, hparse, batchesFor]
      | ok command =>
          simp only [Request.call, hparse, batchesFor, Option.toList_some, List.filter_cons]
          split_ifs <;> rfl
  | addDocuments now elapsed segment body =>
      rcases addDocumentsResponse_cases (S := S) now elapsed segment body repository with
        ⟨hform, hcase⟩ | ⟨error, hform, hparse, hcase⟩ | ⟨index, documents, rfl, hparse, hcase⟩
      · refine ⟨[], .other (fun _ _ _ _ => ?_) .nil, ?_⟩
        · have := status_errorResponse invalidIndexUid
          rw [Request.respond, hcase]
          dsimp only
          omega
        · simp [Request.call, IndexUid.parse_eq_error.mpr ⟨hform, rfl⟩, batchesFor]
      · refine ⟨[], .other (fun _ _ _ _ => ?_) .nil, ?_⟩
        · have := status_errorResponse error
          rw [Request.respond, hcase]
          dsimp only
          omega
        · cases huid : IndexUid.parse segment <;> simp [Request.call, huid, hparse, batchesFor]
      · obtain ⟨before, batch, after, hbatch, rfl⟩ := (parseDocumentBatch_eq_ok laws).mp hparse
        by_cases huid : index.value = uid
        · subst huid
          refine ⟨batch.elements ++ [], .batch ?_ hbatch.text hbatch.array .nil, ?_⟩
          · rw [Request.respond, hcase]
            rfl
          · simp [Request.call, IndexUid.parse_value, hparse, batchesFor, IsFor, Call.uid,
              documentsOf]
        · refine ⟨[], .other (fun _ _ _ h => ?_) .nil, ?_⟩
          · cases h
            exact absurd rfl huid
          · simp [Request.call, IndexUid.parse_value, hparse, batchesFor, IsFor, Call.uid, huid]

theorem sent_serveAll (laws : S.Lawful) (requests : List Request) (uid : Bytes) :
    ∃ objects, Sent uid (serveAll S requests).1 objects ∧
      batchesFor uid (requests.filterMap (Request.call S)) = objects.map documentOf := by
  induction requests using List.reverseRecOn with
  | nil => exact ⟨[], .nil, rfl⟩
  | append_singleton requests request ih =>
      obtain ⟨objects, hsent, hbatches⟩ := ih
      obtain ⟨more, hmore, hbatch⟩ := sent_respond laws request (serveAll S requests).2 uid
      refine ⟨objects ++ more, ?_, ?_⟩
      · rw [serveAll_append]
        exact hsent.append hmore
      · rw [List.filterMap_append, batchesFor_append, hbatches, List.map_append, ← hbatch]
        cases hcall : request.call S <;> simp [hcall]

/-! ## Which indexes there are -/

theorem uid_of_isCreateIndex (laws : S.Lawful) {body uid : Bytes} {primaryKey : Option Bytes}
    {command : CreateIndexCommand} (hparse : parseCreateIndexRequest S body = .ok command)
    (h : IsCreateIndex body uid primaryKey) : command.uid.value = uid := by
  by_cases hform : HasUidForm uid
  · have hok := (@parseCreateIndexRequest_eq_ok S laws body
      ⟨⟨uid, hform⟩, primaryKey⟩).mpr h
    rw [hok] at hparse
    cases hparse
    rfl
  · rw [parseCreateIndexRequest_invalid laws h hform] at hparse
    cases hparse

/-- An index is there after an exchange when it was there before or the exchange touched it. -/
theorem isSome_respond (laws : S.Lawful) (request : Request)
    (repository : InMemoryIndexRepository) (uid : Bytes) :
    ((request.respond S repository).2.indexes[uid]?).isSome ↔
      (repository.indexes[uid]?).isSome ∨
        Touches uid (request, (request.respond S repository).1) := by
  have hrefused : ∀ error, ¬ Touches uid (request, errorResponse error) := by
    intro error htouches
    have hstatus := status_errorResponse error
    rcases htouches with ⟨h, -⟩ | ⟨h, -⟩ <;> dsimp only at h <;> omega
  cases request with
  | createIndex now body =>
      rcases createIndexResponse_cases (S := S) now body repository with
        ⟨error, -, hcase⟩ | ⟨command, stored, -, -, hcase⟩ | ⟨command, hparse, -, hcase⟩ <;>
        rw [Request.respond, hcase] <;> dsimp only
      · simp [hrefused]
      · simp [hrefused]
      · rw [getElem?_insert]
        by_cases hkey : uid = command.uid.value
        · have hcreate := (parseCreateIndexRequest_eq_ok laws).mp hparse
          simp only [hkey, if_true, Option.isSome_some, true_iff]
          exact .inr (.inl ⟨rfl, now, body, command.primaryKey, rfl, hcreate⟩)
        · rw [if_neg hkey]
          refine (or_iff_left ?_).symm
          rintro (⟨-, now', body', primaryKey, hrequest, hcreate⟩ | ⟨-, _, _, _, hrequest⟩)
          · cases hrequest
            exact hkey (uid_of_isCreateIndex laws hparse hcreate).symm
          · cases hrequest
  | addDocuments now elapsed segment body =>
      rcases addDocumentsResponse_cases (S := S) now elapsed segment body repository with
        ⟨-, hcase⟩ | ⟨error, -, -, hcase⟩ | ⟨index, documents, rfl, hparse, hcase⟩ <;>
        rw [Request.respond, hcase] <;> dsimp only
      · simp [hrefused]
      · simp [hrefused]
      · rw [(exec_addDocuments_eq now ⟨index, documents⟩ repository).2]
        by_cases hkey : uid = index.value
        · simp only [hkey, if_true, Option.isSome_some, true_iff]
          exact .inr (.inr ⟨rfl, now, elapsed, body, rfl⟩)
        · rw [if_neg hkey]
          refine (or_iff_left ?_).symm
          rintro (⟨-, _, _, _, hrequest, -⟩ | ⟨-, now', elapsed', body', hrequest⟩)
          · cases hrequest
          · cases hrequest
            exact hkey rfl

theorem isSome_serveAll (laws : S.Lawful) (requests : List Request) (uid : Bytes) :
    ((serveAll S requests).2.indexes[uid]?).isSome ↔
      ∃ exchange ∈ (serveAll S requests).1, Touches uid exchange := by
  induction requests using List.reverseRecOn with
  | nil =>
      have hempty := represents_empty uid
      simp [serveAll, hempty]
  | append_singleton requests request ih =>
      rw [serveAll_append]
      simp only [isSome_respond laws, ih, List.mem_append, List.mem_singleton, or_and_right,
        exists_or, exists_eq_left]

/-! ## The index of a uid -/

/-- The index stores the objects' texts by their positions, and finds them by their words. -/
structure FindsObjects (index : ExactMatchIndex) (objects : List Json.Value) : Prop where
  documentCount : index.documentCount = objects.length
  source : ∀ (i : ℕ) (hi : i < objects.length),
    index.source (UInt32.ofNat i) = some objects[i].render
  increasing : ∀ word, (index.documentsContaining word).Pairwise (· < ·)
  documentsContaining : ∀ word documentId, documentId ∈ index.documentsContaining word ↔
    ∃ i, ∃ hi : i < objects.length, documentId = UInt32.ofNat i ∧ ObjectHasWord objects[i] word
  unfindable : ∀ word, (word = [] ∨ ∃ b ∈ word, isAsciiWhitespace b) →
    index.documentsContaining word = []

theorem not_objectHasWord {object : Json.Value} {word : Bytes}
    (h : word = [] ∨ ∃ b ∈ word, isAsciiWhitespace b) : ¬ ObjectHasWord object word := by
  rintro ⟨_, _, text, -, -, hrun⟩
  rcases h with rfl | ⟨b, hb, hspace⟩
  · exact hrun.ne_nil rfl
  · simp [hrun.inside b hb] at hspace

theorem findsObjects_of_holds {index : ExactMatchIndex} {objects : List Json.Value}
    (h : index.Holds (objects.map documentOf)) (hroom : objects.length ≤ 2 ^ 32) :
    FindsObjects index objects := by
  have hmem : ∀ word documentId, documentId ∈ index.documentsContaining word ↔
      ∃ i, ∃ hi : i < objects.length, documentId = UInt32.ofNat i ∧
        ObjectHasWord objects[i] word := by
    intro word documentId
    rw [h.documentsContaining, mem_idsOf]
    simp only [List.length_map, List.getElem_map, hasWord_documentOf]
  refine ⟨by simp [ExactMatchIndex.documentCount, h.sources], fun i hi => ?_, fun word => ?_, hmem,
    fun word hword => ?_⟩
  · rw [ExactMatchIndex.source, UInt32.toNat_ofNat_of_lt' (by rw [UInt32.size]; omega), h.sources,
      List.map_map, List.getElem?_map, List.getElem?_eq_getElem hi]
    rfl
  · rw [h.documentsContaining]
    exact pairwise_idsOf word (by rwa [List.length_map])
  · refine List.eq_nil_iff_forall_not_mem.mpr fun documentId hid => ?_
    obtain ⟨i, hi, -, hhas⟩ := (hmem word documentId).mp hid
    exact not_objectHasWord hword hhas

/-- After any requests, the index of a uid holds the objects that were sent for it. -/
theorem requests_refine_catalogue (laws : S.Lawful) (requests : List Request) (uid : Bytes) :
    ∃ objects, Sent uid (serveAll S requests).1 objects ∧
      (((serveAll S requests).2.indexes[uid]?).isSome ↔
        ∃ exchange ∈ (serveAll S requests).1, Touches uid exchange) ∧
      ∀ stored, (serveAll S requests).2.indexes[uid]? = some stored →
        objects.length ≤ 2 ^ 32 → FindsObjects stored.documents objects := by
  obtain ⟨objects, hsent, hbatches⟩ := sent_serveAll laws requests uid
  refine ⟨objects, hsent, isSome_serveAll laws requests uid, fun stored hstored hroom => ?_⟩
  rw [serveAll_eq, getElem?_runCalls, hbatches] at hstored
  obtain ⟨first, -, rfl⟩ := Option.map_eq_some_iff.mp hstored
  exact findsObjects_of_holds
    (ExactMatchIndex.holds_ofDocuments (by rwa [List.length_map])) hroom

/-- One batch for the uid `a`, and then a create that comes too late. -/
theorem requests_refine_catalogue_reference :
    let requests := [Request.addDocuments 0 0 (ascii "a") (ascii "[\x7b\"k\":\"x y\"\x7d]"),
      .createIndex 1 (ascii "\x7b\"uid\":\"a\"\x7d")]
    ∃ objects, Sent (ascii "a") (serveAll reference requests).1 objects ∧
      (((serveAll reference requests).2.indexes[ascii "a"]?).isSome ↔
        ∃ exchange ∈ (serveAll reference requests).1, Touches (ascii "a") exchange) ∧
      ∀ stored, (serveAll reference requests).2.indexes[ascii "a"]? = some stored →
        objects.length ≤ 2 ^ 32 → FindsObjects stored.documents objects :=
  requests_refine_catalogue reference_lawful _ _

end Leta
