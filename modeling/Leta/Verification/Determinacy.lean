import Leta.Verification.Server

/-! # The API determines the server

The API leaves nothing open but the wording of a refusal. So two servers that are sent the same
messages at the same times agree, whatever JSON parser, path matching and random engine they run
on. -/

namespace Leta

open Httplib Json Ondemand

/-! ## One message -/

/-- The same answer, or two refusals of a bad request that may be worded differently. -/
def Answer.Agrees (answer answer' : Answer) : Prop :=
  answer = answer' ∨ answer.status = 400 ∧ answer'.status = 400

theorem status_malformed {error : Error} (h : IsMalformed error) :
    (Answer.failed error).status = 400 := by
  rw [Answer.status, h.code]
  rfl

theorem status_badIndex {body : Bytes} {error : Error}
    (h : IsMalformed error ∨ (∃ name, HasUnknownKey body name ∧ error = unknownField name) ∨
      (∃ uid primaryKey, IsCreateIndex body uid primaryKey ∧ ¬ HasUidForm uid) ∧
        error = invalidIndexUid) : (Answer.failed error).status = 400 := by
  rcases h with h | ⟨name, -, rfl⟩ | ⟨-, rfl⟩
  · exact status_malformed h
  · rfl
  · rfl

/-- The operation is about the index of the uid. -/
inductive Operation.Concerns (body : Bytes) : Operation → Bytes → Prop where
  | createIndex {uid : IndexUid} {primaryKey} : IsCreateIndex body uid.value primaryKey →
      Concerns body .createIndex uid.value
  | addDocuments (uid) : Concerns body (.addDocuments uid) uid

/-- An operation changes the index that it is about and no other. -/
theorem Handles.eq_of_not_concerns {body : Bytes} {now : Timestamp} {operation : Operation}
    {catalogue after : Catalogue} {answer : Answer}
    (h : Handles body now operation catalogue answer after) {uid : Bytes}
    (huid : ¬ operation.Concerns body uid) : after uid = catalogue uid := by
  cases h with
  | created hcreate _ =>
      apply Function.update_of_ne
      rintro rfl
      exact huid (.createIndex hcreate)
  | ingested _ =>
      apply Function.update_of_ne
      rintro rfl
      exact huid (.addDocuments _)
  | taken _ _ | badIndex _ _ | badUid _ | badBatch _ _ => rfl

theorem extend_congr {catalogue catalogue' : Catalogue} (index : IndexMetadata)
    (documents : List Document) {uid : Bytes} (huid : catalogue uid = catalogue' uid) :
    catalogue.extend index documents uid = catalogue'.extend index documents uid := by
  rw [Catalogue.extend, Catalogue.extend, Function.update_apply, Function.update_apply]
  split_ifs with hindex
  · rw [← hindex, huid]
  · exact huid

/-- What an operation answers, and what becomes of an index, depends on nothing but the index that
the operation is about. -/
theorem Handles.local {body : Bytes} {now : Timestamp} {operation : Operation}
    {catalogue catalogue' after after' : Catalogue} {answer answer' : Answer}
    (h : Handles body now operation catalogue answer after)
    (h' : Handles body now operation catalogue' answer' after')
    (hsame : ∀ uid, operation.Concerns body uid → catalogue uid = catalogue' uid) :
    answer.Agrees answer' ∧ ∀ uid, catalogue uid = catalogue' uid → after uid = after' uid := by
  cases h with
  | created hcreate hfree =>
      have huid := hsame _ (.createIndex hcreate)
      cases h' with
      | created hcreate' _ =>
          obtain ⟨rfl, rfl⟩ := isCreateIndex_unique hcreate hcreate'
          exact ⟨.inl rfl, fun uid heq => extend_congr _ _ heq⟩
      | taken hcreate' htaken =>
          obtain ⟨rfl, -⟩ := isCreateIndex_unique hcreate hcreate'
          simp [← huid, hfree] at htaken
      | badIndex hnone _ => exact absurd hcreate (hnone _ _)
  | taken hcreate htaken =>
      have huid := hsame _ (.createIndex hcreate)
      cases h' with
      | created hcreate' hfree =>
          obtain ⟨rfl, -⟩ := isCreateIndex_unique hcreate hcreate'
          simp [huid, hfree] at htaken
      | taken hcreate' _ =>
          obtain ⟨rfl, -⟩ := isCreateIndex_unique hcreate hcreate'
          exact ⟨.inl rfl, fun uid heq => heq⟩
      | badIndex hnone _ => exact absurd hcreate (hnone _ _)
  | badIndex hnone herror =>
      cases h' with
      | created hcreate' _ => exact absurd hcreate' (hnone _ _)
      | taken hcreate' _ => exact absurd hcreate' (hnone _ _)
      | badIndex _ herror' =>
          exact ⟨.inr ⟨status_badIndex herror, status_badIndex herror'⟩, fun uid heq => heq⟩
  | badUid hform =>
      cases h' with
      | badUid _ => exact ⟨.inl rfl, fun uid heq => heq⟩
      | @badBatch _ _ uid _ _ => exact absurd uid.form hform
      | @ingested _ uid _ _ _ _ => exact absurd uid.form hform
  | @badBatch _ _ uid hnone herror =>
      generalize hvalue : uid.value = segment at h'
      cases h' with
      | badUid hform => exact absurd (hvalue ▸ uid.form) hform
      | badBatch _ herror' =>
          exact ⟨.inr ⟨status_malformed herror, status_malformed herror'⟩, fun uid heq => heq⟩
      | ingested hbatch => exact absurd hbatch (hnone _ _ _)
  | @ingested _ uid before batch after hbatch =>
      have hentry := hsame _ (.addDocuments uid.value)
      generalize hvalue : uid.value = segment at h'
      cases h' with
      | badUid hform => exact absurd (hvalue ▸ uid.form) hform
      | badBatch hnone _ => exact absurd hbatch (hnone _ _ _)
      | ingested hbatch' =>
          obtain rfl := IndexUid.ext hvalue
          obtain rfl := hbatch.unique hbatch'
          rw [hentry]
          exact ⟨.inl rfl, fun uid heq => extend_congr _ _ heq⟩

theorem asks_congr {library library' : Library} (h : library.lookedUpAs = library'.lookedUpAs)
    {message : Message} {operation : Operation} :
    Asks library message operation ↔ Asks library' message operation := by
  rw [asks_iff, asks_iff, h]

/-- The message is about the index of the uid. -/
def IsAbout (library : Library) (uid : Bytes) (message : Message) : Prop :=
  ∃ operation, Asks library message operation ∧ operation.Concerns message.body uid

theorem IsAbout.unique {library : Library} {uid uid' : Bytes} {message : Message}
    (h : IsAbout library uid message) (h' : IsAbout library uid' message) : uid = uid' := by
  obtain ⟨operation, hasks, hconcerns⟩ := h
  obtain ⟨operation', hasks', hconcerns'⟩ := h'
  obtain rfl := hasks.unique hasks'
  cases hconcerns with
  | createIndex hcreate =>
      generalize hvalue : uid' = value at hconcerns'
      cases hconcerns' with
      | createIndex hcreate' => rw [(isCreateIndex_unique hcreate hcreate').1]
  | addDocuments =>
      cases hconcerns'
      rfl

theorem ApiStep.eq_of_not_concerns {library : Library} {catalogue after : Catalogue}
    {call : ApiCall} (h : ApiStep library catalogue call after) {uid : Bytes}
    (huid : ¬ IsAbout library uid call.message) : after uid = catalogue uid := by
  cases h with
  | handled hasks _ hhandles =>
      exact hhandles.eq_of_not_concerns fun hconcerns => huid ⟨_, hasks, hconcerns⟩
  | refused _ | notFound _ | health _ | notJson _ _ _ => rfl

theorem ApiStep.local {library library' : Library}
    (hmethods : library.lookedUpAs = library'.lookedUpAs) {message : Message} {now : Timestamp}
    (hpasses : Library.Passes library message) (hpasses' : Library.Passes library' message)
    {catalogue catalogue' after after' : Catalogue} {answer answer' : Answer}
    (h : ApiStep library catalogue ⟨message, now, answer⟩ after)
    (h' : ApiStep library' catalogue' ⟨message, now, answer'⟩ after')
    (hsame : ∀ uid, IsAbout library uid message → catalogue uid = catalogue' uid) :
    answer.Agrees answer' ∧ ∀ uid, catalogue uid = catalogue' uid → after uid = after' uid := by
  cases h with
  | refused hrefuses => exact absurd hrefuses (hpasses _)
  | notFound hnone =>
      cases h' with
      | refused hrefuses => exact absurd hrefuses (hpasses' _)
      | notFound _ => exact ⟨.inl rfl, fun uid heq => heq⟩
      | health hasks => exact absurd ((asks_congr hmethods).mpr hasks) (hnone _)
      | notJson hasks _ _ => exact absurd ((asks_congr hmethods).mpr hasks) (hnone _)
      | handled hasks _ _ => exact absurd ((asks_congr hmethods).mpr hasks) (hnone _)
  | health hasks =>
      rw [asks_congr hmethods] at hasks
      cases h' with
      | refused hrefuses => exact absurd hrefuses (hpasses' _)
      | notFound hnone => exact absurd hasks (hnone _)
      | health _ => exact ⟨.inl rfl, fun uid heq => heq⟩
      | notJson hasks' hoperation _ => exact absurd (hasks'.unique hasks) hoperation
      | handled hasks' _ hhandles =>
          obtain rfl := hasks'.unique hasks
          cases hhandles
  | notJson hasks hoperation hjson =>
      rw [asks_congr hmethods] at hasks
      cases h' with
      | refused hrefuses => exact absurd hrefuses (hpasses' _)
      | notFound hnone => exact absurd hasks (hnone _)
      | health hasks' => exact absurd (hasks.unique hasks') hoperation
      | notJson _ _ _ => exact ⟨.inl rfl, fun uid heq => heq⟩
      | handled _ hjson' _ => exact absurd hjson' hjson
  | @handled _ _ operation _ _ hasks hjson hhandles =>
      have hsame : ∀ uid, operation.Concerns message.body uid → catalogue uid = catalogue' uid :=
        fun uid hconcerns => hsame uid ⟨operation, hasks, hconcerns⟩
      rw [asks_congr hmethods] at hasks
      cases h' with
      | refused hrefuses => exact absurd hrefuses (hpasses' _)
      | notFound hnone => exact absurd hasks (hnone _)
      | health hasks' =>
          obtain rfl := hasks.unique hasks'
          cases hhandles
      | notJson _ _ hjson' => exact absurd hjson hjson'
      | handled hasks' _ hhandles' =>
          obtain rfl := hasks.unique hasks'
          exact hhandles.local hhandles' hsame

/-- The same message at the same time, which neither library refuses. -/
structure CallsAlike (library library' : Library) (call call' : ApiCall) : Prop where
  message : call.message = call'.message
  now : call.now = call'.now
  passes : Library.Passes library call.message
  passes' : Library.Passes library' call.message

open Classical in
/-- What the API answers about an index depends on the messages about that index only. -/
theorem api_local {library library' : Library}
    (hmethods : library.lookedUpAs = library'.lookedUpAs) (uid : Bytes)
    {calls calls' : List ApiCall} {catalogue catalogue' : Catalogue}
    (h : (api library).Run calls catalogue) (h' : (api library').Run calls' catalogue')
    (hsent : List.Forall₂ (CallsAlike library library')
      (calls.filter fun call => IsAbout library uid call.message)
      (calls'.filter fun call => IsAbout library' uid call.message)) :
    catalogue uid = catalogue' uid ∧
      List.Forall₂ (fun call call' => call.answer.Agrees call'.answer)
        (calls.filter fun call => IsAbout library uid call.message)
        (calls'.filter fun call => IsAbout library' uid call.message) := by
  apply Machine.Run.agree_on_view (fun catalogue => catalogue uid) (fun catalogue => catalogue uid)
    _ _ _ _ h h' hsent
  · intro catalogue catalogue' hinitial hinitial'
    rw [hinitial, hinitial']
  · intro catalogue call after hcall hstep
    exact ApiStep.eq_of_not_concerns hstep hcall
  · intro catalogue call after hcall hstep
    exact ApiStep.eq_of_not_concerns hstep hcall
  · rintro catalogue catalogue' ⟨message, now, answer⟩ ⟨_, _, answer'⟩ after after' habout
      ⟨rfl, rfl, hpasses, hpasses'⟩ hview hstep hstep'
    obtain ⟨hagrees, hafter⟩ := ApiStep.local hmethods hpasses hpasses' hstep hstep' (by
      intro other hother
      rw [hother.unique habout]
      exact hview)
    exact ⟨hafter uid hview, hagrees⟩

/-- The API answers two runs of the same messages alike. -/
theorem api_determined {library library' : Library}
    (hmethods : library.lookedUpAs = library'.lookedUpAs) {calls calls' : List ApiCall}
    {catalogue catalogue' : Catalogue} (h : (api library).Run calls catalogue)
    (h' : (api library').Run calls' catalogue')
    (hsent : List.Forall₂ (CallsAlike library library') calls calls') :
    catalogue = catalogue' ∧
      List.Forall₂ (fun call call' => call.answer.Agrees call'.answer) calls calls' := by
  have hall : ∀ calls : List ApiCall, calls.filter (fun _ => True) = calls := fun calls => by simp
  rw [← hall calls, ← hall calls'] at hsent ⊢
  apply Machine.Run.agree_on_view (fun catalogue => catalogue) (fun catalogue => catalogue)
    _ _ _ _ h h' hsent
  · intro catalogue catalogue' hinitial hinitial'
    exact Eq.trans hinitial (Eq.symm hinitial')
  · exact fun _ _ _ hcall _ => absurd trivial hcall
  · exact fun _ _ _ hcall _ => absurd trivial hcall
  · rintro catalogue _ ⟨message, now, answer⟩ ⟨_, _, answer'⟩ after after' -
      ⟨rfl, rfl, hpasses, hpasses'⟩ rfl hstep hstep'
    obtain ⟨hagrees, hafter⟩ := ApiStep.local hmethods hpasses hpasses' hstep hstep' fun _ _ => rfl
    exact ⟨funext fun uid => hafter uid rfl, hagrees⟩

/-! ## Two servers -/

/-- The same message at the same time, which neither library refuses. -/
structure SentAlike (library library' : Library) (exchange exchange' : Exchange) : Prop where
  message : exchange.message = exchange'.message
  now : exchange.now = exchange'.now
  passes : Library.Passes library exchange.message
  passes' : Library.Passes library' exchange.message

theorem forall₂_sentAlike {library library' : Library} {exchanges exchanges' : List Exchange}
    (h : exchanges.map Exchange.sent = exchanges'.map Exchange.sent)
    (hpasses : ∀ exchange ∈ exchanges,
      Library.Passes library exchange.message ∧ Library.Passes library' exchange.message) :
    List.Forall₂ (SentAlike library library') exchanges exchanges' := by
  rw [← List.forall₂_eq_eq_eq, List.forall₂_map_left_iff, List.forall₂_map_right_iff] at h
  refine ((List.forall₂_and_left _ _).mpr ⟨hpasses, h⟩).imp fun exchange exchange' hboth => ?_
  obtain ⟨⟨hpasses, hpasses'⟩, hsame⟩ := hboth
  exact ⟨congrArg Prod.fst hsame, congrArg (fun sent => sent.2.1) hsame, hpasses, hpasses'⟩

/-- The same status and, when the clocks showed the same time passing, the same body. Only why a
request is bad may be worded differently. -/
structure SaysTheSame (exchange exchange' : Exchange) : Prop where
  status : exchange.response.status = exchange'.response.status
  body : exchange.response.status ≠ 400 → exchange.elapsed = exchange'.elapsed →
    exchange.response.body = exchange'.response.body
  bad : exchange.response.status = 400 → ∃ error error' : Error,
    Denotes exchange.response.body (errorData error) ∧
      Denotes exchange'.response.body (errorData error')

theorem Answer.exists_error {answer : Answer} (h : answer.status = 400) :
    ∃ error, answer = .failed error := by
  cases answer with
  | failed error => exact ⟨error, rfl⟩
  | available | created _ | ingested _ _ => cases h

theorem Says.same {exchange exchange' : Exchange} {call call' : ApiCall}
    (h : Says exchange call) (h' : Says exchange' call')
    (hagrees : call.answer.Agrees call'.answer) : SaysTheSame exchange exchange' := by
  have hstatus : call.answer.status = call'.answer.status := by
    rcases hagrees with hanswer | ⟨hbad, hbad'⟩
    · rw [hanswer]
    · rw [hbad, hbad']
  refine ⟨?_, fun hgood helapsed => ?_, fun hbad => ?_⟩
  · rw [h.status, h'.status, hstatus]
  · rcases hagrees with hanswer | ⟨hbad, -⟩
    · rw [h.written, h'.written, hanswer, helapsed]
    · rw [h.status, hbad] at hgood
      exact absurd rfl hgood
  · rw [h.status] at hbad
    have hbad : call.answer.status = 400 := by exact_mod_cast hbad
    obtain ⟨error, herror⟩ := Answer.exists_error hbad
    obtain ⟨error', herror'⟩ := Answer.exists_error (hstatus.symm.trans hbad)
    have hbody := h.body
    have hbody' := h'.body
    rw [herror] at hbody
    rw [herror'] at hbody'
    exact ⟨error, error', hbody, hbody'⟩

theorem Represents.unique {repository repository' : InMemoryIndexRepository}
    {catalogue : Catalogue} (h : Represents repository catalogue)
    (h' : Represents repository' catalogue) : repository = repository' := by
  obtain ⟨indexes⟩ := repository
  obtain ⟨indexes'⟩ := repository'
  congr
  apply Std.ExtTreeMap.ext_getElem?
  intro uid
  exact (h uid).trans (h' uid).symm

variable {S S' : Ondemand} {library library' : Library} {ε ε' : Type}
  {draw : ε → UInt64 × ε} {draw' : ε' → UInt64 × ε'}

theorem SentAlike.calls {exchange exchange' : Exchange} {call call' : ApiCall}
    (h : SentAlike library library' exchange exchange') (hsaid : Says exchange call)
    (hsaid' : Says exchange' call') : CallsAlike library library' call call' where
  message := hsaid.message.symm.trans (h.message.trans hsaid'.message)
  now := hsaid.now.symm.trans (h.now.trans hsaid'.now)
  passes := hsaid.message ▸ h.passes
  passes' := hsaid.message ▸ h.passes'

/-- What two servers answer and store does not depend on the parser, the path matching and the
engine that each of them runs on. -/
theorem server_determined (laws : library.Lawful) (laws' : library'.Lawful)
    (parser : S.Lawful) (parser' : S'.Lawful)
    (hmethods : library.lookedUpAs = library'.lookedUpAs) {exchanges exchanges' : List Exchange}
    {state : ServerState ε} {state' : ServerState ε'}
    (h : (server S library draw).Run exchanges state)
    (h' : (server S' library' draw').Run exchanges' state')
    (hsent : List.Forall₂ (SentAlike library library') exchanges exchanges') :
    state.application = state'.application ∧ List.Forall₂ SaysTheSame exchanges exchanges' := by
  obtain ⟨calls, catalogue, hsaid, hrun, hready, himplements⟩ :=
    (server_simulates_api laws parser).run h
  obtain ⟨calls', catalogue', hsaid', hrun', hready', himplements'⟩ :=
    (server_simulates_api laws' parser').run h'
  have hcalls := Machine.forall₂_transport hsent hsaid hsaid' fun _ _ _ _ hsent => hsent.calls
  obtain ⟨rfl, hagree⟩ := api_determined hmethods hrun hrun' hcalls
  have hindexes := himplements.represents.unique himplements'.represents
  refine ⟨?_, ?_⟩
  · obtain ⟨⟨readiness, indexes⟩, engine⟩ := state
    obtain ⟨⟨readiness', indexes'⟩, engine'⟩ := state'
    dsimp only at hready hready' hindexes
    rw [hready, hready', hindexes]
  · apply Machine.forall₂_transport hagree hsaid.flip hsaid'.flip
    intro call call' exchange exchange' hagrees hsaid hsaid'
    exact hsaid.same hsaid' hagrees

/-- Two servers of different limits and engines. -/
theorem server_determined_letters : ∃ exchanges exchanges' state state',
    exchanges.map Exchange.sent = lettersSent ∧ exchanges'.map Exchange.sent = lettersSent ∧
      (server reference (referenceLibrary 100) fun engine : UInt64 => (engine, engine)).Run
        exchanges state ∧
      (server reference (referenceLibrary 200) fun engine : Unit => (0, engine)).Run
        exchanges' state' ∧
      state.application = state'.application ∧
      List.Forall₂ SaysTheSame exchanges exchanges' := by
  obtain ⟨exchanges, state, hsent, hrun⟩ :=
    run_letters (fun engine : UInt64 => (engine, engine)) 7 100
  obtain ⟨exchanges', state', hsent', hrun'⟩ :=
    run_letters (fun engine : Unit => (0, engine)) () 200
  obtain ⟨hstate, hsame⟩ := server_determined (referenceLibrary_lawful 100)
    (referenceLibrary_lawful 200) reference_lawful reference_lawful rfl hrun hrun' <|
      forall₂_sentAlike (hsent.trans hsent'.symm) fun exchange hexchange => by
        have hmem : exchange.sent ∈ lettersSent := hsent ▸ List.mem_map_of_mem hexchange
        exact ⟨passes_lettersSent le_rfl _ hmem, passes_lettersSent (by decide) _ hmem⟩
  exact ⟨exchanges, exchanges', state, state', hsent, hsent', hrun, hrun', hstate, hsame⟩

/-! ## One index -/

theorem forall₂_filter {α β : Type} {R : α → β → Prop} {p : α → Prop} {q : β → Prop}
    [DecidablePred p] [DecidablePred q] (hpq : ∀ a b, R a b → (p a ↔ q b)) {as : List α}
    {bs : List β} (h : List.Forall₂ R as bs) :
    List.Forall₂ R (as.filter p) (bs.filter q) := by
  induction h with
  | nil => exact .nil
  | @cons a b as bs hab _ ih =>
      by_cases ha : p a
      · have hb := (hpq a b hab).mp ha
        rw [List.filter_cons_of_pos (by simpa using ha),
          List.filter_cons_of_pos (by simpa using hb)]
        exact .cons hab ih
      · have hb := mt (hpq a b hab).mpr ha
        rw [List.filter_cons_of_neg (by simpa using ha),
          List.filter_cons_of_neg (by simpa using hb)]
        exact ih

open Classical in
/-- What a server answers and stores about an index depends on the messages about that index only,
whatever else it is sent in between. -/
theorem server_isolated (laws : library.Lawful) (laws' : library'.Lawful)
    (parser : S.Lawful) (parser' : S'.Lawful)
    (hmethods : library.lookedUpAs = library'.lookedUpAs) (uid : Bytes)
    {exchanges exchanges' : List Exchange} {state : ServerState ε} {state' : ServerState ε'}
    (h : (server S library draw).Run exchanges state)
    (h' : (server S' library' draw').Run exchanges' state')
    (hsent : List.Forall₂ (SentAlike library library')
      (exchanges.filter fun exchange => IsAbout library uid exchange.message)
      (exchanges'.filter fun exchange => IsAbout library' uid exchange.message)) :
    state.application.indexes.indexes[uid]? = state'.application.indexes.indexes[uid]? ∧
      List.Forall₂ SaysTheSame
        (exchanges.filter fun exchange => IsAbout library uid exchange.message)
        (exchanges'.filter fun exchange => IsAbout library' uid exchange.message) := by
  obtain ⟨calls, catalogue, hsaid, hrun, -, himplements⟩ :=
    (server_simulates_api laws parser).run h
  obtain ⟨calls', catalogue', hsaid', hrun', -, himplements'⟩ :=
    (server_simulates_api laws' parser').run h'
  have habout := forall₂_filter (p := fun exchange => IsAbout library uid exchange.message)
    (q := fun call => IsAbout library uid call.message)
    (fun _ _ hsaid => by rw [hsaid.message]) hsaid
  have habout' := forall₂_filter (p := fun exchange => IsAbout library' uid exchange.message)
    (q := fun call => IsAbout library' uid call.message)
    (fun _ _ hsaid => by rw [hsaid.message]) hsaid'
  have hcalls := Machine.forall₂_transport hsent habout habout' fun _ _ _ _ hsent => hsent.calls
  obtain ⟨huid, hagree⟩ := api_local hmethods uid hrun hrun' hcalls
  constructor
  · rw [himplements.represents, himplements'.represents, huid]
  · apply Machine.forall₂_transport hagree habout.flip habout'.flip
    intro call call' exchange exchange' hagrees hsaid hsaid'
    exact hsaid.same hsaid' hagrees

theorem isAbout_lettersSent (limit : ℕ) :
    ∀ s ∈ lettersSent, IsAbout (referenceLibrary limit) letters.value s.1 := by
  intro s hs
  rcases List.mem_pair.mp hs with rfl | rfl
  · exact ⟨_, asks_createLetters limit, .createIndex isCreateIndex_createLetters⟩
  · exact ⟨_, asks_postLetters limit _, .addDocuments _⟩

def getHealth : Message := ⟨ascii "GET", ascii "/health", [], []⟩

theorem not_isAbout_getHealth (limit : ℕ) (uid : Bytes) :
    ¬ IsAbout (referenceLibrary limit) uid getHealth := by
  rintro ⟨operation, hasks, hconcerns⟩
  obtain rfl := hasks.unique (.health rfl rfl)
  cases hconcerns

open Classical in
/-- One of two servers is asked for its health first. -/
theorem server_isolated_letters : ∃ first exchanges exchanges' state state',
    first.message = getHealth ∧ exchanges.map Exchange.sent = lettersSent ∧
      exchanges'.map Exchange.sent = lettersSent ∧
      (server reference (referenceLibrary 100) fun engine : Unit => (0, engine)).Run
        (first :: exchanges) state ∧
      (server reference (referenceLibrary 200) fun engine : Unit => (0, engine)).Run
        exchanges' state' ∧
      state.application.indexes.indexes[ascii "a"]? =
        state'.application.indexes.indexes[ascii "a"]? ∧
      List.Forall₂ SaysTheSame exchanges exchanges' := by
  let draw : Unit → UInt64 × Unit := fun engine => (0, engine)
  obtain ⟨all, state, hall, hrun⟩ : ∃ exchanges state,
      exchanges.map Exchange.sent = ⟨getHealth, 5, 0⟩ :: lettersSent ∧
        (server reference (referenceLibrary 100) draw).Run exchanges state := by
    apply exists_run reference draw (referenceLibrary_lawful 100) ()
    · rw [List.forall_mem_cons]
      refine ⟨⟨.health, .health rfl rfl⟩, fun s hs => ?_⟩
      obtain ⟨operation, hasks, -⟩ := isAbout_lettersSent 100 s hs
      exact ⟨operation, hasks⟩
    · have hranges : ∀ s ∈ (⟨getHealth, 5, 0⟩ :: lettersSent : List (Message × Timestamp × ℕ)),
          s.1.headers.all fun header => !isNamed rangeHeader header := by decide
      exact fun s hs params => leaves_referenceLibrary 100 (hranges s hs)
  obtain ⟨first, exchanges, rfl, hfirst, hsent⟩ := List.map_eq_cons_iff.mp hall
  obtain ⟨exchanges', state', hsent', hrun'⟩ := run_letters draw () 200
  have habout : ∀ {limit} {exchanges : List Exchange}, exchanges.map Exchange.sent = lettersSent →
      exchanges.filter (fun exchange =>
        IsAbout (referenceLibrary limit) letters.value exchange.message) = exchanges := by
    intro limit exchanges hsent
    rw [List.filter_eq_self]
    intro exchange hexchange
    exact decide_eq_true
      (isAbout_lettersSent limit _ (hsent ▸ List.mem_map_of_mem hexchange))
  have hfiltered : (first :: exchanges).filter (fun exchange =>
      IsAbout (referenceLibrary 100) letters.value exchange.message) = exchanges := by
    have hmessage : first.message = getHealth := congrArg Prod.fst hfirst
    rw [List.filter_cons_of_neg (by simpa [hmessage] using not_isAbout_getHealth 100 _),
      habout hsent]
  have halike : List.Forall₂ (SentAlike (referenceLibrary 100) (referenceLibrary 200)) exchanges
      exchanges' :=
    forall₂_sentAlike (hsent.trans hsent'.symm) fun exchange hexchange => by
      have hmem : exchange.sent ∈ lettersSent := hsent ▸ List.mem_map_of_mem hexchange
      exact ⟨passes_lettersSent le_rfl _ hmem, passes_lettersSent (by decide) _ hmem⟩
  obtain ⟨huid, hsame⟩ := server_isolated (referenceLibrary_lawful 100)
    (referenceLibrary_lawful 200) reference_lawful reference_lawful rfl letters.value hrun hrun'
    (by rwa [hfiltered, habout hsent'])
  rw [hfiltered, habout hsent'] at hsame
  exact ⟨first, exchanges, exchanges', state, state', congrArg Prod.fst hfirst, hsent, hsent', hrun,
    hrun', huid, hsame⟩

end Leta
