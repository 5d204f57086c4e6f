import Leta.Foundation.Machine
import Leta.Foundation.Repeats
import Leta.Verification.OutOfMemory

/-! # Which calls marked which words

Whatever allocations fail, and however many documents there are: the postings of a word are the
ids of the calls that recorded it, in order and without repeats. -/

namespace Leta

open Allocating

namespace ExactMatchIndex

/-! ## One call -/

/-- The id has been recorded for the words seen, and nothing else has happened. Here the id may be
in the postings already. -/
structure Marked (before : ExactMatchIndex) (documentId : DocId) (seen : List Bytes)
    (index : ExactMatchIndex) : Prop where
  sources : index.sources = before.sources
  documentsContaining : ∀ term, index.documentsContaining term =
    if term ∈ seen then endWith (before.documentsContaining term) documentId
    else before.documentsContaining term

theorem marked_nil (index : ExactMatchIndex) (documentId : DocId) :
    Marked index documentId [] index :=
  ⟨rfl, by simp⟩

theorem documentsContaining_record (index : ExactMatchIndex) (term : Bytes) (documentId : DocId)
    (w : Bytes) : (record term documentId index).state.documentsContaining w =
        (if w = term then endWith (index.documentsContaining term) documentId
        else index.documentsContaining w) ∧
      ∀ s ∈ (record term documentId index).points,
        s.documentsContaining w = index.documentsContaining w := by
  by_cases hlast : (index.documentsContaining term).getLast? = some documentId
  · rw [record_repeated hlast, endWith_of_getLast? hlast]
    refine ⟨?_, by simp⟩
    split_ifs with hw
    · rw [hw]
    · rfl
  · rw [endWith_of_ne hlast]
    by_cases hterm : term ∈ index.postings
    · rw [record_known hterm hlast]
      exact ⟨documentsContaining_insert _ _ _ _, by simp⟩
    · have hnil := documentsContaining_unknown hterm
      have hopened :
          documentsContaining { index with postings := index.postings.insert term [] } w =
            index.documentsContaining w := by
        rw [documentsContaining_insert]
        split_ifs with hw
        · rw [hw, hnil]
        · rfl
      rw [record_unknown hterm]
      refine ⟨?_, by simpa using hopened⟩
      dsimp only
      rw [documentsContaining_insert { index with postings := index.postings.insert term [] },
        hopened, hnil]
      rfl

theorem marked_record {before index : ExactMatchIndex} {documentId : DocId} {seen : List Bytes}
    (h : Marked before documentId seen index) (term : Bytes) :
    Marked before documentId (seen ++ [term]) (record term documentId index).state ∧
      ∀ s ∈ (record term documentId index).points, Marked before documentId seen s := by
  obtain ⟨hstate, hpoints⟩ := sources_record index term documentId
  refine ⟨⟨hstate.trans h.sources, fun w => ?_⟩, fun s hs =>
    ⟨(hpoints s hs).trans h.sources, fun w => ?_⟩⟩
  · rw [(documentsContaining_record index term documentId w).1, h.documentsContaining,
      h.documentsContaining]
    by_cases hw : w = term
    · subst hw
      by_cases hseen : w ∈ seen
      · simp [hseen, endWith_of_getLast?]
      · simp [hseen]
    · simp [hw]
  · rw [(documentsContaining_record index term documentId w).2 s hs, h.documentsContaining]

theorem marked_words {before index : ExactMatchIndex} {documentId : DocId} {seen : List Bytes}
    (h : Marked before documentId seen index) (words : List Bytes) :
    Marked before documentId (seen ++ words)
        ((words.forM fun word => record word documentId) index).state ∧
      ∀ s ∈ ((words.forM fun word => record word documentId) index).points,
        ∃ done, done <+: words ∧ Marked before documentId (seen ++ done) s := by
  have hwords : ∀ words : List Bytes, Marked before documentId (seen ++ words)
      ((words.forM fun word => record word documentId) index).state := fun words =>
    (forM_rule (I := fun done => Marked before documentId (seen ++ done)) (J := fun _ => True) []
      words (fun done word index hdone => by
        rw [← List.append_assoc]
        exact ⟨(marked_record hdone word).1, fun _ _ => trivial⟩) (by simpa using h)).1
  refine ⟨hwords words, fun s hs => ?_⟩
  obtain ⟨done, word, rest, rfl, hpoint⟩ := mem_points_forM hs
  exact ⟨done, List.prefix_append _ _, (marked_record (hwords done) word).2 s hpoint⟩

theorem marked_text {before index : ExactMatchIndex} {documentId : DocId} {seen : List Bytes}
    (h : Marked before documentId seen index) (text : Bytes) :
    Marked before documentId (seen ++ splitOnWhitespace text)
        (recordText documentId text index).state ∧
      ∀ s ∈ (recordText documentId text index).points,
        ∃ done, done <+: splitOnWhitespace text ∧ Marked before documentId (seen ++ done) s := by
  obtain ⟨hstate, hpoints⟩ := marked_words h (splitOnWhitespace text)
  rw [recordText_eq]
  refine ⟨hstate, fun s hs => ?_⟩
  rcases List.mem_append.mp hs with hs | hs
  · rw [List.eq_of_mem_replicate hs]
    exact ⟨[], List.nil_prefix, by simpa using h⟩
  · exact hpoints s hs

theorem marked_texts (before : ExactMatchIndex) (documentId : DocId) (texts : List Bytes) :
    Marked before documentId (wordsOf texts)
        (texts.forM (recordText documentId) before).state ∧
      ∀ s ∈ (texts.forM (recordText documentId) before).points,
        ∃ done, done <+: wordsOf texts ∧ Marked before documentId done s := by
  have htexts : ∀ texts : List Bytes, Marked before documentId (wordsOf texts)
      (texts.forM (recordText documentId) before).state := fun texts =>
    (forM_rule (I := fun done => Marked before documentId (wordsOf done)) (J := fun _ => True) []
      texts (fun done text index hdone => by
        rw [wordsOf, List.flatMap_append, List.flatMap_singleton]
        exact ⟨(marked_text hdone text).1, fun _ _ => trivial⟩) (marked_nil before documentId)).1
  refine ⟨htexts texts, fun s hs => ?_⟩
  obtain ⟨done, text, rest, rfl, hpoint⟩ := mem_points_forM hs
  obtain ⟨words, hwords, hmarked⟩ := (marked_text (htexts done) text).2 s hpoint
  refine ⟨_, ?_, hmarked⟩
  rw [wordsOf, wordsOf, List.flatMap_append, List.flatMap_cons]
  exact (List.prefix_append_right_inj _).mpr (hwords.trans (List.prefix_append _ _))

/-- What a call leaves behind: the words of its document under the next id, or the first of them
when it throws. -/
theorem marked_add (document : Document) (index : ExactMatchIndex) :
    let documentId := UInt32.ofNat index.sources.length
    (∃ marked, Marked index documentId (wordsOf document.searchableText) marked ∧
      (add document index).state =
        { marked with sources := marked.sources ++ [document.source] }) ∧
      ∀ s ∈ (add document index).points,
        ∃ done, done <+: wordsOf document.searchableText ∧ Marked index documentId done s := by
  intro documentId
  obtain ⟨hstate, hpoints⟩ := marked_texts index documentId document.searchableText
  rw [add_eq]
  refine ⟨⟨_, hstate, rfl⟩, fun s hs => ?_⟩
  rcases List.mem_append.mp hs with hs | hs
  · exact hpoints s hs
  · rw [List.mem_singleton.mp hs]
    exact ⟨_, List.prefix_rfl, hstate⟩

/-! ## Runs -/

/-- How a call ended. -/
inductive AddEvent where
  | returned (document : Document)
  | threw (document : Document)

def AddEvent.document : AddEvent → Document
  | .returned document | .threw document => document

/-- Calls from the empty index. Any of their allocations may throw. -/
def calls : Machine ExactMatchIndex AddEvent where
  Initial index := index = empty
  Step index event after := match event with
    | .returned document =>
        ∃ failure documentId, (add document).run index failure = .returned documentId after
    | .threw document => ∃ k, (add document).run index (some k) = .thrown after

/-- The documents of the calls that returned. -/
def stored (events : List AddEvent) : List Document :=
  events.filterMap fun
    | .returned document => some document
    | .threw _ => none

/-- The id that each call took, and the words that it recorded: all of its document's, or the
first of them when it threw. -/
inductive Marks : List AddEvent → List (DocId × List Bytes) → Prop where
  | nil : Marks [] []
  | returned {events marks} (document : Document) : Marks events marks →
      Marks (events ++ [.returned document]) (marks ++
        [(UInt32.ofNat (stored events).length, wordsOf document.searchableText)])
  | threw {events marks done} (document : Document) : Marks events marks →
      done <+: wordsOf document.searchableText →
      Marks (events ++ [.threw document]) (marks ++
        [(UInt32.ofNat (stored events).length, done)])

/-- The ids under which a word was recorded. -/
def idsMarked (term : Bytes) (marks : List (DocId × List Bytes)) : List DocId :=
  (marks.filter fun mark => term ∈ mark.2).map Prod.fst

theorem idsMarked_concat (term : Bytes) (marks : List (DocId × List Bytes)) (id : DocId)
    (words : List Bytes) : idsMarked term (marks ++ [(id, words)]) =
      idsMarked term marks ++ if term ∈ words then [id] else [] := by
  rw [idsMarked, idsMarked, List.filter_append, List.map_append]
  congr 1
  split_ifs with h <;> simp [h]

theorem Marked.postings {before after : ExactMatchIndex} {id : DocId} {words : List Bytes}
    (h : Marked before id words after) {marks : List (DocId × List Bytes)}
    (hbefore : ∀ term, before.documentsContaining term =
      (idsMarked term marks).destutter (· ≠ ·)) (term : Bytes) :
    after.documentsContaining term =
      (idsMarked term (marks ++ [(id, words)])).destutter (· ≠ ·) := by
  rw [h.documentsContaining, idsMarked_concat, hbefore]
  split_ifs
  · rw [destutter_concat]
  · rw [List.append_nil]

/-- What an index is after a run: the sources of the calls that returned, and the ids of the calls
that recorded a word, without repeats. -/
structure IsMarked (events : List AddEvent) (marks : List (DocId × List Bytes))
    (index : ExactMatchIndex) : Prop where
  calls : Marks events marks
  sources : index.sources = (stored events).map Document.source
  postings : ∀ term, index.documentsContaining term = (idsMarked term marks).destutter (· ≠ ·)

theorem isMarked_step {events : List AddEvent} {marks : List (DocId × List Bytes)}
    {index after : ExactMatchIndex} {event : AddEvent} (h : IsMarked events marks index)
    (hstep : calls.Step index event after) :
    ∃ marks', IsMarked (events ++ [event]) marks' after := by
  have hlength : index.sources.length = (stored events).length := by
    rw [h.sources, List.length_map]
  cases event with
  | returned document =>
      obtain ⟨failure, documentId, hrun⟩ := hstep
      obtain ⟨-, rfl⟩ := run_eq_returned hrun
      obtain ⟨⟨marked, hmarked, hstate⟩, -⟩ := marked_add document index
      rw [hlength] at hmarked
      refine ⟨_, .returned document h.calls, ?_, fun term => ?_⟩
      · rw [(sources_add document index).1, h.sources]
        simp [stored]
      · rw [hstate]
        exact hmarked.postings h.postings term
  | threw document =>
      obtain ⟨k, hrun⟩ := hstep
      obtain ⟨-, hpoints⟩ := marked_add document index
      obtain ⟨done, hdone, hmarked⟩ := hpoints after (List.mem_of_getElem? (run_eq_thrown.mp hrun))
      rw [hlength] at hmarked
      refine ⟨_, .threw document h.calls hdone, ?_, hmarked.postings h.postings⟩
      rw [hmarked.sources, h.sources]
      simp [stored]

theorem exists_isMarked {events : List AddEvent} {index : ExactMatchIndex}
    (h : calls.Run events index) : ∃ marks, IsMarked events marks index := by
  induction h with
  | start hinitial => exact ⟨[], .nil, by rw [hinitial]; rfl, fun term => by rw [hinitial]; rfl⟩
  | step _ hstep ih =>
      obtain ⟨marks, hmarks⟩ := ih
      exact isMarked_step hmarks hstep

/-! ## What the marks say -/

/-- A document that is stored is marked with its words. -/
theorem Marks.mem_of_stored {events : List AddEvent} {marks : List (DocId × List Bytes)}
    (h : Marks events marks) (i : ℕ) (hi : i < (stored events).length) {term : Bytes}
    (hword : (stored events)[i].HasWord term) : UInt32.ofNat i ∈ idsMarked term marks := by
  induction h with
  | nil => simp [stored] at hi
  | @returned events marks document _ ih =>
      have hstored : stored (events ++ [.returned document]) = stored events ++ [document] := by
        simp [stored]
      simp only [hstored, List.length_append, List.length_singleton] at hi hword
      rw [idsMarked_concat, List.mem_append]
      rcases Nat.lt_succ_iff_lt_or_eq.mp hi with hi | rfl
      · rw [List.getElem_append_left hi] at hword
        exact .inl (ih hi hword)
      · rw [List.getElem_append_right le_rfl] at hword
        right
        rw [if_pos (mem_wordsOf.mpr (by simpa using hword))]
        exact List.mem_singleton_self _
  | @threw events marks done document _ _ ih =>
      have hstored : stored (events ++ [.threw document]) = stored events := by simp [stored]
      simp only [hstored] at hi hword
      rw [idsMarked_concat, List.mem_append]
      exact .inl (ih hi hword)

/-- A word is marked by calls whose document has it. -/
theorem Marks.exists_call {events : List AddEvent} {marks : List (DocId × List Bytes)}
    (h : Marks events marks) {term : Bytes} {id : DocId} (hid : id ∈ idsMarked term marks) :
    ∃ before event after, events = before ++ event :: after ∧
      id = UInt32.ofNat (stored before).length ∧ event.document.HasWord term := by
  have hearlier : ∀ {events : List AddEvent} {last : AddEvent}, (∃ before event after,
      events = before ++ event :: after ∧ id = UInt32.ofNat (stored before).length ∧
        event.document.HasWord term) →
      ∃ before event after, events ++ [last] = before ++ event :: after ∧
        id = UInt32.ofNat (stored before).length ∧ event.document.HasWord term := by
    rintro events last ⟨before, event, after, rfl, hid, hword⟩
    exact ⟨before, event, after ++ [last], by simp, hid, hword⟩
  induction h with
  | nil => simp [idsMarked] at hid
  | @returned events marks document _ ih =>
      rw [idsMarked_concat, List.mem_append] at hid
      rcases hid with hid | hid
      · exact hearlier (ih hid)
      · split_ifs at hid with hword
        · exact ⟨events, _, [], rfl, List.mem_singleton.mp hid, mem_wordsOf.mp hword⟩
        · cases hid
  | @threw events marks done document _ hdone ih =>
      rw [idsMarked_concat, List.mem_append] at hid
      rcases hid with hid | hid
      · exact hearlier (ih hid)
      · split_ifs at hid with hword
        · exact ⟨events, _, [], rfl, List.mem_singleton.mp hid,
            mem_wordsOf.mp (hdone.subset hword)⟩
        · cases hid

/-- When every call returns, a word is marked by the documents that have it. -/
theorem Marks.eq_idsOf {events : List AddEvent} {marks : List (DocId × List Bytes)}
    (h : Marks events marks) (hreturned : ∀ event ∈ events, event = .returned event.document)
    (term : Bytes) : idsMarked term marks = idsOf term (stored events) := by
  induction h with
  | nil => rfl
  | @returned events marks document _ ih =>
      have hstored : stored (events ++ [.returned document]) = stored events ++ [document] := by
        simp [stored]
      rw [hstored, idsMarked_concat, idsOf_append,
        ih fun event hevent => hreturned event (List.mem_append_left _ hevent)]
      congr 1
      exact if_congr mem_wordsOf rfl rfl
  | @threw events marks done document _ _ _ =>
      have hthrew := hreturned (.threw document) (by simp)
      cases hthrew

/-! ## Later calls -/

/-- What a later call leaves of an index: at least what was there. -/
structure Extends (before after : ExactMatchIndex) : Prop where
  sources : before.sources <+: after.sources
  postings : ∀ term, before.documentsContaining term <+: after.documentsContaining term

theorem Extends.refl (index : ExactMatchIndex) : Extends index index :=
  ⟨List.prefix_rfl, fun _ => List.prefix_rfl⟩

theorem Extends.trans {first second third : ExactMatchIndex} (h : Extends first second)
    (h' : Extends second third) : Extends first third :=
  ⟨h.sources.trans h'.sources, fun term => (h.postings term).trans (h'.postings term)⟩

theorem Marked.extends {before after : ExactMatchIndex} {id : DocId} {words : List Bytes}
    (h : Marked before id words after) : Extends before after where
  sources := by rw [h.sources]
  postings term := by
    rw [h.documentsContaining]
    split_ifs
    · exact prefix_endWith _ _
    · exact List.prefix_rfl

theorem extends_step {index after : ExactMatchIndex} {event : AddEvent}
    (h : calls.Step index event after) : Extends index after := by
  cases event with
  | returned document =>
      obtain ⟨failure, documentId, hrun⟩ := h
      obtain ⟨-, rfl⟩ := run_eq_returned hrun
      obtain ⟨⟨marked, hmarked, hstate⟩, -⟩ := marked_add document index
      rw [hstate]
      exact ⟨hmarked.extends.sources.trans (List.prefix_append _ _), hmarked.extends.postings⟩
  | threw document =>
      obtain ⟨k, hrun⟩ := h
      obtain ⟨done, -, hmarked⟩ :=
        (marked_add document index).2 after (List.mem_of_getElem? (run_eq_thrown.mp hrun))
      exact hmarked.extends

theorem extends_path {index after : ExactMatchIndex} {events : List AddEvent}
    (h : calls.Path index events after) : Extends index after := by
  induction h with
  | refl => exact .refl index
  | step _ hstep ih => exact ih.trans (extends_step hstep)

/-! ## More documents than ids -/

theorem run_ofDocuments (documents : List Document) :
    calls.Run (documents.map .returned) (ofDocuments documents) := by
  induction documents using List.reverseRecOn with
  | nil => exact .start rfl
  | append_singleton documents document ih =>
      rw [List.map_append, ofDocuments_append]
      exact ih.step ⟨none, _, rfl⟩

theorem stored_returned (documents : List Document) :
    stored (documents.map .returned) = documents := by
  simp [stored, List.filterMap_map]

/-- Any number of documents. Their ids are their positions modulo 2^32, so every document is found
by each of its words, and what is found has the word if and only if every document beyond the
first 2^32 has only words of the one whose id it takes. -/
theorem ids_wrap (documents : List Document) :
    (∀ term, (ofDocuments documents).documentsContaining term =
      (idsOf term documents).destutter (· ≠ ·)) ∧
    (∀ n (hn : n < documents.length),
      (∀ term, documents[n].HasWord term →
        UInt32.ofNat n ∈ (ofDocuments documents).documentsContaining term) ∧
      (ofDocuments documents).source (UInt32.ofNat n) = (documents[n % 2 ^ 32]?).map
        Document.source) ∧
    ((∀ term, ∀ id ∈ (ofDocuments documents).documentsContaining term,
        ∃ document, documents[id.toNat]? = some document ∧ document.HasWord term) ↔
      ∀ n (hn : n < documents.length) term, documents[n].HasWord term →
        ∃ document, documents[n % 2 ^ 32]? = some document ∧ document.HasWord term) := by
  obtain ⟨marks, hmarks⟩ := exists_isMarked (run_ofDocuments documents)
  have hpostings : ∀ term, (ofDocuments documents).documentsContaining term =
      (idsOf term documents).destutter (· ≠ ·) := by
    intro term
    rw [hmarks.postings, hmarks.calls.eq_idsOf, stored_returned]
    intro event hevent
    obtain ⟨document, -, rfl⟩ := List.mem_map.mp hevent
    rfl
  have hmem : ∀ term id, id ∈ (ofDocuments documents).documentsContaining term ↔
      ∃ n, ∃ hn : n < documents.length, id = UInt32.ofNat n ∧ documents[n].HasWord term := by
    intro term id
    rw [hpostings, mem_destutter, mem_idsOf]
  refine ⟨hpostings, fun n hn => ⟨fun term hword => ?_, ?_⟩, fun h n hn term hword => ?_,
    fun h term id hid => ?_⟩
  · exact (hmem term _).mpr ⟨n, hn, rfl, hword⟩
  · rw [source, sources_ofDocuments, UInt32.toNat_ofNat', List.getElem?_map]
  · have hfound := h term _ ((hmem term _).mpr ⟨n, hn, rfl, hword⟩)
    rwa [UInt32.toNat_ofNat'] at hfound
  · obtain ⟨n, hn, rfl, hword⟩ := (hmem term id).mp hid
    rw [UInt32.toNat_ofNat']
    exact h n hn term hword

end ExactMatchIndex

end Leta
