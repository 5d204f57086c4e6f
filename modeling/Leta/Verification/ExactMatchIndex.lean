import Leta.Core.ExactMatchIndex

/-! # What an index holds

An index holds a list of documents: their sources, and for every word the ids of those it
occurs in. Adding a document appends it, when no allocation throws. -/

namespace Leta

open Allocating

/-- What a map holds after one insertion. -/
theorem getElem?_insert {β : Type} (map : Std.ExtTreeMap Bytes β) (key other : Bytes) (value : β) :
    (map.insert key value)[other]? = if other = key then some value else map[other]? := by
  rw [Std.ExtTreeMap.getElem?_insert]
  exact if_congr (by rw [Std.LawfulEqCmp.compare_eq_iff_eq, eq_comm]) rfl rfl

/-- The word occurs in the document's searchable text. -/
def Document.HasWord (document : Document) (word : Bytes) : Prop :=
  ∃ text ∈ document.searchableText, word ∈ words isAsciiWhitespace text

instance (document : Document) (word : Bytes) : Decidable (document.HasWord word) :=
  inferInstanceAs (Decidable (∃ text ∈ document.searchableText, _))

/-- The ids of the documents with the word. -/
def idsOf (word : Bytes) (documents : List Document) : List DocId :=
  (documents.zipIdx.filter fun entry => entry.1.HasWord word).map fun entry =>
    UInt32.ofNat entry.2

theorem idsOf_append (word : Bytes) (documents : List Document) (document : Document) :
    idsOf word (documents ++ [document]) = idsOf word documents ++
      if document.HasWord word then [UInt32.ofNat documents.length] else [] := by
  rw [idsOf, idsOf, List.zipIdx_append, List.filter_append, List.map_append]
  congr 1
  split_ifs with h <;> simp [h]

theorem mem_idsOf {word : Bytes} {documents : List Document} {id : DocId} :
    id ∈ idsOf word documents ↔
      ∃ i, ∃ hi : i < documents.length, id = UInt32.ofNat i ∧ documents[i].HasWord word := by
  refine ⟨fun h => ?_, ?_⟩
  · obtain ⟨⟨document, i⟩, hentry, rfl⟩ := List.mem_map.mp h
    obtain ⟨hmem, hword⟩ := List.mem_filter.mp hentry
    obtain ⟨hi, hdocument⟩ := List.mem_zipIdx' hmem
    exact ⟨i, hi, rfl, hdocument ▸ by simpa using hword⟩
  · rintro ⟨i, hi, rfl, hword⟩
    refine List.mem_map.mpr ⟨(documents[i], i), List.mem_filter.mpr ⟨?_, by simpa using hword⟩, rfl⟩
    exact List.mk_mem_zipIdx_iff_getElem?.mpr (by simp [hi])

/-- With no more documents than ids, the ids of a word increase. -/
theorem pairwise_idsOf (word : Bytes) {documents : List Document}
    (h : documents.length ≤ 2 ^ 32) : (idsOf word documents).Pairwise (· < ·) := by
  induction documents using List.reverseRecOn with
  | nil => exact .nil
  | append_singleton documents document ih =>
      rw [List.length_append, List.length_singleton] at h
      rw [idsOf_append]
      refine List.pairwise_append.mpr ⟨ih (by omega), by split_ifs <;> simp, ?_⟩
      intro id hid last hlast
      obtain ⟨i, hi, rfl, -⟩ := mem_idsOf.mp hid
      split_ifs at hlast
      · rw [List.mem_singleton.mp hlast, UInt32.lt_iff_toNat_lt,
          UInt32.toNat_ofNat_of_lt' (by rw [UInt32.size]; omega),
          UInt32.toNat_ofNat_of_lt' (by rw [UInt32.size]; omega)]
        exact hi
      · simp at hlast

namespace ExactMatchIndex

/-- What a caller can see. -/
structure Unchanged (before after : ExactMatchIndex) : Prop where
  documentCount : after.documentCount = before.documentCount
  source : ∀ documentId, after.source documentId = before.source documentId
  documentsContaining : ∀ term, after.documentsContaining term = before.documentsContaining term

/-- The index holds the documents, no more and no less. -/
structure Holds (index : ExactMatchIndex) (documents : List Document) : Prop where
  sources : index.sources = documents.map Document.source
  documentsContaining : ∀ term, index.documentsContaining term = idsOf term documents

theorem holds_empty : empty.Holds [] := ⟨rfl, fun _ => rfl⟩

/-- Nothing in the postings ends with the id. -/
def Fresh (index : ExactMatchIndex) (documentId : DocId) : Prop :=
  ∀ term, (index.documentsContaining term).getLast? ≠ some documentId

/-- The id has been recorded for the words seen, and nothing else has happened. -/
structure Recorded (before : ExactMatchIndex) (documentId : DocId) (seen : List Bytes)
    (index : ExactMatchIndex) : Prop where
  sources : index.sources = before.sources
  documentsContaining : ∀ term, index.documentsContaining term =
    before.documentsContaining term ++ if term ∈ seen then [documentId] else []

theorem recorded_nil (index : ExactMatchIndex) (documentId : DocId) :
    Recorded index documentId [] index :=
  ⟨rfl, by simp⟩

/-! ## One word -/

theorem documentsContaining_insert (index : ExactMatchIndex) (term w : Bytes) (ids : List DocId) :
    documentsContaining { index with postings := index.postings.insert term ids } w =
      if w = term then ids else index.documentsContaining w := by
  simp only [documentsContaining, Std.ExtTreeMap.getD_insert, Std.LawfulEqCmp.compare_eq_iff_eq]
  split_ifs with h h' h' <;> simp_all

theorem record_known {index : ExactMatchIndex} {term : Bytes} {documentId : DocId}
    (hterm : term ∈ index.postings)
    (hlast : (index.documentsContaining term).getLast? ≠ some documentId) :
    record term documentId index = ⟨[index, index], (), { index with
      postings := index.postings.insert term
          (index.documentsContaining term ++ [documentId]) }⟩ := by
  have hnew : index.postings.getD term [] = [] ∨
      (index.postings.getD term []).getLast? ≠ some documentId := .inr hlast
  simp [record, bind, allocate, getState, modifyState, hterm, hnew, documentsContaining]

theorem record_unknown {index : ExactMatchIndex} {term : Bytes} {documentId : DocId}
    (hterm : term ∉ index.postings) :
    record term documentId index =
      let opened := { index with postings := index.postings.insert term [] }
      ⟨[index, index, opened], (), { opened with
        postings := opened.postings.insert term [documentId] }⟩ := by
  simp [record, bind, allocate, getState, modifyState, hterm]

theorem record_repeated {index : ExactMatchIndex} {term : Bytes} {documentId : DocId}
    (hlast : (index.documentsContaining term).getLast? = some documentId) :
    record term documentId index = ⟨[index], (), index⟩ := by
  have hne : index.postings.getD term [] ≠ [] := by
    intro hnil
    simp [documentsContaining, hnil] at hlast
  have hterm : term ∈ index.postings := by
    by_contra hterm
    exact hne (Std.ExtTreeMap.getD_eq_fallback hterm)
  have hold : ¬ (index.postings.getD term [] = [] ∨
      (index.postings.getD term []).getLast? ≠ some documentId) :=
    not_or.mpr ⟨hne, not_not.mpr hlast⟩
  simp [record, bind, allocate, getState, hterm, hold]

theorem documentsContaining_unknown {index : ExactMatchIndex} {term : Bytes}
    (hterm : term ∉ index.postings) : index.documentsContaining term = [] :=
  Std.ExtTreeMap.getD_eq_fallback hterm

/-- Recording a word appends the id to its postings, unless it is there already. -/
theorem recorded_record {before index : ExactMatchIndex} {documentId : DocId} {seen : List Bytes}
    (hfresh : before.Fresh documentId) (h : Recorded before documentId seen index)
    (term : Bytes) :
    Recorded before documentId (seen ++ [term]) (record term documentId index).state ∧
      ∀ s ∈ (record term documentId index).points, Recorded before documentId seen s := by
  by_cases hseen : term ∈ seen
  · have hlast : (index.documentsContaining term).getLast? = some documentId := by
      simp [h.documentsContaining, hseen]
    rw [record_repeated hlast]
    refine ⟨⟨h.sources, fun w => ?_⟩, by simpa using h⟩
    have hmem : w ∈ seen ++ [term] ↔ w ∈ seen := by
      simp only [List.mem_append, List.mem_singleton, or_iff_left_iff_imp]
      rintro rfl
      exact hseen
    simp only [h.documentsContaining, hmem]
  · have hterm : index.documentsContaining term = before.documentsContaining term := by
      simp [h.documentsContaining, hseen]
    have hdone : ∀ (opened : ExactMatchIndex), Recorded before documentId seen opened →
        Recorded before documentId (seen ++ [term]) { opened with
          postings := opened.postings.insert term
            (before.documentsContaining term ++ [documentId]) } := by
      intro opened hopened
      refine ⟨hopened.sources, fun w => ?_⟩
      rw [documentsContaining_insert]
      by_cases hw : w = term
      · simp [hw]
      · rw [if_neg hw, hopened.documentsContaining]
        simp [hw]
    by_cases hknown : term ∈ index.postings
    · have hlast : (index.documentsContaining term).getLast? ≠ some documentId :=
        hterm ▸ hfresh term
      rw [record_known hknown hlast, hterm]
      exact ⟨hdone index h, by simpa using h⟩
    · have hnil : before.documentsContaining term = [] :=
        hterm.symm.trans (documentsContaining_unknown hknown)
      have hopened : Recorded before documentId seen
          { index with postings := index.postings.insert term [] } := by
        refine ⟨h.sources, fun w => ?_⟩
        rw [documentsContaining_insert, ← h.documentsContaining]
        split_ifs with hw
        · rw [hw, documentsContaining_unknown hknown]
        · rfl
      rw [record_unknown hknown]
      refine ⟨?_, by simpa using ⟨h, hopened⟩⟩
      simpa [hnil] using hdone _ hopened

/-- Recording leaves the sources alone. -/
theorem sources_record (index : ExactMatchIndex) (term : Bytes) (documentId : DocId) :
    (record term documentId index).state.sources = index.sources ∧
      ∀ s ∈ (record term documentId index).points, s.sources = index.sources := by
  by_cases hlast : (index.documentsContaining term).getLast? = some documentId
  · simp [record_repeated hlast]
  · by_cases hterm : term ∈ index.postings
    · simp [record_known hterm hlast]
    · simp [record_unknown hterm]

/-! ## One document -/

theorem fresh_of_holds {index : ExactMatchIndex} {documents : List Document}
    (h : index.Holds documents) (hroom : documents.length < 2 ^ 32) :
    index.Fresh (UInt32.ofNat documents.length) := by
  intro term hlast
  rw [h.documentsContaining] at hlast
  obtain ⟨i, hi, hid, -⟩ := mem_idsOf.mp (List.mem_of_getLast? hlast)
  have := congrArg UInt32.toNat hid
  simp only [UInt32.toNat_ofNat'] at this
  omega

/-- The loop over the words of one text. -/
theorem recorded_words {before index : ExactMatchIndex} {documentId : DocId} {seen : List Bytes}
    (hfresh : before.Fresh documentId) (h : Recorded before documentId seen index)
    (words : List Bytes) :
    Recorded before documentId (seen ++ words)
        ((words.forM fun word => record word documentId) index).state ∧
      ∀ s ∈ ((words.forM fun word => record word documentId) index).points,
        ∃ more, Recorded before documentId (seen ++ more) s :=
  forM_rule (I := fun done => Recorded before documentId (seen ++ done)) [] _
    (fun done word index hdone => by
      obtain ⟨hnext, hpoints⟩ := recorded_record hfresh hdone word
      exact ⟨by simpa using hnext, fun s hs => ⟨done, hpoints s hs⟩⟩) (by simpa using h)

theorem splitting_eq (text : Bytes) (index : ExactMatchIndex) :
    splitting text index = ⟨List.replicate (splitOnWhitespace text).length index,
      splitOnWhitespace text, index⟩ := by
  simp [splitting, bind, forM_allocate]

/-- Splitting changes nothing, and then every word of the text is recorded. -/
theorem recordText_eq (documentId : DocId) (text : Bytes) (index : ExactMatchIndex) :
    recordText documentId text index =
      let recorded := ((splitOnWhitespace text).forM fun word => record word documentId) index
      ⟨List.replicate (splitOnWhitespace text).length index ++ recorded.points, (),
        recorded.state⟩ := by
  simp [recordText, bind, splitting_eq]

theorem recorded_text {before index : ExactMatchIndex} {documentId : DocId} {seen : List Bytes}
    (hfresh : before.Fresh documentId) (h : Recorded before documentId seen index) (text : Bytes) :
    Recorded before documentId (seen ++ splitOnWhitespace text)
        (recordText documentId text index).state ∧
      ∀ s ∈ (recordText documentId text index).points,
        ∃ more, Recorded before documentId (seen ++ more) s := by
  obtain ⟨hstate, hpoints⟩ := recorded_words hfresh h (splitOnWhitespace text)
  rw [recordText_eq]
  refine ⟨hstate, fun s hs => ?_⟩
  rcases List.mem_append.mp hs with hs | hs
  · exact ⟨[], by simpa [List.eq_of_mem_replicate hs] using h⟩
  · exact hpoints s hs

/-- The words of a document, in the order in which they are recorded. -/
def wordsOf (texts : List Bytes) : List Bytes := texts.flatMap splitOnWhitespace

theorem mem_wordsOf {document : Document} {word : Bytes} :
    word ∈ wordsOf document.searchableText ↔ document.HasWord word := by
  simp [wordsOf, Document.HasWord, splitOnWhitespace_eq_words]

theorem recorded_texts {before index : ExactMatchIndex} {documentId : DocId} {seen : List Bytes}
    (hfresh : before.Fresh documentId) (h : Recorded before documentId seen index)
    (texts : List Bytes) :
    Recorded before documentId (seen ++ wordsOf texts)
        (texts.forM (recordText documentId) index).state ∧
      ∀ s ∈ (texts.forM (recordText documentId) index).points,
        ∃ more, Recorded before documentId (seen ++ more) s :=
  forM_rule (I := fun done => Recorded before documentId (seen ++ wordsOf done)) [] _
    (fun done text index hdone => by
      obtain ⟨hnext, hpoints⟩ := recorded_text hfresh hdone text
      refine ⟨by simpa [wordsOf] using hnext, fun s hs => ?_⟩
      obtain ⟨more, hmore⟩ := hpoints s hs
      exact ⟨wordsOf done ++ more, by simpa using hmore⟩) (by simpa [wordsOf] using h)

theorem add_eq (document : Document) (index : ExactMatchIndex) :
    add document index =
      let documentId := UInt32.ofNat index.sources.length
      let recorded := document.searchableText.forM (recordText documentId) index
      ⟨recorded.points ++ [recorded.state], documentId,
        { recorded.state with sources := recorded.state.sources ++ [document.source] }⟩ := by
  simp [add, bind, getState, allocate, modifyState]

theorem sources_recordText (documentId : DocId) (text : Bytes) (index : ExactMatchIndex) :
    (recordText documentId text index).state.sources = index.sources ∧
      ∀ s ∈ (recordText documentId text index).points, s.sources = index.sources := by
  obtain ⟨hstate, hpoints⟩ := forM_rule (f := fun word => record word documentId)
    (I := fun _ after => after.sources = index.sources) (J := fun s => s.sources = index.sources)
    [] (splitOnWhitespace text) (fun _ word after hafter =>
      ⟨(sources_record after word documentId).1.trans hafter, fun s hs =>
        ((sources_record after word documentId).2 s hs).trans hafter⟩) rfl
  rw [recordText_eq]
  refine ⟨hstate, fun s hs => ?_⟩
  rcases List.mem_append.mp hs with hs | hs
  · rw [List.eq_of_mem_replicate hs]
  · exact hpoints s hs

/-- Storing the source is the last step of adding a document. -/
theorem sources_add (document : Document) (index : ExactMatchIndex) :
    (add document index).state.sources = index.sources ++ [document.source] ∧
      ∀ s ∈ (add document index).points, s.sources = index.sources := by
  obtain ⟨hstate, hpoints⟩ := forM_rule (f := recordText (UInt32.ofNat index.sources.length))
    (I := fun _ after => after.sources = index.sources) (J := fun s => s.sources = index.sources)
    [] document.searchableText (fun _ text after hafter =>
      ⟨(sources_recordText _ text after).1.trans hafter, fun s hs =>
        ((sources_recordText _ text after).2 s hs).trans hafter⟩) rfl
  rw [add_eq]
  refine ⟨congrArg (· ++ [document.source]) hstate, fun s hs => ?_⟩
  rcases List.mem_append.mp hs with hs | hs
  · exact hpoints s hs
  · rw [List.mem_singleton.mp hs]
    exact hstate

/-- Adding a document appends it. -/
theorem holds_add {index : ExactMatchIndex} {documents : List Document}
    (h : index.Holds documents) (hroom : documents.length < 2 ^ 32) (document : Document) :
    (add document index).state.Holds (documents ++ [document]) ∧
      (add document index).value = UInt32.ofNat documents.length := by
  have hlength : index.sources.length = documents.length := by simp [h.sources]
  obtain ⟨hstate, -⟩ := recorded_texts (fresh_of_holds h hroom) (recorded_nil index _)
    document.searchableText
  rw [add_eq, hlength]
  refine ⟨⟨?_, fun term => ?_⟩, rfl⟩
  · rw [List.map_append, ← h.sources]
    exact congrArg (· ++ [document.source]) hstate.sources
  · have hterm := hstate.documentsContaining term
    simp only [List.nil_append, mem_wordsOf] at hterm
    rw [idsOf_append, ← h.documentsContaining]
    exact hterm

/-! ## Running out of memory -/

/-- The words of the first text that has any, in the order in which they are recorded. -/
def firstWords (document : Document) : Option (List Bytes) :=
  (document.searchableText.map splitOnWhitespace).find? (· ≠ [])

/-- How many allocations `add` makes before anything can be seen of it: those of splitting the
first text with words and of recording its first word, or only that of storing the source. -/
def earlyPoints (index : ExactMatchIndex) (document : Document) : ℕ :=
  match firstWords document with
  | some (word :: words) => words.length + 1 + if word ∈ index.postings then 2 else 3
  | _ => 1

theorem unchanged_of_recorded {before index : ExactMatchIndex} {documentId : DocId}
    (h : Recorded before documentId [] index) : Unchanged before index where
  documentCount := congrArg List.length h.sources
  source id := by rw [source, source, h.sources]
  documentsContaining term := by simpa using h.documentsContaining term

theorem not_unchanged_of_recorded {before index : ExactMatchIndex} {documentId : DocId}
    {seen : List Bytes} (h : Recorded before documentId seen index) (hne : seen ≠ []) :
    ¬ Unchanged before index := by
  obtain ⟨word, hword⟩ := List.exists_mem_of_ne_nil _ hne
  intro hunchanged
  have := (h.documentsContaining word).symm.trans (hunchanged.documentsContaining word)
  simp [hword] at this

theorem length_points_record {before index : ExactMatchIndex} {documentId : DocId}
    (hfresh : before.Fresh documentId) (h : Recorded before documentId [] index) (term : Bytes) :
    (record term documentId index).points.length = if term ∈ index.postings then 2 else 3 := by
  split_ifs with hterm
  · have hlast : (index.documentsContaining term).getLast? ≠ some documentId := by
      simpa [h.documentsContaining] using hfresh term
    rw [record_known hterm hlast]
    rfl
  · rw [record_unknown hterm]
    rfl

/-- The points of the loop over the texts: first those at which nothing can be seen. -/
theorem points_texts {before : ExactMatchIndex} {documentId : DocId}
    (hfresh : before.Fresh documentId) (texts : List Bytes) :
    ∃ early late, (texts.forM (recordText documentId) before).points = early ++ late ∧
      (∀ s ∈ early, Recorded before documentId [] s) ∧
      (∀ s ∈ late, ∃ seen, seen ≠ [] ∧ Recorded before documentId seen s) ∧
      (wordsOf texts = [] → late = []) ∧
      early.length = match (texts.map splitOnWhitespace).find? (· ≠ []) with
        | some (word :: words) => words.length + 1 + if word ∈ before.postings then 2 else 3
        | _ => 0 := by
  induction texts with
  | nil => exact ⟨[], [], rfl, by simp, by simp, fun _ => rfl, rfl⟩
  | cons text texts ih =>
      rw [forM_cons, recordText_eq]
      cases hwords : splitOnWhitespace text with
      | nil =>
          obtain ⟨early, late, hpoints, hearly, hlate, hnone, hlength⟩ := ih
          refine ⟨early, late, ?_, hearly, hlate, ?_, by simpa [hwords] using hlength⟩
          · simpa [forM_nil] using hpoints
          · simpa [wordsOf, hwords] using hnone
      | cons word words =>
          have hnil := recorded_nil before documentId
          obtain ⟨hword, hwordPoints⟩ := recorded_record hfresh hnil word
          obtain ⟨hrest, hrestPoints⟩ := recorded_words hfresh hword words
          obtain ⟨-, hmorePoints⟩ := recorded_texts hfresh hrest texts
          refine ⟨List.replicate (words.length + 1) before ++
              (record word documentId before).points,
            _, by rw [forM_cons]; simp only [List.append_assoc, List.length_cons]; rfl, ?_, ?_,
            ?_, ?_⟩
          · intro s hs
            rcases List.mem_append.mp hs with hs | hs
            · rwa [List.eq_of_mem_replicate hs]
            · exact hwordPoints s hs
          · intro s hs
            rcases List.mem_append.mp hs with hs | hs
            · obtain ⟨more, hmore⟩ := hrestPoints s hs
              exact ⟨_, by simp, hmore⟩
            · obtain ⟨more, hmore⟩ := hmorePoints s hs
              exact ⟨_, by simp, hmore⟩
          · simp [wordsOf, hwords]
          · simp [hwords, length_points_record hfresh hnil]

theorem find?_of_wordsOf_eq_nil {texts : List Bytes} (h : wordsOf texts = []) :
    (texts.map splitOnWhitespace).find? (· ≠ []) = none := by
  simpa [wordsOf] using h

theorem find?_of_wordsOf_ne_nil {texts : List Bytes} (h : wordsOf texts ≠ []) :
    ∃ word words, (texts.map splitOnWhitespace).find? (· ≠ []) = some (word :: words) := by
  cases hfind : (texts.map splitOnWhitespace).find? (· ≠ []) with
  | none => exact absurd (by simpa [wordsOf] using hfind) h
  | some words =>
      have hne := List.find?_some hfind
      obtain _ | ⟨word, words⟩ := words
      · simp at hne
      · exact ⟨word, words, rfl⟩

/-- The points of `add`: at the first ones nothing can be seen, and at all others the id is
findable by a word. -/
theorem points_add {index : ExactMatchIndex}
    (hfresh : index.Fresh (UInt32.ofNat index.sources.length)) (document : Document) :
    ∃ early late, (add document index).points = early ++ late ∧
      (∀ s ∈ early, Unchanged index s) ∧ (∀ s ∈ late, ¬ Unchanged index s) ∧
      early.length = earlyPoints index document := by
  obtain ⟨early, late, hpoints, hearly, hlate, hnone, hlength⟩ :=
    points_texts hfresh document.searchableText
  obtain ⟨hstate, -⟩ := recorded_texts hfresh (recorded_nil index _) document.searchableText
  have hearly' : ∀ s ∈ early, Unchanged index s := fun s hs => unchanged_of_recorded (hearly s hs)
  have hlate' : ∀ s ∈ late, ¬ Unchanged index s := by
    intro s hs
    obtain ⟨seen, hne, hseen⟩ := hlate s hs
    exact not_unchanged_of_recorded hseen hne
  rw [add_eq]
  dsimp only
  rw [hpoints, earlyPoints, firstWords]
  by_cases hwords : wordsOf document.searchableText = []
  · rw [find?_of_wordsOf_eq_nil hwords] at hlength ⊢
    rw [hwords] at hstate
    refine ⟨early ++ [_], [], by rw [hnone hwords]; simp only [List.append_nil]; rfl, ?_, by simp,
      by simpa using hlength⟩
    intro s hs
    rcases List.mem_append.mp hs with hs | hs
    · exact hearly' s hs
    · rw [List.mem_singleton.mp hs]
      exact unchanged_of_recorded hstate
  · obtain ⟨word, words, hfind⟩ := find?_of_wordsOf_ne_nil hwords
    rw [hfind] at hlength ⊢
    refine ⟨early, late ++ [_], by rw [List.append_assoc], hearly', ?_, hlength⟩
    intro s hs
    rcases List.mem_append.mp hs with hs | hs
    · exact hlate' s hs
    · rw [List.mem_singleton.mp hs]
      exact not_unchanged_of_recorded hstate (by simpa using hwords)

end ExactMatchIndex

end Leta
