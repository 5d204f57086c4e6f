import Leta.Verification.Catalogue

/-! # The map of postings

No term is kept without a document: the map holds exactly the words of the stored documents. -/

namespace Leta

open Allocating

namespace ExactMatchIndex

/-- Every postings list holds an id. -/
def NoEmptyPostings (index : ExactMatchIndex) : Prop :=
  ∀ (term : Bytes) (ids : List DocId), index.postings[term]? = some ids → ids ≠ []

theorem noEmptyPostings_empty : empty.NoEmptyPostings := by
  intro term ids hids
  rw [empty, Std.ExtTreeMap.getElem?_empty] at hids
  cases hids

theorem noEmptyPostings_record {index : ExactMatchIndex} (h : index.NoEmptyPostings)
    (term : Bytes) (documentId : DocId) :
    (record term documentId index).state.NoEmptyPostings := by
  by_cases hlast : (index.documentsContaining term).getLast? = some documentId
  · rwa [record_repeated hlast]
  · intro w ids hids
    by_cases hterm : term ∈ index.postings
    · rw [record_known hterm hlast] at hids
      dsimp only at hids
      rw [getElem?_insert] at hids
      split_ifs at hids
      · cases hids
        simp
      · exact h w ids hids
    · -- The list is empty between the insertion of the node and that of the id.
      rw [record_unknown hterm] at hids
      dsimp only at hids
      rw [getElem?_insert, getElem?_insert] at hids
      split_ifs at hids
      · cases hids
        simp
      · exact h w ids hids

theorem noEmptyPostings_recordText {index : ExactMatchIndex} (h : index.NoEmptyPostings)
    (documentId : DocId) (text : Bytes) :
    (recordText documentId text index).state.NoEmptyPostings := by
  rw [recordText_eq]
  exact (forM_rule (I := fun _ => NoEmptyPostings) (J := fun _ => True) [] _
    (fun _ word _ hdone => ⟨noEmptyPostings_record hdone word documentId, fun _ _ => trivial⟩) h).1

theorem noEmptyPostings_add {index : ExactMatchIndex} (h : index.NoEmptyPostings)
    (document : Document) : (add document index).state.NoEmptyPostings := by
  have htexts := (forM_rule (f := recordText (UInt32.ofNat index.sources.length))
    (I := fun _ => NoEmptyPostings) (J := fun _ => True) []
    document.searchableText
    (fun _ text _ hdone => ⟨noEmptyPostings_recordText hdone _ text, fun _ _ => trivial⟩) h).1
  rw [add_eq]
  exact htexts

theorem noEmptyPostings_ofDocuments (documents : List Document) :
    (ofDocuments documents).NoEmptyPostings := by
  induction documents using List.reverseRecOn with
  | nil => exact noEmptyPostings_empty
  | append_singleton documents document ih =>
      rw [ofDocuments_append]
      exact noEmptyPostings_add ih document

/-- The map says of a term what `documents_containing` does, or does not hold it. -/
theorem getElem?_postings {index : ExactMatchIndex} (h : index.NoEmptyPostings) (term : Bytes) :
    index.postings[term]? = if index.documentsContaining term = [] then none
      else some (index.documentsContaining term) := by
  rw [documentsContaining, Std.ExtTreeMap.getD_eq_getD_getElem?]
  cases hterm : index.postings[term]? with
  | none => rfl
  | some ids => simp [h term ids hterm]

theorem mem_postings {index : ExactMatchIndex} (h : index.NoEmptyPostings) (term : Bytes) :
    term ∈ index.postings ↔ index.documentsContaining term ≠ [] := by
  rw [← Std.ExtTreeMap.isSome_getElem?_iff_mem, getElem?_postings h]
  split_ifs with hnil <;> simp [hnil]

/-! ## Runs -/

theorem toNat_ofNat_id {n : ℕ} (h : n < 2 ^ 32) : (UInt32.ofNat n).toNat = n :=
  UInt32.toNat_ofNat_of_lt' h

/-- With no more documents than ids, an id is in the list of a word when its document has it. -/
theorem mem_idsOf_iff {word : Bytes} {documents : List Document} (h : documents.length ≤ 2 ^ 32)
    (id : DocId) : id ∈ idsOf word documents ↔
      ∃ hid : id.toNat < documents.length, documents[id.toNat].HasWord word := by
  rw [mem_idsOf]
  constructor
  · rintro ⟨i, hi, rfl, hword⟩
    have hid := toNat_ofNat_id (lt_of_lt_of_le hi h)
    simp only [hid]
    exact ⟨hi, hword⟩
  · rintro ⟨hid, hword⟩
    exact ⟨id.toNat, hid, UInt32.ofNat_toNat.symm, hword⟩

theorem source_ofDocuments {documents : List Document} {n : ℕ} (hn : n < documents.length)
    (h : n < 2 ^ 32) :
    (ofDocuments documents).source (UInt32.ofNat n) = some documents[n].source := by
  rw [source, sources_ofDocuments, toNat_ofNat_id h]
  simp [hn]

/-- The documents, added one after the other to the empty index, are stored under the ids
0, 1, 2 and so on, and the map holds exactly their words. -/
structure StoresInOrder (documents : List Document) : Prop where
  documentCount : (ofDocuments documents).documentCount = documents.length
  added : ∀ n (hn : n < documents.length),
    let added := add documents[n] (ofDocuments (documents.take n))
    added.value = UInt32.ofNat n ∧ added.value.toNat = n ∧
      added.state = ofDocuments (documents.take (n + 1))
  source : ∀ n (hn : n < documents.length) later, n < later →
    (ofDocuments (documents.take later)).source (UInt32.ofNat n) = some documents[n].source
  postings : ∀ (term : Bytes) (ids : List DocId),
    (ofDocuments documents).postings[term]? = some ids →
    ids ≠ [] ∧ ids.Pairwise (· < ·) ∧
      ∀ id ∈ ids, id.toNat < (ofDocuments documents).documentCount
  terms : ∀ term, term ∈ (ofDocuments documents).postings ↔
    ∃ document ∈ documents, document.HasWord term
  documentsContaining : ∀ word : Bytes,
    ((ofDocuments documents).documentsContaining word).Pairwise (· < ·) ∧
      ∀ id, id ∈ (ofDocuments documents).documentsContaining word ↔
        ∃ hid : id.toNat < documents.length, documents[id.toNat].HasWord word
  changed : ∀ n (hn : n < documents.length) term,
    let before := ofDocuments (documents.take n)
    (add documents[n] before).state.postings[term]? = if documents[n].HasWord term then
      some (before.documentsContaining term ++ [UInt32.ofNat n]) else before.postings[term]?

theorem storesInOrder {documents : List Document} (h : documents.length ≤ 2 ^ 32) :
    StoresInOrder documents := by
  have hholds := holds_ofDocuments h
  have hnoEmpty := noEmptyPostings_ofDocuments documents
  have htake : ∀ n, (documents.take n).length ≤ 2 ^ 32 := fun n => by
    rw [List.length_take]
    omega
  have hlength : ∀ n, n < documents.length → (documents.take n).length = n := fun n hn => by
    rw [List.length_take]
    omega
  refine ⟨?_, ?_, ?_, ?_, ?_, ?_, ?_⟩
  · rw [documentCount, sources_ofDocuments, List.length_map]
  · intro n hn
    obtain ⟨-, hvalue⟩ := holds_add (holds_ofDocuments (htake n))
      (by rw [hlength n hn]; omega) documents[n]
    rw [hlength n hn] at hvalue
    refine ⟨hvalue, by rw [hvalue, toNat_ofNat_id (by omega)], ?_⟩
    rw [List.take_add_one, List.getElem?_eq_getElem hn, ofDocuments_append]
    rfl
  · intro n hn later hlater
    have hn' : n < (documents.take later).length := by
      rw [List.length_take]
      omega
    rw [source_ofDocuments hn' (by omega), List.getElem_take]
  · intro term ids hids
    have hne := hnoEmpty term ids hids
    obtain rfl : ids = idsOf term documents := by
      rw [← hholds.documentsContaining, ExactMatchIndex.documentsContaining,
        Std.ExtTreeMap.getD_eq_getD_getElem?, hids]
      rfl
    refine ⟨hne, pairwise_idsOf term h, fun id hid => ?_⟩
    rw [documentCount, sources_ofDocuments, List.length_map]
    exact ((mem_idsOf_iff h id).mp hid).1
  · intro term
    rw [mem_postings hnoEmpty, hholds.documentsContaining]
    constructor
    · intro hne
      obtain ⟨id, hid⟩ := List.exists_mem_of_ne_nil _ hne
      obtain ⟨hlt, hword⟩ := (mem_idsOf_iff h id).mp hid
      exact ⟨_, List.getElem_mem hlt, hword⟩
    · rintro ⟨document, hmem, hword⟩
      obtain ⟨i, hi, rfl⟩ := List.getElem_of_mem hmem
      exact List.ne_nil_of_mem (mem_idsOf.mpr ⟨i, hi, rfl, hword⟩)
  · intro word
    rw [hholds.documentsContaining]
    exact ⟨pairwise_idsOf word h, mem_idsOf_iff h⟩
  · intro n hn term
    have hbefore := holds_ofDocuments (htake n)
    obtain ⟨hafter, -⟩ := holds_add hbefore (by rw [hlength n hn]; omega) documents[n]
    have hnoEmpty' := noEmptyPostings_ofDocuments (documents.take n)
    dsimp only
    rw [getElem?_postings (noEmptyPostings_add hnoEmpty' _), hafter.documentsContaining,
      getElem?_postings hnoEmpty', hbefore.documentsContaining, idsOf_append, hlength n hn]
    by_cases hword : documents[n].HasWord term <;> simp [hword]

/-- Two documents share a word, which one of them has twice. -/
theorem storesInOrder_two : StoresInOrder [⟨ascii "1", [ascii "b a", ascii "a"]⟩,
    ⟨ascii "2", [ascii " a	"]⟩] :=
  storesInOrder (by decide)

end ExactMatchIndex

end Leta
