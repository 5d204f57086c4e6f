import Leta.Verification.Catalogue

/-! # Running out of memory

A call that throws leaves what it had done in place. Before its first visible change that is
nothing; from there on a failed `add` leaves words under an id that the next document takes,
and a failed batch leaves the documents before the failure, in an index it may have created. -/

namespace Leta

open Allocating

/-! ## One index -/

namespace ExactMatchIndex

/-- What `add` calls reach from the empty index, and the documents of those that returned. Any
call may return; `mayThrow` says where one may throw. -/
inductive Reached (mayThrow : ExactMatchIndex → Document → ℕ → Prop) :
    ExactMatchIndex → List Document → Prop where
  | empty : Reached mayThrow empty []
  | returned {index documents document failure documentId after} :
      Reached mayThrow index documents →
      (add document).run index failure = .returned documentId after →
      Reached mayThrow after (documents ++ [document])
  | thrown {index documents document k after} :
      Reached mayThrow index documents → mayThrow index document k →
      (add document).run index (some k) = .thrown after →
      Reached mayThrow after documents

/-- The allocation comes before the first visible change, and there is an id for the document. -/
def FailsEarly (index : ExactMatchIndex) (document : Document) (k : ℕ) : Prop :=
  index.documentCount < 2 ^ 32 ∧ k < earlyPoints index document

/-- An `add` that throws changes nothing visible just when it fails early. -/
theorem unchanged_iff_failsEarly {index after : ExactMatchIndex} {documents : List Document}
    {document : Document} {k : ℕ} (h : index.Holds documents) (hroom : documents.length < 2 ^ 32)
    (hrun : (add document).run index (some k) = .thrown after) :
    Unchanged index after ↔ FailsEarly index document k := by
  have hlength : index.sources.length = documents.length := by simp [h.sources]
  have hfresh : index.Fresh (UInt32.ofNat index.sources.length) := hlength ▸ fresh_of_holds h hroom
  obtain ⟨early, late, hpoints, hearly, hlate, hcount⟩ := points_add hfresh document
  rw [FailsEarly, documentCount, hlength, ← hcount, and_iff_right hroom]
  exact thrown_iff_lt hpoints hearly hlate hrun

/-- An index that looks the same holds the same documents. -/
theorem Unchanged.holds {before after : ExactMatchIndex} {documents : List Document}
    (hsame : Unchanged before after) (h : before.Holds documents)
    (hroom : documents.length ≤ 2 ^ 32) : after.Holds documents := by
  refine ⟨?_, fun term => (hsame.documentsContaining term).trans (h.documentsContaining term)⟩
  have hlength : after.sources.length = before.sources.length := hsame.documentCount
  rw [← h.sources]
  refine List.ext_getElem? fun i => ?_
  by_cases hi : i < before.sources.length
  · have hsource := hsame.source (UInt32.ofNat i)
    have hsmall : i < 2 ^ 32 := by
      rw [h.sources, List.length_map] at hi
      omega
    simpa only [ExactMatchIndex.source, UInt32.toNat_ofNat_of_lt' hsmall] using hsource
  · rw [List.getElem?_eq_none (by omega), List.getElem?_eq_none (by omega)]

theorem holds_returned {index after : ExactMatchIndex} {documents : List Document}
    {document : Document} {failure : Option ℕ} {documentId : DocId} (h : index.Holds documents)
    (hroom : (documents ++ [document]).length ≤ 2 ^ 32)
    (hrun : (add document).run index failure = .returned documentId after) :
    after.Holds (documents ++ [document]) := by
  obtain ⟨-, rfl⟩ := run_eq_returned hrun
  rw [List.length_append, List.length_singleton] at hroom
  exact (holds_add h (by omega) document).1

/-- While every call that throws fails early, the index holds the documents of the calls that
returned, and a call that throws changes nothing visible just when it fails early. -/
theorem early_failures {index : ExactMatchIndex} {documents : List Document}
    (h : Reached FailsEarly index documents) (hroom : documents.length ≤ 2 ^ 32) :
    index.Holds documents ∧ (documents.length < 2 ^ 32 → ∀ document k after,
      (add document).run index (some k) = .thrown after →
        (Unchanged index after ↔ FailsEarly index document k)) := by
  have hholds : index.Holds documents := by
    induction h with
    | empty => exact holds_empty
    | returned _ hrun ih => exact holds_returned (ih (by simp at hroom; omega)) hroom hrun
    | thrown _ hearly hrun ih =>
        have hbound := hearly.1
        rw [documentCount, (ih hroom).sources, List.length_map] at hbound
        exact ((unchanged_iff_failsEarly (ih hroom) hbound hrun).mpr hearly).holds (ih hroom) hroom
  exact ⟨hholds, fun hroom _ _ _ hrun => unchanged_iff_failsEarly hholds hroom hrun⟩

/-- A document with the words `a` and `b`. -/
def twoWords : Document := ⟨ascii "\x7b\x7d", [ascii "a b"]⟩

def otherWord : Document := ⟨ascii "\x7b\x7d", [ascii "c"]⟩

theorem splitOnWhitespace_twoWords : splitOnWhitespace (ascii "a b") = [ascii "a", ascii "b"] := by
  rw [splitOnWhitespace_eq_words]
  decide

theorem splitOnWhitespace_otherWord : splitOnWhitespace (ascii "c") = [ascii "c"] := by
  rw [splitOnWhitespace_eq_words]
  decide

/-- The map's node for `a` throws, and then the other document is stored. -/
theorem early_failures_twoWords : ∃ failed after,
    (add twoWords).run empty (some 3) = .thrown failed ∧
      (add otherWord).run failed none = .returned 0 after ∧
      after.documentsContaining (ascii "a") = idsOf (ascii "a") [otherWord] := by
  have hfailed : (add twoWords).run empty (some 3) = .thrown empty := by
    rw [run_eq_thrown, add_eq]
    simp only [twoWords, forM_cons, recordText_eq, splitOnWhitespace_twoWords]
    rfl
  have hearly : FailsEarly empty twoWords 3 := by
    refine ⟨by decide, ?_⟩
    simp only [earlyPoints, firstWords, twoWords, List.map_cons, splitOnWhitespace_twoWords]
    decide
  have hreturned : (add otherWord).run empty none = .returned 0 (add otherWord empty).state := rfl
  have hreached := (Reached.empty.thrown hearly hfailed).returned hreturned
  exact ⟨_, _, hfailed, rfl, (early_failures hreached (by decide)).1.documentsContaining _⟩

/-- What is left when the map's node for `b` throws. -/
def firstWordOnly : ExactMatchIndex where
  sources := []
  postings := ((∅ : Std.ExtTreeMap Bytes (List DocId)).insert (ascii "a") []).insert (ascii "a") [0]

theorem run_add_twoWords : (add twoWords).run empty (some 6) = .thrown firstWordOnly := by
  rw [run_eq_thrown, add_eq]
  simp only [twoWords, forM_cons, recordText_eq, splitOnWhitespace_twoWords]
  rfl

/-- The next document is then found by the word `a`. -/
theorem late_failure_twoWords : ∃ failed after,
    (add twoWords).run empty (some 6) = .thrown failed ∧ ¬ Unchanged empty failed ∧
      (add otherWord).run failed none = .returned 0 after ∧
      Reached (fun _ _ _ => True) after [otherWord] ∧
      after.documentsContaining (ascii "a") = [0] ∧ ¬ otherWord.HasWord (ascii "a") := by
  have hreturned : (add otherWord).run firstWordOnly none =
      .returned 0 (add otherWord firstWordOnly).state := rfl
  have hreached : Reached (fun _ _ _ => True) (add otherWord firstWordOnly).state [otherWord] :=
    (Reached.empty.thrown trivial run_add_twoWords).returned hreturned
  refine ⟨_, _, run_add_twoWords, fun hsame => ?_, rfl, hreached, ?_, by decide⟩
  · exact absurd (hsame.documentsContaining (ascii "a")) (by decide)
  · rw [add_eq]
    simp only [otherWord, forM_cons, recordText_eq, splitOnWhitespace_otherWord]
    decide

end ExactMatchIndex

/-! ## The repository -/

structure StoredIndex.Unchanged (before after : StoredIndex) : Prop where
  metadata : after.metadata = before.metadata
  documents : before.documents.Unchanged after.documents

structure StoredIndex.Holds (stored : StoredIndex) (entry : IndexMetadata × List Document) :
    Prop where
  metadata : stored.metadata = entry.1
  documents : stored.documents.Holds entry.2

namespace InMemoryIndexRepository

/-- What a caller can see: the same indexes, with the same metadata and the same documents. -/
def Unchanged (before after : InMemoryIndexRepository) : Prop :=
  ∀ uid : Bytes, Option.Rel StoredIndex.Unchanged before.indexes[uid]? after.indexes[uid]?

/-- The repository holds the indexes of the catalogue, each with its metadata and documents. -/
def Holds (repository : InMemoryIndexRepository) (catalogue : Catalogue) : Prop :=
  ∀ uid : Bytes, Option.Rel StoredIndex.Holds repository.indexes[uid]? (catalogue uid)

/-- The allocation comes before the first visible change: before the missing index is in the map,
or before the first document is visible in the index that is there. -/
def FailsEarly (repository : InMemoryIndexRepository) (indexIfMissing : IndexMetadata)
    (documents : List Document) (k : ℕ) : Prop :=
  match repository.indexes[indexIfMissing.uid.value]? with
  | none => k < 2 + copies indexIfMissing
  | some stored => ∀ document ∈ documents.head?,
      stored.documents.documentCount < 2 ^ 32 ∧
        k < 1 + copies indexIfMissing + stored.documents.earlyPoints document

/-- What calls reach from the empty repository, and the catalogue of the calls that returned.
Creating an index may throw anywhere; `mayThrow` says where adding documents may. -/
inductive Reached
    (mayThrow : InMemoryIndexRepository → IndexMetadata → List Document → ℕ → Prop) :
    InMemoryIndexRepository → Catalogue → Prop where
  | empty : Reached mayThrow empty fun _ => none
  | added {repository catalogue index failure result after} :
      Reached mayThrow repository catalogue →
      (add index).run repository failure = .returned result after →
      Reached mayThrow after (catalogue.extend index [])
  | addThrown {repository catalogue index k after} :
      Reached mayThrow repository catalogue →
      (add index).run repository (some k) = .thrown after →
      Reached mayThrow after catalogue
  | addedDocuments {repository catalogue index documents failure result after} :
      Reached mayThrow repository catalogue →
      (addDocuments index documents).run repository failure = .returned result after →
      Reached mayThrow after (catalogue.extend index documents)
  | addDocumentsThrown {repository catalogue index documents k after} :
      Reached mayThrow repository catalogue → mayThrow repository index documents k →
      (addDocuments index documents).run repository (some k) = .thrown after →
      Reached mayThrow after catalogue

/-! ### Where the operations allocate -/

/-- Creating an index changes nothing until its last step. -/
theorem points_add {index : IndexMetadata} {repository after : InMemoryIndexRepository}
    (h : after ∈ (add index repository).points) : after = repository := by
  cases hstored : repository.indexes[index.uid.value]? with
  | some stored =>
      rw [add_present _ hstored, List.append_nil] at h
      exact List.eq_of_mem_replicate h
  | none =>
      rw [add_missing _ hstored, List.append_nil] at h
      exact List.eq_of_mem_replicate h

theorem unchanged_refl (repository : InMemoryIndexRepository) :
    Unchanged repository repository := by
  intro uid
  cases repository.indexes[uid]? with
  | none => exact .none
  | some stored => exact .some ⟨rfl, rfl, fun _ => rfl, fun _ => rfl⟩

theorem points_addAt (key : Bytes) (document : Document) (repository : InMemoryIndexRepository) :
    (addAt key document repository).points =
      (ExactMatchIndex.add document (documentsAt key repository)).points.map
        fun documents => setDocumentsAt key documents repository := by
  simp [addAt, bind, zoom]

theorem documentsAt_eq {key : Bytes} {repository : InMemoryIndexRepository} {stored : StoredIndex}
    (h : repository.indexes[key]? = some stored) :
    documentsAt key repository = stored.documents := by
  rw [documentsAt, h]

theorem unchanged_setDocumentsAt {key : Bytes} {repository : InMemoryIndexRepository}
    {stored : StoredIndex} (h : repository.indexes[key]? = some stored)
    (documents : ExactMatchIndex) :
    Unchanged repository (setDocumentsAt key documents repository) ↔
      stored.documents.Unchanged documents := by
  refine ⟨fun hsame => ?_, fun hsame uid => ?_⟩
  · have hkey := hsame key
    rw [getElem?_setDocumentsAt, if_pos rfl, h] at hkey
    cases hkey with
    | some hsame => exact hsame.documents
  · rw [getElem?_setDocumentsAt]
    split_ifs with huid
    · rw [huid, h]
      exact .some ⟨rfl, hsame⟩
    · exact unchanged_refl repository uid

/-! ### Documents that are there stay there -/

/-- The key has an index, of at least so many documents. -/
def Stores (key : Bytes) (count : ℕ) (repository : InMemoryIndexRepository) : Prop :=
  ∃ stored, repository.indexes[key]? = some stored ∧ count ≤ stored.documents.documentCount

theorem stores_setDocumentsAt {key : Bytes} {count : ℕ} {repository : InMemoryIndexRepository}
    (h : Stores key 0 repository) {documents : ExactMatchIndex}
    (hcount : count ≤ documents.documentCount) :
    Stores key count (setDocumentsAt key documents repository) := by
  obtain ⟨stored, hstored, -⟩ := h
  refine ⟨{ stored with documents }, ?_, hcount⟩
  rw [getElem?_setDocumentsAt, if_pos rfl, hstored]
  rfl

theorem stores_addAt {key : Bytes} {count : ℕ} {repository : InMemoryIndexRepository}
    (h : Stores key count repository) (document : Document) :
    Stores key (count + 1) (addAt key document repository).state ∧
      ∀ s ∈ (addAt key document repository).points, Stores key count s := by
  obtain ⟨stored, hstored, hcount⟩ := h
  have hpresent : Stores key 0 repository := ⟨stored, hstored, Nat.zero_le _⟩
  obtain ⟨hstate, hpoints⟩ := ExactMatchIndex.sources_add document (documentsAt key repository)
  rw [documentsAt_eq hstored] at hstate hpoints
  refine ⟨stores_setDocumentsAt hpresent ?_, fun s hs => ?_⟩
  · rw [documentsAt_eq hstored, ExactMatchIndex.documentCount, hstate, List.length_append]
    exact Nat.succ_le_succ hcount
  · rw [points_addAt, documentsAt_eq hstored] at hs
    obtain ⟨documents, hdocuments, rfl⟩ := List.mem_map.mp hs
    refine stores_setDocumentsAt hpresent ?_
    rwa [ExactMatchIndex.documentCount, hpoints documents hdocuments]

theorem stores_forM_addAt {key : Bytes} {count : ℕ} {repository : InMemoryIndexRepository}
    (h : Stores key count repository) (documents : List Document) :
    Stores key count (documents.forM (addAt key) repository).state ∧
      ∀ s ∈ (documents.forM (addAt key) repository).points, Stores key count s :=
  forM_rule (I := fun _ => Stores key count) [] _ (fun _ document repository h => by
    obtain ⟨⟨stored, hstored, hcount⟩, hpoints⟩ := stores_addAt h document
    exact ⟨⟨stored, hstored, by omega⟩, hpoints⟩) h

/-- An index that grew can be seen to have. -/
theorem not_unchanged_of_stores {key : Bytes} {count : ℕ}
    {before after : InMemoryIndexRepository} (hbefore : ¬ Stores key count before)
    (hafter : Stores key count after) : ¬ Unchanged before after := by
  intro hsame
  obtain ⟨stored, hstored, hcount⟩ := hafter
  have hkey := hsame key
  rw [hstored] at hkey
  cases hkey' : before.indexes[key]? with
  | none =>
      rw [hkey'] at hkey
      cases hkey
  | some stored' =>
      rw [hkey'] at hkey
      cases hkey with
      | some hsame => exact hbefore ⟨stored', hkey', hsame.documents.documentCount ▸ hcount⟩

/-! ### A call that throws -/

/-- The rest of the call after the loop over the batch, or a part of it. -/
theorem not_unchanged_loop {key : Bytes} {count : ℕ} (copied : ℕ)
    {before repository : InMemoryIndexRepository} (documents : List Document)
    (hbefore : ¬ Stores key count before) (h : Stores key count repository) :
    let added := documents.forM (addAt key) repository
    ∀ s ∈ added.points ++ List.replicate copied added.state, ¬ Unchanged before s := by
  obtain ⟨hstate, hpoints⟩ := stores_forM_addAt h documents
  intro added s hs
  rcases List.mem_append.mp hs with hs | hs
  · exact not_unchanged_of_stores hbefore (hpoints s hs)
  · rw [List.eq_of_mem_replicate hs]
    exact not_unchanged_of_stores hbefore hstate

theorem failsEarly_cons {repository : InMemoryIndexRepository} {index : IndexMetadata}
    {stored : StoredIndex} (h : repository.indexes[index.uid.value]? = some stored)
    (document : Document) (documents : List Document) (k : ℕ) :
    FailsEarly repository index (document :: documents) k ↔
      stored.documents.documentCount < 2 ^ 32 ∧
        k < 1 + copies index + stored.documents.earlyPoints document := by
  simp [FailsEarly, h]

/-- Adding documents that throws changes nothing visible just when it fails early. -/
theorem unchanged_iff_failsEarly {repository after : InMemoryIndexRepository}
    {index : IndexMetadata} {documents : List Document} {k : ℕ}
    (hfresh : ∀ stored, repository.indexes[index.uid.value]? = some stored → documents ≠ [] →
      stored.documents.documentCount < 2 ^ 32 ∧
        stored.documents.Fresh (UInt32.ofNat stored.documents.sources.length))
    (hrun : (addDocuments index documents).run repository (some k) = .thrown after) :
    Unchanged repository after ↔ FailsEarly repository index documents k := by
  have hfirst : ∀ n, ∀ s ∈ List.replicate n repository, Unchanged repository s := by
    intro n s hs
    rw [List.eq_of_mem_replicate hs]
    exact unchanged_refl repository
  cases hstored : repository.indexes[index.uid.value]? with
  | none =>
      have hbefore : ¬ Stores index.uid.value 0 repository := by simp [Stores, hstored]
      have hcreated : Stores index.uid.value 0
          { indexes := repository.indexes.insert index.uid.value ⟨index, .empty⟩ } :=
        ⟨⟨index, .empty⟩, by rw [getElem?_insert, if_pos rfl], Nat.zero_le _⟩
      simpa [FailsEarly, hstored] using thrown_iff_lt
        (congrArg Trace.points (addDocuments_missing _ hstored documents)) (hfirst _)
        (not_unchanged_loop _ _ hbefore hcreated) hrun
  | some stored =>
      have hpoints := congrArg Trace.points (addDocuments_present _ hstored documents)
      dsimp only at hpoints
      cases documents with
      | nil =>
          rw [run_eq_thrown, hpoints, forM_nil, List.nil_append, List.replicate_append_replicate]
            at hrun
          have hsame := hfirst _ _ (List.mem_of_getElem? hrun)
          simpa [FailsEarly, hstored] using hsame
      | cons document documents =>
          obtain ⟨hroom, hfresh⟩ := hfresh stored hstored (by simp)
          obtain ⟨early, late, hadd, hearly, hlate, hcount⟩ :=
            ExactMatchIndex.points_add hfresh document
          have hbefore : ¬ Stores index.uid.value (stored.documents.documentCount + 1)
              repository := by
            rintro ⟨stored', hstored', hcount⟩
            rw [hstored] at hstored'
            cases hstored'
            omega
          have hnext := (stores_addAt ⟨stored, hstored, le_rfl⟩ document).1
          have hrest := not_unchanged_loop (copies stored.metadata) documents hbefore hnext
          rw [forM_cons, points_addAt, documentsAt_eq hstored, hadd, List.map_append] at hpoints
          simp only [List.append_assoc] at hpoints
          rw [← List.append_assoc] at hpoints
          have hiff := thrown_iff_lt hpoints (P := Unchanged repository) ?_ ?_ hrun
          · rw [failsEarly_cons hstored, and_iff_right hroom]
            simpa [hcount] using hiff
          · intro s hs
            rcases List.mem_append.mp hs with hs | hs
            · exact hfirst _ s hs
            · obtain ⟨documents, hdocuments, rfl⟩ := List.mem_map.mp hs
              exact (unchanged_setDocumentsAt hstored documents).mpr (hearly _ hdocuments)
          · intro s hs
            rcases List.mem_append.mp hs with hs | hs
            · obtain ⟨documents, hdocuments, rfl⟩ := List.mem_map.mp hs
              exact (unchanged_setDocumentsAt hstored documents).not.mpr (hlate _ hdocuments)
            · exact hrest s hs

/-! ### Runs -/

/-- No index has more documents than there are ids. -/
def Fits (catalogue : Catalogue) : Prop :=
  ∀ uid entry, catalogue uid = some entry → entry.2.length ≤ 2 ^ 32

theorem fits_of_extend {catalogue : Catalogue} {index : IndexMetadata}
    {documents : List Document} (h : Fits (catalogue.extend index documents)) :
    Fits catalogue := by
  intro uid entry hentry
  by_cases huid : uid = index.uid.value
  · subst huid
    have hlonger := h index.uid.value (entry.1, entry.2 ++ documents)
      (by rw [Catalogue.extend, Function.update_self, hentry])
    rw [List.length_append] at hlonger
    omega
  · exact h uid entry (by rwa [Catalogue.extend, Function.update_of_ne huid])

/-- Adding documents to a catalogue that the repository holds. -/
theorem holds_addDocuments {repository : InMemoryIndexRepository} {catalogue : Catalogue}
    (h : Holds repository catalogue) {index : IndexMetadata} {documents : List Document}
    (hfits : Fits (catalogue.extend index documents)) :
    Holds (addDocuments index documents repository).state (catalogue.extend index documents) := by
  intro uid
  have hkey := h index.uid.value
  have hroom := hfits index.uid.value
  rw [Catalogue.extend, Function.update_self] at hroom
  rw [Catalogue.extend, Function.update_apply]
  cases hstored : repository.indexes[index.uid.value]? <;>
    cases hentry : catalogue index.uid.value <;> rw [hstored, hentry] at hkey <;>
    simp only [hentry] at hroom ⊢
  · rw [addDocuments_missing _ hstored]
    dsimp only
    rw [getElem?_forM_addAt (by rw [getElem?_insert, if_pos rfl])]
    split_ifs with huid
    · exact .some ⟨rfl, ExactMatchIndex.holds_ofDocuments (hroom _ rfl)⟩
    · rw [getElem?_insert, if_neg huid]
      exact h uid
  · cases hkey
  · cases hkey
  · cases hkey with
    | some hholds =>
        rw [addDocuments_present _ hstored]
        dsimp only
        rw [getElem?_forM_addAt hstored]
        split_ifs with huid
        · exact .some ⟨hholds.metadata, ExactMatchIndex.holds_addAll hholds.documents (hroom _ rfl)⟩
        · exact h uid

/-- Creating an index is adding no documents to it. -/
theorem state_add (index : IndexMetadata) (repository : InMemoryIndexRepository) :
    (add index repository).state = (addDocuments index [] repository).state := by
  cases hstored : repository.indexes[index.uid.value]? with
  | some stored =>
      rw [add_present _ hstored, addDocuments_present _ hstored]
      rfl
  | none =>
      rw [add_missing _ hstored, addDocuments_missing _ hstored]
      rfl

theorem Unchanged.holds {before after : InMemoryIndexRepository} {catalogue : Catalogue}
    (hsame : Unchanged before after) (h : Holds before catalogue) (hfits : Fits catalogue) :
    Holds after catalogue := by
  intro uid
  have hkey := h uid
  have hkey' := hsame uid
  cases hbefore : before.indexes[uid]? <;> cases hafter : after.indexes[uid]? <;>
    rw [hbefore, hafter] at hkey' <;> cases hkey'
  · rwa [hbefore] at hkey
  · rename_i hsame
    rw [hbefore] at hkey
    cases hentry : catalogue uid <;> rw [hentry] at hkey <;> cases hkey
    rename_i hholds
    exact .some ⟨hsame.metadata.trans hholds.metadata,
      hsame.documents.holds hholds.documents (hfits uid _ hentry)⟩

theorem fresh_of_holds {repository : InMemoryIndexRepository} {catalogue : Catalogue}
    (h : Holds repository catalogue) {key : Bytes} {stored : StoredIndex}
    (hstored : repository.indexes[key]? = some stored)
    (hroom : stored.documents.documentCount < 2 ^ 32) :
    stored.documents.Fresh (UInt32.ofNat stored.documents.sources.length) := by
  have hkey := h key
  rw [hstored] at hkey
  cases hentry : catalogue key <;> rw [hentry] at hkey <;> cases hkey
  rename_i hholds
  have hlength := congrArg List.length hholds.documents.sources
  rw [List.length_map] at hlength
  rw [ExactMatchIndex.documentCount, hlength] at hroom
  rw [hlength]
  exact ExactMatchIndex.fresh_of_holds hholds.documents hroom

theorem FailsEarly.room {repository : InMemoryIndexRepository} {index : IndexMetadata}
    {documents : List Document} {k : ℕ} (h : FailsEarly repository index documents k)
    {stored : StoredIndex} (hstored : repository.indexes[index.uid.value]? = some stored)
    (hne : documents ≠ []) : stored.documents.documentCount < 2 ^ 32 := by
  obtain ⟨document, documents, rfl⟩ := List.exists_cons_of_ne_nil hne
  exact ((failsEarly_cons hstored document documents k).mp h).1

theorem holds_reached {repository : InMemoryIndexRepository} {catalogue : Catalogue}
    (h : Reached FailsEarly repository catalogue) (hfits : Fits catalogue) :
    Holds repository catalogue := by
  induction h with
  | empty =>
      intro uid
      rw [represents_empty uid]
      exact .none
  | added _ hrun ih =>
      obtain ⟨-, rfl⟩ := run_eq_returned hrun
      rw [state_add]
      exact holds_addDocuments (ih (fits_of_extend hfits)) hfits
  | addThrown _ hrun ih =>
      rw [points_add (List.mem_of_getElem? (run_eq_thrown.mp hrun))]
      exact ih hfits
  | addedDocuments _ hrun ih =>
      obtain ⟨-, rfl⟩ := run_eq_returned hrun
      exact holds_addDocuments (ih (fits_of_extend hfits)) hfits
  | addDocumentsThrown _ hearly hrun ih =>
      refine Unchanged.holds ?_ (ih hfits) hfits
      refine (unchanged_iff_failsEarly (fun stored hstored hne => ?_) hrun).mpr hearly
      have hroom := FailsEarly.room hearly hstored hne
      exact ⟨hroom, fresh_of_holds (ih hfits) hstored hroom⟩

/-- While every batch that throws fails early, the repository holds the batches that returned,
and a batch that throws changes nothing visible just when it fails early. -/
theorem early_batch_failures {repository : InMemoryIndexRepository} {catalogue : Catalogue}
    (h : Reached FailsEarly repository catalogue) (hfits : Fits catalogue) :
    Holds repository catalogue ∧ ∀ index documents k after,
      (∀ stored, repository.indexes[index.uid.value]? = some stored →
        stored.documents.documentCount < 2 ^ 32) →
      (addDocuments index documents).run repository (some k) = .thrown after →
        (Unchanged repository after ↔ FailsEarly repository index documents k) := by
  have hholds := holds_reached h hfits
  refine ⟨hholds, fun index documents k after hroom hrun => ?_⟩
  exact unchanged_iff_failsEarly (fun stored hstored _ =>
    ⟨hroom stored hstored, fresh_of_holds hholds hstored (hroom stored hstored)⟩) hrun

theorem hasUidForm_a : HasUidForm (ascii "a") := by decide

/-- An index of the uid `a`, and a batch of two documents without words. -/
def lettersIndex : IndexMetadata := indexCreatedAt 0 ⟨ascii "a", hasUidForm_a⟩ none

def twoDocuments : List Document := [⟨ascii "\x7b\x7d", []⟩, ⟨ascii "\x7b\x7d", []⟩]

/-- The map's node for the index throws, and then the batch is sent again. -/
theorem early_batch_failures_retried : ∃ failed after,
    (addDocuments lettersIndex twoDocuments).run empty (some 2) = .thrown failed ∧
      (addDocuments lettersIndex twoDocuments).run failed none =
        .returned (.ok lettersIndex) after ∧
      Option.Rel StoredIndex.Holds after.indexes[ascii "a"]?
        (some (lettersIndex, twoDocuments)) := by
  have hfailed : (addDocuments lettersIndex twoDocuments).run empty (some 2) = .thrown empty := rfl
  have hearly : FailsEarly empty lettersIndex twoDocuments 2 := by
    rw [FailsEarly, represents_empty]
    exact (by decide : 2 < 2 + copies lettersIndex)
  have hreturned : (addDocuments lettersIndex twoDocuments).run empty none =
      .returned (.ok lettersIndex) (addDocuments lettersIndex twoDocuments empty).state := rfl
  have hreached := (Reached.empty.addDocumentsThrown hearly hfailed).addedDocuments hreturned
  have hfits : Fits (Catalogue.extend (fun _ => none) lettersIndex twoDocuments) := by
    intro uid entry hentry
    rw [Catalogue.extend, Function.update_apply] at hentry
    split_ifs at hentry
    cases hentry
    decide
  exact ⟨_, _, hfailed, rfl, (early_batch_failures hreached hfits).1 (ascii "a")⟩

/-- The vector of sources throws as it grows for the second document. The first is stored, in an
index that was missing, and is stored again when the batch is sent again. -/
theorem late_batch_failure : ∃ failed after,
    (addDocuments lettersIndex twoDocuments).run empty (some 4) = .thrown failed ∧
      ¬ Unchanged empty failed ∧
      (addDocuments lettersIndex twoDocuments).run failed none =
        .returned (.ok lettersIndex) after ∧
      (documentsAt (ascii "a") after).sources =
        [ascii "\x7b\x7d", ascii "\x7b\x7d", ascii "\x7b\x7d"] := by
  have hbefore : ¬ Stores (ascii "a") 1 empty := by
    simp [Stores, represents_empty (ascii "a")]
  exact ⟨_, _, rfl, not_unchanged_of_stores hbefore ⟨_, rfl, by decide⟩, rfl, rfl⟩

end InMemoryIndexRepository

end Leta
