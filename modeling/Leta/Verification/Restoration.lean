import Leta.Verification.Batches
import Leta.Verification.Determinacy
import Leta.Verification.Unescaping

/-! # Restoring an index from its sources

The sources that an index stores are all there is to its documents: sent to a server again, in
whatever batches, they make the same index. -/

namespace Leta

open Httplib Json Ondemand

/-! ## Bodies -/

/-- The document was read from an object. -/
def IsRead (document : Document) : Prop :=
  ∃ v, IsDocument v ∧ ValidUtf8 v.render ∧ documentOf v = document

/-- The body is an array of the texts, with any whitespace between them. -/
def IsArrayOf (body : Bytes) (texts : List Bytes) : Prop :=
  ∃ layout : List (Spaced Bytes), layout.map Spaced.item = texts ∧ body = arrayText layout

theorem exists_spaced {α β : Type} {f : α → β} {layout : List (Spaced β)} {items : List α}
    (h : layout.map Spaced.item = items.map f) :
    ∃ spaced : List (Spaced α), spaced.map (Spaced.map f) = layout ∧
      spaced.map Spaced.item = items := by
  induction layout generalizing items with
  | nil =>
      have hitems : items = [] := List.map_eq_nil_iff.mp h.symm
      exact ⟨[], rfl, hitems.symm⟩
  | cons s layout ih =>
      cases items with
      | nil => simp at h
      | cons item items =>
          simp only [List.map_cons, List.cons.injEq] at h
          obtain ⟨spaced, hspaced, hitems⟩ := ih h.2
          refine ⟨⟨s.before, item, s.after⟩ :: spaced, ?_, ?_⟩
          · rw [List.map_cons, hspaced, Spaced.map, ← h.1]
          · rw [List.map_cons, hitems]

/-- The sources of documents make a batch of these documents. -/
theorem isBatch_of_isArrayOf {body : Bytes} {documents : List Document}
    (h : IsArrayOf body (documents.map Document.source)) (hne : documents ≠ [])
    (hsize : documents.length ≤ maxBatchDocuments)
    (hread : ∀ document ∈ documents, IsRead document) :
    ∃ before batch after, IsBatch body before batch after ∧
      batch.elements.map documentOf = documents := by
  obtain ⟨layout, hitems, rfl⟩ := h
  obtain ⟨spaced, rfl, rfl⟩ := exists_spaced hitems
  have hread : ∀ s ∈ spaced, IsRead s.item := fun s hs => hread s.item (List.mem_map_of_mem hs)
  obtain ⟨values, rfl, hvalues⟩ := exists_layout_of_documents hread
  have hvaluesNe : values ≠ [] := by simpa using hne
  obtain ⟨batch, harray, helements, hrender⟩ := exists_array_of_layout hvaluesNe
  have htext : arrayText ((values.map (Spaced.map documentOf)).map (Spaced.map Document.source)) =
      batch.render := by
    rw [hrender, List.map_map]
    rfl
  have hutf8 : ValidUtf8 batch.render := by
    rw [hrender]
    apply validUtf8_arrayText
    intro s hs
    obtain ⟨t, ht, rfl⟩ := List.mem_map.mp hs
    exact (hvalues t ht).2
  -- No byte-order mark: the text starts with the bracket.
  have hmark : dropByteOrderMark batch.render = batch.render := by
    obtain ⟨inner, hinner⟩ := Value.exists_array_head harray
    exact dropByteOrderMark_of_head hinner (by decide)
  refine ⟨Ws.none, batch, Ws.none, ?_, ?_⟩
  · rw [htext]
    refine ⟨by rwa [hmark], ?_, harray, ?_, ?_, ?_⟩
    · rw [hmark]
      simp [Ws.none]
    · simpa [helements] using hne
    · simpa [helements] using hsize
    · intro v hv
      rw [helements] at hv
      obtain ⟨s, hs, rfl⟩ := List.mem_map.mp hv
      exact (hvalues s hs).1
  · rw [helements]
    simp [Spaced.map]

/-! ## Messages -/

/-- The message brings the texts to an index, as one batch. -/
structure Brings (library : Library) (uid : IndexUid) (message : Message) (texts : List Bytes) :
    Prop where
  asks : Asks library message (.addDocuments uid.value)
  passes : Library.Passes library message
  json : NamesJson (headerValue message.headers contentTypeHeader)
  array : IsArrayOf message.body texts
  nonempty : texts ≠ []
  size : texts.length ≤ maxBatchDocuments

/-- The documents of an index, none when it is missing. -/
def Catalogue.documents (catalogue : Catalogue) (uid : Bytes) : List Document :=
  ((catalogue uid).map Prod.snd).getD []

theorem Catalogue.documents_extend (catalogue : Catalogue) (index : IndexMetadata)
    (documents : List Document) (uid : Bytes) :
    (catalogue.extend index documents).documents uid =
      if uid = index.uid.value then catalogue.documents uid ++ documents
      else catalogue.documents uid := by
  rw [Catalogue.documents, Catalogue.extend, Function.update_apply]
  split_ifs with huid
  · rw [Catalogue.documents, huid]
    cases catalogue index.uid.value <;> rfl
  · rfl

/-- What brings the sources of documents adds these documents. -/
theorem Brings.ingests {library : Library} {uid : IndexUid} {call : ApiCall}
    {documents : List Document}
    (h : Brings library uid call.message (documents.map Document.source))
    (hread : ∀ document ∈ documents, IsRead document) {catalogue catalogue' : Catalogue}
    (hstep : ApiStep library catalogue call catalogue') :
    catalogue'.documents uid.value = catalogue.documents uid.value ++ documents ∧
      call.answer.status = 200 := by
  obtain ⟨message, now, answer⟩ := call
  have hne : documents ≠ [] := by simpa using h.nonempty
  have hsize : documents.length ≤ maxBatchDocuments := by simpa using h.size
  obtain ⟨before, batch, after, hbatch, helements⟩ := isBatch_of_isArrayOf h.array hne hsize hread
  obtain ⟨rfl, rfl⟩ := (hstep.handles h.passes h.asks (by simp) h.json).ingests hbatch
  refine ⟨?_, rfl⟩
  rw [Catalogue.documents_extend, helements]
  exact if_pos rfl

/-! ## Runs -/

variable {S S' : Ondemand} {library library' : Library} {ε ε' : Type}
  {draw : ε → UInt64 × ε} {draw' : ε' → UInt64 × ε'}

end Leta
