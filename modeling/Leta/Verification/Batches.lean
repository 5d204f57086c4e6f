import Leta.Json.Arrays
import Leta.Ondemand.Reference
import Leta.Verification.DocumentParser

/-! # Batches: which bodies, which bytes, and in any company -/

namespace Leta

open Json Ondemand

variable {S : Ondemand}

/-- An accepted body is a batch, any other is refused as malformed. -/
theorem parseDocumentBatch_accepts_iff (laws : S.Lawful) (body : Bytes) :
    ((∃ documents, parseDocumentBatch S body = .ok documents) ↔
      ∃ before batch after, IsBatch body before batch after) ∧
    ((∀ before batch after, ¬ IsBatch body before batch after) →
      ∃ e, parseDocumentBatch S body = .error e ∧ e.code = .malformedRequest) := by
  have haccepts : (∃ documents, parseDocumentBatch S body = .ok documents) ↔
      ∃ before batch after, IsBatch body before batch after := by
    refine ⟨?_, ?_⟩
    · rintro ⟨documents, hok⟩
      obtain ⟨before, batch, after, hbatch, -⟩ := (parseDocumentBatch_eq_ok laws).mp hok
      exact ⟨before, batch, after, hbatch⟩
    · rintro ⟨before, batch, after, hbatch⟩
      exact ⟨_, parseDocumentBatch_complete laws hbatch⟩
  refine ⟨haccepts, fun hnone => ?_⟩
  cases hparse : parseDocumentBatch S body with
  | ok documents =>
      obtain ⟨before, batch, after, hbatch⟩ := haccepts.mp ⟨documents, hparse⟩
      exact absurd hbatch (hnone before batch after)
  | error e => exact ⟨e, rfl, (parseDocumentBatch_eq_error laws hparse).code⟩

/-- A body with blanks, brackets inside a string, a field twice and a nested array. -/
def mixedBody : Bytes :=
  ascii "[ \x7b\"a\":\"b \x7d ] \",\"c\":[1],\"a\":\"x y\"\x7d , \x7b\x7d ]"

def mixedDocument : Document :=
  ⟨ascii "\x7b\"a\":\"b \x7d ] \",\"c\":[1],\"a\":\"x y\"\x7d", [ascii "b \x7d ] ", ascii "x y"]⟩

def emptyDocument : Document := ⟨ascii "\x7b\x7d", []⟩

theorem parse_mixedBody :
    parseDocumentBatch reference mixedBody = .ok [mixedDocument, emptyDocument] := by
  have hparse : (parseDocumentBatch reference mixedBody).toOption =
      some [mixedDocument, emptyDocument] := by decide +kernel
  cases h : parseDocumentBatch reference mixedBody with
  | ok documents =>
      rw [h] at hparse
      exact congrArg Except.ok (Option.some.inj hparse)
  | error e => simp [h, Except.toOption] at hparse

/-- The same documents without the comma between them. -/
def unseparatedBody : Bytes :=
  ascii "[ \x7b\"a\":\"b \x7d ] \",\"c\":[1],\"a\":\"x y\"\x7d \x7b\x7d ]"

theorem parse_unseparatedBody (documents : List Document) :
    parseDocumentBatch reference unseparatedBody ≠ .ok documents := by
  have hparse : (parseDocumentBatch reference unseparatedBody).toOption = none := by
    decide +kernel
  intro h
  simp [h, Except.toOption] at hparse

theorem parseDocumentBatch_accepts_iff_reference :
    (∃ before batch after, IsBatch mixedBody before batch after) ∧
    (¬ ∃ before batch after, IsBatch unseparatedBody before batch after) ∧
    ∃ e, parseDocumentBatch reference unseparatedBody = .error e ∧ e.code = .malformedRequest := by
  have hmixed := parseDocumentBatch_accepts_iff reference_lawful mixedBody
  have hunseparated := parseDocumentBatch_accepts_iff reference_lawful unseparatedBody
  have hnone : ¬ ∃ before batch after, IsBatch unseparatedBody before batch after := by
    intro h
    obtain ⟨documents, hparse⟩ := hunseparated.1.mpr h
    exact parse_unseparatedBody documents hparse
  refine ⟨hmixed.1.mp ⟨_, parse_mixedBody⟩, hnone, hunseparated.2 fun before batch after h => ?_⟩
  exact hnone ⟨before, batch, after, h⟩

/-! ## Sources and searchable text -/

/-- The field values that are strings, in source order. -/
def stringFields (v : Json.Value) : List StringLiteral :=
  v.fields.filterMap fun field =>
    match field.2 with
    | .string s => some s
    | _ => none

/-- No string is lost: every one of them stands for a text. -/
theorem searchableText_documentOf {v : Json.Value} (h : IsDocument v) :
    (documentOf v).searchableText.map some = (stringFields v).map StringLiteral.text := by
  have hfields := (isDocument_iff h.1).mp h
  rw [documentOf, stringFields]
  generalize v.fields = fields at hfields
  induction fields with
  | nil => rfl
  | cons field fields ih =>
      simp only [List.forall_mem_cons] at hfields
      obtain ⟨⟨-, hread, -⟩, hfields⟩ := hfields
      obtain ⟨key, w⟩ := field
      cases w with
      | string s =>
          obtain ⟨text, htext⟩ := Option.isSome_iff_exists.mp hread
          simpa [fieldText, htext] using ih hfields
      | null | bool | number | emptyArray | array | emptyObject | object =>
          simpa [fieldText] using ih hfields

/-- What a document keeps of the object it was read from: the slice up to the matching brace,
and the texts of its string fields. -/
structure Keeps (v : Json.Value) (document : Document) : Prop where
  object : v.isObject
  source : document.source = v.render
  matching : ∀ rest, ∃ inner, document.source ++ rest = 0x7b :: inner ∧
    closeBracket 1 false inner = some rest
  searchableText : document.searchableText.map some = (stringFields v).map StringLiteral.text

theorem keeps_documentOf {v : Json.Value} (h : IsDocument v) : Keeps v (documentOf v) where
  object := h.1
  source := rfl
  matching := closeBracket_object h.1
  searchableText := searchableText_documentOf h

/-- The documents are the elements of the one array the body writes, in order, and the body is
recovered by writing their sources back between its brackets, commas and whitespace. -/
structure KeepsBatch (body : Bytes) (documents : List Document) (mark : Bytes) (before : Ws)
    (batch : Json.Value) (after : Ws) (layout : List (Spaced Document)) : Prop where
  isMark : mark = [] ∨ mark = byteOrderMark
  text : body = mark ++ (before.1 ++ (batch.render ++ after.1))
  array : batch.isArray
  unique : ∀ (before' : Ws) (batch' : Json.Value) (after' : Ws),
    dropByteOrderMark body = before'.1 ++ (batch'.render ++ after'.1) → batch' = batch
  elements : List.Forall₂ Keeps batch.elements documents
  items : layout.map Spaced.item = documents
  recovers : batch.render = arrayText (layout.map (Spaced.map Document.source))

theorem parseDocumentBatch_keeps (laws : S.Lawful) {body : Bytes} {documents : List Document}
    (h : parseDocumentBatch S body = .ok documents) :
    ∃ mark before batch after layout,
      KeepsBatch body documents mark before batch after layout := by
  obtain ⟨before, batch, after, hbatch, rfl⟩ := (parseDocumentBatch_eq_ok laws).mp h
  obtain ⟨mark, hmark, hbody⟩ := exists_byteOrderMark body
  obtain ⟨layout, hitems, hrender⟩ := Value.exists_layout hbatch.array hbatch.nonempty
  refine ⟨mark, before, batch, after, layout.map (Spaced.map documentOf), hmark, ?_,
    hbatch.array, ?_, ?_, ?_, ?_⟩
  · rwa [← hbatch.text]
  · intro before' batch' after' htext
    exact (text_unique (htext.symm.trans hbatch.text)).2.1
  · rw [List.forall₂_map_right_iff, List.forall₂_same]
    exact fun v hv => keeps_documentOf (hbatch.documents v hv)
  · rw [← hitems]
    simp [Spaced.map]
  · rw [hrender, List.map_map]
    rfl

theorem parseDocumentBatch_keeps_reference :
    ∃ mark before batch after layout,
      KeepsBatch mixedBody [mixedDocument, emptyDocument] mark before batch after layout :=
  parseDocumentBatch_keeps reference_lawful parse_mixedBody

/-! ## Documents in other company -/

/-- A document that some accepted body returned stands for a document of its own. -/
theorem exists_document (laws : S.Lawful) {body : Bytes} {documents : List Document}
    {d : Document} (h : parseDocumentBatch S body = .ok documents) (hd : d ∈ documents) :
    ∃ v, IsDocument v ∧ ValidUtf8 v.render ∧ documentOf v = d := by
  obtain ⟨before, batch, after, hbatch, rfl⟩ := (parseDocumentBatch_eq_ok laws).mp h
  obtain ⟨v, hv, rfl⟩ := List.mem_map.mp hd
  obtain ⟨layout, hitems, hrender⟩ := Value.exists_layout hbatch.array hbatch.nonempty
  rw [← hitems] at hv
  obtain ⟨s, hs, rfl⟩ := List.mem_map.mp hv
  have hdocument := hbatch.documents s.item (hitems ▸ List.mem_map_of_mem hs)
  obtain ⟨left, right, hcontext⟩ :=
    exists_context (List.mem_map_of_mem (f := Spaced.map Value.render) hs)
  have hvalid := hbatch.utf8
  rw [hbatch.text, hrender, hcontext] at hvalid
  refine ⟨s.item, hdocument,
    Value.validUtf8_object hdocument.1 (before.1 ++ left) (right ++ after.1) ?_, rfl⟩
  simpa [Spaced.map] using hvalid

theorem exists_layout_of_documents {layout : List (Spaced Document)}
    (h : ∀ s ∈ layout, ∃ v, IsDocument v ∧ ValidUtf8 v.render ∧ documentOf v = s.item) :
    ∃ values : List (Spaced Json.Value), values.map (Spaced.map documentOf) = layout ∧
      ∀ s ∈ values, IsDocument s.item ∧ ValidUtf8 s.item.render := by
  induction layout with
  | nil => exact ⟨[], rfl, by simp⟩
  | cons s layout ih =>
      simp only [List.forall_mem_cons] at h
      obtain ⟨⟨v, hdocument, hvalid, hv⟩, h⟩ := h
      obtain ⟨values, rfl, hvalues⟩ := ih h
      refine ⟨⟨s.before, v, s.after⟩ :: values, by simp [Spaced.map, hv], ?_⟩
      simpa using ⟨⟨hdocument, hvalid⟩, hvalues⟩

/-- Documents that were returned before are returned again from any batch of their sources. -/
theorem parseDocumentBatch_sources (laws : S.Lawful) (before after : Ws)
    (layout : List (Spaced Document)) (hne : layout ≠ [])
    (hsize : layout.length ≤ maxBatchDocuments)
    (hreturned : ∀ s ∈ layout, ∃ body documents,
      parseDocumentBatch S body = .ok documents ∧ s.item ∈ documents) :
    parseDocumentBatch S (before.1 ++
        (arrayText (layout.map (Spaced.map Document.source)) ++ after.1)) =
      .ok (layout.map Spaced.item) := by
  have hstands : ∀ s ∈ layout, ∃ v, IsDocument v ∧ ValidUtf8 v.render ∧ documentOf v = s.item := by
    intro s hs
    obtain ⟨body, documents, hparse, hmem⟩ := hreturned s hs
    exact exists_document laws hparse hmem
  obtain ⟨values, rfl, hvalues⟩ := exists_layout_of_documents hstands
  obtain ⟨batch, harray, helements, hrender⟩ := exists_array_of_layout (by simpa using hne)
  have htext : arrayText ((values.map (Spaced.map documentOf)).map (Spaced.map Document.source)) =
      batch.render := by
    rw [hrender, List.map_map]
    rfl
  have hutf8 : ValidUtf8 (before.1 ++ (batch.render ++ after.1)) := by
    refine (validUtf8_ws before).append (.append ?_ (validUtf8_ws after))
    rw [hrender]
    refine validUtf8_arrayText fun s hs => ?_
    obtain ⟨t, ht, rfl⟩ := List.mem_map.mp hs
    exact (hvalues t ht).2
  -- No byte-order mark: the text starts with whitespace or the bracket.
  have hmark : dropByteOrderMark (before.1 ++ (batch.render ++ after.1)) =
      before.1 ++ (batch.render ++ after.1) := by
    obtain ⟨inner, hinner⟩ := Value.exists_array_head harray
    obtain ⟨w, hw⟩ := before
    cases w with
    | nil => exact dropByteOrderMark_of_head (by rw [hinner]; rfl) (by decide)
    | cons b w =>
        refine dropByteOrderMark_of_head rfl ?_
        rintro rfl
        exact absurd (hw 0xef (by simp)) (by decide)
  have hbatch : IsBatch (before.1 ++ (batch.render ++ after.1)) before batch after := by
    refine ⟨by rwa [hmark], hmark, harray, by simpa [helements] using hne,
      by simpa [helements] using hsize, ?_⟩
    rw [helements]
    intro v hv
    obtain ⟨s, hs, rfl⟩ := List.mem_map.mp hv
    exact (hvalues s hs).1
  rw [htext, parseDocumentBatch_complete laws hbatch, helements]
  simp [Spaced.map]

/-- The documents of `mixedBody` the other way round and one of them twice, with blanks around the
first and the last. -/
def mixedLayout : List (Spaced Document) :=
  let blank : Ws := ⟨[0x20], by simp [isWs]⟩
  [⟨blank, emptyDocument, Ws.none⟩, ⟨Ws.none, mixedDocument, Ws.none⟩,
    ⟨Ws.none, mixedDocument, blank⟩]

theorem parseDocumentBatch_sources_reference :
    parseDocumentBatch reference (Ws.none.1 ++
        (arrayText (mixedLayout.map (Spaced.map Document.source)) ++ Ws.none.1)) =
      .ok [emptyDocument, mixedDocument, mixedDocument] := by
  refine parseDocumentBatch_sources reference_lawful Ws.none Ws.none mixedLayout
    (by simp [mixedLayout]) (by decide) ?_
  intro s hs
  refine ⟨mixedBody, _, parse_mixedBody, ?_⟩
  fin_cases hs <;> simp

end Leta
