import Leta.Verification.Validation
import Leta.Json.Unambiguity

/-! # What the batch parser accepts

A body is accepted exactly when it is a batch, and the documents are then read off its
syntax tree. -/

namespace Leta

open Json Ondemand

variable {S : Ondemand} {limit fuel : ℕ}

/-! ## Documents in a syntax tree -/

/-- What a field adds to the searchable text: its text, when it is a string. -/
def fieldText (field : StringLiteral × Json.Value) : List Bytes :=
  match field.2 with
  | .string s => s.text.toList
  | _ => []

/-- The document that stands for an object. -/
def documentOf (v : Json.Value) : Document where
  source := v.render
  searchableText := v.fields.flatMap fieldText

/-- What the batch parser asks of a document. -/
def IsDocument (v : Json.Value) : Prop := v.isObject ∧ Acceptable 0 v

/-- The body is a batch: 1 to 10000 acceptable objects in an array, with whitespace around it. -/
structure IsBatch (body : Bytes) (before : Ws) (batch : Json.Value) (after : Ws) : Prop where
  utf8 : ValidUtf8 (dropByteOrderMark body)
  text : dropByteOrderMark body = before.1 ++ (batch.render ++ after.1)
  array : batch.isArray
  nonempty : batch.elements ≠ []
  size : batch.elements.length ≤ maxBatchDocuments
  documents : ∀ v ∈ batch.elements, IsDocument v

/-! ## The source of a document -/

theorem findLastNotWs_append {b : UInt8} (hb : isWs b = false) (text : Bytes) (w : Ws) :
    findLastNotWs (text ++ b :: w.1) = some text.length := by
  have hw : (w.1.reverse).findIdx? (fun b => !isWs b) = none := by
    simpa using w.2
  have hb' : (b :: text.reverse).findIdx? (fun b => !isWs b) = some 0 := by
    simp [List.findIdx?_cons, hb]
  simp [findLastNotWs, List.findIdx?_append, hw, hb']

theorem withoutTrailingWhitespace_append {b : UInt8} (hb : isWs b = false) (text : Bytes) (w : Ws) :
    withoutTrailingWhitespace (text ++ b :: w.1) = text ++ [b] := by
  rw [withoutTrailingWhitespace, findLastNotWs_append hb]
  simp [List.take_append]

theorem withoutTrailingWhitespace_object {v : Json.Value} (h : v.isObject) (w : Ws) :
    withoutTrailingWhitespace (v.render ++ w.1) = v.render := by
  obtain ⟨inner, hrender⟩ := Value.exists_object_head h
  have := withoutTrailingWhitespace_append (by decide : isWs 0x7d = false) (0x7b :: inner) w
  simpa [hrender] using this

/-! ## One pass of a loop -/

/-- The body of the loop in `readSearchableText`. -/
def textPass (S : Ondemand) (fuel : ℕ) (item : Option S.Field) (searchableText : List Bytes)
    (st : S.State) : Result (List Bytes × S.State) := do
  let field ← succeeds item notJson
  let (_, st) ← succeeds (S.unescapedKey field st) notJson
  let type ← succeeds (S.type (S.fieldValue field) st) notJson
  if type ≠ .string then
    let st ← validateValue S fuel (S.fieldValue field) 1 st
    return (searchableText, st)
  else
    let (text, st) ← succeeds (S.getString (S.fieldValue field) st) notJson
    return (searchableText ++ [text], st)

/-- The body of the loop in `readDocuments`. -/
def documentPass (S : Ondemand) (fuel : ℕ) (item : Option S.Value) (documents : List Document)
    (st : S.State) : Result (List Document × S.State) := do
  if documents.length = maxBatchDocuments then .error tooManyDocuments
  else
    let element ← succeeds item notJson
    let (document, st) ← readDocument S fuel element documents.length st
    return (documents ++ [document], st)

/-! ## Soundness -/

theorem isDocument_iff {v : Json.Value} (h : v.isObject) :
    IsDocument v ↔ ∀ field ∈ v.fields, field.1.text.isSome ∧ Acceptable 1 field.2 := by
  simp [IsDocument, h, acceptable_object h]

/-- What the field pass makes of one field. -/
def ReadsText (field : StringLiteral × Json.Value) (before after : List Bytes) : Prop :=
  (field.1.text.isSome ∧ Acceptable 1 field.2) ∧ after = before ++ fieldText field

theorem fieldText_of_typeOf_ne {field : StringLiteral × Json.Value}
    (h : typeOf field.2 ≠ .string) : fieldText field = [] := by
  obtain ⟨key, v⟩ := field
  cases v with
  | string s => exact absurd rfl h
  | null | bool | number | emptyArray | array | emptyObject | object => rfl

theorem readSearchableText_sound (laws : S.Lawful) (hfuel : limit + 1 < fuel) {object : S.Object}
    {inner : Bytes} {depth : ℕ} {st : S.State} (hopens : S.OpensObject object inner depth st)
    (hlimit : inner.length ≤ limit) :
    Post (fun reached => ∃ (w : Json.Value) (rest : Bytes), IsDocument w ∧
        0x7b :: inner = w.render ++ rest ∧ reached.1 = w.fields.flatMap fieldText ∧
        S.Stands reached.2 (skipWs rest) (depth - 1)) IsMalformed
      (readSearchableText S fuel object st) := by
  have hbody : ReadsField object limit ReadsText inner [] IsMalformed (textPass S fuel) := by
    intro f acc st₁ key text hfield hlimit' _
    refine Post.bind (Post.succeeds (fun _ hsome => hsome) isMalformed_notJson) ?_
    rintro _ ⟨⟩
    refine Post.bind (Post.succeeds (fun _ hkey => hkey) isMalformed_notJson) ?_
    rintro ⟨k, st₂⟩ hkey
    obtain ⟨htext, ⟨hlocation, hdepth⟩, hat⟩ := hfield.key_sound hkey
    refine Post.bind (Post.succeeds (fun _ htype => htype) isMalformed_notJson) ?_
    intro type htype
    dsimp only
    split_ifs with hstring
    · have hvalid := validateValue_sound laws hfuel 1 _ st₂ hat (by rwa [hlocation])
      refine Post.bind hvalid ?_
      rintro st₃ ⟨w, ⟨rest, hw, hstands⟩, haccept⟩
      rw [hdepth, Nat.add_sub_cancel] at hstands
      have hread := laws.type_complete hat (hw ▸ announcedType_render w rest)
      have hne : typeOf w ≠ .string := by
        rintro heq
        exact hstring (Option.some.inj (htype.symm.trans (hread.trans (congrArg some heq))))
      refine ⟨w, rest, hlocation.symm.trans hw,
        ⟨⟨Option.isSome_of_eq_some htext, haccept⟩, ?_⟩, hstands⟩
      rw [fieldText_of_typeOf_ne hne, List.append_nil]
    · refine Post.bind (Post.succeeds (fun _ hget => hget) isMalformed_notJson) ?_
      rintro ⟨value, st₃⟩ hget
      obtain ⟨s, rest, hs, hvalue, hstands⟩ := laws.getString_sound hat hget
      rw [hdepth, Nat.add_sub_cancel] at hstands
      have haccept : Acceptable 1 (.string s) :=
        ⟨Option.isSome_of_eq_some hvalue, by simp [Value.height, maxNestingDepth]⟩
      refine ⟨.string s, rest, hlocation.symm.trans hs,
        ⟨⟨Option.isSome_of_eq_some htext, haccept⟩, ?_⟩, hstands⟩
      simp [fieldText, hvalue]
  refine (readsObject_sound laws hbody (fun _ _ => isMalformed_notJson) hopens hlimit hfuel).mono ?_
  rintro reached ⟨w, rest, hw, hrender, hfolds, hstands⟩
  obtain ⟨haccept, htext⟩ := folds_append.mp hfolds
  exact ⟨w, rest, (isDocument_iff hw).mpr haccept, hrender, htext, hstands⟩

theorem readDocument_sound (laws : S.Lawful) (hfuel : limit + 1 < fuel) {element : S.Value}
    {index : ℕ} {st : S.State} (hat : S.At element st) (hlimit : (S.location st).length ≤ limit) :
    Post (fun reached => ∃ w, Passes S st w reached.2 ∧ IsDocument w ∧ reached.1 = documentOf w)
      IsMalformed (readDocument S fuel element index st) := by
  refine Post.bind (Post.succeeds (fun _ hget => hget)
    (isMalformed_append (by decide) isAscii_of_mem_decimal (by decide))) ?_
  rintro ⟨object, st₁⟩ hget
  refine Post.bind (Post.succeeds (fun _ hraw => hraw) isMalformed_notJson) ?_
  rintro ⟨source, st₂⟩ hraw
  refine Post.bind (Post.succeeds (fun _ hreset => hreset) isMalformed_notJson) ?_
  rintro ⟨hasFields, st₃⟩ hreset
  obtain ⟨inner, hinner, -⟩ := laws.getObject_sound hat hget
  have hopens := laws.reset_sound hat hget hinner hraw hreset
  have hlimit' : inner.length ≤ limit := by
    rw [hinner, List.length_cons] at hlimit
    omega
  refine Post.bind (readSearchableText_sound laws hfuel hopens hlimit') ?_
  rintro ⟨searchableText, st₄⟩ ⟨w, rest, hdocument, hrender, rfl, hstands⟩
  -- `raw_json()` was asked first, and its answer is the slice of the object just read.
  obtain ⟨_, hraw'⟩ := laws.rawJson_complete hat hget (hinner.trans hrender) hdocument.1
  obtain rfl : source = w.render ++ (leadingWs rest).1 :=
    congrArg Prod.fst (Option.some.inj (hraw.symm.trans hraw'))
  refine ⟨w, ⟨rest, hinner.trans hrender, hstands⟩, hdocument, ?_⟩
  change Document.mk _ _ = _
  rw [withoutTrailingWhitespace_object hdocument.1, documentOf]

/-- What the loop over the batch makes of one element. -/
def ReadsDocument (v : Json.Value) (before after : List Document) : Prop :=
  before.length ≠ maxBatchDocuments ∧ IsDocument v ∧ after = before ++ [documentOf v]

theorem readDocuments_sound (laws : S.Lawful) (hfuel : limit + 1 < fuel) {array : S.Array}
    {inner : Bytes} {depth : ℕ} {st : S.State} (hopens : S.OpensArray array inner depth st)
    (hlimit : inner.length ≤ limit) :
    Post (fun reached => ∃ (w : Json.Value) (rest : Bytes), w.isArray ∧ w.elements ≠ [] ∧
        w.elements.length ≤ maxBatchDocuments ∧ (∀ v ∈ w.elements, IsDocument v) ∧
        0x5b :: inner = w.render ++ rest ∧ reached.1 = w.elements.map documentOf ∧
        S.Stands reached.2 (skipWs rest) (depth - 1)) IsMalformed
      (readDocuments S fuel array st) := by
  have hbody : ReadsElement array limit ReadsDocument IsMalformed (documentPass S fuel) := by
    intro v acc st₁ hat hdepth hlimit'
    rw [documentPass]
    split_ifs with hroom
    · exact isMalformed_append (by decide) isAscii_of_mem_decimal (by decide)
    · refine Post.bind (Post.succeeds (fun _ hsome => hsome) isMalformed_notJson) ?_
      rintro _ ⟨⟩
      refine Post.bind (readDocument_sound laws hfuel hat hlimit') ?_
      rintro ⟨_, st₂⟩ ⟨w, ⟨rest, hw, hstands⟩, hdocument, rfl⟩
      rw [hdepth, Nat.add_sub_cancel] at hstands
      exact ⟨w, rest, hw, ⟨hroom, hdocument, rfl⟩, hstands⟩
  have hnone : ∀ (acc : List Document) (st : S.State),
      Post (fun _ => False) IsMalformed (documentPass S fuel none acc st) := by
    intro acc st
    rw [documentPass]
    split_ifs
    · exact isMalformed_append (by decide) isAscii_of_mem_decimal (by decide)
    · exact isMalformed_notJson
  refine Post.bind (readsArray_sound laws hbody hnone hopens hlimit hfuel) ?_
  rintro ⟨documents, st₁⟩ ⟨w, rest, hw, hrender, hfolds, hstands⟩
  obtain ⟨hsize, hdocuments, rfl⟩ := (folds_room (by simp)).mp hfolds
  simp only [List.nil_append, List.map_eq_nil_iff, List.length_nil, Nat.zero_add] at hsize ⊢
  split_ifs with hempty
  · exact isMalformed_malformed (by decide)
  · exact ⟨w, rest, hw, hempty, hsize, hdocuments, hrender, rfl, hstands⟩

/-- Whatever is accepted is a batch, and whatever is refused is malformed. -/
theorem parseDocumentBatch_sound (laws : S.Lawful) (body : Bytes) :
    Post (fun documents => ∃ before batch after, IsBatch body before batch after ∧
      documents = batch.elements.map documentOf) IsMalformed (parseDocumentBatch S body) := by
  refine Post.bind (Post.succeeds (fun _ hiterate => hiterate) isMalformed_notJson) ?_
  intro st hiterate
  refine Post.bind (Post.succeeds (fun _ hget => hget) (isMalformed_malformed (by decide))) ?_
  rintro ⟨array, st₁⟩ hget
  obtain ⟨hutf8, hlocation, -⟩ := laws.iterate_sound hiterate
  obtain ⟨inner, hinner, hopens⟩ := laws.documentGetArray_sound hiterate hget
  have hlength : inner.length + 1 ≤ body.length := by
    simpa [hinner] using laws.length_location_le hiterate
  have hfuel : body.length - 1 + 1 < body.length + 1 := by omega
  refine Post.bind (readDocuments_sound laws hfuel hopens (by omega)) ?_
  rintro ⟨documents, st₂⟩
    ⟨batch, rest, harray, hnonempty, hsize, hdocuments, hrender, rfl, hstands⟩
  dsimp only
  split_ifs with hend
  · have hrest : skipWs rest = [] := hstands.1.symm.trans ((laws.atEnd_iff st₂).mp hend)
    refine ⟨leadingWs (dropByteOrderMark body), batch, leadingWs rest,
      ⟨hutf8, ?_, harray, hnonempty, hsize, hdocuments⟩, rfl⟩
    rw [leadingWs_of_skipWs_eq_nil hrest, ← hrender, ← hinner, hlocation, leadingWs_append_skipWs]
  · exact isMalformed_notJson

/-! ## Completeness -/

theorem readSearchableText_complete (laws : S.Lawful) (hfuel : limit + 1 < fuel)
    {object : S.Object} {inner rest : Bytes} {depth : ℕ} {st : S.State} {v : Json.Value}
    (hopens : S.OpensObject object inner depth st) (hlimit : inner.length ≤ limit)
    (hinner : 0x7b :: inner = v.render ++ rest) (hv : IsDocument v) :
    ∃ st', readSearchableText S fuel object st = .ok (v.fields.flatMap fieldText, st') ∧
      S.Stands st' (skipWs rest) (depth - 1) := by
  have hbody : AcceptsField object limit ReadsText (textPass S fuel) := by
    rintro f acc _ st₁ key w rest' hfield hlimit' hrest' ⟨⟨hkey, haccept⟩, rfl⟩
    obtain ⟨k, hk⟩ := Option.isSome_iff_exists.mp hkey
    obtain ⟨st₂, hread⟩ := hfield.key_complete hk
    obtain ⟨-, ⟨hlocation, hdepth⟩, hat⟩ := hfield.key_sound hread
    have htype := laws.type_complete hat (hlocation ▸ announcedType_render w rest')
    by_cases hstring : typeOf w = .string
    · obtain ⟨s, rfl⟩ : ∃ s, w = .string s := by
        cases w with
        | string s => exact ⟨s, rfl⟩
        | null | bool | number | emptyArray | array | emptyObject | object =>
            simp [typeOf] at hstring
      obtain ⟨text, htext⟩ := Option.isSome_iff_exists.mp haccept.1
      obtain ⟨st₃, hget, hstands⟩ := laws.getString_complete hat hlocation htext
      rw [hdepth, Nat.add_sub_cancel] at hstands
      refine ⟨st₃, bind_eq_ok rfl (bind_eq_ok (succeeds_eq_ok hread)
        (bind_eq_ok (succeeds_eq_ok htype) (bind_eq_ok (succeeds_eq_ok hget) ?_))), hstands⟩
      simp [fieldText, htext, pure, Except.pure]
    · obtain ⟨st₃, hvalid, hstands⟩ := validateValue_complete laws hfuel 1 _ st₂ w rest' hat
        (by rwa [hlocation]) hlocation hrest' haccept
      rw [hdepth, Nat.add_sub_cancel] at hstands
      refine ⟨st₃, bind_eq_ok rfl (bind_eq_ok (succeeds_eq_ok hread)
        (bind_eq_ok (succeeds_eq_ok htype) ?_)), hstands⟩
      rw [if_pos hstring, @fieldText_of_typeOf_ne (key, w) hstring, List.append_nil]
      exact bind_eq_ok hvalid rfl
  exact readsObject_complete laws outOfFuel hbody hopens hlimit hfuel hv.1 hinner
    (folds_append.mpr ⟨(isDocument_iff hv.1).mp hv, rfl⟩)

theorem readDocument_complete (laws : S.Lawful) (hfuel : limit + 1 < fuel) (index : ℕ)
    {element : S.Value} {st : S.State} {v : Json.Value} {rest : Bytes} (hat : S.At element st)
    (hlimit : (S.location st).length ≤ limit) (hlocation : S.location st = v.render ++ rest)
    (hv : IsDocument v) :
    ∃ st', readDocument S fuel element index st = .ok (documentOf v, st') ∧
      S.Stands st' (skipWs rest) (S.depth st - 1) := by
  obtain ⟨inner, hrender⟩ := Value.exists_object_head hv.1
  have hinner : S.location st = 0x7b :: (inner ++ [0x7d] ++ rest) := by
    rw [hlocation, hrender, List.cons_append]
  obtain ⟨object, st₁, hget⟩ := laws.getObject_complete hat hinner
  obtain ⟨st₂, hraw⟩ := laws.rawJson_complete hat hget hlocation hv.1
  obtain ⟨hasFields, st₃, hreset⟩ := laws.reset_complete hat hget hraw
  have hopens := laws.reset_sound hat hget hinner hraw hreset
  rw [hinner, List.length_cons] at hlimit
  obtain ⟨st₄, hread, hstands⟩ := readSearchableText_complete laws hfuel hopens (by omega)
    (hinner.symm.trans hlocation) hv
  refine ⟨st₄, bind_eq_ok (succeeds_eq_ok hget) (bind_eq_ok (succeeds_eq_ok hraw)
    (bind_eq_ok (succeeds_eq_ok hreset) (bind_eq_ok hread ?_))), hstands⟩
  change Except.ok _ = _
  rw [withoutTrailingWhitespace_object hv.1, documentOf]

theorem readDocuments_complete (laws : S.Lawful) (hfuel : limit + 1 < fuel) {array : S.Array}
    {inner rest : Bytes} {depth : ℕ} {st : S.State} {v : Json.Value}
    (hopens : S.OpensArray array inner depth st) (hlimit : inner.length ≤ limit)
    (hv : v.isArray) (hinner : 0x5b :: inner = v.render ++ rest) (hnonempty : v.elements ≠ [])
    (hsize : v.elements.length ≤ maxBatchDocuments) (hdocuments : ∀ w ∈ v.elements, IsDocument w) :
    ∃ st', readDocuments S fuel array st = .ok (v.elements.map documentOf, st') ∧
      S.Stands st' (skipWs rest) (depth - 1) := by
  have hbody : AcceptsElement array limit ReadsDocument (documentPass S fuel) := by
    rintro element acc _ st₁ w rest' hat hdepth hlimit' hw hrest' ⟨hroom, hdocument, rfl⟩
    obtain ⟨st₂, hread, hstands⟩ := readDocument_complete laws hfuel acc.length hat
      hlimit' hw hdocument
    rw [hdepth, Nat.add_sub_cancel] at hstands
    refine ⟨st₂, ?_, hstands⟩
    rw [documentPass]
    rw [if_neg hroom]
    exact bind_eq_ok rfl (bind_eq_ok hread rfl)
  have hfolds : Folds ReadsDocument v.elements [] (v.elements.map documentOf) :=
    (folds_room (Nat.zero_le _)).mpr ⟨by simpa using hsize, hdocuments, rfl⟩
  obtain ⟨st₁, hloop, hstands⟩ := readsArray_complete laws outOfFuel hbody hopens
    hlimit hfuel hv hinner hfolds
  refine ⟨st₁, bind_eq_ok hloop ?_, hstands⟩
  dsimp only
  rw [if_neg (by simpa using hnonempty)]
  rfl

/-- A batch is accepted, and its documents are those of its syntax tree. -/
theorem parseDocumentBatch_complete (laws : S.Lawful) {body : Bytes} {before after : Ws}
    {batch : Json.Value} (h : IsBatch body before batch after) :
    parseDocumentBatch S body = .ok (batch.elements.map documentOf) := by
  obtain ⟨inner, hrender⟩ := Value.exists_array_head h.array
  have hskip : skipWs (dropByteOrderMark body) = 0x5b :: (inner ++ 0x5d :: after.1) := by
    rw [h.text, skipWs_append, Value.skipWs_render, hrender]
    simp
  obtain ⟨st, hiterate⟩ := laws.iterate_complete h.utf8 (by rw [hskip]; simp)
    (by rw [h.text]; exact stringsClosed_text before after batch)
  obtain ⟨-, hlocation, -⟩ := laws.iterate_sound hiterate
  obtain ⟨array, st₁, hget⟩ := laws.documentGetArray_complete hiterate (hlocation.trans hskip)
  obtain ⟨inner', hinner, hopens⟩ := laws.documentGetArray_sound hiterate hget
  have hlength : inner'.length + 1 ≤ body.length := by
    simpa [hinner] using laws.length_location_le hiterate
  have hbatch : 0x5b :: inner' = batch.render ++ after.1 := by
    rw [← hinner, hlocation, h.text, skipWs_append, Value.skipWs_render]
  have hfuel : body.length - 1 + 1 < body.length + 1 := by omega
  obtain ⟨st₂, hread, hend, -⟩ := readDocuments_complete laws hfuel hopens (by omega) h.array hbatch
    h.nonempty h.size h.documents
  have hatEnd : S.atEnd st₂ := (laws.atEnd_iff st₂).mpr (by rw [hend, skipWs_ws])
  refine bind_eq_ok (succeeds_eq_ok hiterate) (bind_eq_ok (succeeds_eq_ok hget)
    (bind_eq_ok hread ?_))
  dsimp only
  rw [if_pos hatEnd]
  rfl

/-- The batch parser on every body: its result, and when there is none. -/
theorem parseDocumentBatch_eq_ok (laws : S.Lawful) {body : Bytes} {documents : List Document} :
    parseDocumentBatch S body = .ok documents ↔ ∃ before batch after,
      IsBatch body before batch after ∧ documents = batch.elements.map documentOf := by
  refine ⟨(parseDocumentBatch_sound laws body).ok_of_eq, ?_⟩
  rintro ⟨before, batch, after, hbatch, rfl⟩
  exact parseDocumentBatch_complete laws hbatch

theorem parseDocumentBatch_eq_error (laws : S.Lawful) {body : Bytes} {e : Error}
    (h : parseDocumentBatch S body = .error e) : IsMalformed e :=
  (parseDocumentBatch_sound laws body).error_of_eq h

end Leta
