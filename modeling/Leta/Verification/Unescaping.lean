import Leta.Http.ParserLogs
import Leta.Json.Unambiguity
import Leta.Verification.DocumentParser
import Leta.Verification.IndexParser

/-! # Every token is read once

A log of either parser names tokens that stand in the body one behind the other, so that no
string is unescaped twice. The log of a batch that is accepted names every key and every scalar
of its documents. -/

namespace Leta

open Json Ondemand Logged

variable {S : Ondemand} {limit fuel : ℕ}

/-! ## Calls that read -/

/-- Reads one value, or fails having read some tokens at its start. -/
def LogsValue (S : Ondemand) (limit : ℕ)
    (validate : S.Value → S.State → Logged LogEntry Error S.State) : Prop :=
  ∀ value st, S.At value st → (S.location st).length ≤ limit →
    Logged.Post (ReadsValue S (S.location st) (S.depth st - 1))
      (fun events _ => ReadsSome (S.location st) events) (validate value st)

theorem readsSome_single (token : Token) : ReadsSome token.text [.read token] :=
  (Descends.single token).to_suffix List.nil_suffix

theorem getStringLogged_reads (laws : S.Lawful) {value : S.Value} {st : S.State} (error : Error)
    (hat : S.At value st) :
    Logged.Post
      (fun events reached => ReadsValue S (S.location st) (S.depth st - 1) events reached.2)
      (fun events _ => ReadsSome (S.location st) events) (getStringLogged S value error st) := by
  refine post_noted ?_ (readsSome_single (.string _))
  rintro ⟨text, st'⟩ hget
  obtain ⟨s, rest, hlocation, -, hstands⟩ := laws.getString_sound hat hget
  exact ⟨.string s, rest, hlocation, by rw [hlocation]; rfl, hstands⟩

theorem isNullLogged_reads (laws : S.Lawful) {value : S.Value} {st : S.State} (error : Error)
    (hat : S.At value st) :
    Logged.Post
      (fun events reached => if reached.1 then
          ReadsValue S (S.location st) (S.depth st - 1) events reached.2
        else reads events = [] ∧ S.At value reached.2 ∧
          S.Stands reached.2 (S.location st) (S.depth st))
      (fun events _ => ReadsSome (S.location st) events) (isNullLogged S value error st) := by
  rw [isNullLogged]
  split
  · next st' hnull =>
      obtain ⟨rest, hlocation, hstands⟩ := laws.isNull_sound hat hnull
      exact ⟨.null, rest, hlocation, by rw [hlocation]; rfl, hstands⟩
  · next st' hnull => exact ⟨rfl, laws.isNull_unread hat hnull⟩
  · exact readsSome_of_nil rfl

theorem readsAsScalarLogged_reads (laws : S.Lawful) (type : JsonType) :
    LogsValue S limit (fun value => readsAsScalarLogged S value type) := by
  intro value st hat _
  cases type with
  | number =>
      refine post_noted ?_ (readsSome_single (.atom _))
      intro st' hget
      obtain ⟨n, rest, hlocation, -, hstands⟩ := laws.getDouble_sound hat hget
      exact ⟨.number n, rest, hlocation, by rw [hlocation]; rfl, hstands⟩
  | string =>
      refine (getStringLogged_reads laws notJson hat).bind (fun _ _ h => h) ?_
      rintro events ⟨text, st'⟩ h
      exact h.of_read (by simp)
  | boolean =>
      refine post_noted_bind ?_ (readsSome_single (.atom _))
      rintro ⟨b, st'⟩ hget
      obtain ⟨rest, hlocation, hstands⟩ := laws.getBool_sound hat hget
      exact ⟨.bool b, rest, hlocation, by rw [hlocation]; rfl, hstands⟩
  | null =>
      refine (isNullLogged_reads laws notJson hat).bind (fun _ _ h => h) ?_
      rintro events ⟨_ | _, st'⟩ h
      · exact readsSome_of_nil (by rw [reads_append, h.1]; rfl)
      · exact h.of_read (by simp)
  | array | object | unknown => exact readsSome_of_nil rfl

/-! ## Validation -/

/-- A field's key has been read, and then some tokens of its value. -/
theorem readsSome_field {key : StringLiteral} {colon : Ws} {inner location : Bytes}
    {events : List LogEntry} (hkey : location = key.render ++ (colon.1 ++ 0x3a :: inner))
    (h : ReadsSome (skipWs inner) events) :
    ReadsSome location (.read (.string location) :: events) := by
  have hinner : inner <:+ colon.1 ++ 0x3a :: inner := ⟨colon.1 ++ [0x3a], by simp⟩
  rw [ReadsSome, reads_read, hkey]
  exact .behind_key key ((List.dropWhile_suffix _).trans hinner) h

theorem validateArrayLogged_reads (laws : S.Lawful) (hfuel : limit + 1 < fuel) (depth : ℕ)
    {validate : S.Value → S.State → Logged LogEntry Error S.State}
    (h : LogsValue S limit validate) :
    LogsValue S limit (validateArrayLogged S fuel depth validate) := by
  intro value st hat hlimit
  refine post_noted_bind ?_ (readsSome_of_nil rfl)
  rintro ⟨array, st'⟩ hget
  obtain ⟨inner, hinner, hopens⟩ := laws.getArray_sound hat hget
  rw [hinner] at hlimit ⊢
  rw [List.length_cons] at hlimit
  refine (logsArray laws ?_ ?_ hopens (by omega) hfuel).bind
    (fun _ _ h => ReadsSome.of_read h rfl) ?_
  · intro element acc st₁ hat₁ hdepth hlimit₁
    refine (h element st₁ hat₁ hlimit₁).bind (fun _ _ h => h) ?_
    intro events st₂ hreads
    rw [hdepth, Nat.add_sub_cancel] at hreads
    exact hreads.of_read (by simp)
  · exact fun _ _ => rfl
  · rintro events ⟨_, st₁⟩ hreads
    exact hreads.of_read (by simp)

theorem validateObjectLogged_reads (laws : S.Lawful) (hfuel : limit + 1 < fuel) (depth : ℕ)
    {validate : S.Value → S.State → Logged LogEntry Error S.State}
    (h : LogsValue S limit validate) :
    LogsValue S limit (validateObjectLogged S fuel depth validate) := by
  intro value st hat hlimit
  refine post_noted_bind ?_ (readsSome_of_nil rfl)
  rintro ⟨object, st'⟩ hget
  obtain ⟨inner, hinner, hopens⟩ := laws.getObject_sound hat hget
  rw [hinner] at hlimit ⊢
  rw [List.length_cons] at hlimit
  refine (logsObject laws ?_ ?_ hopens (by omega) hfuel).bind
    (fun _ _ h => ReadsSome.of_read h rfl) ?_
  · intro f acc st₁ key colon text hkey hfield hlimit₁
    refine post_quiet_bind ?_ (readsSome_of_nil rfl)
    rintro _ ⟨⟩
    refine post_noted_bind ?_ (readsSome_single (.string _))
    rintro ⟨k, st₂⟩ hread
    obtain ⟨-, ⟨hlocation, hdepth⟩, hat₂⟩ := hfield.key_sound hread
    have hle := length_skipWs_le text
    refine (h _ st₂ hat₂ (by rw [hlocation]; omega)).bind ?_ ?_
    · intro events _ hreads
      rw [hlocation] at hreads
      exact readsSome_field hkey hreads
    · intro events st₃ hreads
      rw [hlocation, hdepth, Nat.add_sub_cancel] at hreads
      obtain ⟨w, rest, hw, hreads, hstands⟩ := hreads
      exact ⟨w, rest, hw, by simp [hreads], hstands⟩
  · exact fun _ _ => rfl
  · rintro events ⟨_, st₁⟩ hreads
    exact hreads.of_read (by simp)

/-- By induction on the levels left above the nesting bound. -/
theorem validateValueLogged_reads (laws : S.Lawful) (hfuel : limit + 1 < fuel) (depth : ℕ) :
    LogsValue S limit fun value => validateValueLogged S fuel value depth := by
  induction hlevels : maxNestingDepth + 1 - depth generalizing depth with
  | zero =>
      intro value st _ _
      have hdeep : depth > maxNestingDepth := by omega
      dsimp only
      rw [validateValueLogged, if_pos hdeep]
      exact readsSome_of_nil rfl
  | succ levels ih =>
      intro value st hat hlimit
      have hshallow : ¬ depth > maxNestingDepth := by omega
      have hnested := ih (depth + 1) (by omega)
      dsimp only
      rw [validateValueLogged, if_neg hshallow]
      refine .between (post_quiet_bind (fun type htype => ?_) (readsSome_of_nil rfl))
      have hvalue : LogsValue S limit fun value st =>
          if type = .array then
            validateArrayLogged S fuel depth
              (fun element => validateValueLogged S fuel element (depth + 1)) value st
          else if type = .object then
            validateObjectLogged S fuel depth
              (fun fieldValue => validateValueLogged S fuel fieldValue (depth + 1)) value st
          else readsAsScalarLogged S value type st := by
        intro value st
        dsimp only
        split_ifs
        · exact validateArrayLogged_reads laws hfuel depth hnested value st
        · exact validateObjectLogged_reads laws hfuel depth hnested value st
        · exact readsAsScalarLogged_reads laws type value st
      exact (hvalue value st hat hlimit).mono (fun _ _ h => h.of_read (by simp))
        fun _ _ h => h.of_read (by simp)

/-! ## Documents -/

theorem readSearchableTextLogged_reads (laws : S.Lawful) (hfuel : limit + 1 < fuel)
    {object : S.Object} {inner : Bytes} {depth : ℕ} {st : S.State}
    (hopens : S.OpensObject object inner depth st) (hlimit : inner.length ≤ limit) :
    Logged.Post (fun events reached => ReadsValue S (0x7b :: inner) (depth - 1) events reached.2)
      (fun events _ => ReadsSome (0x7b :: inner) events)
      (readSearchableTextLogged S fuel object st) := by
  refine logsObject laws ?_ ?_ hopens hlimit hfuel
  swap
  · exact fun _ _ => rfl
  intro f acc st₁ key colon text hkey hfield hlimit₁
  refine post_quiet_bind ?_ (readsSome_of_nil rfl)
  rintro _ ⟨⟩
  refine post_noted_bind ?_ (readsSome_single (.string _))
  rintro ⟨k, st₂⟩ hread
  obtain ⟨-, ⟨hlocation, hdepth⟩, hat₂⟩ := hfield.key_sound hread
  have hle := length_skipWs_le text
  refine post_quiet_bind ?_ (readsSome_single (.string _))
  intro type _
  dsimp only
  split_ifs
  · have hvalue := validateValueLogged_reads laws hfuel 1 _ st₂ hat₂ (by rw [hlocation]; omega)
    rw [hlocation, hdepth, Nat.add_sub_cancel] at hvalue
    refine hvalue.bind (fun _ _ h => readsSome_field hkey h) ?_
    rintro events st₃ ⟨w, rest, hw, hreads, hstands⟩
    exact ⟨w, rest, hw, by simp [hreads], hstands⟩
  · have hvalue := getStringLogged_reads laws notJson hat₂
    rw [hlocation, hdepth, Nat.add_sub_cancel] at hvalue
    refine hvalue.bind (fun _ _ h => readsSome_field hkey h) ?_
    rintro events ⟨value, st₃⟩ ⟨w, rest, hw, hreads, hstands⟩
    exact ⟨w, rest, hw, by simp [hreads], hstands⟩

/-- The rewind lets the fields be read, and neither pass before it reads anything. -/
theorem readDocumentLogged_reads (laws : S.Lawful) (hfuel : limit + 1 < fuel) {element : S.Value}
    {st : S.State} (index : ℕ) (hat : S.At element st) (hlimit : (S.location st).length ≤ limit) :
    Logged.Post
      (fun events reached => ReadsValue S (S.location st) (S.depth st - 1) events reached.2)
      (fun events _ => ReadsSome (S.location st) events)
      (readDocumentLogged S fuel element index st) := by
  refine post_quiet_bind ?_ (readsSome_of_nil rfl)
  rintro ⟨object, st₁⟩ hget
  refine post_quiet_bind ?_ (readsSome_of_nil rfl)
  rintro ⟨source, st₂⟩ hraw
  refine post_quiet_bind ?_ (readsSome_of_nil rfl)
  rintro ⟨hasFields, st₃⟩ hreset
  obtain ⟨inner, hinner, -⟩ := laws.getObject_sound hat hget
  have hopens := laws.reset_sound hat hget hinner hraw hreset
  rw [hinner, List.length_cons] at hlimit
  rw [hinner]
  refine (readSearchableTextLogged_reads laws hfuel hopens (by omega)).bind (fun _ _ h => h) ?_
  rintro events ⟨searchableText, st₄⟩ hreads
  exact hreads.of_read (by simp)

theorem readDocumentsLogged_reads (laws : S.Lawful) (hfuel : limit + 1 < fuel) {array : S.Array}
    {inner : Bytes} {depth : ℕ} {st : S.State} (hopens : S.OpensArray array inner depth st)
    (hlimit : inner.length ≤ limit) :
    Logged.Post (fun events reached => ReadsValue S (0x5b :: inner) (depth - 1) events reached.2)
      (fun events _ => ReadsSome (0x5b :: inner) events) (readDocumentsLogged S fuel array st) := by
  refine (logsArray laws ?_ ?_ hopens hlimit hfuel).bind (fun _ _ h => h) ?_
  · intro v acc st₁ hat hdepth hlimit₁
    dsimp only
    split_ifs
    · exact readsSome_of_nil rfl
    · refine post_quiet_bind ?_ (readsSome_of_nil rfl)
      rintro _ ⟨⟩
      refine (readDocumentLogged_reads laws hfuel _ hat hlimit₁).bind (fun _ _ h => h) ?_
      rintro events ⟨document, st₂⟩ hreads
      rw [hdepth, Nat.add_sub_cancel] at hreads
      exact hreads.of_read (by simp)
  · intro acc st₁
    dsimp only
    split_ifs <;> rfl
  · rintro events ⟨documents, st₁⟩ hreads
    dsimp only
    split_ifs
    · exact hreads.readsSome.of_read (by simp [quiet])
    · exact hreads.of_read (by simp)

/-- The log of a parser that was given a body: all tokens of its value are read when it
accepts, and some when it does not. -/
def LogsBody {α : Type} (body : Bytes) : Logged LogEntry Error α → Prop :=
  Logged.Post
    (fun events _ => ∃ (before : Ws) (w : Json.Value) (after : Ws),
      dropByteOrderMark body = before.1 ++ (w.render ++ after.1) ∧ reads events = w.tokens after.1)
    (fun events _ => ReadsSome (dropByteOrderMark body) events)

/-- A value is read from the body's first token on, and then nothing more. -/
theorem logsBody_bind (laws : S.Lawful) {α β : Type} {body : Bytes} {st : S.State} {depth : ℕ}
    {x : Logged LogEntry Error (β × S.State)} (finish : β → Except Error α)
    (hiterate : S.iterate body = some st)
    (hx : Logged.Post (fun events reached => ReadsValue S (S.location st) depth events reached.2)
      (fun events _ => ReadsSome (S.location st) events) x) :
    LogsBody body (x >>= fun (b, st) =>
      if S.atEnd st then quiet (finish b) else quiet (.error notJson)) := by
  have htext : dropByteOrderMark body =
      (leadingWs (dropByteOrderMark body)).1 ++ S.location st := by
    rw [(laws.iterate_sound hiterate).2.1, leadingWs_append_skipWs]
  refine hx.bind (fun _ _ h => ReadsSome.of_suffix h ⟨_, htext.symm⟩) ?_
  rintro events ⟨b, st'⟩ hreads
  have hsome : ∀ later, reads later = [] →
      ReadsSome (dropByteOrderMark body) (events ++ later) := fun later hlater =>
    (hreads.readsSome.of_suffix ⟨_, htext.symm⟩).of_read (by simp [hlater])
  dsimp only
  split_ifs with hend
  · cases finish b with
    | error e => exact hsome [] rfl
    | ok a =>
        obtain ⟨w, rest, hw, hreads, hstands⟩ := hreads
        have hrest : skipWs rest = [] := hstands.1.symm.trans ((laws.atEnd_iff st').mp hend)
        refine ⟨leadingWs (dropByteOrderMark body), w, leadingWs rest, ?_, ?_⟩
        · rw [leadingWs_of_skipWs_eq_nil hrest, ← hw, ← htext]
        · rw [leadingWs_of_skipWs_eq_nil hrest]
          simpa [quiet] using hreads
  · exact hsome [] rfl

theorem parseDocumentBatchLogged_reads (laws : S.Lawful) (body : Bytes) :
    LogsBody body (parseDocumentBatchLogged S body) := by
  refine post_quiet_bind (fun st hiterate => ?_) (readsSome_of_nil rfl)
  refine post_quiet_bind ?_ (readsSome_of_nil rfl)
  rintro ⟨array, st₁⟩ hget
  obtain ⟨inner, hinner, hopens⟩ := laws.documentGetArray_sound hiterate hget
  have hlength : inner.length + 1 ≤ body.length := by
    simpa [hinner] using laws.length_location_le hiterate
  have hfuel : body.length - 1 + 1 < body.length + 1 := by omega
  have hreads := readDocumentsLogged_reads laws hfuel hopens (by omega)
  rw [← hinner] at hreads
  exact logsBody_bind laws pure hiterate hreads

/-! ## The create-index request -/

/-- Reads the value of a field it knows, or fails having read some tokens of it. -/
def LogsFieldValue (S : Ondemand) (st : S.State) :
    Logged LogEntry Error (CreateIndexFields × S.State) → Prop :=
  Logged.Post (fun events reached => ReadsValue S (S.location st) (S.depth st - 1) events reached.2)
    (fun events _ => ReadsSome (S.location st) events)

theorem readUidLogged_reads (laws : S.Lawful) {value : S.Value} {st : S.State}
    (hat : S.At value st) (fields : CreateIndexFields) :
    LogsFieldValue S st (readUidLogged S value fields st) := by
  rw [readUidLogged]
  split_ifs
  · exact readsSome_of_nil rfl
  · refine (getStringLogged_reads laws _ hat).bind (fun _ _ h => h) ?_
    rintro events ⟨uid, st'⟩ hreads
    exact hreads.of_read (by simp)

/-- `is_null()` reads a null, and leaves a string for `get_string()`. -/
theorem readPrimaryKeyLogged_reads (laws : S.Lawful) {value : S.Value} {st : S.State}
    (hat : S.At value st) (fields : CreateIndexFields) :
    LogsFieldValue S st (readPrimaryKeyLogged S value fields st) := by
  rw [readPrimaryKeyLogged]
  split_ifs
  · exact readsSome_of_nil rfl
  · refine (isNullLogged_reads laws _ hat).bind (fun _ _ h => h) ?_
    rintro events ⟨_ | _, st'⟩ hnull
    · obtain ⟨hnothing, hat', hlocation, hdepth⟩ := hnull
      have hstring := getStringLogged_reads laws
        (fieldMustBe primaryKeyField (ascii "a string or null")) hat'
      rw [hlocation, hdepth] at hstring
      refine hstring.bind (fun _ _ h => ReadsSome.of_read h (by simp [hnothing])) ?_
      rintro later ⟨primaryKey, st''⟩ hreads
      exact hreads.of_read (by simp [hnothing])
    · exact ReadsValue.of_read hnull (by simp)

theorem readFieldsLogged_reads (laws : S.Lawful) (hfuel : limit + 1 < fuel) {object : S.Object}
    {inner : Bytes} {depth : ℕ} {st : S.State} (hopens : S.OpensObject object inner depth st)
    (hlimit : inner.length ≤ limit) :
    Logged.Post (fun events reached => ReadsValue S (0x7b :: inner) (depth - 1) events reached.2)
      (fun events _ => ReadsSome (0x7b :: inner) events) (readFieldsLogged S fuel object st) := by
  refine logsObject laws ?_ ?_ hopens hlimit hfuel
  · intro f acc st₁ key colon text hkey hfield hlimit₁
    refine post_quiet_bind ?_ (readsSome_of_nil rfl)
    rintro _ ⟨⟩
    refine post_noted_bind ?_ (readsSome_single (.string _))
    rintro ⟨name, st₂⟩ hread
    obtain ⟨-, ⟨hlocation, hdepth⟩, hat⟩ := hfield.key_sound hread
    -- What is read of the value comes behind the key.
    have hbehind : ∀ {x : Logged LogEntry Error (CreateIndexFields × S.State)},
        LogsFieldValue S st₂ x →
        Logged.Post
          (fun events reached => ReadsMember S (S.keyLocation f) (skipWs text)
            (S.objectDepth object) (.read (.string (S.keyLocation f)) :: events) reached.2)
          (fun events _ => ReadsSome (S.keyLocation f)
            (.read (.string (S.keyLocation f)) :: events)) x := by
      intro x hx
      rw [LogsFieldValue, hlocation, hdepth, Nat.add_sub_cancel] at hx
      refine hx.mono ?_ fun _ _ h => readsSome_field hkey h
      rintro events ⟨fields, st₃⟩ ⟨w, rest, hw, hreads, hstands⟩
      exact ⟨w, rest, hw, by simp [hreads], hstands⟩
    dsimp only
    split_ifs
    · exact hbehind (readUidLogged_reads laws hat acc)
    · exact hbehind (readPrimaryKeyLogged_reads laws hat acc)
    · exact readsSome_single (.string _)
  · exact fun _ _ => rfl

theorem parseCreateIndexRequestLogged_reads (laws : S.Lawful) (body : Bytes) :
    LogsBody body (parseCreateIndexRequestLogged S body) := by
  refine post_quiet_bind (fun st hiterate => ?_) (readsSome_of_nil rfl)
  refine post_quiet_bind ?_ (readsSome_of_nil rfl)
  rintro ⟨object, st₁⟩ hget
  obtain ⟨inner, hinner, hopens⟩ := laws.documentGetObject_sound hiterate hget
  have hlength : inner.length + 1 ≤ body.length := by
    simpa [hinner] using laws.length_location_le hiterate
  have hfuel : body.length - 1 + 1 < body.length + 1 := by omega
  have hreads := readFieldsLogged_reads laws hfuel hopens (by omega)
  rw [← hinner] at hreads
  exact logsBody_bind laws toCommand hiterate hreads

/-! ## The whole body -/

/-- Nothing is read twice, and the strings that are unescaped fit into the body. -/
structure ReadsOnce (body : Bytes) (events : List LogEntry) : Prop where
  of_body : ∀ token ∈ reads events, token.text <:+ body
  once : ∀ token : Token, token.Starts → (reads events).count token ≤ 1
  unescaped : ((reads events).map fun token => token.body.length).sum ≤ body.length
  written : ((reads events).map Token.written).sum ≤ body.length

theorem LogsBody.readsOnce {α : Type} {body : Bytes} {x : Logged LogEntry Error α}
    (h : LogsBody body x) : ReadsOnce body x.events := by
  have hsome : ReadsSome (dropByteOrderMark body) x.events := by
    obtain ⟨events, e | a⟩ := x
    · exact h
    · obtain ⟨before, w, after, htext, hreads⟩ := h
      have hdescends := (w.descends after.1).to_suffix (List.nil_suffix)
      rw [ReadsSome, htext, hreads]
      exact hdescends.of_suffix (List.suffix_append _ _)
  have hdescends := Descends.of_suffix hsome (dropByteOrderMark_suffix body)
  have hsum := hdescends.sum_length_le
  refine ⟨fun token => hdescends.suffix_of_mem, fun token => hdescends.count_le_one, hsum, ?_⟩
  exact (List.sum_le_sum fun token _ => token.written_le).trans hsum

/-- Both parsers, on every body. -/
theorem reads_once (laws : S.Lawful) (body : Bytes) :
    ((parseDocumentBatchLogged S body).result = parseDocumentBatch S body ∧
      ReadsOnce body (parseDocumentBatchLogged S body).events) ∧
    ((parseCreateIndexRequestLogged S body).result = parseCreateIndexRequest S body ∧
      ReadsOnce body (parseCreateIndexRequestLogged S body).events) ∧
    ∀ documents, parseDocumentBatch S body = .ok documents →
      ∃ before batch after, IsBatch body before batch after ∧
        reads (parseDocumentBatchLogged S body).events = batch.tokens after.1 ∧
        (batch.tokens after.1).Nodup := by
  have hbatch := parseDocumentBatchLogged_reads laws body
  refine ⟨⟨result_parseDocumentBatchLogged S body, hbatch.readsOnce⟩,
    ⟨result_parseCreateIndexRequestLogged S body,
      (parseCreateIndexRequestLogged_reads laws body).readsOnce⟩, ?_⟩
  intro documents hok
  obtain ⟨before, batch, after, hisBatch, -⟩ := (parseDocumentBatch_eq_ok laws).mp hok
  obtain ⟨before', w, after', htext, hreads⟩ :=
    hbatch.ok_of_eq ((result_parseDocumentBatchLogged S body).trans hok)
  obtain ⟨-, rfl, rfl⟩ := text_unique (hisBatch.text.symm.trans htext)
  refine ⟨before, batch, after, hisBatch, hreads, ?_⟩
  exact (batch.descends after.1).nodup fun token => batch.starts_of_mem

/-- A document with one field. -/
def sampleDocument : Json.Value :=
  .object Ws.none (.last ⟨ascii "a", rfl⟩ Ws.none Ws.none (.string ⟨ascii "b", rfl⟩) Ws.none)

def sampleBatch : Json.Value := .array Ws.none (.last sampleDocument Ws.none)

theorem isDocument_sampleDocument : IsDocument sampleDocument := by
  refine ⟨rfl, ⟨rfl, rfl⟩, ?_⟩
  decide

theorem isBatch_sampleBatch :
    IsBatch (ascii "[\x7b\"a\":\"b\"\x7d]") Ws.none sampleBatch Ws.none where
  utf8 := .of_all (by decide)
  text := by decide
  array := rfl
  nonempty := by decide
  size := by decide
  documents := by
    rintro v (_ | ⟨_, ⟨⟩⟩)
    exact isDocument_sampleDocument

theorem reads_once_reference : ∃ before batch after,
    IsBatch (ascii "[\x7b\"a\":\"b\"\x7d]") before batch after ∧
      reads (parseDocumentBatchLogged reference (ascii "[\x7b\"a\":\"b\"\x7d]")).events =
        batch.tokens after.1 := by
  have hok := parseDocumentBatch_complete reference_lawful isBatch_sampleBatch
  obtain ⟨before, batch, after, hbatch, hreads, -⟩ := (reads_once reference_lawful _).2.2 _ hok
  exact ⟨before, batch, after, hbatch, hreads⟩

end Leta
