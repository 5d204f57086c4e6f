import Leta.Http.IndexParser
import Leta.Json.Unambiguity
import Leta.Ondemand.Reference
import Mathlib.Data.List.Permutation

/-! # What the create-index parser accepts

A body is accepted exactly when its members are `uid` and, at most, `primaryKey`, and the
command carries their values. -/

namespace Leta

open Json Ondemand

variable {S : Ondemand} {limit fuel : ℕ}

/-! ## Fields -/

/-- An acceptable field, and what it adds to the fields read so far. -/
inductive ReadsIndexField :
    StringLiteral × Json.Value → CreateIndexFields → CreateIndexFields → Prop where
  | uid {key s : StringLiteral} {text fields} : key.text = some uidField → fields.uid = none →
      s.text = some text → ReadsIndexField (key, .string s) fields { fields with uid := some text }
  | null {key : StringLiteral} {fields} : key.text = some primaryKeyField →
      fields.hasPrimaryKey = false →
      ReadsIndexField (key, .null) fields { fields with hasPrimaryKey := true }
  | primaryKey {key s : StringLiteral} {text fields} : key.text = some primaryKeyField →
      fields.hasPrimaryKey = false → s.text = some text →
      ReadsIndexField (key, .string s) fields
        { fields with hasPrimaryKey := true, primaryKey := some text }

/-- The text behind the opening brace has an unknown key, all fields before it being acceptable. -/
def UnknownKey (inner name : Bytes) : Prop :=
  ∃ (key : StringLiteral) (colon : Ws) (rest : Bytes) (fields : CreateIndexFields),
    key.text = some name ∧ name ≠ uidField ∧ name ≠ primaryKeyField ∧
      Reached ReadsIndexField inner {} (key.render ++ (colon.1 ++ 0x3a :: rest)) fields

/-- An error of the fields' loop. -/
def RefusesField (inner : Bytes) (e : Error) : Prop :=
  IsMalformed e ∨ ∃ name, UnknownKey inner name ∧ e = unknownField name

/-! ## Soundness -/

theorem readUid_sound (laws : S.Lawful) (fields : CreateIndexFields) {value : S.Value}
    {st : S.State} {key : StringLiteral} (hat : S.At value st) (hkey : key.text = some uidField) :
    Post (fun reached => ∃ (w : Json.Value) (rest : Bytes), S.location st = w.render ++ rest ∧
      ReadsIndexField (key, w) fields reached.1 ∧ S.Stands reached.2 (skipWs rest) (S.depth st - 1))
      IsMalformed (readUid S value fields st) := by
  rw [readUid]
  split_ifs with hrepeated
  · exact isMalformed_malformed (by decide)
  · refine Post.bind (Post.succeeds (fun _ hget => hget) (isMalformed_malformed (by decide))) ?_
    rintro ⟨text, st'⟩ hget
    obtain ⟨s, rest, hlocation, htext, hstands⟩ := laws.getString_sound hat hget
    exact ⟨.string s, rest, hlocation, .uid hkey (by simpa using hrepeated) htext, hstands⟩

theorem readPrimaryKey_sound (laws : S.Lawful) (fields : CreateIndexFields) {value : S.Value}
    {st : S.State} {key : StringLiteral} (hat : S.At value st)
    (hkey : key.text = some primaryKeyField) :
    Post (fun reached => ∃ (w : Json.Value) (rest : Bytes), S.location st = w.render ++ rest ∧
      ReadsIndexField (key, w) fields reached.1 ∧ S.Stands reached.2 (skipWs rest) (S.depth st - 1))
      IsMalformed (readPrimaryKey S value fields st) := by
  rw [readPrimaryKey]
  split_ifs with hrepeated
  · exact isMalformed_malformed (by decide)
  · refine Post.bind (Post.succeeds (fun _ hnull => hnull) (isMalformed_malformed (by decide))) ?_
    rintro ⟨isNull, st'⟩ hnull
    cases isNull with
    | true =>
        obtain ⟨rest, hlocation, hstands⟩ := laws.isNull_sound hat hnull
        exact ⟨.null, rest, hlocation, .null hkey (by simpa using hrepeated), hstands⟩
    | false =>
        obtain ⟨hat', hlocation', hdepth'⟩ := laws.isNull_unread hat hnull
        refine Post.bind (Post.succeeds (fun _ hget => hget) (isMalformed_malformed (by decide))) ?_
        rintro ⟨text, st''⟩ hget
        obtain ⟨s, rest, hlocation, htext, hstands⟩ := laws.getString_sound hat' hget
        rw [hdepth'] at hstands
        exact ⟨.string s, rest, hlocation'.symm.trans hlocation,
          .primaryKey hkey (by simpa using hrepeated) htext, hstands⟩

theorem readFields_sound (laws : S.Lawful) (hfuel : limit + 1 < fuel) {object : S.Object}
    {inner : Bytes} {depth : ℕ} {st : S.State} (hopens : S.OpensObject object inner depth st)
    (hlimit : inner.length ≤ limit) :
    Post (fun reached => ∃ (w : Json.Value) (rest : Bytes), w.isObject ∧
        0x7b :: inner = w.render ++ rest ∧ Folds ReadsIndexField w.fields {} reached.1 ∧
        S.Stands reached.2 (skipWs rest) (depth - 1)) (RefusesField inner)
      (readFields S fuel object st) := by
  have hbody : ReadsField object limit ReadsIndexField inner {} (RefusesField inner)
      (fun item fields st => do
        let field ← succeeds item notJson
        readField S field fields st) := by
    rintro f acc st₁ key text hfield - ⟨colon, rest, hreached⟩
    refine Post.bind (Post.succeeds (fun _ hsome => hsome) (.inl isMalformed_notJson)) ?_
    rintro _ ⟨⟩
    refine Post.bind (Post.succeeds (fun _ hread => hread) (.inl isMalformed_notJson)) ?_
    rintro ⟨name, st₂⟩ hread
    obtain ⟨hkey, ⟨hlocation, hdepth⟩, hat⟩ := hfield.key_sound hread
    dsimp only
    split_ifs with huid hprimaryKey
    · have hpost := readUid_sound laws acc hat (hkey.trans (congrArg some huid))
      rw [hlocation, hdepth, Nat.add_sub_cancel] at hpost
      exact hpost.mono_error fun _ => .inl
    · have hpost := readPrimaryKey_sound laws acc hat
        (hkey.trans (congrArg some hprimaryKey))
      rw [hlocation, hdepth, Nat.add_sub_cancel] at hpost
      exact hpost.mono_error fun _ => .inl
    · exact .inr ⟨name, ⟨key, colon, rest, acc, hkey, huid, hprimaryKey, hreached⟩, rfl⟩
  exact readsObject_sound laws hbody (fun _ _ => .inl isMalformed_notJson) hopens hlimit hfuel

/-- The body is one object with acceptable fields, which make up `fields`. -/
def IsIndexBody (body : Bytes) (fields : CreateIndexFields) : Prop :=
  ValidUtf8 (dropByteOrderMark body) ∧ ∃ (before : Ws) (v : Json.Value) (after : Ws),
    dropByteOrderMark body = before.1 ++ (v.render ++ after.1) ∧ v.isObject ∧
      Folds ReadsIndexField v.fields {} fields

/-- The body is an object that starts with acceptable fields and has the unknown key next. -/
def HasUnknownKey (body name : Bytes) : Prop :=
  ValidUtf8 (dropByteOrderMark body) ∧ ∃ (before : Ws) (inner : Bytes),
    dropByteOrderMark body = before.1 ++ 0x7b :: inner ∧ UnknownKey inner name

/-- An error of the whole parser. -/
def RefusesIndexBody (body : Bytes) (e : Error) : Prop :=
  IsMalformed e ∨ (∃ name, HasUnknownKey body name ∧ e = unknownField name) ∨
    ∃ fields, IsIndexBody body fields ∧ toCommand fields = .error e

theorem parseCreateIndexRequest_sound (laws : S.Lawful) (body : Bytes) :
    Post (fun command => ∃ fields, IsIndexBody body fields ∧ toCommand fields = .ok command)
      (RefusesIndexBody body) (parseCreateIndexRequest S body) := by
  refine Post.bind (Post.succeeds (fun _ hiterate => hiterate) (.inl isMalformed_notJson)) ?_
  intro st hiterate
  refine Post.bind
    (Post.succeeds (fun _ hget => hget) (.inl (isMalformed_malformed (by decide)))) ?_
  rintro ⟨object, st₁⟩ hget
  obtain ⟨hutf8, hlocation, -⟩ := laws.iterate_sound hiterate
  obtain ⟨inner, hinner, hopens⟩ := laws.documentGetObject_sound hiterate hget
  have htext : dropByteOrderMark body =
      (leadingWs (dropByteOrderMark body)).1 ++ 0x7b :: inner := by
    rw [← hinner, hlocation, leadingWs_append_skipWs]
  have hlength : inner.length + 1 ≤ body.length := by
    simpa [hinner] using laws.length_location_le hiterate
  have hfuel : body.length - 1 + 1 < body.length + 1 := by omega
  refine Post.bind ((readFields_sound laws hfuel hopens (by omega)).mono_error ?_) ?_
  · rintro e (hmalformed | ⟨name, hunknown, rfl⟩)
    · exact .inl hmalformed
    · exact .inr (.inl ⟨name, ⟨hutf8, _, inner, htext, hunknown⟩, rfl⟩)
  · rintro ⟨fields, st₂⟩ ⟨v, rest, hobject, hrender, hfolds, hstands⟩
    dsimp only
    split_ifs with hend
    · have hrest : skipWs rest = [] := hstands.1.symm.trans ((laws.atEnd_iff st₂).mp hend)
      have hbody : IsIndexBody body fields := by
        refine ⟨hutf8, leadingWs (dropByteOrderMark body), v, leadingWs rest, ?_, hobject, hfolds⟩
        rw [leadingWs_of_skipWs_eq_nil hrest, ← hrender, ← htext]
      cases hcommand : toCommand fields with
      | ok command => exact ⟨fields, hbody, hcommand⟩
      | error e => exact .inr (.inr ⟨fields, hbody, hcommand⟩)
    · exact .inl isMalformed_notJson

/-! ## Completeness -/

theorem readFields_complete (laws : S.Lawful) (hfuel : limit + 1 < fuel) {object : S.Object}
    {inner rest : Bytes} {depth : ℕ} {st : S.State} {v : Json.Value} {fields : CreateIndexFields}
    (hopens : S.OpensObject object inner depth st) (hlimit : inner.length ≤ limit)
    (hv : v.isObject) (hinner : 0x7b :: inner = v.render ++ rest)
    (hfolds : Folds ReadsIndexField v.fields {} fields) :
    ∃ st', readFields S fuel object st = .ok (fields, st') ∧
      S.Stands st' (skipWs rest) (depth - 1) := by
  have hbody : AcceptsField object limit ReadsIndexField (fun item fields st => do
      let field ← succeeds item notJson
      readField S field fields st) := by
    rintro f acc acc' st₁ key w rest' hfield - hrest' hreads
    have hne : ¬ primaryKeyField = uidField := by decide
    have hkeyed : ∀ {name : Bytes}, key.text = some name → ∃ st₂,
        S.unescapedKey f st₁ = some (name, st₂) ∧ S.location st₂ = w.render ++ rest' ∧
          S.depth st₂ - 1 = S.objectDepth object ∧ S.At (S.fieldValue f) st₂ := by
      intro name hname
      obtain ⟨st₂, hread⟩ := hfield.key_complete hname
      obtain ⟨-, ⟨hlocation, hdepth⟩, hat⟩ := hfield.key_sound hread
      exact ⟨st₂, hread, hlocation, by rw [hdepth, Nat.add_sub_cancel], hat⟩
    cases hreads with
    | uid hkey hnew htext =>
        obtain ⟨st₂, hread, hlocation, hdepth, hat⟩ := hkeyed hkey
        obtain ⟨st₃, hget, hstands⟩ := laws.getString_complete hat hlocation htext
        refine ⟨st₃, bind_eq_ok rfl (bind_eq_ok (succeeds_eq_ok hread) ?_), hdepth ▸ hstands⟩
        dsimp only
        rw [if_pos rfl, readUid, if_neg (by simp [hnew])]
        exact bind_eq_ok (succeeds_eq_ok hget) rfl
    | null hkey hnew =>
        obtain ⟨st₂, hread, hlocation, hdepth, hat⟩ := hkeyed hkey
        obtain ⟨st₃, hnull, hstands⟩ := laws.isNull_complete hat hlocation hrest'
        refine ⟨st₃, bind_eq_ok rfl (bind_eq_ok (succeeds_eq_ok hread) ?_), hdepth ▸ hstands⟩
        dsimp only
        rw [if_neg hne, if_pos rfl, readPrimaryKey, if_neg (by simp [hnew])]
        exact bind_eq_ok (succeeds_eq_ok hnull) rfl
    | primaryKey hkey hnew htext =>
        obtain ⟨st₂, hread, hlocation, hdepth, hat⟩ := hkeyed hkey
        obtain ⟨st₃, hnull⟩ := laws.isNull_string hat hlocation
        obtain ⟨hat', hlocation', hdepth'⟩ := laws.isNull_unread hat hnull
        obtain ⟨st₄, hget, hstands⟩ :=
          laws.getString_complete hat' (hlocation'.trans hlocation) htext
        rw [hdepth', hdepth] at hstands
        refine ⟨st₄, bind_eq_ok rfl (bind_eq_ok (succeeds_eq_ok hread) ?_), hstands⟩
        dsimp only
        rw [if_neg hne, if_pos rfl, readPrimaryKey, if_neg (by simp [hnew])]
        exact bind_eq_ok (succeeds_eq_ok hnull) (bind_eq_ok (succeeds_eq_ok hget) rfl)
  exact readsObject_complete laws outOfFuel hbody hopens hlimit hfuel hv hinner hfolds

theorem parseCreateIndexRequest_complete (laws : S.Lawful) {body : Bytes}
    {fields : CreateIndexFields} (h : IsIndexBody body fields) :
    parseCreateIndexRequest S body = toCommand fields := by
  obtain ⟨hutf8, before, v, after, htext, hv, hfolds⟩ := h
  obtain ⟨inner, hrender⟩ := Value.exists_object_head hv
  have hskip : skipWs (dropByteOrderMark body) = 0x7b :: (inner ++ 0x7d :: after.1) := by
    rw [htext, skipWs_append, Value.skipWs_render, hrender]
    simp
  obtain ⟨st, hiterate⟩ := laws.iterate_complete hutf8 (by rw [hskip]; simp)
    (by rw [htext]; exact stringsClosed_text before after v)
  obtain ⟨-, hlocation, -⟩ := laws.iterate_sound hiterate
  obtain ⟨object, st₁, hget⟩ := laws.documentGetObject_complete hiterate (hlocation.trans hskip)
  obtain ⟨inner', hinner, hopens⟩ := laws.documentGetObject_sound hiterate hget
  have hlength : inner'.length + 1 ≤ body.length := by
    simpa [hinner] using laws.length_location_le hiterate
  have hobject : 0x7b :: inner' = v.render ++ after.1 := by
    rw [← hinner, hlocation, htext, skipWs_append, Value.skipWs_render]
  have hfuel : body.length - 1 + 1 < body.length + 1 := by omega
  obtain ⟨st₂, hread, hend, -⟩ := readFields_complete laws hfuel hopens (by omega) hv hobject hfolds
  have hatEnd : S.atEnd st₂ := (laws.atEnd_iff st₂).mpr (by rw [hend, skipWs_ws])
  rw [parseCreateIndexRequest, succeeds_eq_ok hiterate]
  change (succeeds (S.documentGetObject st) _ >>= _) = _
  rw [succeeds_eq_ok hget]
  change (readFields S _ object st₁ >>= _) = _
  rw [hread]
  exact if_pos hatEnd

/-! ## Members -/

/-- The members the fields read so far stand for. -/
def membersOf (fields : CreateIndexFields) : List (Bytes × Data) :=
  (match fields.uid with
    | some text => [(uidField, .string text)]
    | none => []) ++
  (match fields.hasPrimaryKey, fields.primaryKey with
    | true, some text => [(primaryKeyField, .string text)]
    | true, none => [(primaryKeyField, .null)]
    | false, _ => [])

/-- The members of a create-index object, in any order: `uid` once, `primaryKey` at most once. -/
def Names (members : List (Bytes × Data)) (uid : Bytes) (primaryKey : Option Bytes) : Prop :=
  match primaryKey with
  | some key => members.Perm [(uidField, .string uid), (primaryKeyField, .string key)]
  | none => members.Perm [(uidField, .string uid)] ∨
      members.Perm [(uidField, .string uid), (primaryKeyField, .null)]

/-- The body is, up to whitespace, one object with these members, whatever their spelling. -/
def IsCreateIndex (body uid : Bytes) (primaryKey : Option Bytes) : Prop :=
  ValidUtf8 (dropByteOrderMark body) ∧ ∃ members,
    Denotes (dropByteOrderMark body) (.object members) ∧ Names members uid primaryKey

/-- Without a `primaryKey` field there is no primary key. -/
def CreateIndexFields.Consistent (fields : CreateIndexFields) : Prop :=
  fields.hasPrimaryKey = false → fields.primaryKey = none

theorem membersOf_read {field : StringLiteral × Json.Value} {before after : CreateIndexFields}
    (h : ReadsIndexField field before after) (hbefore : before.Consistent) :
    after.Consistent ∧
      ∃ member, FieldMeans field member ∧ (membersOf after).Perm (member :: membersOf before) := by
  cases h with
  | @uid key s text fields hkey hnew htext =>
      refine ⟨hbefore, (uidField, .string text), ⟨hkey, ?_⟩, ?_⟩
      · exact Value.decode_eq_string.mpr ⟨s, rfl, htext⟩
      · simp [membersOf, hnew]
  | @null key fields hkey hnew =>
      refine ⟨by simp [CreateIndexFields.Consistent], (primaryKeyField, .null), ⟨hkey, rfl⟩, ?_⟩
      simp [membersOf, hnew, hbefore hnew]
  | @primaryKey key s text fields hkey hnew htext =>
      refine ⟨by simp [CreateIndexFields.Consistent], (primaryKeyField, .string text), ⟨hkey, ?_⟩,
        ?_⟩
      · exact Value.decode_eq_string.mpr ⟨s, rfl, htext⟩
      · simp [membersOf, hnew]

/-- The fields read account for every member of the object. -/
theorem membersOf_folds {fields : List (StringLiteral × Json.Value)}
    {before after : CreateIndexFields} (h : Folds ReadsIndexField fields before after)
    (hbefore : before.Consistent) :
    after.Consistent ∧ ∃ members, List.Forall₂ FieldMeans fields members ∧
      (membersOf after).Perm (members ++ membersOf before) := by
  induction h with
  | nil => exact ⟨hbefore, [], .nil, .refl _⟩
  | cons hread _ ih =>
      obtain ⟨hmid, member, hmember, hperm⟩ := membersOf_read hread hbefore
      obtain ⟨hafter, members, hmembers, hperm'⟩ := ih hmid
      refine ⟨hafter, member :: members, .cons hmember hmembers, ?_⟩
      calc membersOf _ |>.Perm (members ++ membersOf _) := hperm'
        _ |>.Perm (members ++ (member :: membersOf _)) := hperm.append_left members
        _ |>.Perm _ := List.perm_middle

theorem names_of_folds {fields : List (StringLiteral × Json.Value)} {result : CreateIndexFields}
    {uid : Bytes} (h : Folds ReadsIndexField fields {} result) (huid : result.uid = some uid) :
    ∃ members, List.Forall₂ FieldMeans fields members ∧ Names members uid result.primaryKey := by
  obtain ⟨hconsistent, members, hmembers, hperm⟩ := membersOf_folds h fun _ => rfl
  refine ⟨members, hmembers, ?_⟩
  have hperm := hperm.symm
  simp only [membersOf, huid, List.append_nil] at hperm
  cases hkey : result.primaryKey with
  | some key =>
      cases hpresent : result.hasPrimaryKey with
      | true => simpa [hkey, hpresent, Names] using hperm
      | false => simp [hconsistent hpresent] at hkey
  | none =>
      cases hpresent : result.hasPrimaryKey with
      | true => exact .inr (by simpa [hkey, hpresent] using hperm)
      | false => exact .inl (by simpa [hpresent] using hperm)

theorem folds_of_names {fields : List (StringLiteral × Json.Value)} {members : List (Bytes × Data)}
    {uid : Bytes} {primaryKey : Option Bytes} (hmembers : List.Forall₂ FieldMeans fields members)
    (h : Names members uid primaryKey) :
    ∃ result, Folds ReadsIndexField fields {} result ∧ result.uid = some uid ∧
      result.primaryKey = primaryKey := by
  have hread : ∀ {field : StringLiteral × Json.Value} {name text : Bytes},
      FieldMeans field (name, .string text) →
      ∃ s : StringLiteral, field = (field.1, .string s) ∧ field.1.text = some name ∧
        s.text = some text := by
    rintro ⟨key, v⟩ name text ⟨hname, hv⟩
    obtain ⟨s, rfl, hs⟩ := Value.decode_eq_string.mp hv
    exact ⟨s, rfl, hname, hs⟩
  have hnull : ∀ {field : StringLiteral × Json.Value} {name : Bytes},
      FieldMeans field (name, .null) → field = (field.1, .null) ∧ field.1.text = some name := by
    rintro ⟨key, v⟩ name ⟨hname, hv⟩
    obtain rfl := Value.decode_eq_null.mp hv
    exact ⟨rfl, hname⟩
  cases primaryKey with
  | some key =>
      rcases List.perm_pair.mp h with rfl | rfl
      · obtain _ | ⟨hfirst, _ | ⟨hsecond, _ | _⟩⟩ := hmembers
        obtain ⟨s, hs, hkey, htext⟩ := hread hfirst
        obtain ⟨s', hs', hkey', htext'⟩ := hread hsecond
        rw [hs, hs']
        exact ⟨_, .cons (.uid hkey rfl htext) (.cons (.primaryKey hkey' rfl htext') (.nil _)), rfl,
          rfl⟩
      · obtain _ | ⟨hfirst, _ | ⟨hsecond, _ | _⟩⟩ := hmembers
        obtain ⟨s, hs, hkey, htext⟩ := hread hfirst
        obtain ⟨s', hs', hkey', htext'⟩ := hread hsecond
        rw [hs, hs']
        exact ⟨_, .cons (.primaryKey hkey rfl htext) (.cons (.uid hkey' rfl htext') (.nil _)), rfl,
          rfl⟩
  | none =>
      rcases h with h | h
      · obtain rfl := List.perm_singleton.mp h
        obtain _ | ⟨hfirst, _ | _⟩ := hmembers
        obtain ⟨s, hs, hkey, htext⟩ := hread hfirst
        rw [hs]
        exact ⟨_, .cons (.uid hkey rfl htext) (.nil _), rfl, rfl⟩
      · rcases List.perm_pair.mp h with rfl | rfl
        · obtain _ | ⟨hfirst, _ | ⟨hsecond, _ | _⟩⟩ := hmembers
          obtain ⟨s, hs, hkey, htext⟩ := hread hfirst
          obtain ⟨hs', hkey'⟩ := hnull hsecond
          rw [hs, hs']
          exact ⟨_, .cons (.uid hkey rfl htext) (.cons (.null hkey' rfl) (.nil _)), rfl, rfl⟩
        · obtain _ | ⟨hfirst, _ | ⟨hsecond, _ | _⟩⟩ := hmembers
          obtain ⟨hs, hkey⟩ := hnull hfirst
          obtain ⟨s', hs', hkey', htext'⟩ := hread hsecond
          rw [hs, hs']
          exact ⟨_, .cons (.null hkey rfl) (.cons (.uid hkey' rfl htext') (.nil _)), rfl, rfl⟩

theorem isCreateIndex_iff {body uid : Bytes} {primaryKey : Option Bytes} :
    IsCreateIndex body uid primaryKey ↔ ∃ fields, IsIndexBody body fields ∧
      fields.uid = some uid ∧ fields.primaryKey = primaryKey := by
  constructor
  · rintro ⟨hutf8, members, ⟨before, after, v, htext, hdecode⟩, hnames⟩
    obtain ⟨hv, hmembers⟩ := Value.decode_eq_object.mp hdecode
    obtain ⟨fields, hfolds, huid, hkey⟩ := folds_of_names hmembers hnames
    exact ⟨fields, ⟨hutf8, before, v, after, htext, hv, hfolds⟩, huid, hkey⟩
  · rintro ⟨fields, ⟨hutf8, before, v, after, htext, hv, hfolds⟩, huid, rfl⟩
    obtain ⟨members, hmembers, hnames⟩ := names_of_folds hfolds huid
    exact ⟨hutf8, members, ⟨before, after, v, htext, Value.decode_eq_object.mpr ⟨hv, hmembers⟩⟩,
      hnames⟩

/-! ## The verdict -/

theorem toCommand_missing {fields : CreateIndexFields} (h : fields.uid = none) :
    toCommand fields = .error (malformed (ascii "Field `uid` is required.")) := by
  rw [toCommand, h]
  rfl

theorem toCommand_invalid {fields : CreateIndexFields} {text : Bytes} (h : fields.uid = some text)
    (hform : ¬ HasUidForm text) : toCommand fields = .error invalidIndexUid := by
  rw [toCommand, h]
  change (IndexUid.parse text >>= _) = _
  rw [IndexUid.parse_eq_error.mpr ⟨hform, rfl⟩]
  rfl

theorem toCommand_valid {fields : CreateIndexFields} (uid : IndexUid)
    (h : fields.uid = some uid.value) : toCommand fields = .ok ⟨uid, fields.primaryKey⟩ :=
  bind_eq_ok (succeeds_eq_ok h) (bind_eq_ok uid.parse_value rfl)

theorem toCommand_eq_ok {fields : CreateIndexFields} {command : CreateIndexCommand} :
    toCommand fields = .ok command ↔
      fields.uid = some command.uid.value ∧ fields.primaryKey = command.primaryKey := by
  constructor
  · intro h
    cases huid : fields.uid with
    | none => simp [toCommand_missing huid] at h
    | some text =>
        by_cases hform : HasUidForm text
        · obtain rfl := Except.ok.inj ((toCommand_valid ⟨text, hform⟩ huid).symm.trans h)
          exact ⟨rfl, rfl⟩
        · simp [toCommand_invalid huid hform] at h
  · rintro ⟨huid, hkey⟩
    rw [toCommand_valid _ huid, hkey]

theorem parseCreateIndexRequest_eq_ok (laws : S.Lawful) {body : Bytes}
    {command : CreateIndexCommand} :
    parseCreateIndexRequest S body = .ok command ↔
      IsCreateIndex body command.uid.value command.primaryKey := by
  rw [isCreateIndex_iff]
  constructor
  · intro h
    obtain ⟨fields, hbody, hcommand⟩ := (parseCreateIndexRequest_sound laws body).ok_of_eq h
    exact ⟨fields, hbody, toCommand_eq_ok.mp hcommand⟩
  · rintro ⟨fields, hbody, huid, hkey⟩
    rw [parseCreateIndexRequest_complete laws hbody]
    exact toCommand_eq_ok.mpr ⟨huid, hkey⟩

/-- The three ways to be refused. -/
theorem parseCreateIndexRequest_eq_error (laws : S.Lawful) {body : Bytes} {e : Error}
    (h : parseCreateIndexRequest S body = .error e) :
    IsMalformed e ∨ (∃ name, HasUnknownKey body name ∧ e = unknownField name) ∨
      (∃ uid primaryKey, IsCreateIndex body uid primaryKey ∧ ¬ HasUidForm uid) ∧
        e = invalidIndexUid := by
  rcases (parseCreateIndexRequest_sound laws body).error_of_eq h with
    hmalformed | hunknown | ⟨fields, hbody, hcommand⟩
  · exact .inl hmalformed
  · exact .inr (.inl hunknown)
  · cases huid : fields.uid with
    | none =>
        obtain rfl := Except.error.inj ((toCommand_missing huid).symm.trans hcommand)
        exact .inl (isMalformed_malformed (by decide))
    | some text =>
        by_cases hform : HasUidForm text
        · simp [toCommand_valid ⟨text, hform⟩ huid] at hcommand
        · obtain rfl := Except.error.inj ((toCommand_invalid huid hform).symm.trans hcommand)
          exact .inr (.inr ⟨⟨text, fields.primaryKey,
            isCreateIndex_iff.mpr ⟨fields, hbody, huid, rfl⟩, hform⟩, rfl⟩)

theorem parseCreateIndexRequest_invalid (laws : S.Lawful) {body uid : Bytes}
    {primaryKey : Option Bytes} (h : IsCreateIndex body uid primaryKey) (hform : ¬ HasUidForm uid) :
    parseCreateIndexRequest S body = .error invalidIndexUid := by
  obtain ⟨fields, hbody, huid, -⟩ := isCreateIndex_iff.mp h
  rw [parseCreateIndexRequest_complete laws hbody, toCommand_invalid huid hform]

/-- The code of a refusal says what is wrong with the body. -/
structure RefusesFor (body : Bytes) (e : Error) : Prop where
  code : e.code = .unknownField ∨ e.code = .invalidIndexUid ∨ e.code = .malformedRequest
  uid : e.code = .invalidIndexUid ↔
    ∃ uid primaryKey, IsCreateIndex body uid primaryKey ∧ ¬ HasUidForm uid
  field : e.code = .unknownField → ∃ name, HasUnknownKey body name ∧ e = unknownField name

/-- The whole contract of the create-index parser. -/
structure DecidesCreateIndex (S : Ondemand) (body : Bytes) : Prop where
  ok : ∀ command, parseCreateIndexRequest S body = .ok command ↔
    IsCreateIndex body command.uid.value command.primaryKey
  accepts : (∃ command, parseCreateIndexRequest S body = .ok command) ↔
    ∃ uid primaryKey, IsCreateIndex body uid primaryKey ∧ HasUidForm uid
  refuses : ∀ e, parseCreateIndexRequest S body = .error e → RefusesFor body e

theorem parseCreateIndexRequest_contract (laws : S.Lawful) (body : Bytes) :
    DecidesCreateIndex S body := by
  refine ⟨fun command => parseCreateIndexRequest_eq_ok laws, ⟨?_, ?_⟩, ?_⟩
  · rintro ⟨command, hok⟩
    exact ⟨_, _, (parseCreateIndexRequest_eq_ok laws).mp hok, command.uid.form⟩
  · rintro ⟨uid, primaryKey, hcreate, hform⟩
    exact ⟨⟨⟨uid, hform⟩, primaryKey⟩, (parseCreateIndexRequest_eq_ok laws).mpr hcreate⟩
  · intro e he
    have hinvalid : (∃ uid primaryKey, IsCreateIndex body uid primaryKey ∧ ¬ HasUidForm uid) →
        e = invalidIndexUid := by
      rintro ⟨uid, primaryKey, hcreate, hform⟩
      exact Except.error.inj (he.symm.trans (parseCreateIndexRequest_invalid laws hcreate hform))
    rcases parseCreateIndexRequest_eq_error laws he with
      hmalformed | ⟨name, hname, rfl⟩ | ⟨hform, rfl⟩
    · have hcode : e.code = .malformedRequest := hmalformed.code
      refine ⟨.inr (.inr hcode), ⟨fun h => ?_, fun h => by rw [hinvalid h]; rfl⟩, fun h => ?_⟩
      · exact absurd (hcode.symm.trans h) (by decide)
      · exact absurd (hcode.symm.trans h) (by decide)
    · refine ⟨.inl rfl, ⟨fun h => ?_, fun h => ?_⟩, fun _ => ⟨name, hname, rfl⟩⟩
      · simp [unknownField] at h
      · rw [hinvalid h]
        rfl
    · exact ⟨.inr (.inl rfl), ⟨fun _ => hform, fun _ => rfl⟩, fun h => absurd h (by decide)⟩

/-- The escaped spelling of a key, and no primary key. -/
theorem parseCreateIndexRequest_contract_reference :
    DecidesCreateIndex reference (ascii "\x7b\"\\u0075id\":\"a\"\x7d") :=
  parseCreateIndexRequest_contract reference_lawful _

end Leta
