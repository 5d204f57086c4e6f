import Leta.Http.DocumentParser

/-! # Validation reads a whole value

`validateValue` accepts exactly the well-formed values that are readable and shallow enough,
and leaves the cursor at the token behind them. -/

namespace Leta

open Json Ondemand

variable {S : Ondemand} {limit fuel : ℕ}

/-- What the batch parser asks of a value at a depth, nested values included. -/
def Acceptable (depth : ℕ) (v : Json.Value) : Prop :=
  v.Readable ∧ depth + v.height ≤ maxNestingDepth

theorem acceptable_array {depth : ℕ} {v : Json.Value} (h : v.isArray) :
    Acceptable depth v ↔
      depth ≤ maxNestingDepth ∧ ∀ element ∈ v.elements, Acceptable (depth + 1) element := by
  simp only [Acceptable, Value.readable_array h, Value.height_array h, forall_and]
  tauto

theorem acceptable_object {depth : ℕ} {v : Json.Value} (h : v.isObject) :
    Acceptable depth v ↔ depth ≤ maxNestingDepth ∧
      ∀ field ∈ v.fields, field.1.text.isSome ∧ Acceptable (depth + 1) field.2 := by
  simp only [Acceptable, Value.readable_object h, Value.height_object h, forall_and]
  tauto

/-- Nothing more belongs to the value: a literal or a number goes on up to a delimiter. -/
def EndsAt (v : Json.Value) (rest : Bytes) : Prop :=
  match v with
  | .null | .bool _ | .number _ => Delimited rest
  | _ => True

theorem endsAt_of_delimited (v : Json.Value) {rest : Bytes} (h : Delimited rest) :
    EndsAt v rest := by
  cases v with
  | null | bool | number => exact h
  | string | emptyArray | array | emptyObject | object => trivial

/-- The value `v` stands where the cursor was, and the cursor has passed it. -/
def Passes (S : Ondemand) (st : S.State) (v : Json.Value) (st' : S.State) : Prop :=
  ∃ rest, S.location st = v.render ++ rest ∧ S.Stands st' (skipWs rest) (S.depth st - 1)

/-! ## Scalars -/

theorem readsAsScalar_sound (laws : S.Lawful) {value : S.Value} {st st' : S.State}
    {type : JsonType} (hat : S.At value st) (h : readsAsScalar S value type st = some st') :
    ∃ v, Passes S st v st' ∧ v.Readable ∧ v.height = 0 := by
  cases type with
  | number =>
      obtain ⟨n, rest, hlocation, hrange, hstands⟩ := laws.getDouble_sound hat h
      exact ⟨.number n, ⟨rest, hlocation, hstands⟩, hrange, rfl⟩
  | string =>
      obtain ⟨⟨text, st''⟩, hread, rfl⟩ := Option.map_eq_some_iff.mp h
      obtain ⟨s, rest, hlocation, htext, hstands⟩ := laws.getString_sound hat hread
      exact ⟨.string s, ⟨rest, hlocation, hstands⟩, Option.isSome_of_eq_some htext, rfl⟩
  | boolean =>
      obtain ⟨⟨b, st''⟩, hread, rfl⟩ := Option.map_eq_some_iff.mp h
      obtain ⟨rest, hlocation, hstands⟩ := laws.getBool_sound hat hread
      exact ⟨.bool b, ⟨rest, hlocation, hstands⟩, trivial, rfl⟩
  | null =>
      simp only [readsAsScalar] at h
      split at h
      · next st'' hread =>
          obtain rfl := Option.some.inj h
          obtain ⟨rest, hlocation, hstands⟩ := laws.isNull_sound hat hread
          exact ⟨.null, ⟨rest, hlocation, hstands⟩, trivial, rfl⟩
      · simp at h
  | array | object | unknown => simp [readsAsScalar] at h

theorem readsAsScalar_complete (laws : S.Lawful) {value : S.Value} {st : S.State}
    {v : Json.Value} {rest : Bytes} (hat : S.At value st)
    (hlocation : S.location st = v.render ++ rest) (hrest : EndsAt v rest) (hread : v.Readable)
    (harray : v.isArray = false) (hobject : v.isObject = false) :
    ∃ st', readsAsScalar S value (typeOf v) st = some st' ∧
      S.Stands st' (skipWs rest) (S.depth st - 1) := by
  cases v with
  | null =>
      obtain ⟨st', hnull, hstands⟩ := laws.isNull_complete hat hlocation hrest
      exact ⟨st', by simp [readsAsScalar, typeOf, hnull], hstands⟩
  | bool b =>
      obtain ⟨st', hbool, hstands⟩ := laws.getBool_complete hat hlocation hrest
      exact ⟨st', by simp [readsAsScalar, typeOf, hbool], hstands⟩
  | number n => exact laws.getDouble_complete hat hlocation hrest hread
  | string s =>
      obtain ⟨text, htext⟩ := Option.isSome_iff_exists.mp hread
      obtain ⟨st', hstring, hstands⟩ := laws.getString_complete hat hlocation htext
      exact ⟨st', by simp [readsAsScalar, typeOf, hstring], hstands⟩
  | emptyArray | array => simp [Value.isArray] at harray
  | emptyObject | object => simp [Value.isObject] at hobject

/-! ## One pass of a loop -/

/-- The body of the loop in `validateArray`. -/
def elementPass (S : Ondemand) (validate : S.Value → S.State → Result S.State)
    (item : Option S.Value) (_ : Unit) (st : S.State) : Result (Unit × S.State) := do
  let element ← succeeds item notJson
  let st ← validate element st
  return ((), st)

/-- The body of the loop in `validateObject`. -/
def fieldPass (S : Ondemand) (validate : S.Value → S.State → Result S.State)
    (item : Option S.Field) (_ : Unit) (st : S.State) : Result (Unit × S.State) := do
  let field ← succeeds item notJson
  let (_, st) ← succeeds (S.unescapedKey field st) notJson
  let st ← validate (S.fieldValue field) st
  return ((), st)

/-! ## Soundness -/

/-- An accepted value is well formed and acceptable. -/
def Validates (S : Ondemand) (limit depth : ℕ) (validate : S.Value → S.State → Result S.State) :
    Prop :=
  ∀ value st, S.At value st → (S.location st).length ≤ limit →
    Post (fun st' => ∃ v, Passes S st v st' ∧ Acceptable depth v) IsMalformed (validate value st)

theorem validateArray_sound (laws : S.Lawful) (hfuel : limit + 1 < fuel) {depth : ℕ}
    (hdepth : depth ≤ maxNestingDepth) {validate : S.Value → S.State → Result S.State}
    (h : Validates S limit (depth + 1) validate) :
    Validates S limit depth (validateArray S fuel validate) := by
  intro value st hat hlimit
  refine Post.bind (Post.succeeds (fun _ hget => hget) isMalformed_notJson) ?_
  rintro ⟨array, st'⟩ hget
  obtain ⟨inner, hinner, hopens⟩ := laws.getArray_sound hat hget
  rw [hinner, List.length_cons] at hlimit
  have hbody : ReadsElement array limit (fun element _ _ => Acceptable (depth + 1) element)
      IsMalformed (elementPass S validate) := by
    intro v acc st'' hat' hdepth' hlimit'
    refine Post.bind (Post.succeeds (fun _ hsome => hsome) isMalformed_notJson) ?_
    rintro _ ⟨⟩
    refine Post.bind (h v st'' hat' hlimit') ?_
    rintro st''' ⟨w, ⟨rest, hw, hstands⟩, haccept⟩
    rw [hdepth', Nat.add_sub_cancel] at hstands
    exact ⟨w, rest, hw, haccept, hstands⟩
  refine Post.bind
    (readsArray_sound laws hbody (fun _ _ => isMalformed_notJson) hopens (by omega) hfuel) ?_
  rintro ⟨_, st''⟩ ⟨w, rest, hw, hrender, hfolds, hstands⟩
  exact ⟨w, ⟨rest, hinner.trans hrender, hstands⟩,
    (acceptable_array hw).mpr ⟨hdepth, folds_unit.mp hfolds⟩⟩

theorem validateObject_sound (laws : S.Lawful) (hfuel : limit + 1 < fuel) {depth : ℕ}
    (hdepth : depth ≤ maxNestingDepth) {validate : S.Value → S.State → Result S.State}
    (h : Validates S limit (depth + 1) validate) :
    Validates S limit depth (validateObject S fuel validate) := by
  intro value st hat hlimit
  refine Post.bind (Post.succeeds (fun _ hget => hget) isMalformed_notJson) ?_
  rintro ⟨object, st'⟩ hget
  obtain ⟨inner, hinner, hopens⟩ := laws.getObject_sound hat hget
  rw [hinner, List.length_cons] at hlimit
  have hbody : ReadsField object limit
      (fun field _ _ => field.1.text.isSome ∧ Acceptable (depth + 1) field.2) inner ()
      IsMalformed (fieldPass S validate) := by
    intro f acc st'' key text hfield hlimit' _
    refine Post.bind (Post.succeeds (fun _ hsome => hsome) isMalformed_notJson) ?_
    rintro _ ⟨⟩
    refine Post.bind (Post.succeeds (fun _ hkey => hkey) isMalformed_notJson) ?_
    rintro ⟨k, st'''⟩ hkey
    obtain ⟨htext, ⟨hlocation, hdepth'⟩, hat'⟩ := hfield.key_sound hkey
    refine Post.bind (h _ st''' hat' (by rwa [hlocation])) ?_
    rintro st'''' ⟨w, ⟨rest, hw, hstands⟩, haccept⟩
    rw [hdepth', Nat.add_sub_cancel] at hstands
    exact ⟨w, rest, hlocation.symm.trans hw, ⟨Option.isSome_of_eq_some htext, haccept⟩, hstands⟩
  refine Post.bind
    (readsObject_sound laws hbody (fun _ _ => isMalformed_notJson) hopens (by omega) hfuel) ?_
  rintro ⟨_, st''⟩ ⟨w, rest, hw, hrender, hfolds, hstands⟩
  exact ⟨w, ⟨rest, hinner.trans hrender, hstands⟩,
    (acceptable_object hw).mpr ⟨hdepth, folds_unit.mp hfolds⟩⟩

/-- By induction on the levels left above the nesting bound. -/
theorem validateValue_sound (laws : S.Lawful) (hfuel : limit + 1 < fuel) (depth : ℕ) :
    Validates S limit depth fun value => validateValue S fuel value depth := by
  induction hlevels : maxNestingDepth + 1 - depth generalizing depth with
  | zero =>
      intro value st hat hlimit
      have hdeep : depth > maxNestingDepth := by omega
      change Post _ _ (validateValue S fuel value depth st)
      rw [validateValue, if_pos hdeep]
      exact isMalformed_append (by decide) isAscii_of_mem_decimal (by decide)
  | succ levels ih =>
      intro value st hat hlimit
      have hshallow : ¬ depth > maxNestingDepth := by omega
      have hnested := ih (depth + 1) (by omega)
      change Post _ _ (validateValue S fuel value depth st)
      rw [validateValue, if_neg hshallow]
      refine Post.bind (Post.succeeds (fun _ htype => htype) isMalformed_notJson) ?_
      intro type htype
      split_ifs
      · exact validateArray_sound laws hfuel (by omega) hnested value st hat hlimit
      · exact validateObject_sound laws hfuel (by omega) hnested value st hat hlimit
      · refine Post.succeeds (fun st' h => ?_) isMalformed_notJson
        obtain ⟨v, hpasses, hread, hheight⟩ := readsAsScalar_sound laws hat h
        exact ⟨v, hpasses, hread, by omega⟩

/-! ## Completeness -/

/-- Every acceptable value is accepted. -/
def Accepts (S : Ondemand) (limit depth : ℕ) (validate : S.Value → S.State → Result S.State) :
    Prop :=
  ∀ value st (v : Json.Value) rest, S.At value st → (S.location st).length ≤ limit →
    S.location st = v.render ++ rest → Delimited rest → Acceptable depth v →
    ∃ st', validate value st = .ok st' ∧ S.Stands st' (skipWs rest) (S.depth st - 1)

theorem validateArray_complete (laws : S.Lawful) (hfuel : limit + 1 < fuel) {depth : ℕ}
    {validate : S.Value → S.State → Result S.State} (h : Accepts S limit (depth + 1) validate)
    {value : S.Value} {st : S.State} {v : Json.Value} {rest : Bytes} (hat : S.At value st)
    (hlimit : (S.location st).length ≤ limit) (hlocation : S.location st = v.render ++ rest)
    (hv : v.isArray) (haccept : Acceptable depth v) :
    ∃ st', validateArray S fuel validate value st = .ok st' ∧
      S.Stands st' (skipWs rest) (S.depth st - 1) := by
  obtain ⟨inner, hinner⟩ : ∃ inner, S.location st = 0x5b :: inner := by
    obtain ⟨inner, hrender⟩ := Value.exists_array_head hv
    exact ⟨inner ++ [0x5d] ++ rest, by rw [hlocation, hrender, List.cons_append]⟩
  obtain ⟨array, st', hget⟩ := laws.getArray_complete hat hinner
  obtain ⟨inner', hinner', hopens⟩ := laws.getArray_sound hat hget
  obtain rfl : inner = inner' := (List.cons.inj (hinner.symm.trans hinner')).2
  rw [hinner, List.length_cons] at hlimit
  have hbody : AcceptsElement array limit (fun element _ _ => Acceptable (depth + 1) element)
      (elementPass S validate) := by
    intro element acc acc' st'' w rest' hat' hdepth' hlimit' hw hrest' haccept'
    obtain ⟨st₁, hok, hstands⟩ := h element st'' w rest' hat' hlimit' hw hrest' haccept'
    rw [hdepth', Nat.add_sub_cancel] at hstands
    exact ⟨st₁, bind_eq_ok rfl (bind_eq_ok hok rfl), hstands⟩
  obtain ⟨st'', hloop, hstands⟩ := readsArray_complete laws outOfFuel hbody
    hopens (by omega) hfuel hv (hinner.symm.trans hlocation)
    (@folds_unit _ _ _ () () |>.mpr ((acceptable_array hv).mp haccept).2)
  exact ⟨st'', bind_eq_ok (succeeds_eq_ok hget) (bind_eq_ok hloop rfl), hstands⟩

theorem validateObject_complete (laws : S.Lawful) (hfuel : limit + 1 < fuel) {depth : ℕ}
    {validate : S.Value → S.State → Result S.State} (h : Accepts S limit (depth + 1) validate)
    {value : S.Value} {st : S.State} {v : Json.Value} {rest : Bytes} (hat : S.At value st)
    (hlimit : (S.location st).length ≤ limit) (hlocation : S.location st = v.render ++ rest)
    (hv : v.isObject) (haccept : Acceptable depth v) :
    ∃ st', validateObject S fuel validate value st = .ok st' ∧
      S.Stands st' (skipWs rest) (S.depth st - 1) := by
  obtain ⟨inner, hinner⟩ : ∃ inner, S.location st = 0x7b :: inner := by
    obtain ⟨inner, hrender⟩ := Value.exists_object_head hv
    exact ⟨inner ++ [0x7d] ++ rest, by rw [hlocation, hrender, List.cons_append]⟩
  obtain ⟨object, st', hget⟩ := laws.getObject_complete hat hinner
  obtain ⟨inner', hinner', hopens⟩ := laws.getObject_sound hat hget
  obtain rfl : inner = inner' := (List.cons.inj (hinner.symm.trans hinner')).2
  rw [hinner, List.length_cons] at hlimit
  have hbody : AcceptsField object limit
      (fun field _ _ => field.1.text.isSome ∧ Acceptable (depth + 1) field.2)
      (fieldPass S validate) := by
    intro f acc acc' st'' key w rest' hfield hlimit' hrest' ⟨hkey, haccept'⟩
    obtain ⟨k, hk⟩ := Option.isSome_iff_exists.mp hkey
    obtain ⟨st₁, hread⟩ := hfield.key_complete hk
    obtain ⟨-, ⟨hlocation', hdepth'⟩, hat'⟩ := hfield.key_sound hread
    obtain ⟨st₂, hok, hstands⟩ := h _ st₁ w rest' hat' (by rwa [hlocation']) hlocation' hrest'
      haccept'
    rw [hdepth', Nat.add_sub_cancel] at hstands
    exact ⟨st₂, bind_eq_ok rfl (bind_eq_ok (succeeds_eq_ok hread) (bind_eq_ok hok rfl)), hstands⟩
  obtain ⟨st'', hloop, hstands⟩ := readsObject_complete laws outOfFuel hbody
    hopens (by omega) hfuel hv (hinner.symm.trans hlocation)
    (@folds_unit _ _ _ () () |>.mpr ((acceptable_object hv).mp haccept).2)
  exact ⟨st'', bind_eq_ok (succeeds_eq_ok hget) (bind_eq_ok hloop rfl), hstands⟩

theorem typeOf_eq_array {v : Json.Value} : typeOf v = .array ↔ v.isArray := by
  cases v <;> simp [typeOf, Value.isArray]

theorem typeOf_eq_object {v : Json.Value} : typeOf v = .object ↔ v.isObject := by
  cases v <;> simp [typeOf, Value.isObject]

/-- A value is accepted at a depth where those below it are. -/
theorem validateValue_of_nested (laws : S.Lawful) (hfuel : limit + 1 < fuel) {depth : ℕ}
    (hnested : Accepts S limit (depth + 1) fun value => validateValue S fuel value (depth + 1))
    {value : S.Value} {st : S.State} {v : Json.Value} {rest : Bytes} (hat : S.At value st)
    (hlimit : (S.location st).length ≤ limit) (hlocation : S.location st = v.render ++ rest)
    (hrest : EndsAt v rest) (haccept : Acceptable depth v) :
    ∃ st', validateValue S fuel value depth st = .ok st' ∧
      S.Stands st' (skipWs rest) (S.depth st - 1) := by
  have hshallow : ¬ depth > maxNestingDepth := by
    have := haccept.2
    omega
  have htype := laws.type_complete hat (hlocation ▸ announcedType_render v rest)
  rw [validateValue, if_neg hshallow, htype]
  change ∃ st', (if typeOf v = .array then _ else if typeOf v = .object then _ else _) = _ ∧ _
  simp only [typeOf_eq_array, typeOf_eq_object]
  split_ifs with harray hobject
  · exact validateArray_complete laws hfuel hnested hat hlimit hlocation harray haccept
  · exact validateObject_complete laws hfuel hnested hat hlimit hlocation hobject haccept
  · obtain ⟨st', hread, hstands⟩ := readsAsScalar_complete laws hat hlocation hrest haccept.1
      (by simpa using harray) (by simpa using hobject)
    exact ⟨st', succeeds_eq_ok hread, hstands⟩

/-- By induction on the levels left above the nesting bound. -/
theorem validateValue_complete (laws : S.Lawful) (hfuel : limit + 1 < fuel) (depth : ℕ) :
    Accepts S limit depth fun value => validateValue S fuel value depth := by
  induction hlevels : maxNestingDepth + 1 - depth generalizing depth with
  | zero =>
      intro value st v rest hat hlimit hlocation hrest haccept
      have := haccept.2
      omega
  | succ levels ih =>
      intro value st v rest hat hlimit hlocation hrest haccept
      exact validateValue_of_nested laws hfuel (ih (depth + 1) (by omega)) hat hlimit hlocation
        (endsAt_of_delimited v hrest) haccept

end Leta
