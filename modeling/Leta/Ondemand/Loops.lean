import Leta.Ondemand.Api

/-! # Range-based loops over arrays and objects

A loop whose body reads one item reads the whole array or object, and leaves the cursor at
the token behind it. `handles` says what the body makes of an item. -/

namespace Leta.Ondemand

open Json

variable {S : Ondemand} {β ε : Type} {stuck : ε} {limit fuel : ℕ} {Q : ε → Prop}

/-! ## Arrays -/

section Arrays

variable {array : S.Array} {body : Option S.Value → β → S.State → Except ε (β × S.State)}
  {handles : Json.Value → β → β → Prop}

/-- A step of an array's loop, with at most `limit` bytes left. -/
def ArrayStep (array : S.Array) (limit : ℕ) : Step S.State S.Value → Prop
  | .yielded (some v) st =>
      S.At v st ∧ S.depth st = S.arrayDepth array + 1 ∧ (S.location st).length ≤ limit
  | _ => True

/-- How the loop ends from a step: it reads the items left and the closing bracket. -/
def ArrayEnds (array : S.Array) (handles : Json.Value → β → β → Prop) :
    Step S.State S.Value → β → β × S.State → Prop
  | .finished st, acc, result => result = (acc, st)
  | .yielded none _, _, _ => False
  | .yielded (some _) st, acc, result => ∃ (items : Items) (rest : Bytes),
      S.location st = items.render ++ 0x5d :: rest ∧ Folds handles items.values acc result.1 ∧
        S.Stands result.2 (skipWs rest) (S.arrayDepth array - 1)

/-- The bytes left at a step. -/
def arraySize : Step S.State S.Value → ℕ
  | .finished _ => 0
  | .yielded none _ => 1
  | .yielded (some _) st => (S.location st).length + 1

/-- The body reads one value. -/
def ReadsElement (array : S.Array) (limit : ℕ) (handles : Json.Value → β → β → Prop) (Q : ε → Prop)
    (body : Option S.Value → β → S.State → Except ε (β × S.State)) : Prop :=
  ∀ v acc st, S.At v st → S.depth st = S.arrayDepth array + 1 → (S.location st).length ≤ limit →
    Post (fun reached => ∃ (w : Json.Value) (rest : Bytes), S.location st = w.render ++ rest ∧
      handles w acc reached.1 ∧ S.Stands reached.2 (skipWs rest) (S.arrayDepth array))
      Q (body (some v) acc st)

/-- The step of an array's range from behind an element. -/
theorem arrayNext_cases (laws : S.Lawful) {rest : Bytes} {st : S.State}
    (hstands : S.Stands st (skipWs rest) (S.arrayDepth array)) :
    (∃ (after before : Ws) (next : Bytes) (v : S.Value) (st' : S.State),
      rest = after.1 ++ 0x2c :: (before.1 ++ next) ∧ S.arrayNext array st = .yielded (some v) st' ∧
        S.Stands st' next (S.arrayDepth array + 1) ∧ S.At v st') ∨
    (∃ (after : Ws) (rest' : Bytes) (st' : S.State), rest = after.1 ++ 0x5d :: rest' ∧
      S.arrayNext array st = .finished st' ∧
        S.Stands st' (skipWs rest') (S.arrayDepth array - 1)) ∨
    ∃ st', S.arrayNext array st = .yielded none st' := by
  obtain ⟨hlocation, hdepth⟩ := hstands
  by_cases hcomma : ∃ next, skipWs rest = 0x2c :: next
  · obtain ⟨next, hnext⟩ := hcomma
    obtain ⟨v, st', hstep, hstands', hat⟩ := laws.arrayNext_comma hdepth (hlocation.trans hnext)
    refine .inl ⟨leadingWs rest, leadingWs next, skipWs next, v, st', ?_, hstep, hstands', hat⟩
    rw [leadingWs_append_skipWs next, ← hnext, leadingWs_append_skipWs]
  · by_cases hclose : ∃ next, skipWs rest = 0x5d :: next
    · obtain ⟨next, hnext⟩ := hclose
      obtain ⟨st', hstep, hstands'⟩ := laws.arrayNext_close hdepth (hlocation.trans hnext)
      refine .inr (.inl ⟨leadingWs rest, next, st', ?_, hstep, hstands'⟩)
      rw [← hnext, leadingWs_append_skipWs]
    · push Not at hcomma hclose
      exact .inr (.inr (laws.arrayNext_other hdepth (by simpa only [hlocation] using hcomma)
        (by simpa only [hlocation] using hclose)))

/-- One pass through the loop's body and the step after it. -/
theorem arrayLoop_step (laws : S.Lawful) {w : Json.Value} {rest : Bytes} {v : S.Value}
    {st st' : S.State} {acc acc' : β} (hw : S.location st = w.render ++ rest)
    (hlimit : (S.location st).length ≤ limit) (hhandles : handles w acc acc')
    (hstands : S.Stands st' (skipWs rest) (S.arrayDepth array)) :
    ArrayStep array limit (S.arrayNext array st') ∧
      arraySize (S.arrayNext array st') < arraySize (.yielded (some v) st) ∧
      ∀ result, ArrayEnds array handles (S.arrayNext array st') acc' result →
        ArrayEnds array handles (.yielded (some v) st) acc result := by
  obtain ⟨after, before, next, v', st'', rfl, hstep, ⟨hlocation, hdepth⟩, hat⟩ |
      ⟨after, rest', st'', rfl, hstep, hstands'⟩ | ⟨st'', hstep⟩ := arrayNext_cases laws hstands
  · have hlength : next.length < (S.location st).length := by
      simp only [hw, List.length_append, List.length_cons]
      omega
    rw [hstep]
    refine ⟨⟨hat, hdepth, by rw [hlocation]; omega⟩, ?_, ?_⟩
    · simp only [arraySize, hlocation]
      omega
    · rintro result ⟨items, rest', hitems, hfolds, hend⟩
      refine ⟨.cons w after before items, rest', ?_, .cons hhandles hfolds, hend⟩
      simp [hw, ← hlocation, hitems, Items.render]
  · rw [hstep]
    refine ⟨trivial, by simp [arraySize], ?_⟩
    rintro result rfl
    exact ⟨.last w after, rest', by simp [hw, Items.render], .cons hhandles (.nil _), hstands'⟩
  · have hpos : 0 < (S.location st).length := by
      obtain ⟨b, tail, hhead, -⟩ := w.exists_head
      simp [hw, hhead]
    rw [hstep]
    refine ⟨trivial, ?_, fun _ h => h.elim⟩
    simp only [arraySize]
    omega

theorem arrayLoop_sound (laws : S.Lawful) (hbody : ReadsElement array limit handles Q body)
    (hnone : ∀ acc st, Post (fun _ => False) Q (body none acc st))
    {step : Step S.State S.Value} {acc : β}
    (hstep : ArrayStep array limit step) (hsize : arraySize step < fuel) :
    Post (ArrayEnds array handles step acc) Q
      (forEach (S.arrayNext array) body stuck fuel step acc) := by
  refine forEach_post _ _ _ arraySize (P := fun step _ => ArrayStep array limit step) ?_ ?_ fuel
    step acc hsize hstep
  · exact fun _ _ _ => rfl
  · intro item st acc hpre
    cases item with
    | none => exact (hnone acc st).mono fun _ h => h.elim
    | some v =>
        obtain ⟨hat, hdepth, hlimit⟩ := hpre
        refine (hbody v acc st hat hdepth hlimit).mono ?_
        rintro ⟨acc', st'⟩ ⟨w, rest, hw, hhandles, hstands⟩
        exact arrayLoop_step laws hw hlimit hhandles hstands

/-- A loop that succeeds has read an array. -/
theorem readsArray_sound (laws : S.Lawful)
    (hbody : ReadsElement array limit handles Q body)
    (hnone : ∀ acc st, Post (fun _ => False) Q (body none acc st)) {inner : Bytes} {depth : ℕ}
    {st : S.State} {acc : β} (hopens : S.OpensArray array inner depth st)
    (hlimit : inner.length ≤ limit)
    (hfuel : limit + 1 < fuel) :
    Post (fun reached => ∃ (w : Json.Value) (rest : Bytes), w.isArray ∧
        0x5b :: inner = w.render ++ rest ∧ Folds handles w.elements acc reached.1 ∧
        S.Stands reached.2 (skipWs rest) (depth - 1)) Q
      (forEach (S.arrayNext array) body stuck fuel (S.arrayBegin array st) acc) := by
  by_cases hempty : ∃ rest, skipWs inner = 0x5d :: rest
  · obtain ⟨rest, hrest⟩ := hempty
    obtain ⟨st', hbegin, hstands⟩ := hopens.empty hrest
    have hsize : arraySize (S.arrayBegin array st) < fuel := by
      rw [hbegin, arraySize]
      omega
    refine (arrayLoop_sound laws hbody hnone (by rw [hbegin]; trivial) hsize).mono ?_
    rw [hbegin]
    rintro _ rfl
    refine ⟨.emptyArray (leadingWs inner), rest, rfl, ?_, .nil _, hstands⟩
    rw [Value.render, List.append_assoc, List.singleton_append, List.cons_append, ← hrest,
      leadingWs_append_skipWs]
  · push Not at hempty
    obtain ⟨v, st', hbegin, ⟨hlocation, hdepth⟩, hat⟩ := hopens.first hempty
    have hle := length_skipWs_le inner
    have hpre : ArrayStep array limit (S.arrayBegin array st) := by
      rw [hbegin]
      exact ⟨hat, by rw [hdepth, hopens.depth_eq], by rw [hlocation]; omega⟩
    have hsize : arraySize (S.arrayBegin array st) < fuel := by
      rw [hbegin, arraySize, hlocation]
      omega
    refine (arrayLoop_sound laws hbody hnone hpre hsize).mono ?_
    rw [hbegin]
    rintro _ ⟨items, rest, hitems, hfolds, hend⟩
    rw [hopens.depth_eq] at hend
    refine ⟨.array (leadingWs inner) items, rest, rfl, ?_, hfolds, hend⟩
    calc 0x5b :: inner = 0x5b :: ((leadingWs inner).1 ++ skipWs inner) := by
          rw [leadingWs_append_skipWs]
      _ = _ := by simp [← hlocation, hitems, Value.render]

/-- The body accepts every value it is meant to handle. -/
def AcceptsElement (array : S.Array) (limit : ℕ) (handles : Json.Value → β → β → Prop)
    (body : Option S.Value → β → S.State → Except ε (β × S.State)) : Prop :=
  ∀ v acc acc' st (w : Json.Value) rest, S.At v st → S.depth st = S.arrayDepth array + 1 →
    (S.location st).length ≤ limit → S.location st = w.render ++ rest → Delimited rest →
    handles w acc acc' →
    ∃ st', body (some v) acc st = .ok (acc', st') ∧
      S.Stands st' (skipWs rest) (S.arrayDepth array)

theorem arrayLoop_complete (laws : S.Lawful) (hbody : AcceptsElement array limit handles body) :
    ∀ (items : Items) {rest : Bytes} {step : Step S.State S.Value} {acc result : β} {fuel : ℕ},
      S.YieldsValue step (items.render ++ 0x5d :: rest) (S.arrayDepth array + 1) →
      (items.render ++ 0x5d :: rest).length ≤ limit →
      (items.render ++ 0x5d :: rest).length + 1 < fuel → Folds handles items.values acc result →
      ∃ st', forEach (S.arrayNext array) body stuck fuel step acc = .ok (result, st') ∧
        S.Stands st' (skipWs rest) (S.arrayDepth array - 1)
  | .last w after, rest, step, acc, result, fuel, hstep, hlimit, hfuel, hfolds => by
      obtain ⟨v, st, rfl, ⟨hlocation, hdepth⟩, hat⟩ := hstep
      obtain _ | ⟨hhandles, _ | _⟩ := hfolds
      have hclose : skipWs (after.1 ++ 0x5d :: rest) = 0x5d :: rest :=
        skipWs_ws_cons after (by decide) rest
      rw [← hlocation] at hlimit
      rw [Items.render, List.append_assoc] at hlocation
      obtain ⟨st', hok, hlocation', hdepth'⟩ := hbody v _ _ st w _ hat hdepth hlimit hlocation
        (delimited_ws_append after (delimited_cons (by decide) rest)) hhandles
      obtain ⟨st'', hnext, hstands⟩ := laws.arrayNext_close hdepth' (hlocation'.trans hclose)
      obtain ⟨fuel, rfl⟩ : ∃ n, fuel = n + 2 := ⟨fuel - 2, by omega⟩
      refine ⟨st'', ?_, hstands⟩
      rw [forEach_yielded hok, hnext]
      rfl
  | .cons w after before items, rest, step, acc, result, fuel, hstep, hlimit, hfuel, hfolds => by
      obtain ⟨v, st, rfl, ⟨hlocation, hdepth⟩, hat⟩ := hstep
      obtain _ | ⟨hhandles, hfolds⟩ := hfolds
      have hitems : skipWs (before.1 ++ (items.render ++ 0x5d :: rest)) =
          items.render ++ 0x5d :: rest := by
        obtain ⟨b, tail, hhead, hb, -⟩ := items.exists_head
        rw [hhead]
        exact skipWs_ws_cons before hb _
      have hcomma : skipWs (after.1 ++ 0x2c :: (before.1 ++ (items.render ++ 0x5d :: rest))) =
          0x2c :: (before.1 ++ (items.render ++ 0x5d :: rest)) :=
        skipWs_ws_cons after (by decide) _
      have hlength : (items.render ++ 0x5d :: rest).length <
          (Items.render (.cons w after before items) ++ 0x5d :: rest).length := by
        simp only [Items.render, List.length_append, List.length_cons]
        omega
      rw [← hlocation] at hlimit
      have htext : S.location st =
          w.render ++ (after.1 ++ 0x2c :: (before.1 ++ (items.render ++ 0x5d :: rest))) := by
        simp [hlocation, Items.render]
      obtain ⟨st', hok, hlocation', hdepth'⟩ := hbody v _ _ st w _ hat hdepth hlimit htext
        (delimited_ws_append after (delimited_cons (by decide) _)) hhandles
      have hnext := laws.arrayNext_comma hdepth' (hlocation'.trans hcomma)
      rw [hitems] at hnext
      obtain ⟨fuel, rfl⟩ : ∃ n, fuel = n + 1 := ⟨fuel - 1, by omega⟩
      rw [hlocation] at hlimit
      have hmore : (items.render ++ 0x5d :: rest).length + 1 < fuel := by omega
      obtain ⟨st'', hloop, hstands⟩ := arrayLoop_complete laws hbody items hnext
        (by omega) hmore hfolds
      exact ⟨st'', by rw [forEach_yielded hok, hloop], hstands⟩

/-- The loop accepts an array whose elements its body accepts. -/
theorem readsArray_complete (laws : S.Lawful) (stuck : ε)
    (hbody : AcceptsElement array limit handles body)
    {inner rest : Bytes} {depth : ℕ} {st : S.State} {acc result : β} {w : Json.Value}
    (hopens : S.OpensArray array inner depth st) (hlimit : inner.length ≤ limit)
    (hfuel : limit + 1 < fuel) (hw : w.isArray) (hinner : 0x5b :: inner = w.render ++ rest)
    (hfolds : Folds handles w.elements acc result) :
    ∃ st', forEach (S.arrayNext array) body stuck fuel (S.arrayBegin array st) acc =
        .ok (result, st') ∧ S.Stands st' (skipWs rest) (depth - 1) := by
  cases w with
  | emptyArray between =>
      obtain rfl : inner = between.1 ++ 0x5d :: rest := by simpa [Value.render] using hinner
      obtain ⟨st', hbegin, hstands⟩ := hopens.empty (skipWs_ws_cons between (by decide) rest)
      cases hfolds
      obtain ⟨fuel, rfl⟩ : ∃ n, fuel = n + 1 := ⟨fuel - 1, by omega⟩
      exact ⟨st', by rw [hbegin]; rfl, hstands⟩
  | array before items =>
      obtain rfl : inner = before.1 ++ (items.render ++ 0x5d :: rest) := by
        simpa [Value.render] using hinner
      obtain ⟨b, tail, hhead, hb, hclose⟩ := items.exists_head
      have hitems : skipWs (before.1 ++ (items.render ++ 0x5d :: rest)) =
          items.render ++ 0x5d :: rest := by
        rw [hhead]
        exact skipWs_ws_cons before hb _
      have hfirst := hopens.first (by
        rw [hitems, hhead]
        rintro rest h
        exact hclose (List.cons.inj h).1)
      rw [hitems, ← hopens.depth_eq] at hfirst
      rw [List.length_append] at hlimit
      rw [← hopens.depth_eq]
      exact arrayLoop_complete laws hbody items hfirst (by omega) (by omega) hfolds
  | null | bool | number | string | emptyObject | object => simp [Value.isArray] at hw

end Arrays

/-! ## Objects -/

/-- The text in front of an object's next key, and the fields it holds. -/
inductive LeadsTo : List (StringLiteral × Json.Value) → Bytes → Prop where
  | nil (w : Ws) : LeadsTo [] w.1
  | snoc {fields lead} (key : StringLiteral) (beforeColon afterColon : Ws) (v : Json.Value)
      (after before : Ws) : LeadsTo fields lead →
      LeadsTo (fields ++ [(key, v)]) (lead ++ (key.render ++ (beforeColon.1 ++
        0x3a :: (afterColon.1 ++ (v.render ++ (after.1 ++ 0x2c :: before.1))))))

section Objects

variable {object : S.Object} {body : Option S.Field → β → S.State → Except ε (β × S.State)}
  {handles : StringLiteral × Json.Value → β → β → Prop} {whole : Bytes} {init : β}

/-- The fields in front of `text` have been handled, `whole` being the text behind the object's
opening brace. -/
def Reached (handles : StringLiteral × Json.Value → β → β → Prop) (whole : Bytes) (init : β)
    (text : Bytes) (acc : β) : Prop :=
  ∃ fields lead, LeadsTo fields lead ∧ whole = lead ++ text ∧ Folds handles fields init acc

/-- A step of an object's loop, with at most `limit` bytes left. -/
def ObjectStep (object : S.Object) (limit : ℕ)
    (handles : StringLiteral × Json.Value → β → β → Prop) (whole : Bytes) (init : β) :
    Step S.State S.Field → β → Prop
  | .yielded (some f) st, acc => ∃ (key : StringLiteral) (colon : Ws) (inner : Bytes),
      S.keyLocation f = key.render ++ (colon.1 ++ 0x3a :: inner) ∧
        S.FieldAt f key (skipWs inner) (S.objectDepth object + 1) st ∧
        (S.keyLocation f).length ≤ limit ∧ Reached handles whole init (S.keyLocation f) acc
  | _, _ => True

/-- How the loop ends from a step: it reads the members left and the closing brace. -/
def ObjectEnds (object : S.Object) (handles : StringLiteral × Json.Value → β → β → Prop) :
    Step S.State S.Field → β → β × S.State → Prop
  | .finished st, acc, result => result = (acc, st)
  | .yielded none _, _, _ => False
  | .yielded (some f) _, acc, result => ∃ (members : Members) (rest : Bytes),
      S.keyLocation f = members.render ++ 0x7d :: rest ∧
        Folds handles members.fields acc result.1 ∧
        S.Stands result.2 (skipWs rest) (S.objectDepth object - 1)

/-- The bytes left at a step. -/
def objectSize : Step S.State S.Field → ℕ
  | .finished _ => 0
  | .yielded none _ => 1
  | .yielded (some f) _ => (S.keyLocation f).length + 1

/-- The body reads one field. -/
def ReadsField (object : S.Object) (limit : ℕ)
    (handles : StringLiteral × Json.Value → β → β → Prop) (whole : Bytes) (init : β)
    (Q : ε → Prop) (body : Option S.Field → β → S.State → Except ε (β × S.State)) : Prop :=
  ∀ f acc st key text, S.FieldAt f key text (S.objectDepth object + 1) st → text.length ≤ limit →
    (∃ (colon : Ws) (inner : Bytes),
      Reached handles whole init (key.render ++ (colon.1 ++ 0x3a :: inner)) acc) →
    Post (fun reached => ∃ (w : Json.Value) (rest : Bytes), text = w.render ++ rest ∧
      handles (key, w) acc reached.1 ∧ S.Stands reached.2 (skipWs rest) (S.objectDepth object))
      Q (body (some f) acc st)

/-- The range has reached a field, whose key stands where `text` starts. -/
def YieldsField (S : Ondemand) (step : Step S.State S.Field) (text : Bytes) (depth : ℕ) : Prop :=
  ∃ (f : S.Field) (st : S.State) (key : StringLiteral) (colon : Ws) (inner : Bytes),
    step = .yielded (some f) st ∧ S.keyLocation f = text ∧
      text = key.render ++ (colon.1 ++ 0x3a :: inner) ∧ S.FieldAt f key (skipWs inner) depth st

theorem yieldsField_or_fails {step : Step S.State S.Field} {text : Bytes} {depth : ℕ}
    (h : S.StepsToField step text depth) : YieldsField S step text depth ∨ S.Fails step := by
  by_cases hkey : ∃ (key : StringLiteral) (w : Ws) (inner : Bytes),
      text = key.render ++ (w.1 ++ 0x3a :: inner)
  · obtain ⟨key, w, inner, htext⟩ := hkey
    obtain ⟨f, st, hstep, hlocation, hfield⟩ := h.field key w inner htext
    exact .inl ⟨f, st, key, w, inner, hstep, hlocation, htext, hfield⟩
  · push Not at hkey
    exact .inr (h.malformed hkey)

/-- The step of an object's range from behind a field. -/
theorem objectNext_cases (laws : S.Lawful) {rest : Bytes} {st : S.State}
    (hstands : S.Stands st (skipWs rest) (S.objectDepth object)) :
    (∃ (after before : Ws) (next : Bytes), rest = after.1 ++ 0x2c :: (before.1 ++ next) ∧
      YieldsField S (S.objectNext object st) next (S.objectDepth object + 1)) ∨
    (∃ (after : Ws) (rest' : Bytes) (st' : S.State), rest = after.1 ++ 0x7d :: rest' ∧
      S.objectNext object st = .finished st' ∧
        S.Stands st' (skipWs rest') (S.objectDepth object - 1)) ∨
    S.Fails (S.objectNext object st) := by
  obtain ⟨hlocation, hdepth⟩ := hstands
  by_cases hcomma : ∃ next, skipWs rest = 0x2c :: next
  · obtain ⟨next, hnext⟩ := hcomma
    obtain hyields | hfails :=
      yieldsField_or_fails (laws.objectNext_comma hdepth (hlocation.trans hnext))
    · refine .inl ⟨leadingWs rest, leadingWs next, skipWs next, ?_, hyields⟩
      rw [leadingWs_append_skipWs next, ← hnext, leadingWs_append_skipWs]
    · exact .inr (.inr hfails)
  · by_cases hclose : ∃ next, skipWs rest = 0x7d :: next
    · obtain ⟨next, hnext⟩ := hclose
      obtain ⟨st', hstep, hstands'⟩ := laws.objectNext_close hdepth (hlocation.trans hnext)
      refine .inr (.inl ⟨leadingWs rest, next, st', ?_, hstep, hstands'⟩)
      rw [← hnext, leadingWs_append_skipWs]
    · push Not at hcomma hclose
      exact .inr (.inr (laws.objectNext_other hdepth (by simpa only [hlocation] using hcomma)
        (by simpa only [hlocation] using hclose)))

/-- One pass through the loop's body and the step after it. -/
theorem objectLoop_step (laws : S.Lawful) {w : Json.Value} {key : StringLiteral} {colon : Ws}
    {inner rest : Bytes} {f : S.Field} {st st' : S.State} {acc acc' : β}
    (hkey : S.keyLocation f = key.render ++ (colon.1 ++ 0x3a :: inner))
    (hw : skipWs inner = w.render ++ rest) (hlimit : (S.keyLocation f).length ≤ limit)
    (hreached : Reached handles whole init (S.keyLocation f) acc)
    (hhandles : handles (key, w) acc acc')
    (hstands : S.Stands st' (skipWs rest) (S.objectDepth object)) :
    ObjectStep object limit handles whole init (S.objectNext object st') acc' ∧
      objectSize (S.objectNext object st') < objectSize (.yielded (some f) st) ∧
      ∀ result, ObjectEnds object handles (S.objectNext object st') acc' result →
        ObjectEnds object handles (.yielded (some f) st) acc result := by
  have htext : S.keyLocation f =
      key.render ++ (colon.1 ++ 0x3a :: ((leadingWs inner).1 ++ (w.render ++ rest))) := by
    rw [← hw, leadingWs_append_skipWs, hkey]
  obtain
      ⟨after, before, next, rfl, f', st'', key', colon', inner', hstep, hlocation, hnext, hfield⟩ |
      ⟨after, rest', st'', rfl, hstep, hstands'⟩ | ⟨st'', hstep⟩ := objectNext_cases laws hstands
  · have hlength : next.length < (S.keyLocation f).length := by
      simp only [htext, List.length_append, List.length_cons]
      omega
    have hreached' : Reached handles whole init (S.keyLocation f') acc' := by
      obtain ⟨fields, lead, hlead, hwhole, hfolds⟩ := hreached
      refine ⟨_, _, .snoc key colon (leadingWs inner) w after before hlead, ?_,
        hfolds.snoc hhandles⟩
      rw [hwhole, htext, hlocation]
      simp
    rw [hstep]
    refine ⟨⟨key', colon', inner', hlocation.trans hnext, hfield, by rw [hlocation]; omega,
      hreached'⟩, ?_, ?_⟩
    · simp only [objectSize, hlocation]
      omega
    · rintro result ⟨members, rest', hmembers, hfolds, hend⟩
      refine ⟨.cons key colon (leadingWs inner) w after before members, rest', ?_,
        .cons hhandles hfolds, hend⟩
      rw [htext, ← hlocation, hmembers]
      simp [Members.render]
  · rw [hstep]
    refine ⟨trivial, by simp [objectSize], ?_⟩
    rintro result rfl
    refine ⟨.last key colon (leadingWs inner) w after, rest', ?_, .cons hhandles (.nil _), hstands'⟩
    rw [htext]
    simp [Members.render]
  · have hpos : 0 < (S.keyLocation f).length := by
      simp only [htext, List.length_append, List.length_cons]
      omega
    rw [hstep]
    refine ⟨trivial, ?_, fun _ h => h.elim⟩
    simp only [objectSize]
    omega

theorem objectLoop_sound (laws : S.Lawful)
    (hbody : ReadsField object limit handles whole init Q body)
    (hnone : ∀ acc st, Post (fun _ => False) Q (body none acc st)) {step : Step S.State S.Field}
    {acc : β} (hstep : ObjectStep object limit handles whole init step acc)
    (hsize : objectSize step < fuel) :
    Post (ObjectEnds object handles step acc) Q
      (forEach (S.objectNext object) body stuck fuel step acc) := by
  refine forEach_post _ _ _ objectSize (P := ObjectStep object limit handles whole init) ?_ ?_
    fuel step acc hsize hstep
  · exact fun _ _ _ => rfl
  · intro item st acc hpre
    cases item with
    | none => exact (hnone acc st).mono fun _ h => h.elim
    | some f =>
        obtain ⟨key, colon, inner, hkey, hfield, hlimit, hreached⟩ := hpre
        have hinner : (skipWs inner).length ≤ limit := by
          have := length_skipWs_le inner
          rw [hkey] at hlimit
          simp only [List.length_append, List.length_cons] at hlimit
          omega
        refine (hbody f acc st key _ hfield hinner ⟨colon, inner, hkey ▸ hreached⟩).mono ?_
        rintro ⟨acc', st'⟩ ⟨w, rest, hw, hhandles, hstands⟩
        exact objectLoop_step laws hkey hw hlimit hreached hhandles hstands

/-- A loop that succeeds has read an object. -/
theorem readsObject_sound (laws : S.Lawful) {inner : Bytes} {acc : β}
    (hbody : ReadsField object limit handles inner acc Q body)
    (hnone : ∀ acc st, Post (fun _ => False) Q (body none acc st)) {depth : ℕ} {st : S.State}
    (hopens : S.OpensObject object inner depth st) (hlimit : inner.length ≤ limit)
    (hfuel : limit + 1 < fuel) :
    Post (fun reached => ∃ (w : Json.Value) (rest : Bytes), w.isObject ∧
        0x7b :: inner = w.render ++ rest ∧ Folds handles w.fields acc reached.1 ∧
        S.Stands reached.2 (skipWs rest) (depth - 1)) Q
      (forEach (S.objectNext object) body stuck fuel (S.objectBegin object st) acc) := by
  by_cases hempty : ∃ rest, skipWs inner = 0x7d :: rest
  · obtain ⟨rest, hrest⟩ := hempty
    obtain ⟨st', hbegin, hstands⟩ := hopens.empty hrest
    have hsize : objectSize (S.objectBegin object st) < fuel := by
      rw [hbegin, objectSize]
      omega
    refine (objectLoop_sound laws hbody hnone (by rw [hbegin]; trivial) hsize).mono ?_
    rw [hbegin]
    rintro _ rfl
    refine ⟨.emptyObject (leadingWs inner), rest, rfl, ?_, .nil _, hstands⟩
    rw [Value.render, List.append_assoc, List.singleton_append, List.cons_append, ← hrest,
      leadingWs_append_skipWs]
  · push Not at hempty
    have hle := length_skipWs_le inner
    obtain ⟨f, st', key, colon, text, hbegin, hlocation, htext, hfield⟩ | ⟨st', hbegin⟩ :=
      yieldsField_or_fails (hopens.first hempty)
    · have hreached : Reached handles inner acc (S.keyLocation f) acc :=
        ⟨[], _, .nil (leadingWs inner), by rw [hlocation, leadingWs_append_skipWs], .nil acc⟩
      have hstep : ObjectStep object limit handles inner acc (S.objectBegin object st) acc := by
        rw [hbegin]
        exact ⟨key, colon, text, hlocation.trans htext, hopens.depth_eq.symm ▸ hfield,
          by rw [hlocation]; omega, hreached⟩
      have hsize : objectSize (S.objectBegin object st) < fuel := by
        rw [hbegin, objectSize, hlocation]
        omega
      refine (objectLoop_sound laws hbody hnone hstep hsize).mono ?_
      rw [hbegin]
      rintro reached ⟨members, rest, hmembers, hfolds, hend⟩
      rw [hlocation] at hmembers
      rw [hopens.depth_eq] at hend
      refine ⟨.object (leadingWs inner) members, rest, rfl, ?_, hfolds, hend⟩
      calc 0x7b :: inner = 0x7b :: ((leadingWs inner).1 ++ skipWs inner) := by
            rw [leadingWs_append_skipWs]
        _ = _ := by simp [hmembers, Value.render]
    · have hsize : objectSize (S.objectBegin object st) < fuel := by
        rw [hbegin, objectSize]
        omega
      refine (objectLoop_sound laws hbody hnone (by rw [hbegin]; trivial) hsize).mono ?_
      rw [hbegin]
      exact fun _ h => h.elim

/-- The body accepts every field it is meant to handle. -/
def AcceptsField (object : S.Object) (limit : ℕ)
    (handles : StringLiteral × Json.Value → β → β → Prop)
    (body : Option S.Field → β → S.State → Except ε (β × S.State)) : Prop :=
  ∀ f acc acc' st key (w : Json.Value) rest,
    S.FieldAt f key (w.render ++ rest) (S.objectDepth object + 1) st →
    (w.render ++ rest).length ≤ limit → Delimited rest → handles (key, w) acc acc' →
    ∃ st', body (some f) acc st = .ok (acc', st') ∧
      S.Stands st' (skipWs rest) (S.objectDepth object)

theorem objectLoop_complete (laws : S.Lawful) (hbody : AcceptsField object limit handles body) :
    ∀ (members : Members) {rest : Bytes} {step : Step S.State S.Field} {acc result : β} {fuel : ℕ},
      S.StepsToField step (members.render ++ 0x7d :: rest) (S.objectDepth object + 1) →
      (members.render ++ 0x7d :: rest).length ≤ limit →
      (members.render ++ 0x7d :: rest).length + 1 < fuel →
      Folds handles members.fields acc result →
      ∃ st', forEach (S.objectNext object) body stuck fuel step acc = .ok (result, st') ∧
        S.Stands st' (skipWs rest) (S.objectDepth object - 1)
  | .last key colon before w after, rest, step, acc, result, fuel, hstep, hlimit, hfuel,
      hfolds => by
      obtain ⟨f, st, rfl, -, hfield⟩ := hstep.field key colon
        (before.1 ++ (w.render ++ (after.1 ++ 0x7d :: rest))) (by simp [Members.render])
      obtain _ | ⟨hhandles, _ | _⟩ := hfolds
      rw [skipWs_append, w.skipWs_render] at hfield
      have hclose : skipWs (after.1 ++ 0x7d :: rest) = 0x7d :: rest :=
        skipWs_ws_cons after (by decide) rest
      simp only [Members.render, List.length_append, List.length_cons] at hlimit
      obtain ⟨st', hok, hlocation', hdepth'⟩ := hbody f _ _ st key w _ hfield
        (by simp only [List.length_append, List.length_cons]; omega)
        (delimited_ws_append after (delimited_cons (by decide) rest)) hhandles
      obtain ⟨st'', hnext, hstands⟩ := laws.objectNext_close hdepth' (hlocation'.trans hclose)
      obtain ⟨fuel, rfl⟩ : ∃ n, fuel = n + 2 := ⟨fuel - 2, by omega⟩
      refine ⟨st'', ?_, hstands⟩
      rw [forEach_yielded hok, hnext]
      rfl
  | .cons key colon before w after between members, rest, step, acc, result, fuel, hstep, hlimit,
      hfuel, hfolds => by
      obtain ⟨f, st, rfl, -, hfield⟩ := hstep.field key colon (before.1 ++ (w.render ++
        (after.1 ++ 0x2c :: (between.1 ++ (members.render ++ 0x7d :: rest)))))
        (by simp [Members.render])
      obtain _ | ⟨hhandles, hfolds⟩ := hfolds
      rw [skipWs_append, w.skipWs_render] at hfield
      have hmembers : skipWs (between.1 ++ (members.render ++ 0x7d :: rest)) =
          members.render ++ 0x7d :: rest := by
        obtain ⟨tail, hhead⟩ := members.exists_head
        rw [hhead]
        exact skipWs_ws_cons between (by decide) _
      have hcomma : skipWs (after.1 ++ 0x2c :: (between.1 ++ (members.render ++ 0x7d :: rest))) =
          0x2c :: (between.1 ++ (members.render ++ 0x7d :: rest)) :=
        skipWs_ws_cons after (by decide) _
      simp only [Members.render, List.length_append, List.length_cons] at hlimit hfuel
      obtain ⟨st', hok, hlocation', hdepth'⟩ := hbody f _ _ st key w _ hfield
        (by simp only [List.length_append, List.length_cons]; omega)
        (delimited_ws_append after (delimited_cons (by decide) _)) hhandles
      have hnext := laws.objectNext_comma hdepth' (hlocation'.trans hcomma)
      rw [hmembers] at hnext
      obtain ⟨fuel, rfl⟩ : ∃ n, fuel = n + 1 := ⟨fuel - 1, by omega⟩
      have hmore : (members.render ++ 0x7d :: rest).length + 1 < fuel := by
        simp only [List.length_append, List.length_cons]
        omega
      obtain ⟨st'', hloop, hstands⟩ := objectLoop_complete laws hbody members hnext
        (by simp only [List.length_append, List.length_cons]; omega) hmore hfolds
      exact ⟨st'', by rw [forEach_yielded hok, hloop], hstands⟩

/-- The loop accepts an object whose fields its body accepts. -/
theorem readsObject_complete (laws : S.Lawful) (stuck : ε)
    (hbody : AcceptsField object limit handles body)
    {inner rest : Bytes} {depth : ℕ} {st : S.State} {acc result : β} {w : Json.Value}
    (hopens : S.OpensObject object inner depth st) (hlimit : inner.length ≤ limit)
    (hfuel : limit + 1 < fuel) (hw : w.isObject) (hinner : 0x7b :: inner = w.render ++ rest)
    (hfolds : Folds handles w.fields acc result) :
    ∃ st', forEach (S.objectNext object) body stuck fuel (S.objectBegin object st) acc =
        .ok (result, st') ∧ S.Stands st' (skipWs rest) (depth - 1) := by
  cases w with
  | emptyObject between =>
      obtain rfl : inner = between.1 ++ 0x7d :: rest := by simpa [Value.render] using hinner
      obtain ⟨st', hbegin, hstands⟩ := hopens.empty (skipWs_ws_cons between (by decide) rest)
      cases hfolds
      obtain ⟨fuel, rfl⟩ : ∃ n, fuel = n + 1 := ⟨fuel - 1, by omega⟩
      exact ⟨st', by rw [hbegin]; rfl, hstands⟩
  | object before members =>
      obtain rfl : inner = before.1 ++ (members.render ++ 0x7d :: rest) := by
        simpa [Value.render] using hinner
      obtain ⟨tail, hhead⟩ := members.exists_head
      have hmembers : skipWs (before.1 ++ (members.render ++ 0x7d :: rest)) =
          members.render ++ 0x7d :: rest := by
        rw [hhead]
        exact skipWs_ws_cons before (by decide) _
      have hfirst := hopens.first (by
        rw [hmembers, hhead]
        rintro rest h
        exact absurd (List.cons.inj h).1 (by decide))
      rw [hmembers, ← hopens.depth_eq] at hfirst
      rw [List.length_append] at hlimit
      rw [← hopens.depth_eq]
      exact objectLoop_complete laws hbody members hfirst (by omega) (by omega) hfolds
  | null | bool | number | string | emptyArray | array => simp [Value.isObject] at hw

end Objects

end Leta.Ondemand
