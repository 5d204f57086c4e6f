import Leta.Foundation.Logged
import Leta.Json.Tokens
import Leta.Ondemand.Loops

/-! # What a parser reads of a text

The log of a parser, and what range-based loops add to it: a loop that succeeds has read
every token of its array or object in order, and one that fails the tokens up to some place. -/

namespace Leta.Ondemand

open Json

/-- An entry of a parser's log. -/
inductive LogEntry where
  /-- A call that reads a key or a scalar. -/
  | read (token : Token)
  /-- A call that opens an array or object at this depth. -/
  | opened (depth : ℕ)
  /-- A function that recurses is entered, or left. -/
  | entered
  | left
  deriving DecidableEq

def LogEntry.token? : LogEntry → Option Token
  | .read token => some token
  | _ => none

def reads (events : List LogEntry) : List Token := events.filterMap LogEntry.token?

@[simp] theorem reads_nil : reads [] = [] := rfl

@[simp] theorem reads_append (events later : List LogEntry) :
    reads (events ++ later) = reads events ++ reads later := List.filterMap_append

@[simp] theorem reads_read (token : Token) (events : List LogEntry) :
    reads (.read token :: events) = token :: reads events := rfl

@[simp] theorem reads_opened (depth : ℕ) (events : List LogEntry) :
    reads (.opened depth :: events) = reads events := rfl

@[simp] theorem reads_entered (events : List LogEntry) :
    reads (.entered :: events) = reads events := rfl

@[simp] theorem reads_left (events : List LogEntry) : reads (.left :: events) = reads events := rfl

variable {S : Ondemand} {β ε : Type} {stuck : ε} {limit fuel : ℕ}

/-- The tokens read are those of a value at the start of the text, and the cursor has passed it. -/
def ReadsValue (S : Ondemand) (text : Bytes) (depth : ℕ) (events : List LogEntry) (st : S.State) :
    Prop :=
  ∃ (w : Json.Value) (rest : Bytes), text = w.render ++ rest ∧ reads events = w.tokens rest ∧
    S.Stands st (skipWs rest) depth

/-- The tokens read stand in the text one behind the other. -/
def ReadsSome (text : Bytes) (events : List LogEntry) : Prop := Descends text (reads events) []

theorem readsSome_of_nil {text : Bytes} {events : List LogEntry} (h : reads events = []) :
    ReadsSome text events := by
  rw [ReadsSome, h]
  exact List.nil_suffix

theorem ReadsSome.of_suffix {text text' : Bytes} {events : List LogEntry}
    (h : ReadsSome text events) (htext : text <:+ text') : ReadsSome text' events :=
  Descends.of_suffix h htext

theorem ReadsValue.of_read {text : Bytes} {depth : ℕ} {events events' : List LogEntry}
    {st : S.State} (h : ReadsValue S text depth events st) (hreads : reads events' = reads events) :
    ReadsValue S text depth events' st := by
  rwa [ReadsValue, hreads]

theorem ReadsSome.of_read {text : Bytes} {events events' : List LogEntry}
    (h : ReadsSome text events) (hreads : reads events' = reads events) :
    ReadsSome text events' := by
  rwa [ReadsSome, hreads]

theorem ReadsValue.readsSome {text : Bytes} {depth : ℕ} {events : List LogEntry} {st : S.State}
    (h : ReadsValue S text depth events st) : ReadsSome text events := by
  obtain ⟨w, rest, rfl, hreads, -⟩ := h
  rw [ReadsSome, hreads]
  exact (w.descends rest).to_suffix List.nil_suffix

/-- A value has been read, and then some tokens behind it. -/
theorem ReadsSome.behind {w : Json.Value} {rest text : Bytes} {events later : List LogEntry}
    (hreads : reads events = w.tokens rest) (htext : text <:+ rest) (h : ReadsSome text later) :
    ReadsSome (w.render ++ rest) (events ++ later) := by
  rw [ReadsSome, reads_append, hreads]
  exact (w.descends rest).append (h.of_suffix htext)

/-! ## Arrays -/

section Arrays

variable {array : S.Array} {body : Option S.Value → β → S.State → Logged LogEntry ε (β × S.State)}

/-- What a loop that succeeds logs from a step on. -/
def ArrayLogged (array : S.Array) : Step S.State S.Value → List LogEntry → β × S.State → Prop
  | .finished st, events, reached => reads events = [] ∧ reached.2 = st
  | .yielded none _, _, _ => False
  | .yielded (some _) st, events, reached => ∃ (items : Items) (rest : Bytes),
      S.location st = items.render ++ 0x5d :: rest ∧ reads events = items.tokens (0x5d :: rest) ∧
        S.Stands reached.2 (skipWs rest) (S.arrayDepth array - 1)

/-- What a loop that fails logs from a step on. -/
def ArrayFailed : Step S.State S.Value → List LogEntry → Prop
  | .yielded (some _) st, events => ReadsSome (S.location st) events
  | _, events => reads events = []

/-- The body reads one value. -/
def LogsElement (array : S.Array) (limit : ℕ)
    (body : Option S.Value → β → S.State → Logged LogEntry ε (β × S.State)) : Prop :=
  ∀ v acc st, S.At v st → S.depth st = S.arrayDepth array + 1 → (S.location st).length ≤ limit →
    Logged.Post
      (fun events reached => ReadsValue S (S.location st) (S.arrayDepth array) events reached.2)
      (fun events _ => ReadsSome (S.location st) events) (body (some v) acc st)

/-- The body reads nothing where the range has failed. -/
def LogsNothing {Item : Type} (body : Option Item → β → S.State → Logged LogEntry ε (β × S.State)) :
    Prop :=
  ∀ acc st, Logged.Post (fun _ _ => False) (fun events _ => reads events = []) (body none acc st)

theorem arrayLogged_step (laws : S.Lawful) {v : S.Value} {st : S.State} {events : List LogEntry}
    {reached : β × S.State} (hlimit : (S.location st).length ≤ limit)
    (h : ReadsValue S (S.location st) (S.arrayDepth array) events reached.2) :
    ArrayStep array limit (S.arrayNext array reached.2) ∧
      arraySize (S.arrayNext array reached.2) < arraySize (.yielded (some v) st) ∧
      (∀ later (result : β × S.State),
        ArrayLogged array (S.arrayNext array reached.2) later result →
        ArrayLogged array (.yielded (some v) st) (events ++ later) result) ∧
      ∀ later (_ : ε), ArrayFailed (S.arrayNext array reached.2) later →
        ArrayFailed (S := S) (.yielded (some v) st) (events ++ later) := by
  obtain ⟨w, rest, hw, hreads, hstands⟩ := h
  have hpos : 0 < w.render.length := by
    obtain ⟨b, tail, hhead, -⟩ := w.exists_head
    simp [hhead]
  obtain ⟨after, before, next, v', st', rfl, hstep, ⟨hlocation, hdepth⟩, hat⟩ |
      ⟨after, rest', st', rfl, hstep, hstands'⟩ | ⟨st', hstep⟩ := arrayNext_cases laws hstands
  · have hlength : next.length < (S.location st).length := by
      simp only [hw, List.length_append, List.length_cons]
      omega
    rw [hstep]
    refine ⟨⟨hat, hdepth, by rw [hlocation]; omega⟩, ?_, ?_, ?_⟩
    · simp only [arraySize, hlocation]
      omega
    · rintro later result ⟨items, rest', hitems, htokens, hend⟩
      rw [hlocation] at hitems
      refine ⟨.cons w after before items, rest', ?_, ?_, hend⟩
      · simp [hw, hitems, Items.render]
      · rw [reads_append, hreads, htokens, hitems, Items.tokens]
    · intro later _ hlater
      rw [ArrayFailed, hlocation] at hlater
      rw [ArrayFailed, hw]
      exact .behind hreads ⟨after.1 ++ 0x2c :: before.1, by simp⟩ hlater
  · rw [hstep]
    refine ⟨trivial, by simp [arraySize], ?_, ?_⟩
    · rintro later result ⟨hlater, rfl⟩
      refine ⟨.last w after, rest', by simp [hw, Items.render], ?_, hstands'⟩
      rw [reads_append, hreads, hlater, List.append_nil, Items.tokens]
    · intro later _ hlater
      rw [ArrayFailed, hw]
      exact .behind hreads List.suffix_rfl (readsSome_of_nil hlater)
  · rw [hstep]
    refine ⟨trivial, ?_, fun _ _ h => h.elim, ?_⟩
    · simp only [arraySize, hw, List.length_append]
      omega
    · intro later _ hlater
      rw [ArrayFailed, hw]
      exact .behind hreads List.suffix_rfl (readsSome_of_nil hlater)

theorem arrayLogged (laws : S.Lawful) (hbody : LogsElement array limit body)
    (hnone : LogsNothing body) {step : Step S.State S.Value} {acc : β}
    (hstep : ArrayStep array limit step) (hsize : arraySize step < fuel) :
    Logged.Post (ArrayLogged array step) (fun events _ => ArrayFailed step events)
      (Logged.forEach (S.arrayNext array) body stuck fuel step acc) := by
  refine Logged.forEach_post (P := fun step _ => ArrayStep array limit step)
    (Q := fun step events _ => ArrayFailed step events) arraySize ?_ ?_ fuel step acc hsize hstep
  · exact fun _ _ => ⟨rfl, rfl⟩
  · intro item st acc hpre
    cases item with
    | none => exact (hnone acc st).mono (fun _ _ h => h.elim) fun _ _ h => h
    | some v =>
        obtain ⟨hat, hdepth, hlimit⟩ := hpre
        exact (hbody v acc st hat hdepth hlimit).mono
          (fun _ _ h => arrayLogged_step laws hlimit h) fun _ _ h => h

/-- A loop over an array reads the array's tokens, or some of them. -/
theorem logsArray (laws : S.Lawful) (hbody : LogsElement array limit body)
    (hnone : LogsNothing body) {inner : Bytes} {depth : ℕ} {st : S.State} {acc : β}
    (hopens : S.OpensArray array inner depth st) (hlimit : inner.length ≤ limit)
    (hfuel : limit + 1 < fuel) :
    Logged.Post (fun events reached => ReadsValue S (0x5b :: inner) (depth - 1) events reached.2)
      (fun events _ => ReadsSome (0x5b :: inner) events)
      (Logged.forEach (S.arrayNext array) body stuck fuel (S.arrayBegin array st) acc) := by
  by_cases hempty : ∃ rest, skipWs inner = 0x5d :: rest
  · obtain ⟨rest, hrest⟩ := hempty
    obtain ⟨st', hbegin, hstands⟩ := hopens.empty hrest
    have hsize : arraySize (S.arrayBegin array st) < fuel := by
      rw [hbegin, arraySize]
      omega
    refine (arrayLogged laws hbody hnone (by rw [hbegin]; trivial) hsize).mono ?_ ?_ <;> rw [hbegin]
    · rintro events reached ⟨hreads, rfl⟩
      refine ⟨.emptyArray (leadingWs inner), rest, ?_, hreads, hstands⟩
      rw [Value.render, List.append_assoc, List.singleton_append, List.cons_append, ← hrest,
        leadingWs_append_skipWs]
    · exact fun _ _ h => readsSome_of_nil h
  · push Not at hempty
    obtain ⟨v, st', hbegin, ⟨hlocation, hdepth⟩, hat⟩ := hopens.first hempty
    have hle := length_skipWs_le inner
    have hinner : 0x5b :: inner = 0x5b :: ((leadingWs inner).1 ++ S.location st') := by
      rw [hlocation, leadingWs_append_skipWs]
    have hpre : ArrayStep array limit (S.arrayBegin array st) := by
      rw [hbegin]
      exact ⟨hat, by rw [hdepth, hopens.depth_eq], by rw [hlocation]; omega⟩
    have hsize : arraySize (S.arrayBegin array st) < fuel := by
      rw [hbegin, arraySize, hlocation]
      omega
    refine (arrayLogged laws hbody hnone hpre hsize).mono ?_ ?_ <;> rw [hbegin]
    · rintro events reached ⟨items, rest, hitems, hreads, hend⟩
      rw [hopens.depth_eq] at hend
      refine ⟨.array (leadingWs inner) items, rest, ?_, hreads, hend⟩
      rw [hinner, hitems]
      simp [Value.render]
    · intro events _ h
      exact ReadsSome.of_suffix h ⟨0x5b :: (leadingWs inner).1, by rw [hinner]; rfl⟩

end Arrays

/-! ## Objects -/

section Objects

variable {object : S.Object} {body : Option S.Field → β → S.State → Logged LogEntry ε (β × S.State)}

/-- A step of an object's loop that logs, with at most `limit` bytes left. -/
def FieldStep (object : S.Object) (limit : ℕ) : Step S.State S.Field → Prop
  | .yielded (some f) st => ∃ (key : StringLiteral) (colon : Ws) (inner : Bytes),
      S.keyLocation f = key.render ++ (colon.1 ++ 0x3a :: inner) ∧
        S.FieldAt f key (skipWs inner) (S.objectDepth object + 1) st ∧
        (S.keyLocation f).length ≤ limit
  | _ => True

/-- What a loop that succeeds logs from a step on. -/
def ObjectLogged (object : S.Object) : Step S.State S.Field → List LogEntry → β × S.State → Prop
  | .finished st, events, reached => reads events = [] ∧ reached.2 = st
  | .yielded none _, _, _ => False
  | .yielded (some f) _, events, reached => ∃ (members : Members) (rest : Bytes),
      S.keyLocation f = members.render ++ 0x7d :: rest ∧
        reads events = members.tokens (0x7d :: rest) ∧
        S.Stands reached.2 (skipWs rest) (S.objectDepth object - 1)

/-- What a loop that fails logs from a step on. -/
def ObjectFailed : Step S.State S.Field → List LogEntry → Prop
  | .yielded (some f) _, events => ReadsSome (S.keyLocation f) events
  | _, events => reads events = []

/-- The field's key has been read, and then its value. -/
def ReadsMember (S : Ondemand) (location text : Bytes) (depth : ℕ) (events : List LogEntry)
    (st : S.State) : Prop :=
  ∃ (w : Json.Value) (rest : Bytes), text = w.render ++ rest ∧
    reads events = .string location :: w.tokens rest ∧ S.Stands st (skipWs rest) depth

/-- The body reads one field. -/
def LogsField (object : S.Object) (limit : ℕ)
    (body : Option S.Field → β → S.State → Logged LogEntry ε (β × S.State)) : Prop :=
  ∀ f acc st key (colon : Ws) inner, S.keyLocation f = key.render ++ (colon.1 ++ 0x3a :: inner) →
    S.FieldAt f key (skipWs inner) (S.objectDepth object + 1) st → inner.length ≤ limit →
    Logged.Post
      (fun events reached => ReadsMember S (S.keyLocation f) (skipWs inner) (S.objectDepth object)
        events reached.2)
      (fun events _ => ReadsSome (S.keyLocation f) events) (body (some f) acc st)

/-- A field has been read, and then some tokens behind it. -/
theorem ReadsSome.behind_field {key : StringLiteral} {lead rest text : Bytes} {w : Json.Value}
    {events later : List LogEntry}
    (hreads : reads events = .string (key.render ++ (lead ++ (w.render ++ rest))) :: w.tokens rest)
    (htext : text <:+ rest) (h : ReadsSome text later) :
    ReadsSome (key.render ++ (lead ++ (w.render ++ rest))) (events ++ later) := by
  rw [ReadsSome, reads_append, hreads]
  exact .behind_key key (List.suffix_append _ _) ((w.descends rest).append (h.of_suffix htext))

theorem objectLogged_step (laws : S.Lawful) {key : StringLiteral} {colon : Ws} {inner : Bytes}
    {f : S.Field} {st : S.State} {events : List LogEntry} {reached : β × S.State}
    (hkey : S.keyLocation f = key.render ++ (colon.1 ++ 0x3a :: inner))
    (hlimit : (S.keyLocation f).length ≤ limit)
    (h : ReadsMember S (S.keyLocation f) (skipWs inner) (S.objectDepth object) events reached.2) :
    FieldStep object limit (S.objectNext object reached.2) ∧
      objectSize (S.objectNext object reached.2) < objectSize (.yielded (some f) st) ∧
      (∀ later (result : β × S.State),
        ObjectLogged object (S.objectNext object reached.2) later result →
        ObjectLogged object (.yielded (some f) st) (events ++ later) result) ∧
      ∀ later (_ : ε), ObjectFailed (S.objectNext object reached.2) later →
        ObjectFailed (S := S) (.yielded (some f) st) (events ++ later) := by
  obtain ⟨w, rest, hw, hreads, hstands⟩ := h
  have htext : S.keyLocation f =
      key.render ++ ((colon.1 ++ 0x3a :: (leadingWs inner).1) ++ (w.render ++ rest)) := by
    conv_lhs => rw [hkey, ← leadingWs_append_skipWs inner, hw]
    simp
  obtain
      ⟨after, before, next, rfl, f', st', key', colon', inner', hstep, hlocation, hnext, hfield⟩ |
      ⟨after, rest', st', rfl, hstep, hstands'⟩ | ⟨st', hstep⟩ := objectNext_cases laws hstands
  · have hlength : next.length < (S.keyLocation f).length := by
      simp only [htext, List.length_append, List.length_cons]
      omega
    rw [hstep]
    refine ⟨⟨key', colon', inner', hlocation.trans hnext, hfield, by rw [hlocation]; omega⟩,
      ?_, ?_, ?_⟩
    · simp only [objectSize, hlocation]
      omega
    · rintro later result ⟨members, rest', hmembers, htokens, hend⟩
      rw [hlocation] at hmembers
      have hrender : S.keyLocation f =
          (Members.cons key colon (leadingWs inner) w after before members).render ++
            0x7d :: rest' := by
        rw [htext, hmembers]
        simp [Members.render]
      refine ⟨.cons key colon (leadingWs inner) w after before members, rest', hrender, ?_, hend⟩
      rw [reads_append, hreads, htokens, hrender, hmembers, Members.tokens]
      rfl
    · intro later _ hlater
      rw [ObjectFailed, hlocation] at hlater
      rw [htext] at hreads
      rw [ObjectFailed, htext]
      exact .behind_field hreads ⟨after.1 ++ 0x2c :: before.1, by simp⟩ hlater
  · rw [hstep]
    refine ⟨trivial, by simp [objectSize], ?_, ?_⟩
    · rintro later result ⟨hlater, rfl⟩
      have hrender : S.keyLocation f =
          (Members.last key colon (leadingWs inner) w after).render ++ 0x7d :: rest' := by
        rw [htext]
        simp [Members.render]
      refine ⟨.last key colon (leadingWs inner) w after, rest', hrender, ?_, hstands'⟩
      rw [reads_append, hreads, hlater, List.append_nil, hrender, Members.tokens]
    · intro later _ hlater
      rw [htext] at hreads
      rw [ObjectFailed, htext]
      exact .behind_field hreads List.suffix_rfl (readsSome_of_nil hlater)
  · rw [hstep]
    refine ⟨trivial, ?_, fun _ _ h => h.elim, ?_⟩
    · simp only [objectSize, htext, List.length_append, List.length_cons]
      omega
    · intro later _ hlater
      rw [htext] at hreads
      rw [ObjectFailed, htext]
      exact .behind_field hreads List.suffix_rfl (readsSome_of_nil hlater)

theorem objectLogged (laws : S.Lawful) (hbody : LogsField object limit body)
    (hnone : LogsNothing body) {step : Step S.State S.Field} {acc : β}
    (hstep : FieldStep object limit step) (hsize : objectSize step < fuel) :
    Logged.Post (ObjectLogged object step) (fun events _ => ObjectFailed step events)
      (Logged.forEach (S.objectNext object) body stuck fuel step acc) := by
  refine Logged.forEach_post (P := fun step _ => FieldStep object limit step)
    (Q := fun step events _ => ObjectFailed step events) objectSize ?_ ?_ fuel step acc hsize hstep
  · exact fun _ _ => ⟨rfl, rfl⟩
  · intro item st acc hpre
    cases item with
    | none => exact (hnone acc st).mono (fun _ _ h => h.elim) fun _ _ h => h
    | some f =>
        obtain ⟨key, colon, inner, hkey, hfield, hlimit⟩ := hpre
        have hinner : inner.length ≤ limit := by
          rw [hkey] at hlimit
          simp only [List.length_append, List.length_cons] at hlimit
          omega
        exact (hbody f acc st key colon inner hkey hfield hinner).mono
          (fun _ _ h => objectLogged_step laws hkey hlimit h) fun _ _ h => h

/-- A loop over an object reads the object's tokens, or some of them. -/
theorem logsObject (laws : S.Lawful) (hbody : LogsField object limit body)
    (hnone : LogsNothing body) {inner : Bytes} {depth : ℕ} {st : S.State} {acc : β}
    (hopens : S.OpensObject object inner depth st) (hlimit : inner.length ≤ limit)
    (hfuel : limit + 1 < fuel) :
    Logged.Post (fun events reached => ReadsValue S (0x7b :: inner) (depth - 1) events reached.2)
      (fun events _ => ReadsSome (0x7b :: inner) events)
      (Logged.forEach (S.objectNext object) body stuck fuel (S.objectBegin object st) acc) := by
  by_cases hempty : ∃ rest, skipWs inner = 0x7d :: rest
  · obtain ⟨rest, hrest⟩ := hempty
    obtain ⟨st', hbegin, hstands⟩ := hopens.empty hrest
    have hsize : objectSize (S.objectBegin object st) < fuel := by
      rw [hbegin, objectSize]
      omega
    refine (objectLogged laws hbody hnone (by rw [hbegin]; trivial) hsize).mono ?_ ?_ <;>
      rw [hbegin]
    · rintro events reached ⟨hreads, rfl⟩
      refine ⟨.emptyObject (leadingWs inner), rest, ?_, hreads, hstands⟩
      rw [Value.render, List.append_assoc, List.singleton_append, List.cons_append, ← hrest,
        leadingWs_append_skipWs]
    · exact fun _ _ h => readsSome_of_nil h
  · push Not at hempty
    have hle := length_skipWs_le inner
    obtain ⟨f, st', key, colon, text, hbegin, hlocation, htext, hfield⟩ | ⟨st', hbegin⟩ :=
      yieldsField_or_fails (hopens.first hempty)
    · have hinner : 0x7b :: inner = 0x7b :: ((leadingWs inner).1 ++ S.keyLocation f) := by
        rw [hlocation, leadingWs_append_skipWs]
      have hstep : FieldStep object limit (S.objectBegin object st) := by
        rw [hbegin]
        exact ⟨key, colon, text, hlocation.trans htext, hopens.depth_eq.symm ▸ hfield,
          by rw [hlocation]; omega⟩
      have hsize : objectSize (S.objectBegin object st) < fuel := by
        rw [hbegin, objectSize, hlocation]
        omega
      refine (objectLogged laws hbody hnone hstep hsize).mono ?_ ?_ <;> rw [hbegin]
      · rintro events reached ⟨members, rest, hmembers, hreads, hend⟩
        rw [hopens.depth_eq] at hend
        refine ⟨.object (leadingWs inner) members, rest, ?_, hreads, hend⟩
        rw [hinner, hmembers]
        simp [Value.render]
      · intro events _ h
        exact ReadsSome.of_suffix h ⟨0x7b :: (leadingWs inner).1, by rw [hinner]; rfl⟩
    · have hsize : objectSize (S.objectBegin object st) < fuel := by
        rw [hbegin, objectSize]
        omega
      refine (objectLogged laws hbody hnone (by rw [hbegin]; trivial) hsize).mono ?_ ?_ <;>
        rw [hbegin]
      · exact fun _ _ h => h.elim
      · exact fun _ _ h => readsSome_of_nil h

end Objects

end Leta.Ondemand
