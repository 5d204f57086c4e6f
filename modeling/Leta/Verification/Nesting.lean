import Leta.Http.ParserLogs
import Leta.Json.Unambiguity
import Leta.Ondemand.Reference
import Leta.Verification.DocumentParser

/-! # How deep validation goes

`validateValue` and the two functions it recurses through: how many activations there are at
once, at which depths arrays and objects are opened, and which values are accepted. -/

namespace Leta

open Json Ondemand Logged

variable {S : Ondemand} {fuel : ℕ}

/-! ## Activations under way -/

/-- What may be logged while `active` activations of `validateValue` are under way. -/
def FitsNesting (active : ℕ) : LogEntry → Prop
  | .opened depth => depth = active ∧ depth ≤ maxNestingDepth
  | _ => active ≤ maxNestingDepth + 1

/-- A log of whole activations, `active` of them being under way around it. -/
def StaysShallow (active : ℕ) (events : List LogEntry) : Prop :=
  Nests .entered .left FitsNesting active events

theorem StaysShallow.append {active : ℕ} {events later : List LogEntry}
    (h : StaysShallow active events) (h' : StaysShallow active later) :
    StaysShallow active (events ++ later) := Nests.append h h'

theorem staysShallow_read {active : ℕ} (h : active ≤ maxNestingDepth + 1) (token : Token) :
    StaysShallow active [.read token] := .single (by simp) (by simp) h

theorem staysShallow_opened {active : ℕ} (h : active ≤ maxNestingDepth) :
    StaysShallow active [.opened active] := .single (by simp) (by simp) ⟨rfl, h⟩

/-- Whatever the cursor does, at every value and state. -/
def ValidatesShallow (S : Ondemand) (active : ℕ)
    (validate : S.Value → S.State → Logged LogEntry Error S.State) : Prop :=
  ∀ value st, StaysShallow active (validate value st).events

theorem isNullLogged_shallow {active : ℕ} (h : active ≤ maxNestingDepth + 1) (value : S.Value)
    (error : Error) (st : S.State) :
    StaysShallow active (isNullLogged S value error st).events := by
  rw [isNullLogged]
  split
  · exact staysShallow_read h _
  · exact .nil
  · exact .nil

theorem readsAsScalarLogged_shallow {active : ℕ} (h : active ≤ maxNestingDepth + 1)
    (type : JsonType) :
    ValidatesShallow S active fun value => readsAsScalarLogged S value type := by
  intro value st
  cases type with
  | number => exact staysShallow_read h _
  | string =>
      apply events_bind .append
      · exact staysShallow_read h _
      · exact fun _ => .nil
  | boolean =>
      apply events_bind .append
      · exact staysShallow_read h _
      · exact fun _ => .nil
  | null =>
      apply events_bind .append
      · exact isNullLogged_shallow h value notJson st
      · rintro ⟨_ | _, st'⟩
        · exact .nil
        · exact .nil
  | array | object | unknown => exact .nil

theorem validateArrayLogged_shallow {active : ℕ} (h : active ≤ maxNestingDepth)
    {validate : S.Value → S.State → Logged LogEntry Error S.State}
    (hvalidate : ValidatesShallow S active validate) :
    ValidatesShallow S active (validateArrayLogged S fuel active validate) := by
  intro value st
  apply events_bind .append
  · exact staysShallow_opened h
  · rintro ⟨array, st'⟩
    apply events_bind .append
    · apply forEach_events .nil .append
      intro item acc st₁
      apply events_bind .append
      · exact .nil
      · intro element
        apply events_bind .append
        · exact hvalidate element st₁
        · exact fun _ => .nil
    · exact fun _ => .nil

theorem validateObjectLogged_shallow {active : ℕ} (h : active ≤ maxNestingDepth)
    {validate : S.Value → S.State → Logged LogEntry Error S.State}
    (hvalidate : ValidatesShallow S active validate) :
    ValidatesShallow S active (validateObjectLogged S fuel active validate) := by
  intro value st
  apply events_bind .append
  · exact staysShallow_opened h
  · rintro ⟨object, st'⟩
    apply events_bind .append
    · apply forEach_events .nil .append
      intro item acc st₁
      apply events_bind .append
      · exact .nil
      · intro field
        apply events_bind .append
        · exact staysShallow_read (by omega) _
        · rintro ⟨key, st₂⟩
          apply events_bind .append
          · exact hvalidate (S.fieldValue field) st₂
          · exact fun _ => .nil
    · exact fun _ => .nil

/-- The depth counts the activations. By induction on the levels left above the bound. -/
theorem validateValueLogged_shallow (active : ℕ) (h : active ≤ maxNestingDepth) :
    ValidatesShallow S active fun value => validateValueLogged S fuel value (active + 1) := by
  induction hlevels : maxNestingDepth - active generalizing active with
  | zero =>
      intro value st
      have hdeep : active + 1 > maxNestingDepth := by omega
      dsimp only
      rw [validateValueLogged, if_pos hdeep]
      have hentered : FitsNesting active .entered := Nat.le_succ_of_le h
      have hleft : FitsNesting (active + 1) .left := Nat.succ_le_succ h
      exact .between (by simp) hentered .nil hleft
  | succ levels ih =>
      intro value st
      have hshallow : ¬ active + 1 > maxNestingDepth := by omega
      have hnested := ih (active + 1) (by omega) (by omega)
      dsimp only
      rw [validateValueLogged, if_neg hshallow]
      have hentered : FitsNesting active .entered := Nat.le_succ_of_le h
      have hleft : FitsNesting (active + 1) .left := Nat.succ_le_succ h
      refine .between (by simp) hentered ?_ hleft
      apply events_bind .append
      · exact .nil
      · intro type
        split_ifs
        · exact validateArrayLogged_shallow (by omega) hnested value st
        · exact validateObjectLogged_shallow (by omega) hnested value st
        · exact readsAsScalarLogged_shallow (by omega) type value st

/-! ## The batch of documents -/

theorem readSearchableTextLogged_shallow (object : S.Object) (st : S.State) :
    StaysShallow 0 (readSearchableTextLogged S fuel object st).events := by
  apply forEach_events .nil .append
  intro item acc st₁
  apply events_bind .append
  · exact .nil
  · intro field
    apply events_bind .append
    · exact staysShallow_read (by omega) _
    · rintro ⟨key, st₂⟩
      apply events_bind .append
      · exact .nil
      · intro type
        dsimp only
        split_ifs
        · apply events_bind .append
          · exact validateValueLogged_shallow 0 (Nat.zero_le _) (S.fieldValue field) st₂
          · exact fun _ => .nil
        · apply events_bind .append
          · exact staysShallow_read (by omega) _
          · exact fun _ => .nil

theorem readDocumentLogged_shallow (element : S.Value) (index : ℕ) (st : S.State) :
    StaysShallow 0 (readDocumentLogged S fuel element index st).events := by
  apply events_bind .append .nil
  rintro ⟨object, st₁⟩
  apply events_bind .append .nil
  rintro ⟨source, st₂⟩
  apply events_bind .append .nil
  rintro ⟨hasFields, st₃⟩
  apply events_bind .append
  · exact readSearchableTextLogged_shallow object st₃
  · exact fun _ => .nil

theorem readDocumentsLogged_shallow (array : S.Array) (st : S.State) :
    StaysShallow 0 (readDocumentsLogged S fuel array st).events := by
  apply events_bind .append
  · apply forEach_events .nil .append
    intro item documents st₁
    dsimp only
    split_ifs
    · exact .nil
    · apply events_bind .append .nil
      intro element
      apply events_bind .append
      · exact readDocumentLogged_shallow element documents.length st₁
      · exact fun _ => .nil
  · rintro ⟨documents, st₁⟩
    dsimp only
    split_ifs
    · exact .nil
    · exact .nil

theorem parseDocumentBatchLogged_shallow (S : Ondemand) (body : Bytes) :
    StaysShallow 0 (parseDocumentBatchLogged S body).events := by
  apply events_bind .append .nil
  intro st
  apply events_bind .append .nil
  rintro ⟨array, st₁⟩
  apply events_bind .append
  · exact readDocumentsLogged_shallow array st₁
  · rintro ⟨documents, st₂⟩
    dsimp only
    split_ifs
    · exact .nil
    · exact .nil

/-- Every activation returns, at no time are there more than 129, and an array or object is
opened at the depth of the activations that led to it, which is 128 at most. -/
structure NestingBounded (events : List LogEntry) : Prop where
  returned : events.count .entered = events.count .left
  active : ∀ before, before <+: events → before.count .entered ≤ before.count .left + 129
  opened : ∀ before depth after, events = before ++ .opened depth :: after →
    depth ≤ 128 ∧ before.count .entered = before.count .left + depth

theorem StaysShallow.nestingBounded {events : List LogEntry} (h : StaysShallow 0 events) :
    NestingBounded events where
  returned := h.balanced
  active before hbefore := by
    obtain ⟨_ | ⟨event, after⟩, rfl⟩ := hbefore
    · have hbalanced := h.balanced
      rw [List.append_nil] at hbalanced
      omega
    · obtain ⟨current, hcurrent, hfits⟩ := h.fits_each before event after rfl
      have hle : current ≤ maxNestingDepth + 1 := by
        cases event with
        | opened depth => exact hfits.1 ▸ Nat.le_succ_of_le hfits.2
        | read token => exact hfits
        | entered => exact hfits
        | left => exact hfits
      have hbound : maxNestingDepth = 128 := rfl
      omega
  opened before depth after heq := by
    obtain ⟨current, hcurrent, rfl, hle⟩ := h.fits_each before _ after heq
    exact ⟨hle, by omega⟩

/-! ## Which values are accepted -/

theorem IsMalformed.ne_outOfFuel {e : Error} (h : IsMalformed e) : e ≠ outOfFuel := by
  rintro rfl
  exact absurd h.code (by decide)

theorem endsScalar_of_delimited {rest : Bytes} (h : Delimited rest) : EndsScalar rest := by
  obtain ⟨b, tail, rfl, hb⟩ := h
  exact endsScalar_cons hb tail

/-- A value that is accepted is the value that stands there, read to its end. A number has
to be read up to the delimiter for that. -/
theorem passes_of_validateValue (laws : S.Lawful) (numbers : S.ReadsWholeNumbers)
    {value : S.Value} {depth : ℕ} {st st' : S.State} {v : Json.Value} {rest : Bytes}
    (hat : S.At value st) (hfuel : (S.location st).length + 1 < fuel)
    (hlocation : S.location st = v.render ++ rest) (hrest : EndsAt v rest)
    (h : validateValue S fuel value depth st = .ok st') :
    Acceptable depth v ∧ S.Stands st' (skipWs rest) (S.depth st - 1) := by
  by_cases hnumber : v.shape = .number
  · have hv := v.shape_has
    rw [hnumber] at hv
    obtain ⟨n, rfl⟩ := hv
    have htype := laws.type_complete hat (hlocation ▸ announcedType_render (.number n) rest)
    rw [validateValue] at h
    by_cases hdeep : depth > maxNestingDepth
    · simp [hdeep] at h
    · rw [if_neg hdeep, htype] at h
      change succeeds (S.getDouble value st) notJson = .ok st' at h
      have hget : S.getDouble value st = some st' := by
        cases hread : S.getDouble value st with
        | none => simp [hread, succeeds] at h
        | some st₁ => simpa [hread, succeeds] using h
      obtain ⟨m, rest', hm, hends, hrange, hstands⟩ := numbers hat hget
      obtain ⟨rfl, rfl⟩ := NumberLiteral.append_inj (endsScalar_of_delimited hrest) hends
        (hlocation.symm.trans hm)
      exact ⟨⟨hrange, not_lt.mp hdeep⟩, hstands⟩
  · obtain ⟨w, ⟨rest', hw, hstands⟩, haccept⟩ :=
      (validateValue_sound laws hfuel depth value st hat le_rfl).ok_of_eq h
    obtain ⟨rfl, rfl⟩ := Value.render_append_inj v w (fun h => absurd h hnumber)
      (hlocation.symm.trans hw)
    exact ⟨haccept, hstands⟩

theorem validateValue_ok_iff (laws : S.Lawful) (numbers : S.ReadsWholeNumbers)
    {value : S.Value} (depth : ℕ) {st : S.State} {v : Json.Value} {rest : Bytes}
    (hat : S.At value st) (hfuel : (S.location st).length + 1 < fuel)
    (hlocation : S.location st = v.render ++ rest) (hrest : EndsAt v rest) :
    (∃ st', validateValue S fuel value depth st = .ok st') ↔
      v.Readable ∧ depth + v.height ≤ 128 := by
  constructor
  · rintro ⟨st', h⟩
    exact (passes_of_validateValue laws numbers hat hfuel hlocation hrest h).1
  · intro haccept
    obtain ⟨st', hok, -⟩ := validateValue_of_nested laws hfuel
      (validateValue_complete laws hfuel (depth + 1)) hat le_rfl hlocation hrest haccept
    exact ⟨st', hok⟩

/-- The recursion on every body, and on every value it is entered with. -/
theorem validation_nesting (S : Ondemand) :
    (∀ body, (parseDocumentBatchLogged S body).result = parseDocumentBatch S body ∧
      NestingBounded (parseDocumentBatchLogged S body).events) ∧
    (S.Lawful → ∀ body, parseDocumentBatch S body ≠ .error outOfFuel) ∧
    (S.Lawful → S.ReadsWholeNumbers → ∀ fuel value depth st, S.At value st →
      (S.location st).length + 1 < fuel →
      validateValue S fuel value depth st ≠ .error outOfFuel ∧
      ∀ (v : Json.Value) (rest : Bytes), S.location st = v.render ++ rest → EndsAt v rest →
        ((∃ st', validateValue S fuel value depth st = .ok st') ↔
          v.Readable ∧ depth + v.height ≤ 128) ∧
        ∀ st', validateValue S fuel value depth st = .ok st' →
          S.Stands st' (skipWs rest) (S.depth st - 1)) := by
  refine ⟨fun body => ?_, fun laws body h => ?_, ?_⟩
  · exact ⟨result_parseDocumentBatchLogged S body,
      (parseDocumentBatchLogged_shallow S body).nestingBounded⟩
  · exact (parseDocumentBatch_eq_error laws h).ne_outOfFuel rfl
  · intro laws numbers fuel value depth st hat hfuel
    refine ⟨fun h => ?_, fun v rest hlocation hrest => ⟨?_, fun st' h => ?_⟩⟩
    · have hmalformed : IsMalformed outOfFuel :=
        (validateValue_sound laws hfuel depth value st hat le_rfl).error_of_eq h
      exact hmalformed.ne_outOfFuel rfl
    · exact validateValue_ok_iff laws numbers depth hat hfuel hlocation hrest
    · exact (passes_of_validateValue laws numbers hat hfuel hlocation hrest h).2

/-- An empty array at the last level there is, and one below it. -/
theorem validation_nesting_reference :
    (∃ st, validateValue reference 6 (ascii "[],]", 4) 128 (ascii "[],]", 4) = .ok st) ∧
    ¬ ∃ st, validateValue reference 6 (ascii "[],]", 4) 129 (ascii "[],]", 4) = .ok st := by
  have hvalue := fun depth => ((validation_nesting reference).2.2 reference_lawful
    reference_readsWholeNumbers 6 (ascii "[],]", 4) depth (ascii "[],]", 4) rfl (by decide)).2
    (.emptyArray Ws.none) (ascii ",]") rfl trivial
  constructor
  · exact (hvalue 128).1.mpr ⟨trivial, le_rfl⟩
  · exact fun h => absurd ((hvalue 129).1.mp h).2 (by decide)

end Leta
