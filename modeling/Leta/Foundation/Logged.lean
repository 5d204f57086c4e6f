import Leta.Foundation.RangeFor

/-! # Logged computations

A fallible computation that logs events as it goes. A failure ends it and leaves the events
logged so far. -/

namespace Leta

/-- What a computation logged, and how it ended. -/
structure Logged (ι ε α : Type) where
  events : List ι
  result : Except ε α

variable {ι ε α β σ : Type}

namespace Logged

instance : Monad (Logged ι ε) where
  pure a := ⟨[], .ok a⟩
  bind x f :=
    match x.result with
    | .ok a => ⟨x.events ++ (f a).events, (f a).result⟩
    | .error e => ⟨x.events, .error e⟩

/-- A computation that logs nothing. -/
def quiet (x : Except ε α) : Logged ι ε α := ⟨[], x⟩

/-- A computation of which one event is logged, before its end is known. -/
def noted (event : ι) (x : Except ε α) : Logged ι ε α := ⟨[event], x⟩

/-- A computation between an event that opens it and one that closes it, failed or not. -/
def between (opening closing : ι) (x : Logged ι ε α) : Logged ι ε α :=
  ⟨opening :: (x.events ++ [closing]), x.result⟩

/-! ## Without the log -/

@[simp] theorem events_pure (a : α) : (pure a : Logged ι ε α).events = [] := rfl

@[simp] theorem result_pure (a : α) : (pure a : Logged ι ε α).result = pure a := rfl

@[simp] theorem result_bind (x : Logged ι ε α) (f : α → Logged ι ε β) :
    (x >>= f).result = x.result >>= fun a => (f a).result := by
  obtain ⟨events, _ | a⟩ := x <;> rfl

@[simp] theorem result_quiet (x : Except ε α) : (quiet x : Logged ι ε α).result = x := rfl

@[simp] theorem result_noted (event : ι) (x : Except ε α) : (noted event x).result = x := rfl

@[simp] theorem result_between (opening closing : ι) (x : Logged ι ε α) :
    (between opening closing x).result = x.result := rfl

@[simp] theorem result_ite (c : Prop) [Decidable c] (x y : Logged ι ε α) :
    (if c then x else y).result = if c then x.result else y.result := by
  split_ifs <;> rfl

/-- What holds of events put together holds of a sequence, which may end early. -/
theorem events_bind {E : List ι → Prop}
    (append : ∀ {events later}, E events → E later → E (events ++ later))
    {x : Logged ι ε α} {f : α → Logged ι ε β} (hx : E x.events) (hf : ∀ a, E (f a).events) :
    E (x >>= f).events := by
  obtain ⟨events, e | a⟩ := x
  · exact hx
  · exact append hx (hf a)

/-! ## Postconditions -/

/-- A result satisfies `P` with the events before it, an error `Q`. -/
def Post (P : List ι → α → Prop) (Q : List ι → ε → Prop) (x : Logged ι ε α) : Prop :=
  match x.result with
  | .ok a => P x.events a
  | .error e => Q x.events e

namespace Post

variable {P P' : List ι → α → Prop} {Q Q' : List ι → ε → Prop} {x : Logged ι ε α}

theorem mono (h : Post P Q x) (himp : ∀ events a, P events a → P' events a)
    (himp' : ∀ events e, Q events e → Q' events e) : Post P' Q' x := by
  obtain ⟨events, e | a⟩ := x
  · exact himp' events e h
  · exact himp events a h

theorem bind {R : List ι → β → Prop} {Q' : List ι → ε → Prop} {f : α → Logged ι ε β}
    (h : Post P Q x) (he : ∀ events e, Q events e → Q' events e)
    (hf : ∀ events a, P events a →
      Post (fun later b => R (events ++ later) b) (fun later e => Q' (events ++ later) e) (f a)) :
    Post R Q' (x >>= f) := by
  obtain ⟨events, e | a⟩ := x
  · exact he events e h
  · exact hf events a h

theorem between {opening closing : ι}
    (h : Post (fun events a => P (opening :: (events ++ [closing])) a)
      (fun events e => Q (opening :: (events ++ [closing])) e) x) :
    Post P Q (between opening closing x) := h

theorem ok_of_eq {a : α} (h : Post P Q x) (hx : x.result = .ok a) : P x.events a := by
  rwa [Post, hx] at h

end Post

/-- A call that must succeed, and the event that goes with it. -/
theorem post_noted {P : List ι → α → Prop} {Q : List ι → ε → Prop} {event : ι} {outcome : Option α}
    {error : ε} (h : ∀ a, outcome = some a → P [event] a) (he : Q [event] error) :
    Post P Q (noted event (succeeds outcome error)) := by
  cases outcome with
  | some a => exact h a rfl
  | none => exact he

theorem post_noted_bind {R : List ι → β → Prop} {Q : List ι → ε → Prop} {event : ι}
    {outcome : Option α} {error : ε} {f : α → Logged ι ε β}
    (h : ∀ a, outcome = some a →
      Post (fun later b => R (event :: later) b) (fun later e => Q (event :: later) e) (f a))
    (he : Q [event] error) : Post R Q (noted event (succeeds outcome error) >>= f) := by
  cases outcome with
  | some a => exact h a rfl
  | none => exact he

theorem post_quiet_bind {R : List ι → β → Prop} {Q : List ι → ε → Prop} {outcome : Option α}
    {error : ε} {f : α → Logged ι ε β} (h : ∀ a, outcome = some a → Post R Q (f a))
    (he : Q [] error) : Post R Q (quiet (succeeds outcome error) >>= f) := by
  cases outcome with
  | some a => exact h a rfl
  | none => exact he

/-! ## Range-based loops -/

/-- `forEach` with a body that logs. -/
def forEach (next : σ → Step σ α) (body : Option α → β → σ → Logged ι ε (β × σ)) (stuck : ε) :
    ℕ → Step σ α → β → Logged ι ε (β × σ)
  | 0, _, _ => quiet (.error stuck)
  | _ + 1, .finished state, acc => pure (acc, state)
  | fuel + 1, .yielded item state, acc => do
      let (acc, state) ← body item acc state
      forEach next body stuck fuel (next state) acc

theorem result_forEach (next : σ → Step σ α) (body : Option α → β → σ → Logged ι ε (β × σ))
    (stuck : ε) : ∀ fuel step acc, (forEach next body stuck fuel step acc).result =
      Leta.forEach next (fun item acc state => (body item acc state).result) stuck fuel step acc
  | 0, _, _ => rfl
  | _ + 1, .finished _, _ => rfl
  | fuel + 1, .yielded item state, acc => by
      simp only [forEach, Leta.forEach, result_bind]
      refine bind_congr fun reached => ?_
      exact result_forEach next body stuck fuel _ _

section Rules

variable {next : σ → Step σ α} {body : Option α → β → σ → Logged ι ε (β × σ)} {stuck : ε}

/-- The loop rule. `P` holds at every step, `size` bounds the steps to come, `R` relates a step
to the events and the result of the loop from there on, and `Q` to those of its failure. -/
theorem forEach_post {P : Step σ α → β → Prop} {R : Step σ α → List ι → β × σ → Prop}
    {Q : Step σ α → List ι → ε → Prop} (size : Step σ α → ℕ)
    (finished : ∀ state acc, R (.finished state) [] (acc, state))
    (yielded : ∀ item state acc, P (.yielded item state) acc →
      Post (fun events reached => P (next reached.2) reached.1 ∧
        size (next reached.2) < size (.yielded item state) ∧
        (∀ later result, R (next reached.2) later result →
          R (.yielded item state) (events ++ later) result) ∧
        ∀ later e, Q (next reached.2) later e → Q (.yielded item state) (events ++ later) e)
        (Q (.yielded item state)) (body item acc state)) :
    ∀ fuel step acc, size step < fuel → P step acc →
      Post (R step) (Q step) (forEach next body stuck fuel step acc) := by
  intro fuel
  induction fuel with
  | zero =>
      intro step acc hsize
      omega
  | succ fuel ih =>
      intro step acc hsize hpre
      cases step with
      | finished state => exact finished state acc
      | yielded item state =>
          refine Post.bind (yielded item state acc hpre) (fun _ _ h => h) ?_
          rintro events ⟨acc', state'⟩ ⟨hpre', hlt, hresult, herror⟩
          exact (ih _ _ (hlt.trans_le (Nat.le_of_lt_succ hsize)) hpre').mono hresult herror

/-- What holds of no events, and of events put together, holds of a loop if it does of its
body, whatever the cursor does and however the loop ends. -/
theorem forEach_events {E : List ι → Prop} (nil : E [])
    (append : ∀ {events later}, E events → E later → E (events ++ later))
    (hbody : ∀ item acc state, E (body item acc state).events) :
    ∀ fuel step acc, E (forEach next body stuck fuel step acc).events := by
  intro fuel
  induction fuel with
  | zero => exact fun _ _ => nil
  | succ fuel ih =>
      intro step acc
      cases step with
      | finished state => exact nil
      | yielded item state => exact events_bind append (hbody item acc state) fun _ => ih _ _

end Rules

/-! ## Nested activations -/

/-- An event of two logs in a row is one of the first or one of the second. -/
theorem append_eq_cons_cases {events later before after : List ι} {event : ι}
    (h : events ++ later = before ++ event :: after) :
    (∃ rest, events = before ++ event :: rest) ∨
      ∃ middle, before = events ++ middle ∧ later = middle ++ event :: after := by
  obtain ⟨middle, hbefore, hlater⟩ | ⟨middle, hevents, hafter⟩ := List.append_eq_append_iff.mp h
  · exact .inr ⟨middle, hbefore, hlater⟩
  · cases middle with
    | nil => exact .inr ⟨[], by simp [hevents], hafter.symm⟩
    | cons first middle =>
        obtain ⟨rfl, -⟩ := List.cons.inj hafter
        exact .inl ⟨middle, hevents⟩

section Nesting

variable [DecidableEq ι] {opening closing : ι} {fits : ℕ → ι → Prop} {active : ℕ}
variable {events later : List ι}

/-- Activations open and close in a log, `active` of them being under way before it. They are
all closed in the end, and every event fits the number of those under way. -/
structure Nests (opening closing : ι) (fits : ℕ → ι → Prop) (active : ℕ) (events : List ι) :
    Prop where
  balanced : events.count opening = events.count closing
  fits_each : ∀ before event after, events = before ++ event :: after →
    ∃ current, current + before.count closing = active + before.count opening ∧ fits current event

namespace Nests

theorem nil : Nests opening closing fits active [] where
  balanced := rfl
  fits_each before event after h := by simp at h

theorem append (h : Nests opening closing fits active events)
    (h' : Nests opening closing fits active later) :
    Nests opening closing fits active (events ++ later) where
  balanced := by rw [List.count_append, List.count_append, h.balanced, h'.balanced]
  fits_each before event after heq := by
    obtain ⟨rest, rfl⟩ | ⟨middle, rfl, rfl⟩ := append_eq_cons_cases heq
    · exact h.fits_each before event rest rfl
    · obtain ⟨current, hcurrent, hfits⟩ := h'.fits_each middle event after rfl
      have hbalanced := h.balanced
      refine ⟨current, ?_, hfits⟩
      simp only [List.count_append]
      omega

theorem single {event : ι} (hopening : event ≠ opening) (hclosing : event ≠ closing)
    (h : fits active event) : Nests opening closing fits active [event] where
  balanced := by simp [hopening, hclosing]
  fits_each before event' after heq := by
    cases before with
    | nil =>
        obtain ⟨rfl, -⟩ := List.cons.inj heq
        exact ⟨active, rfl, h⟩
    | cons first before => simp at heq

/-- One more activation is under way inside. -/
theorem between {α ε : Type} {x : Logged ι ε α} (hne : opening ≠ closing)
    (hopening : fits active opening) (h : Nests opening closing fits (active + 1) x.events)
    (hclosing : fits (active + 1) closing) :
    Nests opening closing fits active (Logged.between opening closing x).events where
  balanced := by
    have := h.balanced
    simp [Logged.between, hne, hne.symm, this]
  fits_each before event after heq := by
    cases before with
    | nil =>
        obtain ⟨rfl, -⟩ := List.cons.inj heq
        exact ⟨active, rfl, hopening⟩
    | cons first before =>
        obtain ⟨rfl, htail⟩ := List.cons.inj heq
        obtain ⟨rest, hevents⟩ | ⟨middle, rfl, hlast⟩ := append_eq_cons_cases htail
        · obtain ⟨current, hcurrent, hfits⟩ := h.fits_each before event rest hevents
          refine ⟨current, ?_, hfits⟩
          rw [List.count_cons_self, List.count_cons_of_ne hne]
          omega
        · cases middle with
          | nil =>
              obtain ⟨rfl, -⟩ := List.cons.inj hlast
              have hbalanced := h.balanced
              refine ⟨active + 1, ?_, hclosing⟩
              rw [List.append_nil, List.count_cons_self, List.count_cons_of_ne hne]
              omega
          | cons _ middle => simp at hlast

end Nests

end Nesting

end Logged

end Leta
