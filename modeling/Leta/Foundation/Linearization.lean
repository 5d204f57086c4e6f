import Leta.Foundation.Machine

/-! # Operations that take effect at one moment

An operation is invoked, takes effect at one step, and returns. The order in which operations
take effect never contradicts real time, and in this order they are a run of what they implement. -/

namespace Leta

inductive Moment (ι : Type*) where
  | invoked (i : ι)
  | effect (i : ι)
  | returned (i : ι)
  deriving DecidableEq

/-- How far an operation has come. -/
inductive Stage where
  | absent | pending | effective | returned

section

variable {ι : Type*}

def Moment.operation : Moment ι → ι
  | .invoked i | .effect i | .returned i => i

/-- What an operation at the stage has been through. -/
def Stage.moments (i : ι) : Stage → List (Moment ι)
  | .absent => []
  | .pending => [.invoked i]
  | .effective => [.invoked i, .effect i]
  | .returned => [.invoked i, .effect i, .returned i]

/-- The operations that have taken effect, in order. -/
def effects (history : List (Moment ι)) : List ι :=
  history.filterMap fun
    | .effect i => some i
    | _ => none

@[simp] theorem effects_append (front back : List (Moment ι)) :
    effects (front ++ back) = effects front ++ effects back :=
  List.filterMap_append

theorem mem_effects {history : List (Moment ι)} {i : ι} :
    i ∈ effects history ↔ .effect i ∈ history := by
  rw [effects, List.mem_filterMap]
  constructor
  · rintro ⟨moment, hmem, hmoment⟩
    cases moment with
    | effect j =>
        obtain rfl := Option.some.inj hmoment
        exact hmem
    | invoked j => cases hmoment
    | returned j => cases hmoment
  · intro hmem
    exact ⟨_, hmem, rfl⟩

/-- Before it returns, an operation is invoked and takes effect. -/
theorem before_returned {stage : Stage} {i : ι} {before after : List (Moment ι)}
    (h : before ++ .returned i :: after = stage.moments i) :
    before = [.invoked i, .effect i] := by
  cases stage with
  | absent => simp [Stage.moments] at h
  | pending => cases before with
    | nil => simp [Stage.moments] at h
    | cons moment before => simp [Stage.moments] at h
  | effective => rcases before with - | ⟨first, - | ⟨second, before⟩⟩ <;> simp [Stage.moments] at h
  | returned =>
      rcases before with - | ⟨first, - | ⟨second, - | ⟨third, before⟩⟩⟩ <;>
        simp [Stage.moments] at h
      obtain ⟨rfl, rfl, -⟩ := h
      rfl

/-- Nothing comes before the invocation. -/
theorem before_invoked {stage : Stage} {i : ι} {before after : List (Moment ι)}
    (h : before ++ .invoked i :: after = stage.moments i) : before = [] := by
  cases stage with
  | absent => simp [Stage.moments] at h
  | pending => cases before with
    | nil => rfl
    | cons moment before => simp [Stage.moments] at h
  | effective =>
      rcases before with - | ⟨first, - | ⟨second, before⟩⟩ <;> simp [Stage.moments] at h ⊢
  | returned =>
      rcases before with - | ⟨first, - | ⟨second, - | ⟨third, before⟩⟩⟩ <;>
        simp [Stage.moments] at h ⊢

/-! ## Histories -/

variable [DecidableEq ι]

/-- What the operation has been through in a history. -/
def momentsOf (i : ι) (history : List (Moment ι)) : List (Moment ι) :=
  history.filter fun moment => moment.operation = i

theorem mem_momentsOf {i : ι} {history : List (Moment ι)} {moment : Moment ι} :
    moment ∈ momentsOf i history ↔ moment ∈ history ∧ moment.operation = i := by
  rw [momentsOf, List.mem_filter, decide_eq_true_iff]

/-- Every operation goes through its stages in order. -/
def Orderly (history : List (Moment ι)) : Prop :=
  ∀ i, ∃ stage : Stage, momentsOf i history = stage.moments i

namespace Orderly

variable {history : List (Moment ι)}

/-- An operation that has returned has taken effect before. -/
theorem effect_of_returned (h : Orderly history) {before after : List (Moment ι)} {i : ι}
    (hhistory : history = before ++ .returned i :: after) : .effect i ∈ before := by
  obtain ⟨stage, hstage⟩ := h i
  rw [hhistory, momentsOf, List.filter_append, List.filter_cons_of_pos (by simp [Moment.operation])]
    at hstage
  have hbefore : momentsOf i before = [.invoked i, .effect i] := before_returned hstage
  have hmem : .effect i ∈ momentsOf i before := by simp [hbefore]
  exact (mem_momentsOf.mp hmem).1

/-- An operation takes effect after its invocation. -/
theorem effect_after_invoked (h : Orderly history) {before after : List (Moment ι)} {i : ι}
    (hhistory : history = before ++ .invoked i :: after) (heffect : .effect i ∈ history) :
    .effect i ∈ after := by
  obtain ⟨stage, hstage⟩ := h i
  rw [hhistory, momentsOf, List.filter_append, List.filter_cons_of_pos (by simp [Moment.operation])]
    at hstage
  have hbefore : momentsOf i before = [] := before_invoked hstage
  rw [hhistory] at heffect
  rcases List.mem_append.mp heffect with heffect | heffect
  · have hmem : .effect i ∈ momentsOf i before := mem_momentsOf.mpr ⟨heffect, rfl⟩
    rw [hbefore] at hmem
    cases hmem
  · exact (List.mem_cons.mp heffect).resolve_left (by simp)

/-- No operation takes effect twice. -/
theorem nodup_effects (h : Orderly history) : (effects history).Nodup := by
  rw [List.nodup_iff_count_le_one]
  intro i
  obtain ⟨stage, hstage⟩ := h i
  have hcount : (effects history).count i = (momentsOf i history).count (.effect i) := by
    clear hstage h
    induction history with
    | nil => rfl
    | cons moment history ih =>
        cases moment with
        | effect j =>
            by_cases hj : j = i
            · subst hj
              simpa [effects, momentsOf, Moment.operation] using ih
            · simpa [effects, momentsOf, Moment.operation, hj] using ih
        | invoked j =>
            by_cases hj : j = i <;> simpa [effects, momentsOf, Moment.operation, hj] using ih
        | returned j =>
            by_cases hj : j = i <;> simpa [effects, momentsOf, Moment.operation, hj] using ih
  rw [hcount, hstage]
  cases stage <;> simp [Stage.moments]

/-- An operation that returned before another was invoked took effect before it. -/
theorem real_time (h : Orderly history) {before between after : List (Moment ι)} {i j : ι}
    (hhistory : history = before ++ .returned i :: between ++ .invoked j :: after)
    (hj : j ∈ effects history) : [i, j].Sublist (effects history) := by
  have hi : i ∈ effects before := by
    rw [mem_effects]
    apply h.effect_of_returned
    rw [hhistory, List.append_assoc, List.cons_append]
  have hj : j ∈ effects after := by
    rw [mem_effects] at hj ⊢
    exact h.effect_after_invoked hhistory hj
  have hsuffix : after <:+ .returned i :: between ++ .invoked j :: after :=
    ⟨.returned i :: between ++ [.invoked j], by simp⟩
  rw [hhistory, List.append_assoc, effects_append]
  exact (List.singleton_sublist.mpr hi).append
    ((List.singleton_sublist.mpr hj).trans (hsuffix.sublist.filterMap _))

end Orderly

/-! ## Machines -/

variable {σ ℓ : Type*}

/-- What a run's steps were for its operations. -/
def history (moments : ℓ → List (Moment ι)) (labels : List ℓ) : List (Moment ι) :=
  labels.flatMap moments

/-- A step takes an operation through the moments that its label says. -/
structure Machine.Staged (M : Machine σ ℓ) (stage : σ → ι → Stage) (moments : ℓ → List (Moment ι)) :
    Prop where
  start : ∀ s, M.Initial s → ∀ i, stage s i = .absent
  step : ∀ labels s label s', M.Run labels s → M.Step s label s' → ∀ i,
    (stage s' i).moments i = (stage s i).moments i ++ momentsOf i (moments label)

theorem Machine.Staged.momentsOf_eq {M : Machine σ ℓ} {stage : σ → ι → Stage}
    {moments : ℓ → List (Moment ι)} (h : M.Staged stage moments) {labels : List ℓ} {s : σ}
    (hrun : M.Run labels s) (i : ι) :
    momentsOf i (history moments labels) = (stage s i).moments i := by
  induction hrun with
  | start hinitial =>
      rw [h.start _ hinitial]
      rfl
  | step hrun hstep ih =>
      rw [h.step _ _ _ _ hrun hstep, ← ih, history, List.flatMap_append, momentsOf,
        List.filter_append]
      simp [momentsOf, history]

theorem Machine.Staged.orderly {M : Machine σ ℓ} {stage : σ → ι → Stage}
    {moments : ℓ → List (Moment ι)} (h : M.Staged stage moments) {labels : List ℓ} {s : σ}
    (hrun : M.Run labels s) : Orderly (history moments labels) := by
  intro i
  exact ⟨stage s i, h.momentsOf_eq hrun i⟩

/-! ## Books

The operations that have taken effect make a run of another machine. What is known of them, and
what is promised to those in flight, is kept from step to step. -/

variable {τ κ π : Type*}

/-- What is recorded of an operation that has taken effect, and what is promised to one at a
certain point of its progress. -/
structure Bookkeeping (ι ℓ κ π : Type*) where
  Recorded : List ℓ → ι → κ → Prop
  Promised : List ℓ → List (ι × κ) → ι → π → Prop
  recorded_append : ∀ {labels i entry}, Recorded labels i entry → ∀ label,
    Recorded (labels ++ [label]) i entry
  promised_append : ∀ {labels entries i progress}, Promised labels entries i progress →
    ∀ label later, Promised (labels ++ [label]) (entries ++ later) i progress

/-- The entries explain the progress of the operations. -/
structure Bookkeeping.Balances (books : Bookkeeping ι ℓ κ π) (N : Machine τ κ)
    (moments : ℓ → List (Moment ι)) (labels : List ℓ) (progress : ι → π) (entries : List (ι × κ))
    (t : τ) : Prop where
  run : N.Run (entries.map Prod.snd) t
  order : entries.map Prod.fst = effects (history moments labels)
  recorded : ∀ i entry, (i, entry) ∈ entries → books.Recorded labels i entry
  promised : ∀ i, books.Promised labels entries i (progress i)

namespace Bookkeeping.Balances

variable {books : Bookkeeping ι ℓ κ π} {N : Machine τ κ} {moments : ℓ → List (Moment ι)}
  {labels : List ℓ} {progress progress' : ι → π} {entries : List (ι × κ)} {t t' : τ}

theorem promised_update (h : books.Balances N moments labels progress entries t) {label : ℓ}
    {later : List (ι × κ)} {i : ι} {next : π}
    (hnext : books.Promised (labels ++ [label]) (entries ++ later) i next) (j : ι) :
    books.Promised (labels ++ [label]) (entries ++ later) j
      (Function.update progress i next j) := by
  rw [Function.update_apply]
  split_ifs with hij
  · subst hij
    exact hnext
  · exact books.promised_append (h.promised j) label later

/-- A step without effect. -/
theorem silent (h : books.Balances N moments labels progress entries t) {label : ℓ}
    (hlabel : effects (moments label) = []) {i : ι} {next : π}
    (hprogress : progress' = Function.update progress i next)
    (hnext : books.Promised (labels ++ [label]) entries i next) :
    books.Balances N moments (labels ++ [label]) progress' entries t where
  run := h.run
  order := by simp [h.order, history, List.flatMap_append, hlabel]
  recorded j entry hentry := books.recorded_append (h.recorded j entry hentry) label
  promised := by
    rw [hprogress, ← List.append_nil entries]
    rw [← List.append_nil entries] at hnext
    exact h.promised_update hnext

omit [DecidableEq ι] in
/-- A step that no operation takes. -/
theorem idle (h : books.Balances N moments labels progress entries t) {label : ℓ}
    (hlabel : effects (moments label) = []) :
    books.Balances N moments (labels ++ [label]) progress entries t where
  run := h.run
  order := by simp [h.order, history, List.flatMap_append, hlabel]
  recorded j entry hentry := books.recorded_append (h.recorded j entry hentry) label
  promised j := by
    have hkept := books.promised_append (h.promised j) label []
    rwa [List.append_nil] at hkept

/-- A step at which an operation takes effect. -/
theorem effective (h : books.Balances N moments labels progress entries t) {label : ℓ} {i : ι}
    (hlabel : effects (moments label) = [i]) {entry : κ} (hstep : N.Step t entry t')
    (hrecorded : books.Recorded labels i entry) {next : π}
    (hprogress : progress' = Function.update progress i next)
    (hnext : books.Promised (labels ++ [label]) (entries ++ [(i, entry)]) i next) :
    books.Balances N moments (labels ++ [label]) progress' (entries ++ [(i, entry)]) t' where
  run := by
    rw [List.map_append]
    exact h.run.step hstep
  order := by simp [h.order, history, List.flatMap_append, hlabel]
  recorded j other hother := by
    rcases List.mem_append.mp hother with hother | hother
    · exact books.recorded_append (h.recorded j other hother) label
    · obtain ⟨rfl, rfl⟩ := Prod.mk.inj (List.mem_singleton.mp hother)
      exact books.recorded_append hrecorded label
  promised := by
    rw [hprogress]
    exact h.promised_update hnext

theorem nodup (h : books.Balances N moments labels progress entries t)
    (horderly : Orderly (history moments labels)) : (entries.map Prod.fst).Nodup := by
  rw [h.order]
  exact horderly.nodup_effects

/-- The entries stand in an order that agrees with real time. -/
theorem real_time (h : books.Balances N moments labels progress entries t)
    (horderly : Orderly (history moments labels)) {before between after : List ℓ}
    {returned invoked : ℓ} {i j : ι}
    (hlabels : labels = before ++ returned :: between ++ invoked :: after)
    (hreturned : moments returned = [.returned i]) (hinvoked : moments invoked = [.invoked j])
    (hj : j ∈ entries.map Prod.fst) : [i, j].Sublist (entries.map Prod.fst) := by
  rw [h.order] at hj ⊢
  apply horderly.real_time _ hj
  · exact history moments before
  · exact history moments between
  · exact history moments after
  · rw [hlabels]
    simp [history, hreturned, hinvoked]

end Bookkeeping.Balances

end

end Leta
