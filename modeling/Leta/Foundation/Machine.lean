import Mathlib.Tactic

/-! # Labelled transition systems

Runs, the invariants they keep, and simulations of one system by another. -/

namespace Leta

structure Machine (σ ℓ : Type*) where
  Initial : σ → Prop
  Step : σ → ℓ → σ → Prop

namespace Machine

variable {σ τ ℓ κ : Type*} {M : Machine σ ℓ} {N : Machine τ κ}

/-- A run from an initial state. The latest label is the last one. -/
inductive Run (M : Machine σ ℓ) : List ℓ → σ → Prop where
  | start {s} : M.Initial s → Run M [] s
  | step {labels s label s'} : Run M labels s → M.Step s label s' →
      Run M (labels ++ [label]) s'

theorem Run.initial {s : σ} (h : M.Run [] s) : M.Initial s := by
  generalize hnil : [] = labels at h
  cases h with
  | start hinitial => exact hinitial
  | step _ _ => simp at hnil

/-- Every label of a run is the label of one of its steps. -/
theorem Run.exists_step {labels : List ℓ} {s : σ} (h : M.Run labels s) {label : ℓ}
    (hlabel : label ∈ labels) : ∃ t t', M.Step t label t' := by
  induction h with
  | start _ => cases hlabel
  | step _ hstep ih =>
      rcases List.mem_append.mp hlabel with hlabel | hlabel
      · exact ih hlabel
      · obtain rfl := List.mem_singleton.mp hlabel
        exact ⟨_, _, hstep⟩

theorem forall₂_snoc {R : ℓ → κ → Prop} {labels : List ℓ} {labels' : List κ} {a : ℓ} {b : κ}
    (h : List.Forall₂ R (labels ++ [a]) (labels' ++ [b])) :
    R a b ∧ List.Forall₂ R labels labels' := by
  rw [← List.forall₂_reverse_iff] at h
  simpa using h

/-- Steps from one state to another. -/
inductive Path (M : Machine σ ℓ) (s : σ) : List ℓ → σ → Prop where
  | refl : Path M s [] s
  | step {labels t label t'} : Path M s labels t → M.Step t label t' →
      Path M s (labels ++ [label]) t'

theorem Run.append {labels more : List ℓ} {s t : σ} (h : M.Run labels s)
    (hpath : M.Path s more t) : M.Run (labels ++ more) t := by
  induction hpath with
  | refl =>
      rw [List.append_nil]
      exact h
  | step _ hstep ih =>
      rw [← List.append_assoc]
      exact ih.step hstep

/-- The last step of a run. -/
theorem Run.exists_last {labels : List ℓ} {label : ℓ} {s : σ} (h : M.Run (labels ++ [label]) s) :
    ∃ t, M.Run labels t ∧ M.Step t label s := by
  generalize hlabels : labels ++ [label] = all at h
  cases h with
  | start _ => simp at hlabels
  | step hrun hstep =>
      obtain ⟨rfl, hlabel⟩ := List.append_inj' hlabels rfl
      cases List.singleton_inj.mp hlabel
      exact ⟨_, hrun, hstep⟩

/-- A run goes through what its labels start with. -/
theorem Run.exists_front {labels more : List ℓ} {s : σ} (h : M.Run (labels ++ more) s) :
    ∃ t, M.Run labels t := by
  induction more using List.reverseRecOn generalizing s with
  | nil =>
      rw [List.append_nil] at h
      exact ⟨s, h⟩
  | append_singleton more label ih =>
      rw [← List.append_assoc] at h
      obtain ⟨t, hrun, -⟩ := h.exists_last
      exact ih hrun

/-- A run is a path from where it starts. -/
theorem Run.exists_path {labels : List ℓ} {s : σ} (h : M.Run labels s) :
    ∃ start, M.Initial start ∧ M.Path start labels s := by
  induction h with
  | @start s hinitial => exact ⟨s, hinitial, .refl⟩
  | step _ hstep ih =>
      obtain ⟨start, hinitial, hpath⟩ := ih
      exact ⟨start, hinitial, hpath.step hstep⟩

/-- What relates two lists relates what corresponds to them, item by item. -/
theorem forall₂_transport {α β γ δ : Type*} {R : α → β → Prop} {P : α → γ → Prop}
    {Q : β → δ → Prop} {T : γ → δ → Prop} {as : List α} {bs : List β} {cs : List γ} {ds : List δ}
    (h : List.Forall₂ R as bs) (hleft : List.Forall₂ P as cs) (hright : List.Forall₂ Q bs ds)
    (item : ∀ a b c d, R a b → P a c → Q b d → T c d) : List.Forall₂ T cs ds := by
  induction h generalizing cs ds with
  | nil =>
      cases hleft
      cases hright
      exact .nil
  | cons hfirst _ ih =>
      cases hleft with | cons hleft hlefts =>
      cases hright with | cons hright hrights =>
      exact .cons (item _ _ _ _ hfirst hleft hright) (ih hlefts hrights)

/-- A relation between the labels so far and the state that every step keeps. -/
structure Keeps (M : Machine σ ℓ) (I : List ℓ → σ → Prop) : Prop where
  start : ∀ s, M.Initial s → I [] s
  step : ∀ labels s label s', I labels s → M.Step s label s' → I (labels ++ [label]) s'

theorem Keeps.run {I : List ℓ → σ → Prop} (h : M.Keeps I) {labels : List ℓ} {s : σ}
    (hrun : M.Run labels s) : I labels s := by
  induction hrun with
  | start hinitial => exact h.start _ hinitial
  | step _ hstep ih => exact h.step _ _ _ _ ih hstep

/-- Every step of one system is a step of the other, from related states to related states. -/
structure Simulates (M : Machine σ ℓ) (N : Machine τ κ) (R : σ → τ → Prop)
    (L : ℓ → κ → Prop) : Prop where
  start : ∀ s, M.Initial s → ∃ t, N.Initial t ∧ R s t
  step : ∀ s t label s', R s t → M.Step s label s' →
    ∃ label' t', L label label' ∧ N.Step t label' t' ∧ R s' t'

/-- A run is a run of the system that simulates it. -/
theorem Simulates.run {R : σ → τ → Prop} {L : ℓ → κ → Prop} (h : M.Simulates N R L)
    {labels : List ℓ} {s : σ} (hrun : M.Run labels s) :
    ∃ labels' t, List.Forall₂ L labels labels' ∧ N.Run labels' t ∧ R s t := by
  induction hrun with
  | start hinitial =>
      obtain ⟨t, hstart, hrelated⟩ := h.start _ hinitial
      exact ⟨[], t, .nil, .start hstart, hrelated⟩
  | step _ hstep ih =>
      obtain ⟨labels', t, hlabels, hrun', hrelated⟩ := ih
      obtain ⟨label', t', hlabel, hstep', hrelated'⟩ := h.step _ _ _ _ hrelated hstep
      exact ⟨labels' ++ [label'], t', List.rel_append hlabels (.cons hlabel .nil),
        hrun'.step hstep', hrelated'⟩

theorem Simulates.path {R : σ → τ → Prop} {L : ℓ → κ → Prop} (h : M.Simulates N R L)
    {s s' : σ} {t : τ} (hrelated : R s t) {labels : List ℓ} (hpath : M.Path s labels s') :
    ∃ labels' t', List.Forall₂ L labels labels' ∧ N.Path t labels' t' ∧ R s' t' := by
  induction hpath with
  | refl => exact ⟨[], t, .nil, .refl, hrelated⟩
  | step _ hstep ih =>
      obtain ⟨labels', t', hlabels, hpath', hrelated'⟩ := ih
      obtain ⟨label', t'', hlabel, hstep', hrelated''⟩ := h.step _ _ _ _ hrelated' hstep
      exact ⟨labels' ++ [label'], t'', List.rel_append hlabels (.cons hlabel .nil),
        hpath'.step hstep', hrelated''⟩

section View

variable {V : Type*} (view : σ → V) (view' : τ → V) {C : ℓ → Prop} {C' : κ → Prop}
  [DecidablePred C] [DecidablePred C'] {Same Agree : ℓ → κ → Prop}

/-- Steps that do not concern a view of the state leave it alone. -/
theorem Run.view_of_filter_nil (silent : ∀ s label s', ¬ C label → M.Step s label s' →
      view s' = view s) {v : V} (start : ∀ s, M.Initial s → view s = v)
    {labels : List ℓ} {s : σ} (h : M.Run labels s) (hnil : labels.filter C = []) : view s = v := by
  induction h with
  | start hinitial => exact start _ hinitial
  | step _ hstep ih =>
      rw [List.filter_append, List.append_eq_nil_iff, List.filter_singleton] at hnil
      refine (silent _ _ _ ?_ hstep).trans (ih hnil.1)
      intro hlabel
      simp [hlabel] at hnil

/-- Two runs whose steps for a view are the same, one by one, see the same and agree in these
steps, whatever else happens in between. -/
theorem Run.agree_on_view (start : ∀ s t, M.Initial s → N.Initial t → view s = view' t)
    (silent : ∀ s label s', ¬ C label → M.Step s label s' → view s' = view s)
    (silent' : ∀ t label t', ¬ C' label → N.Step t label t' → view' t' = view' t)
    (step : ∀ s t label label' s' t', C label → Same label label' → view s = view' t →
      M.Step s label s' → N.Step t label' t' → view s' = view' t' ∧ Agree label label')
    {labels : List ℓ} {labels' : List κ} {s : σ} {t : τ} (h : M.Run labels s)
    (h' : N.Run labels' t) (hsame : List.Forall₂ Same (labels.filter C) (labels'.filter C')) :
    view s = view' t ∧ List.Forall₂ Agree (labels.filter C) (labels'.filter C') := by
  induction h generalizing labels' t with
  | @start s hinitial =>
      have hnil := List.forall₂_nil_left_iff.mp hsame
      rw [hnil]
      have hview := h'.view_of_filter_nil view' silent' (fun t ht => (start s t hinitial ht).symm)
        hnil
      exact ⟨hview.symm, .nil⟩
  | @step labels s label s' hrun hstep ih =>
      by_cases hlabel : C label
      · have hfilter : (labels ++ [label]).filter C = labels.filter C ++ [label] := by
          simp [hlabel]
        rw [hfilter] at hsame ⊢
        induction h' with
        | start _ => exact absurd (List.forall₂_nil_right_iff.mp hsame) (by simp)
        | @step labels' t label' t' hrun' hstep' ih' =>
            by_cases hlabel' : C' label'
            · have hfilter' : (labels' ++ [label']).filter C' = labels'.filter C' ++ [label'] := by
                simp [hlabel']
              rw [hfilter'] at hsame ⊢
              obtain ⟨hlast, hfront⟩ := forall₂_snoc hsame
              obtain ⟨hview, hagree⟩ := ih hrun' hfront
              obtain ⟨hview', hlast'⟩ := step _ _ _ _ _ _ hlabel hlast hview hstep hstep'
              exact ⟨hview', List.rel_append hagree (.cons hlast' .nil)⟩
            · have hfilter' : (labels' ++ [label']).filter C' = labels'.filter C' := by
                simp [hlabel']
              rw [hfilter'] at hsame ⊢
              obtain ⟨hview, hagree⟩ := ih' hsame
              exact ⟨hview.trans (silent' _ _ _ hlabel' hstep').symm, hagree⟩
      · have hfilter : (labels ++ [label]).filter C = labels.filter C := by simp [hlabel]
        rw [hfilter] at hsame ⊢
        obtain ⟨hview, hagree⟩ := ih h' hsame
        exact ⟨(silent _ _ _ hlabel hstep).trans hview, hagree⟩

end View

end Machine

end Leta
