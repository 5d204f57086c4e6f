import Mathlib.Tactic

/-! # Programs that may run out of memory

A program runs from a state to a value and a state. Any of its allocations may throw
instead, and then the state stays as it was at that point. -/

namespace Leta

/-- What a program does: the states in which it allocates, in order, and how it ends when no
allocation throws. -/
structure Trace (σ α : Type) where
  points : List σ
  value : α
  state : σ

def Allocating (σ α : Type) := σ → Trace σ α

/-- How a call ends. -/
inductive Outcome (σ α : Type) where
  | returned (value : α) (state : σ)
  | thrown (state : σ)

namespace Allocating

variable {σ τ α β : Type}

instance : Monad (Allocating σ) where
  pure a := fun s => ⟨[], a, s⟩
  bind p f := fun s =>
    let first := p s
    let rest := f first.value first.state
    ⟨first.points ++ rest.points, rest.value, rest.state⟩

def allocate : Allocating σ Unit := fun s => ⟨[s], (), s⟩

def getState : Allocating σ σ := fun s => ⟨[], s, s⟩

def modifyState (f : σ → σ) : Allocating σ Unit := fun s => ⟨[], (), f s⟩

/-- Runs a program on a part of the state. -/
def zoom (view : τ → σ) (update : σ → τ → τ) (p : Allocating σ α) : Allocating τ α := fun t =>
  let r := p (view t)
  ⟨r.points.map fun s => update s t, r.value, update r.state t⟩

/-- The call in which no allocation throws. -/
def exec (p : Allocating σ α) (s : σ) : α × σ := ((p s).value, (p s).state)

/-- The call in which the allocation after `failure` earlier ones throws, if it has that many. -/
def run (p : Allocating σ α) (s : σ) (failure : Option ℕ) : Outcome σ α :=
  match failure.bind fun k => (p s).points[k]? with
  | some state => .thrown state
  | none => .returned (p s).value (p s).state

theorem run_eq_thrown {p : Allocating σ α} {s after : σ} {k : ℕ} :
    p.run s (some k) = .thrown after ↔ (p s).points[k]? = some after := by
  cases h : (p s).points[k]? <;> simp [run, h]

theorem run_eq_returned {p : Allocating σ α} {s after : σ} {failure : Option ℕ} {value : α}
    (h : p.run s failure = .returned value after) : value = (p s).value ∧ after = (p s).state := by
  rw [run] at h
  split at h
  · cases h
  · cases h
    exact ⟨rfl, rfl⟩

/-- When `P` holds at the first points and at no others, it tells where a call threw. -/
theorem thrown_iff_lt {p : Allocating σ α} {s after : σ} {k : ℕ} {P : σ → Prop}
    {early late : List σ} (hpoints : (p s).points = early ++ late) (hearly : ∀ s ∈ early, P s)
    (hlate : ∀ s ∈ late, ¬ P s) (hrun : p.run s (some k) = .thrown after) :
    P after ↔ k < early.length := by
  rw [run_eq_thrown, hpoints] at hrun
  by_cases hk : k < early.length
  · rw [List.getElem?_append_left hk] at hrun
    exact iff_of_true (hearly _ (List.mem_of_getElem? hrun)) hk
  · rw [List.getElem?_append_right (by omega)] at hrun
    exact iff_of_false (hlate _ (List.mem_of_getElem? hrun)) hk

/-! ## Where the parts allocate -/

@[simp] theorem points_pure (a : α) (s : σ) : (pure a : Allocating σ α) s = ⟨[], a, s⟩ := rfl

/-! ## Loops -/

section Loops

variable {f : α → Allocating σ Unit}

theorem forM_nil (s : σ) : ([] : List α).forM f s = ⟨[], (), s⟩ := rfl

theorem forM_cons (a : α) (items : List α) (s : σ) : (a :: items).forM f s =
    ⟨(f a s).points ++ (items.forM f (f a s).state).points,
      (items.forM f (f a s).state).value, (items.forM f (f a s).state).state⟩ := rfl

theorem forM_allocate (items : List α) (s : σ) :
    items.forM (fun _ => allocate) s = ⟨List.replicate items.length s, (), s⟩ := by
  induction items with
  | nil => rfl
  | cons a items ih => simp [forM_cons, ih, allocate, List.replicate_succ]

/-- The loop rule. `I` relates the items done to the state between two of them, and `J` is what
holds at the points of one item. -/
theorem forM_rule {I : List α → σ → Prop} {J : σ → Prop} (done items : List α)
    (step : ∀ done a s, I done s → I (done ++ [a]) (f a s).state ∧ ∀ s' ∈ (f a s).points, J s')
    {s : σ} (h : I done s) :
    I (done ++ items) (items.forM f s).state ∧ ∀ s' ∈ (items.forM f s).points, J s' := by
  induction items generalizing done s with
  | nil => simpa [forM_nil] using h
  | cons a items ih =>
      obtain ⟨hnext, hpoints⟩ := step done a s h
      obtain ⟨hend, hmore⟩ := ih (done ++ [a]) hnext
      rw [forM_cons]
      refine ⟨by simpa using hend, fun s' hs' => ?_⟩
      rcases List.mem_append.mp hs' with hs' | hs'
      · exact hpoints s' hs'
      · exact hmore s' hs'

/-- A point of a loop is a point of one of its items, after the items before it. -/
theorem mem_points_forM {items : List α} {s s' : σ} (h : s' ∈ (items.forM f s).points) :
    ∃ done a rest, items = done ++ a :: rest ∧ s' ∈ (f a (done.forM f s).state).points := by
  induction items generalizing s with
  | nil => simp [forM_nil] at h
  | cons a items ih =>
      rw [forM_cons] at h
      rcases List.mem_append.mp h with h | h
      · exact ⟨[], a, items, rfl, h⟩
      · obtain ⟨done, b, rest, rfl, hpoint⟩ := ih h
        exact ⟨a :: done, b, rest, rfl, hpoint⟩

end Loops

end Allocating

end Leta
