import Leta.Foundation.Allocation
import Std.Data.ExtTreeMap

/-! # Weights and costs

What a map weighs, and what a program adds to a measure of its state, wherever an allocation
throws. -/

namespace Leta

/-! ## Maps -/

section Maps

variable {α β : Type} {cmp : α → α → Ordering} [Std.TransCmp cmp] [Std.LawfulEqCmp cmp]
  (f : α → β → ℕ)

/-- The entries of a map, each with its weight, together. -/
def weight (map : Std.ExtTreeMap α β cmp) : ℕ :=
  (map.toList.map fun entry => f entry.1 entry.2).sum

theorem nodup_toList (map : Std.ExtTreeMap α β cmp) : map.toList.Nodup := by
  apply map.distinct_keys_toList.imp
  rintro entry _ hkeys rfl
  exact hkeys Std.ReflCmp.compare_self

theorem weight_eq_erase (map : Std.ExtTreeMap α β cmp) (key : α) :
    weight f map = map[key]?.elim 0 (f key) + weight f (map.erase key) := by
  have herased : ∀ other value, (map.erase key)[other]? = some value ↔
      other ≠ key ∧ map[other]? = some value := by
    intro other value
    by_cases hother : other = key
    · subst hother
      simp
    · have hcompare : cmp key other ≠ .eq :=
        fun heq => hother (Std.LawfulEqCmp.compare_eq_iff_eq.mp heq).symm
      rw [Std.ExtTreeMap.getElem?_erase, if_neg hcompare, and_iff_right hother]
  cases hfound : map[key]? with
  | none =>
      have herase : map.erase key = map := by
        apply Std.ExtTreeMap.ext_getElem?
        intro other
        apply Option.ext
        intro value
        rw [herased, and_iff_right_of_imp]
        rintro hother rfl
        rw [hfound] at hother
        cases hother
      rw [herase, Option.elim_none, Nat.zero_add]
  | some value =>
      have hperm : map.toList.Perm ((key, value) :: (map.erase key).toList) := by
        rw [List.perm_ext_iff_of_nodup (nodup_toList map)]
        · rintro ⟨other, value'⟩
          rw [List.mem_cons, Std.ExtTreeMap.mem_toList_iff_getElem?_eq_some,
            Std.ExtTreeMap.mem_toList_iff_getElem?_eq_some, herased]
          by_cases hother : other = key
          · subst hother
            simp [hfound, eq_comm]
          · simp [hother]
        · rw [List.nodup_cons, Std.ExtTreeMap.mem_toList_iff_getElem?_eq_some, herased]
          exact ⟨fun herased => herased.1 rfl, nodup_toList _⟩
      rw [weight, (hperm.map _).sum_eq]
      rfl

/-- Maps that differ at one key differ in weight by what is under it. -/
theorem weight_eq_off {map map' : Std.ExtTreeMap α β cmp} (key : α)
    (h : ∀ other ≠ key, map'[other]? = map[other]?) :
    weight f map' + map[key]?.elim 0 (f key) = weight f map + map'[key]?.elim 0 (f key) := by
  have herase : map'.erase key = map.erase key := by
    apply Std.ExtTreeMap.ext_getElem?
    intro other
    rw [Std.ExtTreeMap.getElem?_erase, Std.ExtTreeMap.getElem?_erase]
    split_ifs with hother
    · rfl
    · exact h other fun hsame => hother (Std.LawfulEqCmp.compare_eq_iff_eq.mpr hsame.symm)
  rw [weight_eq_erase f map key, weight_eq_erase f map' key, herase]
  omega

omit [Std.LawfulEqCmp cmp] in
theorem weight_empty : weight f (∅ : Std.ExtTreeMap α β cmp) = 0 := by
  rw [weight, Std.ExtTreeMap.toList_eq_nil_iff.mpr rfl]
  rfl

end Maps

/-! ## Programs -/

namespace Allocating

variable {σ α β : Type} {measure : σ → ℕ} {cost : ℕ}

/-- The program adds no more than the cost to the measure, whether it ends or throws. -/
def Costs (measure : σ → ℕ) (p : Allocating σ α) (cost : ℕ) : Prop :=
  ∀ s, measure (p s).state ≤ measure s + cost ∧
    ∀ s' ∈ (p s).points, measure s' ≤ measure s + cost

theorem costs_pure (a : α) : Costs measure (pure a : Allocating σ α) 0 :=
  fun _ => ⟨le_rfl, fun _ h => absurd h List.not_mem_nil⟩

theorem costs_getState : Costs measure getState 0 :=
  fun _ => ⟨le_rfl, fun _ h => absurd h List.not_mem_nil⟩

theorem costs_allocate : Costs measure allocate 0 :=
  fun _ => ⟨le_rfl, fun _ h => (congrArg measure (List.mem_singleton.mp h)).le⟩

theorem costs_modifyState {f : σ → σ} (h : ∀ s, measure (f s) ≤ measure s + cost) :
    Costs measure (modifyState f) cost :=
  fun s => ⟨h s, fun _ h => absurd h List.not_mem_nil⟩

theorem Costs.mono {p : Allocating σ α} {cost' : ℕ} (h : Costs measure p cost)
    (hle : cost ≤ cost') : Costs measure p cost' := by
  intro s
  obtain ⟨hstate, hpoints⟩ := h s
  exact ⟨by omega, fun s' hs' => (hpoints s' hs').trans (by omega)⟩

theorem Costs.bind {p : Allocating σ α} {f : α → Allocating σ β} {cost' : ℕ}
    (hp : Costs measure p cost) (hf : ∀ s, Costs measure (f (p s).value) cost') :
    Costs measure (p >>= f) (cost + cost') := by
  intro s
  obtain ⟨hstate, hpoints⟩ := hp s
  obtain ⟨hstate', hpoints'⟩ := hf s (p s).state
  change measure (f (p s).value (p s).state).state ≤ _ ∧
    ∀ s' ∈ (p s).points ++ (f (p s).value (p s).state).points, _
  refine ⟨by omega, fun s' hs' => ?_⟩
  rcases List.mem_append.mp hs' with hs' | hs'
  · have := hpoints s' hs'
    omega
  · have := hpoints' s' hs'
    omega

/-- A loop costs what its items cost. -/
theorem Costs.forM {f : α → Allocating σ Unit} {cost : α → ℕ}
    (h : ∀ a, Costs measure (f a) (cost a)) (items : List α) :
    Costs measure (items.forM f) (items.map cost).sum := by
  induction items with
  | nil => exact costs_pure ()
  | cons a items ih => exact (h a).bind fun _ => ih

/-- What a call of the program leaves behind, however it ends. -/
theorem Costs.run {p : Allocating σ α} (h : Costs measure p cost) {s : σ} {failure : Option ℕ} :
    (∀ value after, p.run s failure = .returned value after → measure after ≤ measure s + cost) ∧
      ∀ after, p.run s failure = .thrown after → measure after ≤ measure s + cost := by
  constructor
  · intro value after hrun
    rw [(run_eq_returned hrun).2]
    exact (h s).1
  · intro after hrun
    cases failure with
    | none => cases hrun
    | some k => exact (h s).2 after (List.mem_of_getElem? (run_eq_thrown.mp hrun))

end Allocating

end Leta
