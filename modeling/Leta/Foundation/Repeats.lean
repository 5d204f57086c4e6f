import Mathlib.Tactic
import Mathlib.Data.List.Destutter

/-! # Lists without a value twice in a row -/

namespace Leta

variable {α : Type*} [DecidableEq α]

/-- The list with the value at its end, where it may be already. -/
def endWith (values : List α) (value : α) : List α :=
  if values.getLast? = some value then values else values ++ [value]

theorem mem_endWith {values : List α} {value other : α} :
    other ∈ endWith values value ↔ other ∈ values ∨ other = value := by
  rw [endWith]
  split_ifs with hlast
  · rw [iff_self_or]
    rintro rfl
    exact List.mem_of_getLast? hlast
  · simp

theorem prefix_endWith (values : List α) (value : α) : values <+: endWith values value := by
  rw [endWith]
  split_ifs
  · exact List.prefix_rfl
  · exact List.prefix_append _ _

@[simp] theorem getLast?_endWith (values : List α) (value : α) :
    (endWith values value).getLast? = some value := by
  rw [endWith]
  split_ifs with hlast
  · exact hlast
  · simp

theorem endWith_of_getLast? {values : List α} {value : α} (h : values.getLast? = some value) :
    endWith values value = values :=
  if_pos h

theorem endWith_of_ne {values : List α} {value : α} (h : values.getLast? ≠ some value) :
    endWith values value = values ++ [value] :=
  if_neg h

theorem endWith_cons {first : α} {values : List α} (h : values ≠ []) (value : α) :
    endWith (first :: values) value = first :: endWith values value := by
  have hlast : (first :: values).getLast? = values.getLast? := by
    rw [List.getLast?_cons, List.getLast?_eq_some_getLast h, Option.getD_some]
  rw [endWith, endWith, hlast]
  split_ifs <;> rfl

theorem destutter'_concat (first : α) (values : List α) (value : α) :
    (values ++ [value]).destutter' (· ≠ ·) first =
      endWith (values.destutter' (· ≠ ·) first) value := by
  induction values generalizing first with
  | nil =>
      by_cases h : first = value
      · simp [endWith, h]
      · simp [endWith, h]
  | cons next values ih =>
      rw [List.cons_append]
      by_cases h : first = next
      · subst h
        rw [List.destutter'_cons_neg _ (by simp), List.destutter'_cons_neg _ (by simp)]
        exact ih first
      · rw [List.destutter'_cons_pos _ h, List.destutter'_cons_pos _ h, ih,
          endWith_cons (List.destutter'_ne_nil _ _)]

/-- One more value, without repeating the last one. -/
theorem destutter_concat (values : List α) (value : α) :
    (values ++ [value]).destutter (· ≠ ·) = endWith (values.destutter (· ≠ ·)) value := by
  cases values with
  | nil => rfl
  | cons first values => exact destutter'_concat first values value

theorem mem_destutter {values : List α} {value : α} :
    value ∈ values.destutter (· ≠ ·) ↔ value ∈ values := by
  induction values using List.reverseRecOn with
  | nil => rfl
  | append_singleton values last ih => rw [destutter_concat, mem_endWith, ih, List.mem_append,
      List.mem_singleton]

end Leta
