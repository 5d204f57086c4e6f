import Mathlib.Tactic

/-! # Fallible loops and their rules

`Post P Q x` says what holds of a result and of an error. `forEach` is the range-based
loop over a cursor: it visits items until the cursor says it is finished or the body fails. -/

namespace Leta

variable {ε α β σ : Type}

/-! ## Results -/

/-- A result satisfies `P`, an error satisfies `Q`. -/
def Post (P : α → Prop) (Q : ε → Prop) : Except ε α → Prop
  | .ok a => P a
  | .error e => Q e

/-- The value of a call that must succeed. -/
def succeeds (outcome : Option α) (error : ε) : Except ε α :=
  match outcome with
  | some a => .ok a
  | none => .error error

theorem succeeds_eq_ok {outcome : Option α} {error : ε} {a : α} (h : outcome = some a) :
    succeeds outcome error = .ok a := by
  rw [h, succeeds]

theorem bind_eq_ok {x : Except ε α} {f : α → Except ε β} {a : α} {b : β} (hx : x = .ok a)
    (hf : f a = .ok b) : (x >>= f) = .ok b := by
  rw [hx]
  exact hf

namespace Post

variable {P P' : α → Prop} {Q : ε → Prop}

theorem mono {x : Except ε α} (h : Post P Q x) (himp : ∀ a, P a → P' a) : Post P' Q x := by
  cases x with
  | ok a => exact himp a h
  | error e => exact h

theorem mono_error {Q' : ε → Prop} {x : Except ε α} (h : Post P Q x) (himp : ∀ e, Q e → Q' e) :
    Post P Q' x := by
  cases x with
  | ok a => exact h
  | error e => exact himp e h

theorem bind {R : β → Prop} {x : Except ε α} {f : α → Except ε β} (h : Post P Q x)
    (hf : ∀ a, P a → Post R Q (f a)) : Post R Q (x >>= f) := by
  cases x with
  | ok a => exact hf a h
  | error e => exact h

theorem succeeds {outcome : Option α} {error : ε} (h : ∀ a, outcome = some a → P a)
    (he : Q error) : Post P Q (succeeds outcome error) := by
  cases outcome with
  | some a => exact h a rfl
  | none => exact he

theorem ok_of_eq {x : Except ε α} {a : α} (h : Post P Q x) (hx : x = .ok a) : P a := by
  subst hx
  exact h

theorem error_of_eq {x : Except ε α} {e : ε} (h : Post P Q x) (hx : x = .error e) : Q e := by
  subst hx
  exact h

end Post

/-! ## Folds -/

/-- Handling the items one by one takes the first accumulator to the second. -/
inductive Folds (handles : α → β → β → Prop) : List α → β → β → Prop where
  | nil (acc) : Folds handles [] acc acc
  | cons {item items acc mid result} : handles item acc mid → Folds handles items mid result →
      Folds handles (item :: items) acc result

theorem Folds.snoc {handles : α → β → β → Prop} {items : List α} {item : α} {acc mid result : β}
    (h : Folds handles items acc mid) (hitem : handles item mid result) :
    Folds handles (items ++ [item]) acc result := by
  induction h with
  | nil => exact .cons hitem (.nil _)
  | cons h _ ih => exact .cons h (ih hitem)

theorem folds_unit {P : α → Prop} {items : List α} {acc result : Unit} :
    Folds (fun item _ _ => P item) items acc result ↔ ∀ item ∈ items, P item := by
  refine ⟨?_, ?_⟩
  · intro h
    induction h with
    | nil => simp
    | cons h _ ih => simpa using ⟨h, ih⟩
  · intro h
    induction items with
    | nil => exact .nil _
    | cons item items ih =>
        simp only [List.mem_cons, forall_eq_or_imp] at h
        exact .cons h.1 (ih h.2)

/-- A fold whose items each append something. -/
theorem folds_append {P : α → Prop} {f : α → List β} {items : List α} {acc result : List β} :
    Folds (fun item before after => P item ∧ after = before ++ f item) items acc result ↔
      (∀ item ∈ items, P item) ∧ result = acc ++ items.flatMap f := by
  refine ⟨?_, ?_⟩
  · intro h
    induction h with
    | nil => simp
    | cons h _ ih =>
        obtain ⟨hp, rfl⟩ := h
        obtain ⟨hall, rfl⟩ := ih
        simpa using ⟨hp, hall⟩
  · rintro ⟨hall, rfl⟩
    induction items generalizing acc with
    | nil => simpa using Folds.nil acc
    | cons item items ih =>
        simp only [List.mem_cons, forall_eq_or_imp] at hall
        have htail := @ih (acc ++ f item) hall.2
        simp only [List.append_assoc] at htail
        exact .cons ⟨hall.1, rfl⟩ htail

/-- A fold whose items each append one result, as long as there is room. -/
theorem folds_room {P : α → Prop} {f : α → β} {room : ℕ} {items : List α} {acc result : List β}
    (hacc : acc.length ≤ room) :
    Folds (fun item before after => before.length ≠ room ∧ P item ∧ after = before ++ [f item])
        items acc result ↔
      acc.length + items.length ≤ room ∧ (∀ item ∈ items, P item) ∧
        result = acc ++ items.map f := by
  induction items generalizing acc with
  | nil =>
      refine ⟨?_, ?_⟩
      · rintro ⟨⟩
        simpa using hacc
      · rintro ⟨-, -, rfl⟩
        simpa using Folds.nil acc
  | cons item items ih =>
      have hlength : (acc ++ [f item]).length = acc.length + 1 := List.length_append
      refine ⟨?_, ?_⟩
      · rintro (_ | ⟨⟨hroom, hp, rfl⟩, hfolds⟩)
        obtain ⟨hle, hall, rfl⟩ := (ih (by omega)).mp hfolds
        simp only [List.length_cons, List.forall_mem_cons, List.map_cons]
        exact ⟨by omega, ⟨hp, hall⟩, by simp⟩
      · simp only [List.length_cons, List.forall_mem_cons, List.map_cons]
        rintro ⟨hle, ⟨hp, hall⟩, rfl⟩
        refine .cons ⟨by omega, hp, rfl⟩ ((ih (by omega)).mpr ⟨by omega, hall, by simp⟩)

/-! ## Range-based loops -/

/-- Where a range-based loop stands: past the last item, or at an item, which stepping may
have failed to reach. -/
inductive Step (σ α : Type) where
  | finished (state : σ)
  | yielded (item : Option α) (state : σ)

/-- `for (auto item : range)`. The loop gives up with `stuck` after `fuel` items. -/
def forEach (next : σ → Step σ α) (body : Option α → β → σ → Except ε (β × σ)) (stuck : ε) :
    ℕ → Step σ α → β → Except ε (β × σ)
  | 0, _, _ => .error stuck
  | _ + 1, .finished state, acc => .ok (acc, state)
  | fuel + 1, .yielded item state, acc => do
      let (acc, state) ← body item acc state
      forEach next body stuck fuel (next state) acc

section Rule

variable (next : σ → Step σ α) (body : Option α → β → σ → Except ε (β × σ)) (stuck : ε)

variable {next body stuck} in
theorem forEach_yielded {item : Option α} {state state' : σ} {acc acc' : β} {fuel : ℕ}
    (h : body item acc state = .ok (acc', state')) :
    forEach next body stuck (fuel + 1) (.yielded item state) acc =
      forEach next body stuck fuel (next state') acc' := by
  rw [forEach, h]
  rfl

/-- The loop rule. `P` holds at every step, `size` bounds the steps to come, and `R` relates
a step to the result of the loop from there on. -/
theorem forEach_post {P : Step σ α → β → Prop} {R : Step σ α → β → β × σ → Prop} {Q : ε → Prop}
    (size : Step σ α → ℕ)
    (finished : ∀ state acc, P (.finished state) acc → R (.finished state) acc (acc, state))
    (yielded : ∀ item state acc, P (.yielded item state) acc →
      Post (fun reached => P (next reached.2) reached.1 ∧
        size (next reached.2) < size (.yielded item state) ∧
        ∀ result, R (next reached.2) reached.1 result → R (.yielded item state) acc result)
        Q (body item acc state)) :
    ∀ fuel step acc, size step < fuel → P step acc →
      Post (R step acc) Q (forEach next body stuck fuel step acc) := by
  intro fuel
  induction fuel with
  | zero =>
      intro step acc hsize
      omega
  | succ fuel ih =>
      intro step acc hsize hpre
      cases step with
      | finished state => exact finished state acc hpre
      | yielded item state =>
          refine Post.bind (yielded item state acc hpre) ?_
          rintro ⟨acc', state'⟩ ⟨hpre', hlt, hresult⟩
          exact Post.mono (ih _ _ (hlt.trans_le (Nat.le_of_lt_succ hsize)) hpre') hresult

end Rule

end Leta
