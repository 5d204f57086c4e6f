import Mathlib.Tactic
import Mathlib.Data.List.TakeWhile

/-! # Maximal runs between separators -/

namespace Leta

variable {α : Type} {p : α → Bool}

/-- The non-empty pieces of a text between its separators, in order. -/
def words (p : α → Bool) (text : List α) : List (List α) :=
  (text.splitOnP p).filter fun word => !word.isEmpty

@[simp] theorem words_nil : words p [] = [] := by simp [words]

theorem words_word {word : List α} (h : ∀ a ∈ word, p a = false) (hne : word ≠ []) :
    words p word = [word] := by
  simp [words, List.splitOnP_eq_singleton h, hne]

/-- Words end at a separator. -/
theorem words_append_cons (text rest : List α) {separator : α} (h : p separator) :
    words p (text ++ separator :: rest) = words p text ++ words p rest := by
  rw [words, List.splitOnP_append_cons _ _ h, List.filter_append]
  rfl

theorem words_cons_separator {separator : α} (h : p separator) (rest : List α) :
    words p (separator :: rest) = words p rest := by
  simpa using words_append_cons [] rest h

theorem words_dropWhile (text : List α) : words p (text.dropWhile p) = words p text := by
  induction text with
  | nil => rfl
  | cons a text ih =>
      cases ha : p a with
      | true => rw [List.dropWhile_cons_of_pos ha, ih, words_cons_separator ha]
      | false => rw [List.dropWhile_cons_of_neg (by simp [ha])]

/-- A text that starts inside a word starts with the word. -/
theorem words_takeWhile {a : α} (h : p a = false) (text : List α) :
    words p (a :: text) = (a :: text).takeWhile (fun b => !p b) ::
      words p ((a :: text).dropWhile fun b => !p b) := by
  have hword : ∀ b ∈ (a :: text).takeWhile fun b => !p b, p b = false := by
    intro b hb
    simpa using List.mem_takeWhile_imp hb
  have hne : (a :: text).takeWhile (fun b => !p b) ≠ [] := by simp [h]
  have hsplit := List.takeWhile_append_dropWhile (p := fun b => !p b) (l := a :: text)
  cases hrest : (a :: text).dropWhile fun b => !p b with
  | nil =>
      rw [hrest, List.append_nil] at hsplit
      rw [words_nil, ← words_word hword hne, hsplit]
  | cons separator rest =>
      have hseparator : p separator := by
        have := List.head_dropWhile_not (fun b => !p b) (l := a :: text) (by simp [hrest])
        simpa [hrest] using this
      have happend := words_append_cons ((a :: text).takeWhile fun b => !p b) rest hseparator
      rw [hrest] at hsplit
      rw [hsplit, words_word hword hne] at happend
      rw [words_cons_separator hseparator]
      exact happend

/-- A word that could not be longer on either side. -/
structure IsMaximalRun (p : α → Bool) (text word : List α) : Prop where
  ne_nil : word ≠ []
  inside : ∀ a ∈ word, p a = false
  bounded : ∃ before after, text = before ++ (word ++ after) ∧
    (∀ a ∈ before.getLast?, p a) ∧ ∀ a ∈ after.head?, p a

theorem IsMaximalRun.append_left {text word : List α} (h : IsMaximalRun p text word)
    (front : List α) {separator : α} (hseparator : p separator) :
    IsMaximalRun p (front ++ separator :: text) word := by
  obtain ⟨hne, hinside, before, after, rfl, hbefore, hafter⟩ := h
  refine ⟨hne, hinside, front ++ separator :: before, after, by simp, ?_, hafter⟩
  cases before with
  | nil => simpa using hseparator
  | cons b before => simpa [List.getLast?_append, List.getLast?_cons_cons] using hbefore

theorem isMaximalRun_of_mem_words {text word : List α} (h : word ∈ words p text) :
    IsMaximalRun p text word := by
  induction hlength : text.length using Nat.strong_induction_on generalizing text with
  | _ n ih =>
      by_cases hseparator : ∃ separator ∈ text, p separator
      · obtain ⟨separator, hmem, hseparator⟩ := hseparator
        obtain ⟨front, rest, rfl⟩ := List.append_of_mem hmem
        rw [words_append_cons _ _ hseparator, List.mem_append] at h
        simp only [List.length_append, List.length_cons] at hlength
        rcases h with h | h
        · obtain ⟨hne, hinside, before, after, rfl, hbefore, hafter⟩ :=
            ih front.length (by omega) h rfl
          refine ⟨hne, hinside, before, after ++ separator :: rest, by simp, hbefore, ?_⟩
          cases after with
          | nil => simpa using hseparator
          | cons a after => simpa using hafter
        · exact (ih rest.length (by omega) h rfl).append_left front hseparator
      · push Not at hseparator
        have hinside : ∀ a ∈ text, p a = false := fun a ha => by simpa using hseparator a ha
        by_cases hne : text = []
        · simp [hne] at h
        · obtain rfl := List.mem_singleton.mp ((words_word hinside hne) ▸ h)
          exact ⟨hne, hinside, [], [], by simp, by simp, by simp⟩

/-- The words of a text are its maximal runs without separators. -/
theorem mem_words_iff {text word : List α} : word ∈ words p text ↔ IsMaximalRun p text word := by
  refine ⟨isMaximalRun_of_mem_words, ?_⟩
  rintro ⟨hne, hinside, before, after, rfl, hbefore, hafter⟩
  have hword : word ∈ words p (word ++ after) := by
    cases after with
    | nil => simp [words_word hinside hne]
    | cons separator after =>
        rw [words_append_cons _ _ (hafter separator rfl), words_word hinside hne]
        simp
  rcases List.eq_nil_or_concat before with rfl | ⟨front, separator, rfl⟩
  · exact hword
  · rw [List.concat_eq_append, List.append_assoc, List.singleton_append,
      words_append_cons _ _ (hbefore separator (by simp))]
    exact List.mem_append_right _ hword

/-! ### The words of a text in order -/

theorem words_separators_append {gap : List α} (h : ∀ a ∈ gap, p a) (text : List α) :
    words p (gap ++ text) = words p text := by
  induction gap with
  | nil => rfl
  | cons a gap ih =>
      simp only [List.forall_mem_cons] at h
      rw [List.cons_append, words_cons_separator h.1, ih h.2]

theorem words_separators {gap : List α} (h : ∀ a ∈ gap, p a) : words p gap = [] := by
  simpa using words_separators_append h []

/-- A text is gaps of separators with words between them. -/
inductive Runs (p : α → Bool) : List α → List (List α) → Prop
  | gap {gap : List α} (hgap : ∀ a ∈ gap, p a) : Runs p gap []
  | word {gap word rest : List α} {pieces : List (List α)} (hgap : ∀ a ∈ gap, p a)
      (hne : word ≠ []) (hinside : ∀ a ∈ word, p a = false) (hrest : ∀ a ∈ rest.head?, p a)
      (h : Runs p rest pieces) : Runs p (gap ++ (word ++ rest)) (word :: pieces)

theorem Runs.eq_words {text : List α} {pieces : List (List α)} (h : Runs p text pieces) :
    pieces = words p text := by
  induction h with
  | gap hgap => rw [words_separators hgap]
  | @word gap word rest pieces hgap hne hinside hrest _ ih =>
      rw [words_separators_append hgap]
      cases rest with
      | nil => simp [ih, words_word hinside hne]
      | cons separator rest =>
          rw [words_append_cons _ _ (hrest separator rfl), words_word hinside hne, ih,
            words_cons_separator (hrest separator rfl)]
          rfl

theorem exists_runs (text : List α) : ∃ pieces, Runs p text pieces := by
  induction text with
  | nil => exact ⟨[], .gap (by simp)⟩
  | cons a text ih =>
      obtain ⟨pieces, hpieces⟩ := ih
      cases ha : p a with
      | true =>
          cases hpieces with
          | gap hgap => exact ⟨[], .gap (by simpa [ha] using hgap)⟩
          | @word gap word rest pieces hgap hne hinside hrest h =>
              have hmore : ∀ b ∈ a :: gap, p b := by simpa [ha] using hgap
              exact ⟨word :: pieces, .word hmore hne hinside hrest h⟩
      | false =>
          cases hpieces with
          | gap hgap =>
              have hinside : ∀ b ∈ [a], p b = false := by simpa using ha
              refine ⟨[[a]], .word (List.forall_mem_nil _) (by simp) hinside ?_ (.gap hgap)⟩
              intro b hb
              exact hgap b (List.mem_of_mem_head? hb)
          | @word gap word rest pieces hgap hne hinside hrest h =>
              cases gap with
              | nil =>
                  -- The byte is the first one of the word behind it.
                  have hmore : ∀ b ∈ a :: word, p b = false := by simpa [ha] using hinside
                  exact ⟨(a :: word) :: pieces,
                    .word (List.forall_mem_nil _) (by simp) hmore hrest h⟩
              | cons b gap =>
                  have hsingle : ∀ c ∈ [a], p c = false := by simpa using ha
                  refine ⟨[a] :: word :: pieces, .word (List.forall_mem_nil _) (by simp) hsingle ?_
                    (.word hgap hne hinside hrest h)⟩
                  simpa using hgap b (by simp)

/-- The words of a text are the one way to write it as words between gaps. -/
theorem runs_iff {text : List α} {pieces : List (List α)} :
    Runs p text pieces ↔ pieces = words p text := by
  refine ⟨Runs.eq_words, ?_⟩
  rintro rfl
  obtain ⟨pieces, h⟩ := exists_runs (p := p) text
  exact h.eq_words ▸ h

/-- Nothing but separators is lost. -/
theorem flatten_words (text : List α) : (words p text).flatten = text.filter fun a => !p a := by
  have h : Runs p text (words p text) := runs_iff.mpr rfl
  generalize words p text = pieces at h
  induction h with
  | gap hgap => simpa [List.filter_eq_nil_iff] using hgap
  | @word gap word rest pieces hgap _ hinside _ _ ih =>
      have hnone : gap.filter (fun a => !p a) = [] := by
        simpa [List.filter_eq_nil_iff] using hgap
      have hall : word.filter (fun a => !p a) = word := by
        simpa [List.filter_eq_self] using hinside
      rw [List.flatten_cons, ih, List.filter_append, List.filter_append, hnone, hall]
      rfl

/-- Texts that are kept apart by separators have their words one after the other. -/
theorem words_append_separators (front back : List α) {gap : List α} (hne : gap ≠ [])
    (h : ∀ a ∈ gap, p a) : words p (front ++ gap ++ back) = words p front ++ words p back := by
  obtain ⟨separator, gap, rfl⟩ := List.exists_cons_of_ne_nil hne
  simp only [List.forall_mem_cons] at h
  rw [List.append_assoc, List.cons_append, words_append_cons _ _ h.1, words_separators_append h.2]

theorem words_intercalate {separator : α} (h : p separator) {pieces : List (List α)}
    (hpieces : ∀ word ∈ pieces, word ≠ [] ∧ ∀ a ∈ word, p a = false) :
    words p (List.intercalate [separator] pieces) = pieces := by
  induction pieces with
  | nil => rfl
  | cons word pieces ih =>
      simp only [List.forall_mem_cons] at hpieces
      obtain ⟨⟨hne, hinside⟩, hpieces⟩ := hpieces
      cases pieces with
      | nil => simpa using words_word hinside hne
      | cons next pieces =>
          rw [List.intercalate_cons_cons, List.append_assoc, List.singleton_append,
            words_append_cons _ _ h, words_word hinside hne, ih hpieces]
          rfl

/-- Words are kept apart, so each of them takes an item more than its own. -/
theorem length_words_le (text : List α) :
    ((words p text).map fun word => word.length + 1).sum ≤ text.length + 1 := by
  have h : Runs p text (words p text) := runs_iff.mpr rfl
  generalize words p text = pieces at h
  -- What begins with a separator has room for all of its words.
  have hroom : (pieces.map fun word => word.length + 1).sum ≤ text.length + 1 ∧
      ((∀ a ∈ text.head?, p a) → (pieces.map fun word => word.length + 1).sum ≤ text.length) := by
    induction h with
    | gap _ => simp
    | @word gap word rest pieces hgap hne hinside hrest _ ih =>
        have hpieces := ih.2 hrest
        simp only [List.map_cons, List.sum_cons, List.length_append]
        refine ⟨by omega, fun hhead => ?_⟩
        cases gap with
        | nil =>
            obtain ⟨a, word, rfl⟩ := List.exists_cons_of_ne_nil hne
            have hseparator := hhead a rfl
            rw [hinside a List.mem_cons_self] at hseparator
            cases hseparator
        | cons a gap =>
            simp only [List.length_cons]
            omega
  exact hroom.1

end Leta
