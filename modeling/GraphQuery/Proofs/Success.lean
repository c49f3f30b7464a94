import Mathlib.Data.List.Forall2

/-! What must have succeeded if a computation that can fail has succeeded. -/

namespace GraphQuery.Except

variable {ε δ α β γ : Type}

@[simp] theorem ok_bind (value : α) (next : α → Except ε β) : (.ok value >>= next) = next value :=
  rfl

theorem eq_ok_of_mapError {convert : ε → δ} {result : Except ε α}
    {value : α} (same : result.mapError convert = .ok value) : result = .ok value := by
  cases result with
  | error fault => cases same
  | ok found =>
      cases same
      rfl

theorem exists_of_mapError {convert : ε → δ} {result : Except ε α} {fault : δ}
    (failed : result.mapError convert = .error fault) :
    ∃ cause, result = .error cause ∧ convert cause = fault := by
  cases result with
  | error cause =>
      cases failed
      exact ⟨cause, rfl, rfl⟩
  | ok found => cases failed

theorem eq_ok_of_toOption {result : Except ε α} {value : α}
    (same : result.toOption = some value) : result = .ok value := by
  cases result with
  | error fault => cases same
  | ok found =>
      cases same
      rfl

theorem exists_of_bind {first : Except ε α} {next : α → Except ε β}
    {value : β} (done : (first >>= next) = .ok value) :
    ∃ between, first = .ok between ∧ next between = .ok value := by
  cases first with
  | error fault => cases done
  | ok between => exact ⟨between, rfl, done⟩

theorem of_bind_error {first : Except ε α} {next : α → Except ε β} {fault : ε}
    (failed : (first >>= next) = .error fault) :
    first = .error fault ∨ ∃ between, first = .ok between ∧ next between = .error fault := by
  cases first with
  | error other =>
      cases failed
      exact .inl rfl
  | ok between => exact .inr ⟨between, rfl, failed⟩

theorem exists_of_map {convert : α → β} {result : Except ε α} {value : β}
    (done : result.map convert = .ok value) :
    ∃ found, result = .ok found ∧ convert found = value := by
  cases result with
  | error fault => cases done
  | ok found =>
      cases done
      exact ⟨found, rfl, rfl⟩

theorem exists_of_mapM {step : α → Except ε β} {items : List α} {results : List β}
    (done : items.mapM step = .ok results) :
    ∀ result ∈ results, ∃ item ∈ items, step item = .ok result := by
  induction items generalizing results with
  | nil =>
      cases done
      simp
  | cons item rest induction =>
      rw [List.mapM_cons] at done
      rcases exists_of_bind done with ⟨first, head, done⟩
      rcases exists_of_bind done with ⟨others, tail, same⟩
      cases same
      intro result member
      rcases List.mem_cons.mp member with rfl | member
      · exact ⟨item, List.mem_cons_self, head⟩
      · rcases induction tail result member with ⟨source, inside, succeeds⟩
        exact ⟨source, List.mem_cons_of_mem item inside, succeeds⟩

theorem forall₂_of_mapM {step : α → Except ε β} {items : List α} {results : List β}
    (done : items.mapM step = .ok results) :
    List.Forall₂ (fun item result => step item = .ok result) items results := by
  induction items generalizing results with
  | nil =>
      cases done
      exact .nil
  | cons item rest induction =>
      rw [List.mapM_cons] at done
      rcases exists_of_bind done with ⟨first, head, done⟩
      rcases exists_of_bind done with ⟨others, tail, same⟩
      cases same
      exact .cons head (induction tail)

theorem eq_ok_of_forM {step : α → Except ε Unit} {items : List α} (done : items.forM step = .ok ())
    {item : α} (member : item ∈ items) : step item = .ok () := by
  induction items with
  | nil => cases member
  | cons first rest induction =>
      obtain ⟨⟨⟩, head, tail⟩ := exists_of_bind done
      rcases List.mem_cons.mp member with rfl | member
      · exact head
      · exact induction tail member

theorem forM_eq_ok {step : α → Except ε Unit} {items : List α}
    (done : ∀ item ∈ items, step item = .ok ()) : items.forM step = .ok () := by
  induction items with
  | nil => rfl
  | cons first rest induction =>
      rw [List.forall_mem_cons] at done
      rw [List.forM, done.1, ok_bind, induction done.2]

theorem exists_of_mapM_error {step : α → Except ε β} {items : List α} {fault : ε}
    (failed : items.mapM step = .error fault) : ∃ item ∈ items, step item = .error fault := by
  induction items with
  | nil => cases failed
  | cons first rest induction =>
      rw [List.mapM_cons] at failed
      rcases of_bind_error failed with head | ⟨_, _, failed⟩
      · exact ⟨first, List.mem_cons_self, head⟩
      rcases of_bind_error failed with tail | ⟨_, _, failed⟩
      · obtain ⟨item, inside, fails⟩ := induction tail
        exact ⟨item, List.mem_cons_of_mem first inside, fails⟩
      · cases failed

theorem eq_error_of_map {convert : α → β} {result : Except ε α} {fault : ε}
    (failed : result.map convert = .error fault) : result = .error fault := by
  cases result with
  | error other =>
      cases failed
      rfl
  | ok found => cases failed

/-! ## Computations that succeed alike -/

theorem toOption_eq_some_iff {result : Except ε α} {value : α} :
    result.toOption = some value ↔ result = .ok value := by
  cases result <;> simp [Except.toOption]

theorem toOption_map (convert : α → β) (result : Except ε α) :
    (result.map convert).toOption = result.toOption.map convert := by
  cases result <;> rfl

theorem toOption_bind (first : Except ε α) (next : α → Except ε β) :
    (first >>= next).toOption = first.toOption.bind fun value => (next value).toOption := by
  cases first <;> rfl

theorem toOption_mapM {step : α → Except ε β} {other : γ → Except ε β}
    {items : List α} {others : List γ}
    (alike : List.Forall₂ (fun item second => (step item).toOption = (other second).toOption)
      items others) :
    (items.mapM step).toOption = (others.mapM other).toOption := by
  induction alike with
  | nil => rfl
  | cons same _ induction =>
      simp only [List.mapM_cons, toOption_bind, same, induction]

theorem toOption_mapM_between {step : α → Except ε β} (before : List α) (item : α)
    (after : List α) :
    ((before ++ item :: after).mapM step).toOption =
      (before.mapM step).toOption.bind fun heads => (step item).toOption.bind fun value =>
        (after.mapM step).toOption.map fun tails => heads ++ value :: tails := by
  simp only [List.mapM_append, List.mapM_cons, toOption_bind]
  cases (before.mapM step).toOption <;> cases (step item).toOption <;>
    cases (after.mapM step).toOption <;> rfl

end GraphQuery.Except
