import LinearInverse.Text.Blank

namespace LinearInverse.Text
variable {β : Type} {p : β → Bool} {b : β}

theorem splitWhere_eq (p : β → Bool) (xs : List β) : splitWhere p xs = xs.splitOnP p := by
  induction xs with
  | nil => rw [splitWhere,List.splitOnP_nil]
  | cons x xs ih =>
    rw [splitWhere,List.splitOnP_cons_eq_if_modifyHead,ih]
    cases hs : xs.splitOnP p with
    | nil => exact absurd hs (List.splitOnP_ne_nil p xs)
    | cons t ts => rfl

theorem splitWhere_intercalate {tokens : List (List β)} (hb : p b = true) (hne : tokens ≠ [])
    (h : ∀ t ∈ tokens, ∀ x ∈ t, p x = false) : splitWhere p ([b].intercalate tokens) = tokens := by
  rw [splitWhere_eq]
  induction tokens with
  | nil => exact absurd rfl hne
  | cons t ts ih =>
    have ht := h t List.mem_cons_self
    cases ts with
    | nil =>
      rw [List.intercalate_singleton]
      exact List.splitOnP_eq_singleton ht
    | cons u us =>
      have hts := ih (List.cons_ne_nil u us) fun v hv => h v (List.mem_cons_of_mem t hv)
      rw [List.intercalate_cons_cons,List.append_assoc,List.singleton_append,
        List.splitOnP_append_cons_of_forall_mem ht b hb,hts]

theorem mem_intercalate {sep : List β} {tokens : List (List β)}
    (h : b ∈ sep.intercalate tokens) : b ∈ sep ∨ ∃ t ∈ tokens, b ∈ t := by
  induction tokens with
  | nil => exact absurd h List.not_mem_nil
  | cons t ts ih =>
    have hhead : b ∈ t → b ∈ sep ∨ ∃ t' ∈ t :: ts, b ∈ t' :=
      fun ht => .inr ⟨t,List.mem_cons_self,ht⟩
    cases ts with
    | nil =>
      rw [List.intercalate_singleton] at h
      exact hhead h
    | cons u us =>
      rw [List.intercalate_cons_cons,List.mem_append,List.mem_append] at h
      rcases h with (h | h) | h
      · exact hhead h
      · exact .inl h
      · refine (ih h).imp_right ?_
        rintro ⟨v,hv,hb⟩
        exact ⟨v,List.mem_cons_of_mem t hv,hb⟩

/-- What is put behind without a separator becomes part of the last stretch. -/
theorem exists_splitWhere_append (p : β → Bool) (xs : List β) :
    ∃ ts t, ∀ ys, (∀ y ∈ ys, p y = false) → splitWhere p (xs ++ ys) = ts ++ [t ++ ys] := by
  induction xs with
  | nil => exact ⟨[],[],fun ys h => (splitWhere_eq p ys).trans (List.splitOnP_eq_singleton h)⟩
  | cons x xs ih =>
    obtain ⟨ts,t,ht⟩ := ih
    cases hx : p x with
    | true =>
      refine ⟨[] :: ts,t,fun ys h => ?_⟩
      rw [List.cons_append,splitWhere,hx,if_pos rfl,ht ys h,List.cons_append]
    | false =>
      cases ts with
      | nil =>
        refine ⟨[],x :: t,fun ys h => ?_⟩
        rw [List.cons_append,splitWhere,hx,if_neg Bool.false_ne_true,ht ys h]
        rfl
      | cons u us =>
        refine ⟨(x :: u) :: us,t,fun ys h => ?_⟩
        rw [List.cons_append,splitWhere,hx,if_neg Bool.false_ne_true,ht ys h]
        rfl

end LinearInverse.Text
