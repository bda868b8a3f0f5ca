namespace VersionedMap.Bisect

variable {α : Type}

def search (p : α → Bool) (xs : Array α) (low high : Nat) : Nat :=
  if low < high then
    if xs[(low + high) / 2]?.any p then
      search p xs ((low + high) / 2 + 1) high
    else
      search p xs low ((low + high) / 2)
  else
    low
termination_by high - low

/-- The number of elements before the first one, at or after `low`, on which `p` is false. -/
def partitionPoint (p : α → Bool) (xs : Array α) (low : Nat) : Nat :=
  search p xs low xs.size

theorem le_search (p : α → Bool) (xs : Array α) (low high : Nat) : low ≤ search p xs low high := by
  fun_induction search p xs low high <;> omega

theorem search_le (p : α → Bool) (xs : Array α) {low high : Nat} (h : low ≤ high) :
    search p xs low high ≤ high := by
  fun_induction search p xs low high with
  | case1 low high lt _ ih => exact ih (by omega)
  | case2 low high lt _ ih => have := ih (by omega); omega
  | case3 => exact h

theorem partitionPoint_le (p : α → Bool) (xs : Array α) {low : Nat} (h : low ≤ xs.size) :
    partitionPoint p xs low ≤ xs.size :=
  search_le p xs h

theorem search_spec {p : α → Bool} {xs : Array α} {low high : Nat} (h : low ≤ high) (size : high ≤ xs.size)
    (turns : ∀ i j, (lt : i < j) → (bound : j < xs.size) → p xs[j] → p xs[i])
    (before : ∀ i, (_ : i < xs.size) → i < low → p xs[i])
    (after : ∀ i, (_ : i < xs.size) → high ≤ i → ¬ p xs[i]) :
    (∀ i, (_ : i < xs.size) → i < search p xs low high → p xs[i]) ∧
      ∀ i, (_ : i < xs.size) → search p xs low high ≤ i → ¬ p xs[i] := by
  fun_induction search p xs low high with
  | case1 low high lt yes ih =>
    have inside : (low + high) / 2 < xs.size := by omega
    have holds : p xs[(low + high) / 2] := by simpa [Array.getElem?_eq_getElem inside] using yes
    refine ih (by omega) size turns (fun i bound le => ?_) after
    rcases Nat.lt_or_eq_of_le (Nat.le_of_lt_succ le) with lt | rfl
    · exact turns i _ lt inside holds
    · exact holds
  | case2 low high lt no ih =>
    have inside : (low + high) / 2 < xs.size := by omega
    have fails : ¬ p xs[(low + high) / 2] := by simpa [Array.getElem?_eq_getElem inside] using no
    refine ih (by omega) (by omega) turns before fun i bound le => ?_
    rcases Nat.lt_or_eq_of_le le with lt | rfl
    · exact fun holds => fails (turns _ i lt bound holds)
    · exact fails
  | case3 low high ge =>
    exact ⟨before, fun i bound le => after i bound (by omega)⟩

/-- The point found is where the elements on which `p` is true, counted from `low`, come to an end. -/
theorem partitionPoint_eq {p : α → Bool} {xs : Array α} (turns : xs.toList.Pairwise fun a b => p b → p a)
    {low : Nat} (h : low ≤ xs.size) (before : ∀ i, (_ : i < xs.size) → i < low → p xs[i]) :
    partitionPoint p xs low = low + ((xs.toList.drop low).takeWhile p).length := by
  obtain ⟨yes, no⟩ := search_spec h (Nat.le_refl _)
    (fun i j lt bound =>
      List.pairwise_iff_getElem.1 turns i j (by simpa using Nat.lt_trans lt bound)
        (by simpa using bound) lt)
    before (fun i bound le => absurd le (Nat.not_le_of_lt bound))
  rw [partitionPoint]
  have above := le_search p xs low xs.size
  have below := search_le p xs h
  generalize search p xs low xs.size = point at yes no above below ⊢
  have parts : xs.toList.drop low = (xs.toList.take point).drop low ++ xs.toList.drop point := by
    have reach : low ≤ (xs.toList.take point).length := by
      simp
      omega
    rw [← List.drop_append_of_le_length reach, List.take_append_drop]
  have front : ∀ a ∈ (xs.toList.take point).drop low, p a := by
    intro a mem
    obtain ⟨i, bound, rfl⟩ := List.getElem_of_mem mem
    simp at bound
    simpa using yes (low + i) (by omega) (by omega)
  have rest : (xs.toList.drop point).takeWhile p = [] := by
    cases eq : xs.toList.drop point with
    | nil => rfl
    | cons a tail =>
      have bound : point < xs.size := by
        have := congrArg List.length eq
        simp at this
        omega
      have first : xs.toList.drop point = xs.toList[point] :: xs.toList.drop (point + 1) :=
        List.drop_eq_getElem_cons (by simpa using bound)
      rw [eq, List.cons.injEq] at first
      rw [first.1]
      exact List.takeWhile_cons_of_neg (by simpa using no point bound (Nat.le_refl _))
  rw [parts, List.takeWhile_append_of_pos front, rest]
  simp
  omega

theorem take_partitionPoint {p : α → Bool} {xs : Array α} (turns : xs.toList.Pairwise fun a b => p b → p a) :
    xs.toList.take (partitionPoint p xs 0) = xs.toList.takeWhile p := by
  rw [partitionPoint_eq turns (Nat.zero_le _) (fun _ _ lt => nomatch lt), List.drop_zero, Nat.zero_add]
  exact (List.prefix_iff_eq_take.1 (List.takeWhile_prefix p)).symm

theorem drop_partitionPoint {p : α → Bool} {xs : Array α} (turns : xs.toList.Pairwise fun a b => p b → p a) :
    xs.toList.drop (partitionPoint p xs 0) = xs.toList.dropWhile p := by
  have parts := List.take_append_drop (partitionPoint p xs 0) xs.toList
  rw [take_partitionPoint turns] at parts
  exact List.append_cancel_left (parts.trans List.takeWhile_append_dropWhile.symm)

end VersionedMap.Bisect
