namespace VersionedMap.Walk

variable {σ α : Type}

def drain (next : σ → Option α × σ) : Nat → σ → List α × σ
  | 0, s => ([], s)
  | steps + 1, s =>
    match next s with
    | (none, s) => ([], s)
    | (some item, s) =>
      let (items, s) := drain next steps s
      (item :: items, s)

def take (next : σ → Option α × σ) : Nat → σ → List (Option α)
  | 0, _ => []
  | steps + 1, s =>
    let (item?, s) := next s
    item? :: take next steps s

/-- `view` lists what `next` hands out from any state on. -/
def Shows (next : σ → Option α × σ) (view : σ → List α) : Prop :=
  ∀ s, view s = (next s).1.elim [] (· :: view (next s).2)

theorem Shows.drain {next : σ → Option α × σ} {view : σ → List α} (shows : Shows next view) :
    ∀ {steps : Nat} {s : σ}, (view s).length ≤ steps → (drain next steps s).1 = view s
  | 0, s, enough => by
    rw [List.length_eq_zero_iff.1 (Nat.le_zero.1 enough)]
    rfl
  | steps + 1, s, enough => by
    have here := shows s
    rw [Walk.drain]
    split <;> rename_i step <;> rw [step] at here
    · exact here.symm
    · rw [here] at enough ⊢
      exact congrArg _ (shows.drain (Nat.le_of_succ_le_succ enough))

/-- Stepping hands out exactly these items, and then none. -/
def Yields (next : σ → Option α × σ) (s : σ) (items : List α) : Prop :=
  ∀ steps, items.length ≤ steps → (drain next steps s).1 = items

theorem Shows.yields {next : σ → Option α × σ} {view : σ → List α} (shows : Shows next view) (s : σ) :
    Yields next s (view s) :=
  fun _ enough => shows.drain enough

end VersionedMap.Walk
