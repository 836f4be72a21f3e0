import ApiDocs.Effect
/-!
# Computations with effects

A computation of several steps succeeds exactly when each step does, in the state that the steps
before it left. What each step keeps of the state is kept by the whole, also when it fails.
-/
namespace ApiDocs.Effect

variable {ε σ α β : Type} {state state' : σ}

theorem bind_eq_ok_iff {act : EStateM ε σ α} {next : α → EStateM ε σ β} {b : β} :
    (act >>= next) state = .ok b state' ↔
      ∃ a middle, act state = .ok a middle ∧ next a middle = .ok b state' := by
  simp only [bind, EStateM.bind]
  cases act state with
  | ok a middle => simp [and_assoc]
  | error e middle => simp

theorem pure_eq_ok_iff {a b : α} :
    (pure a : EStateM ε σ α) state = .ok b state' ↔ a = b ∧ state = state' := by
  simp [pure, EStateM.pure]

theorem get_eq_ok_iff {found : σ} :
    (get : EStateM ε σ σ) state = .ok found state' ↔ found = state ∧ state' = state := by
  change EStateM.Result.ok state state = .ok found state' ↔ _
  simp [eq_comm]

theorem set_eq_ok_iff {written : σ} :
    (set written : EStateM ε σ PUnit) state = .ok ⟨⟩ state' ↔ state' = written := by
  change EStateM.Result.ok _ written = .ok _ state' ↔ _
  simp [eq_comm]

theorem throw_ne_ok {e : ε} {b : α} : (throw e : EStateM ε σ α) state ≠ .ok b state' := by
  change EStateM.Result.error e state ≠ _
  simp

theorem lift_eq_ok_iff {result : Except Error α} {a : α} :
    (liftM result : Effect σ α) state = .ok a state' ↔ result = .ok a ∧ state = state' := by
  cases result with
  | ok b => exact pure_eq_ok_iff.trans (and_congr_left' (by simp))
  | error e => exact iff_of_false throw_ne_ok (by simp)

theorem bind_eq_error_iff {act : EStateM ε σ α} {next : α → EStateM ε σ β} {e : ε} :
    (act >>= next) state = .error e state' ↔ act state = .error e state' ∨
      ∃ a middle, act state = .ok a middle ∧ next a middle = .error e state' := by
  simp only [bind, EStateM.bind]
  cases act state with
  | ok a middle => simp [and_assoc]
  | error e middle => simp

theorem pure_ne_error {a : α} {e : ε} : (pure a : EStateM ε σ α) state ≠ .error e state' := by
  simp [pure, EStateM.pure]

theorem throw_eq_error_iff {thrown e : ε} :
    (throw thrown : EStateM ε σ α) state = .error e state' ↔ thrown = e ∧ state = state' := by
  change EStateM.Result.error thrown state = .error e state' ↔ _
  simp

theorem lift_eq_error_iff {result : Except Error α} {e : Error} :
    (liftM result : Effect σ α) state = .error e state' ↔ result = .error e ∧ state = state' := by
  cases result with
  | ok b => exact iff_of_false pure_ne_error (by simp)
  | error thrown => exact throw_eq_error_iff.trans (and_congr_left' (by simp))

theorem exists_eq_error_iff {act : EStateM ε σ α} :
    (∃ e state', act state = .error e state') ↔ ¬ ∃ a state', act state = .ok a state' := by
  cases act state <;> simp

theorem tryCatch_of_ok {act : EStateM ε σ α} {handle : ε → EStateM ε σ α} {a : α}
    (h : act state = .ok a state') : tryCatch act handle state = .ok a state' := by
  change EStateM.tryCatch act handle state = _
  delta EStateM.tryCatch
  rw [h]

theorem tryCatch_of_error {act : EStateM ε σ α} {handle : ε → EStateM ε σ α} {e : ε}
    (h : act state = .error e state') : tryCatch act handle state = handle e state' := by
  change EStateM.tryCatch act handle state = _
  delta EStateM.tryCatch
  rw [h]
  rfl

theorem tryCatch_eq_ok_iff {act : EStateM ε σ α} {handle : ε → EStateM ε σ α} {a : α} :
    tryCatch act handle state = .ok a state' ↔ act state = .ok a state' ∨
      ∃ e middle, act state = .error e middle ∧ handle e middle = .ok a state' := by
  cases hrun : act state with
  | ok b middle => simp [tryCatch_of_ok hrun]
  | error e middle => simp [tryCatch_of_error hrun, and_assoc]

section Attempt

variable {act : Effect σ α} {next : α → Effect σ β} {middle : σ}

theorem attempt_eq_ok_iff {a : α} :
    act.attempt state = (.ok a, state') ↔ act state = .ok a state' := by
  rw [attempt]
  cases act state <;> simp

theorem attempt_eq_error_iff {e : Error} :
    act.attempt state = (.error e, state') ↔ act state = .error e state' := by
  rw [attempt]
  cases act state <;> simp

theorem attempt_bind_of_ok {a : α} (h : act state = .ok a middle) :
    attempt (act >>= next) state = attempt (next a) middle := by
  simp only [attempt, Bind.bind, EStateM.bind, h]

theorem attempt_bind_of_error {e : Error} (h : act state = .error e state') :
    attempt (act >>= next) state = (.error e, state') :=
  attempt_eq_error_iff.mpr (bind_eq_error_iff.mpr (.inl h))

theorem attempt_lift_bind (result : Except Error α) (next : α → Effect σ β) (state : σ) :
    attempt (liftM result >>= next) state = match result with
      | .ok a => (next a).attempt state
      | .error e => (.error e, state) := by
  cases result <;> rfl

theorem attempt_bind_pure (act : Effect σ α) (f : α → β) (state : σ) :
    attempt (act >>= fun a => pure (f a)) state =
      ((act.attempt state).1.map f, (act.attempt state).2) := by
  cases hact : act state with
  | ok a middle =>
    rw [attempt_bind_of_ok hact, attempt_eq_ok_iff.mpr hact]
    rfl
  | error e middle =>
    rw [attempt_bind_of_error hact, attempt_eq_error_iff.mpr hact]
    rfl

end Attempt

def succeeds (act : EStateM ε σ α) (state : σ) : Bool :=
  match act state with
  | .ok _ _ => true
  | .error _ _ => false

theorem exists_of_succeeds (act : EStateM ε σ α) (state : σ) (h : succeeds act state) :
    ∃ a state', act state = .ok a state' := by
  unfold succeeds at h
  split at h
  · next a state' hrun => exact ⟨a, state', hrun⟩
  · cases h

/-- Whether a computation succeeds in a state that passes a check. -/
def reaches (act : EStateM ε σ α) (state : σ) (check : σ → Bool) : Bool :=
  match act state with
  | .ok _ state' => check state'
  | .error _ _ => false

theorem exists_of_reaches (act : EStateM ε σ α) (state : σ) (check : σ → Bool)
    (h : reaches act state check) : ∃ a state', act state = .ok a state' ∧ check state' := by
  unfold reaches at h
  split at h
  · next a state' hrun => exact ⟨a, state', hrun, h⟩
  · cases h

/-- The state in which a computation ends, whether or not it succeeds. -/
def final : EStateM.Result ε σ α → σ
  | .ok _ state => state
  | .error _ state => state

/-- How a computation ends, apart from its state. -/
def outcome : EStateM.Result ε σ α → Except ε α
  | .ok a _ => .ok a
  | .error e _ => .error e

/-- A computation that leaves every state as it was. -/
def ReadOnly (act : EStateM ε σ α) : Prop :=
  ∀ state, final (act state) = state

theorem readOnly_pure (a : α) : ReadOnly (pure a : EStateM ε σ α) :=
  fun _ => rfl

theorem readOnly_throw (e : ε) : ReadOnly (throw e : EStateM ε σ α) :=
  fun _ => rfl

theorem readOnly_get : ReadOnly (get : EStateM ε σ σ) :=
  fun _ => rfl

theorem readOnly_lift (result : Except Error α) : ReadOnly (liftM result : Effect σ α) := by
  cases result with
  | ok a => exact readOnly_pure a
  | error e => exact readOnly_throw e

theorem final_bind {act : EStateM ε σ α} {next : α → EStateM ε σ β}
    (h : final (act state) = state)
    (hnext : ∀ a, act state = .ok a state → final (next a state) = state) :
    final ((act >>= next) state) = state := by
  simp only [Bind.bind, EStateM.bind]
  cases hrun : act state with
  | ok a middle =>
    rw [hrun] at h
    obtain rfl : middle = state := h
    exact hnext a hrun
  | error e middle =>
    rw [hrun] at h
    exact h

theorem final_tryCatch {act : EStateM ε σ α} {handle : ε → EStateM ε σ α}
    (h : final (act state) = state) (hhandle : ∀ e, ReadOnly (handle e)) :
    final (tryCatch act handle state) = state := by
  cases hrun : act state with
  | ok a middle =>
    rw [hrun] at h
    rw [tryCatch_of_ok hrun]
    exact h
  | error e middle =>
    rw [hrun] at h
    obtain rfl : middle = state := h
    rw [tryCatch_of_error hrun]
    exact hhandle e middle

theorem ReadOnly.bind {act : EStateM ε σ α} {next : α → EStateM ε σ β} (h : ReadOnly act)
    (hnext : ∀ a, ReadOnly (next a)) : ReadOnly (act >>= next) :=
  fun state => final_bind (h state) fun a _ => hnext a state

theorem ReadOnly.bind_eq_ok_iff {act : EStateM ε σ α} {next : α → EStateM ε σ β}
    (h : ReadOnly act) {b : β} : (act >>= next) state = .ok b state' ↔
      ∃ a, act state = .ok a state ∧ next a state = .ok b state' := by
  rw [Effect.bind_eq_ok_iff]
  constructor
  · intro ⟨a, middle, hact, hnext⟩
    have hmiddle := h state
    rw [hact] at hmiddle
    obtain rfl : middle = state := hmiddle
    exact ⟨a, hact, hnext⟩
  · intro ⟨a, hact, hnext⟩
    exact ⟨a, state, hact, hnext⟩

theorem ReadOnly.eq_ok_iff {act : EStateM ε σ α} (h : ReadOnly act) {a : α} :
    act state = .ok a state ↔ outcome (act state) = .ok a := by
  have hstate := h state
  cases hact : act state with
  | ok b middle =>
    rw [hact] at hstate
    obtain rfl : middle = state := hstate
    simp [outcome]
  | error e middle => simp [outcome]

theorem ReadOnly.eq_error_iff {act : EStateM ε σ α} (h : ReadOnly act) {e : ε} :
    act state = .error e state' ↔ outcome (act state) = .error e ∧ state' = state := by
  have hstate := h state
  cases hact : act state with
  | ok a middle => simp [outcome]
  | error thrown middle =>
    rw [hact] at hstate
    obtain rfl : middle = state := hstate
    simp [outcome, eq_comm]

theorem ReadOnly.bind_eq_error_iff {act : EStateM ε σ α} {next : α → EStateM ε σ β}
    (h : ReadOnly act) {e : ε} : (act >>= next) state = .error e state' ↔
      act state = .error e state' ∨
        ∃ a, act state = .ok a state ∧ next a state = .error e state' := by
  rw [Effect.bind_eq_error_iff]
  refine or_congr_right ⟨?_, fun ⟨a, hact, hnext⟩ => ⟨a, state, hact, hnext⟩⟩
  intro ⟨a, middle, hact, hnext⟩
  have hmiddle := h state
  rw [hact] at hmiddle
  obtain rfl : middle = state := hmiddle
  exact ⟨a, hact, hnext⟩

/-- Whatever becomes of a computation, the state that it leaves is related to the one it found. -/
def Respects (r : σ → σ → Prop) (act : EStateM ε σ α) : Prop :=
  ∀ state, r state (final (act state))

section Respects

variable {r : σ → σ → Prop}

theorem ReadOnly.respects {act : EStateM ε σ α} (h : ReadOnly act)
    (hrefl : ∀ state, r state state) : Respects r act := by
  intro state
  rw [h state]
  exact hrefl state

theorem Respects.bind {act : EStateM ε σ α} {next : α → EStateM ε σ β} (h : Respects r act)
    (htrans : ∀ a b c, r a b → r b c → r a c)
    (hnext : ∀ state a middle, act state = .ok a middle → Respects r (next a)) :
    Respects r (act >>= next) := by
  intro state
  have hact := h state
  simp only [Bind.bind, EStateM.bind]
  cases hrun : act state with
  | ok a middle =>
    rw [hrun] at hact
    exact htrans _ _ _ hact (hnext state a middle hrun middle)
  | error e middle =>
    rw [hrun] at hact
    exact hact

/-- A computation that only reads does not count. -/
theorem ReadOnly.respects_bind {act : EStateM ε σ α} {next : α → EStateM ε σ β} (h : ReadOnly act)
    (hrefl : ∀ state, r state state)
    (hnext : ∀ state a, act state = .ok a state → Respects r (next a)) :
    Respects r (act >>= next) := by
  intro state
  have hact := h state
  simp only [Bind.bind, EStateM.bind]
  cases hrun : act state with
  | ok a middle =>
    rw [hrun] at hact
    obtain rfl : middle = state := hact
    exact hnext middle a hrun middle
  | error e middle =>
    rw [hrun] at hact
    obtain rfl : middle = state := hact
    exact hrefl middle

theorem Respects.tryCatch {act : EStateM ε σ α} {handle : ε → EStateM ε σ α} (h : Respects r act)
    (htrans : ∀ a b c, r a b → r b c → r a c) (hhandle : ∀ e, Respects r (handle e)) :
    Respects r (tryCatch act handle) := by
  intro state
  have hact := h state
  cases hrun : act state with
  | ok a middle =>
    rw [hrun] at hact
    rw [tryCatch_of_ok hrun]
    exact hact
  | error e middle =>
    rw [hrun] at hact
    rw [tryCatch_of_error hrun]
    exact htrans _ _ _ hact (hhandle e middle)

end Respects

end ApiDocs.Effect
