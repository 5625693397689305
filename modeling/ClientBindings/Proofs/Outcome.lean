import ClientBindings.Proofs.Runs

/-! Outcomes of both kinds. A computation ends with what it yields or with a failure, and in either case it
leaves a state behind. Two computations are compared from one state, and the same rules, used for a
computation and itself, say what is true of its outcome alone. -/

namespace ClientBindings

variable {σ α β γ : Type}

/-- What is wanted of an outcome: of the yield and the state, or of the failure and the state left behind. -/
def Judged (Q : α → σ → Prop) (E : Failure → σ → Prop) : Except Failure α × σ → Prop
  | (.ok a, t) => Q a t
  | (.error f, t) => E f t

/-- From a state both computations do the same, and the outcome is as wanted. -/
def Alike (Q : α → σ → Prop) (E : Failure → σ → Prop) (m m' : Action σ α) (s : σ) : Prop :=
  Id.run (m.run s) = Id.run (m'.run s) ∧ Judged Q E (Id.run (m.run s))

namespace Alike
variable {Q : α → σ → Prop} {R : β → σ → Prop} {E : Failure → σ → Prop} {P : σ → Prop} {m m' : Action σ α} {s : σ}

theorem mono {Q' : α → σ → Prop} {E' : Failure → σ → Prop} (h : Alike Q E m m' s) (hQ : ∀ a t, Q a t → Q' a t)
    (hE : ∀ f t, E f t → E' f t) : Alike Q' E' m m' s := by
  refine ⟨h.1, ?_⟩
  have hjudged := h.2
  revert hjudged
  rcases Id.run (m.run s) with ⟨result, t⟩
  cases result with
  | ok a => exact hQ a t
  | error f => exact hE f t

theorem of_runs (h : Alike Q E m m' s) {a : α} {t : σ} (hrun : Runs m s a t) : Q a t := by
  have hjudged := h.2
  rwa [hrun] at hjudged

theorem of_fails (h : Alike Q E m m' s) {f : Failure} {t : σ} (hrun : Id.run (m.run s) = (.error f, t)) : E f t := by
  have hjudged := h.2
  rwa [hrun] at hjudged

/-- What is yielded is yielded by a run. -/
theorem and_runs (h : Alike Q E m m' s) : Alike (fun a t => Q a t ∧ Runs m s a t) E m m' s := by
  refine ⟨h.1, ?_⟩
  have hjudged := h.2
  unfold Runs
  revert hjudged
  rcases Id.run (m.run s) with ⟨result, t⟩
  cases result with
  | ok a => exact fun ha => ⟨ha, rfl⟩
  | error f => exact fun hf => hf

theorem pure {a : α} (h : Q a s) : Alike Q E (pure a) (pure a) s := ⟨rfl, h⟩

theorem throw {f : Failure} (h : E f s) : Alike Q E (throw f) (throw f) s := ⟨rfl, h⟩

theorem lift {r : Result α} (hok : ∀ a, r = .ok a → Q a s) (herror : ∀ f, r = .error f → E f s) :
    Alike Q E (liftM r) (liftM r) s := by
  refine ⟨rfl, ?_⟩
  cases r with
  | ok a => exact hok a rfl
  | error f => exact herror f rfl

theorem bind {k k' : α → Action σ β} (h : Alike Q E m m' s) (hk : ∀ a t, Q a t → Alike R E (k a) (k' a) t) :
    Alike R E (m >>= k) (m' >>= k') s := by
  obtain ⟨hsame, hjudged⟩ := h
  unfold Alike
  rw [Runs.run_bind, Runs.run_bind, ← hsame]
  revert hjudged
  rcases Id.run (m.run s) with ⟨result, t⟩
  cases result with
  | ok a => exact hk a t
  | error f => exact fun hf => ⟨rfl, hf⟩

theorem get_bind {k k' : σ → Action σ β} (h : Alike R E (k s) (k' s) s) : Alike R E (get >>= k) (get >>= k') s := h

theorem set_bind {u : σ} {k k' : PUnit → Action σ β} (h : Alike R E (k ⟨⟩) (k' ⟨⟩) u) :
    Alike R E (set u >>= k) (set u >>= k') s := h

theorem modify_bind {f : σ → σ} {k k' : PUnit → Action σ β} (h : Alike R E (k ⟨⟩) (k' ⟨⟩) (f s)) :
    Alike R E (modify f >>= k) (modify f >>= k') s := h

theorem lift_bind {r : Result α} {k k' : α → Action σ β} (hok : ∀ a, r = .ok a → Alike R E (k a) (k' a) s)
    (herror : ∀ f, r = .error f → E f s) : Alike R E (liftM r >>= k) (liftM r >>= k') s := by
  cases r with
  | ok a => exact hok a rfl
  | error f => exact throw (herror f rfl)

/-- Rounds that are alike wherever an invariant holds, and keep it. -/
theorem mapM {f g : γ → Action σ α} {xs : List γ}
    (step : ∀ x ∈ xs, ∀ u, P u → Alike (fun _ v => P v) E (f x) (g x) u) (hs : P s) :
    Alike (fun _ t => P t) E (xs.mapM f) (xs.mapM g) s := by
  induction xs generalizing s with
  | nil => exact pure hs
  | cons x xs ih =>
    simp only [List.mapM_cons]
    apply bind (step x List.mem_cons_self s hs)
    intro a t ht
    apply bind (ih (fun y hy => step y (List.mem_cons_of_mem x hy)) ht)
    intro as u hu
    exact pure hu

theorem foldlM {f g : α → γ → Action σ α} {xs : List γ} {a : α}
    (step : ∀ x ∈ xs, ∀ a u, P u → Alike (fun _ v => P v) E (f a x) (g a x) u) (hs : P s) :
    Alike (fun _ t => P t) E (xs.foldlM f a) (xs.foldlM g a) s := by
  induction xs generalizing s a with
  | nil => exact pure hs
  | cons x xs ih =>
    simp only [List.foldlM_cons]
    apply bind (step x List.mem_cons_self a s hs)
    intro b t ht
    exact ih (fun y hy => step y (List.mem_cons_of_mem x hy)) ht

end Alike
end ClientBindings
