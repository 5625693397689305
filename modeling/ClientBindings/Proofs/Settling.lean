import ClientBindings.Proofs.Runs
import Mathlib.Data.List.Basic

/-! Computations that are told how deep they may nest. One settles if it does the same from some depth on,
so that the depth is no part of what it does: either it yields something, or it fails for a cause of its
own. Putting computations together that settle gives one that settles. -/

namespace ClientBindings

variable {σ α β γ : Type}

/-- What is left shrinks as one more thing is taken. -/
theorem length_filter_lt {p q : α → Bool} {x : α} {xs : List α} (hsub : ∀ y, q y = true → p y = true) (hx : x ∈ xs)
    (hp : p x = true) (hq : ¬ q x = true) : (xs.filter q).length < (xs.filter p).length := by
  have hsublist : (xs.filter q).Sublist (xs.filter p) := List.monotone_filter_right xs hsub
  refine Nat.lt_of_le_of_ne hsublist.length_le fun hlen => ?_
  have hmem : x ∈ xs.filter q := hsublist.eq_of_length hlen ▸ List.mem_filter.mpr ⟨hx, hp⟩
  exact hq (List.mem_filter.mp hmem).2

/-! ## Failures -/

namespace Result

theorem bind_eq_error_iff {r : Result α} {f : α → Result β} {e : Failure} :
    (r >>= f) = .error e ↔ r = .error e ∨ ∃ a, r = .ok a ∧ f a = .error e := by
  cases r with
  | error e' => simp [bind, Except.bind]
  | ok a => simp [bind, Except.bind]

theorem exists_of_mapM_eq_error {f : α → Result β} {xs : List α} {e : Failure} (h : xs.mapM f = .error e) :
    ∃ x ∈ xs, f x = .error e := by
  induction xs with
  | nil => cases h
  | cons x xs ih =>
    rw [List.mapM_cons, bind_eq_error_iff] at h
    rcases h with h | ⟨b, _, h⟩
    · exact ⟨x, List.mem_cons_self, h⟩
    rcases bind_eq_error_iff.mp h with h | ⟨bs, _, h⟩
    · obtain ⟨y, hy, hfy⟩ := ih h
      exact ⟨y, List.mem_cons_of_mem x hy, hfy⟩
    · cases h

end Result

/-! ## Settling -/

/-- What is wanted of an outcome: of what is yielded together with the state, or of the failure. -/
def Wanted (Q : α → σ → Prop) (E : Failure → Prop) : Except Failure α → σ → Prop
  | .ok a, t => Q a t
  | .error f, _ => E f

/-- From some depth on the outcome is the same, and as wanted. -/
def Settles (Q : α → σ → Prop) (E : Failure → Prop) (A : Nat → Action σ α) (s : σ) : Prop :=
  ∃ depth result t, (∀ more, depth ≤ more → Id.run ((A more).run s) = (result, t)) ∧ Wanted Q E result t

namespace Settles
variable {Q : α → σ → Prop} {R : β → σ → Prop} {E : Failure → Prop} {A : Nat → Action σ α} {s : σ}

theorem mono {Q' : α → σ → Prop} {E' : Failure → Prop} (h : Settles Q E A s) (hQ : ∀ a t, Q a t → Q' a t)
    (hE : ∀ f, E f → E' f) : Settles Q' E' A s := by
  obtain ⟨depth, result, t, hrun, hwanted⟩ := h
  refine ⟨depth, result, t, hrun, ?_⟩
  cases result with
  | ok a => exact hQ a t hwanted
  | error f => exact hE f hwanted

/-- What settles and has no cause to fail yields something. -/
theorem exists_runs {m : Action σ α} (h : Settles Q E (fun _ => m) s) (hE : ∀ f, ¬ E f) :
    ∃ a t, Runs m s a t ∧ Q a t := by
  obtain ⟨depth, result, t, hrun, hwanted⟩ := h
  cases result with
  | ok a => exact ⟨a, t, hrun depth (Nat.le_refl depth), hwanted⟩
  | error f => exact absurd hwanted (hE f)

/-- What nests one deeper settles if what is in it does. -/
theorem succ (h : Settles Q E (fun depth => A (depth + 1)) s) : Settles Q E A s := by
  obtain ⟨depth, result, t, hrun, hwanted⟩ := h
  refine ⟨depth + 1, result, t, ?_, hwanted⟩
  intro more hmore
  obtain ⟨less, rfl⟩ := Nat.exists_eq_add_of_le' hmore
  exact hrun (less + depth) (Nat.le_add_left depth less)

theorem pure {a : α} (h : Q a s) : Settles Q E (fun _ => pure a) s := ⟨0, .ok a, s, fun _ _ => rfl, h⟩

theorem throw {f : Failure} (h : E f) : Settles Q E (fun _ => throw f) s := ⟨0, .error f, s, fun _ _ => rfl, h⟩

theorem lift {r : Result α} (hok : ∀ a, r = .ok a → Q a s) (herror : ∀ f, r = .error f → E f) :
    Settles Q E (fun _ => liftM r) s := by
  refine ⟨0, r, s, fun _ _ => rfl, ?_⟩
  cases r with
  | ok a => exact hok a rfl
  | error f => exact herror f rfl

theorem bind {B : Nat → α → Action σ β} (h : Settles Q E A s) (hB : ∀ a t, Q a t → Settles R E (fun depth => B depth a) t) :
    Settles R E (fun depth => A depth >>= B depth) s := by
  obtain ⟨depth, result, t, hrun, hwanted⟩ := h
  cases result with
  | error f =>
    refine ⟨depth, .error f, t, ?_, hwanted⟩
    intro more hmore
    rw [Runs.run_bind, hrun more hmore]
  | ok a =>
    obtain ⟨further, result, u, hrest, hwanted⟩ := hB a t hwanted
    refine ⟨max depth further, result, u, ?_, hwanted⟩
    intro more hmore
    rw [Runs.run_bind, hrun more (Nat.le_trans (Nat.le_max_left _ _) hmore)]
    exact hrest more (Nat.le_trans (Nat.le_max_right _ _) hmore)

theorem get_bind {B : Nat → σ → Action σ β} (h : Settles R E (fun depth => B depth s) s) :
    Settles R E (fun depth => get >>= B depth) s := h

theorem set_bind {u : σ} {B : Nat → PUnit → Action σ β} (h : Settles R E (fun depth => B depth ⟨⟩) u) :
    Settles R E (fun depth => set u >>= B depth) s := h

theorem modify_bind {f : σ → σ} {B : Nat → PUnit → Action σ β} (h : Settles R E (fun depth => B depth ⟨⟩) (f s)) :
    Settles R E (fun depth => modify f >>= B depth) s := h

theorem lift_bind {r : Result α} {B : Nat → α → Action σ β}
    (hok : ∀ a, r = .ok a → Settles R E (fun depth => B depth a) s) (herror : ∀ f, r = .error f → E f) :
    Settles R E (fun depth => liftM r >>= B depth) s := by
  cases r with
  | ok a => exact hok a rfl
  | error f => exact throw (herror f rfl)

/-- Rounds that settle wherever an invariant holds, and keep it. -/
theorem mapM {f : Nat → γ → Action σ α} {xs : List γ} {P : σ → Prop}
    (step : ∀ x ∈ xs, ∀ u, P u → Settles (fun _ v => P v) E (fun depth => f depth x) u) (hs : P s) :
    Settles (fun _ t => P t) E (fun depth => xs.mapM (f depth)) s := by
  induction xs generalizing s with
  | nil => exact pure hs
  | cons x xs ih =>
    simp only [List.mapM_cons]
    refine (step x List.mem_cons_self s hs).bind fun b u hu => ?_
    refine (ih (fun y hy => step y (List.mem_cons_of_mem x hy)) hu).bind fun bs v hv => ?_
    exact pure hv

theorem foldlM {f : Nat → α → γ → Action σ α} {xs : List γ} {a : α} {P : σ → Prop}
    (step : ∀ x ∈ xs, ∀ a u, P u → Settles (fun _ v => P v) E (fun depth => f depth a x) u) (hs : P s) :
    Settles (fun _ t => P t) E (fun depth => xs.foldlM (f depth) a) s := by
  induction xs generalizing s a with
  | nil => exact pure hs
  | cons x xs ih =>
    simp only [List.foldlM_cons]
    refine (step x List.mem_cons_self a s hs).bind fun b u hu => ?_
    exact ih (fun y hy => step y (List.mem_cons_of_mem x hy)) hu

end Settles
end ClientBindings
