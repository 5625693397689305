import ClientBindings.Failure
import Mathlib.Data.List.Forall2

/-! Runs that succeed. A stateful computation that may fail is described by the states it leads from
and to and by what it yields; one lemma for each way of putting computations together takes a run
apart. Of runs that fail it is only said that what follows a failure is not run. -/

namespace ClientBindings

variable {σ α β : Type}

theorem exists_of_mem_forall₂ {R : α → β → Prop} {xs : List α} {ys : List β} (h : List.Forall₂ R xs ys) {y : β}
    (hy : y ∈ ys) : ∃ x ∈ xs, R x y := by
  induction h with
  | nil => exact absurd hy List.not_mem_nil
  | cons hxy _ ih =>
    rcases List.mem_cons.mp hy with rfl | hy
    · exact ⟨_, List.mem_cons_self, hxy⟩
    · obtain ⟨x, hx, hxy⟩ := ih hy
      exact ⟨x, List.mem_cons_of_mem _ hx, hxy⟩

/-! ## Results -/

namespace Result

@[simp] theorem bind_eq_ok_iff {r : Result α} {f : α → Result β} {b : β} :
    (r >>= f) = .ok b ↔ ∃ a, r = .ok a ∧ f a = .ok b := by
  cases r with
  | error e => simp [bind, Except.bind]
  | ok a => simp [bind, Except.bind]

@[simp] theorem pure_eq_ok_iff {a b : α} : (pure a : Result α) = .ok b ↔ a = b := by
  simp [pure, Except.pure]

@[simp] theorem throw_ne_ok {f : Failure} {a : α} : (throw f : Result α) ≠ .ok a := by
  simp [throw, throwThe, MonadExceptOf.throw]

theorem ok_bind {a : α} {f : α → Result β} : ((.ok a : Result α) >>= f) = f a := rfl

section
variable {c d : Bool} {a b : α}

@[simp] theorem guarded_eq_ok_iff : guarded c a = .ok b ↔ c = true ∧ a = b := by
  cases c with
  | false => exact iff_of_false throw_ne_ok fun h => nomatch h.1
  | true => simp [guarded]

theorem guarded_of_true (h : c = true) : guarded c a = .ok a := if_pos h

theorem guarded_of_false (h : c = false) : guarded c a = .error .badValue := if_neg (h ▸ Bool.false_ne_true)

theorem guarded_pure (f : α → β) : (guarded c a >>= fun a => pure (f a)) = guarded c (f a) := by
  cases c <;> rfl

/-- Conditions add up. -/
theorem guarded_pure₂ {γ : Type} {e : β} (f : α → β → γ) :
    (do let a ← guarded c a; return f a (← guarded d e)) = guarded (c && d) (f a e) := by
  cases c <;> cases d <;> rfl

theorem mapM_guarded (p : α → Bool) (f : α → β) (xs : List α) :
    (xs.mapM fun x => guarded (p x) (f x)) = guarded (xs.all p) (xs.map f) := by
  induction xs with
  | nil => rfl
  | cons x xs ih =>
    rw [List.mapM_cons, ih, List.all_cons, List.map_cons]
    cases p x <;> cases xs.all p <;> rfl

end

theorem eq_ok_of_toOption {r : Result α} {a : α} (h : r.toOption = some a) : r = .ok a := by
  cases r with
  | error e => cases h
  | ok b => exact congrArg Except.ok (Option.some.inj h)

@[simp] theorem mapM_nil_eq_ok_iff {f : α → Result β} {bs : List β} :
    ([] : List α).mapM f = .ok bs ↔ bs = [] := by
  rw [List.mapM_nil, pure_eq_ok_iff, eq_comm]

@[simp] theorem mapM_cons_eq_ok_iff {f : α → Result β} {x : α} {xs : List α} {bs : List β} :
    (x :: xs).mapM f = .ok bs ↔ ∃ b cs, f x = .ok b ∧ xs.mapM f = .ok cs ∧ bs = b :: cs := by
  simp only [List.mapM_cons, bind_eq_ok_iff, pure_eq_ok_iff]
  constructor
  · rintro ⟨b, hb, cs, hcs, rfl⟩
    exact ⟨b, cs, hb, hcs, rfl⟩
  · rintro ⟨b, cs, hb, hcs, rfl⟩
    exact ⟨b, hb, cs, hcs, rfl⟩

theorem exists_mapM_iff {f : α → Result β} {xs : List α} :
    (∃ bs, xs.mapM f = .ok bs) ↔ ∀ x ∈ xs, ∃ b, f x = .ok b := by
  induction xs with
  | nil => exact iff_of_true ⟨[], rfl⟩ nofun
  | cons x xs ih =>
    rw [List.forall_mem_cons, ← ih]
    constructor
    · rintro ⟨bs, h⟩
      obtain ⟨b, cs, hb, hcs, -⟩ := mapM_cons_eq_ok_iff.mp h
      exact ⟨⟨b, hb⟩, cs, hcs⟩
    · rintro ⟨⟨b, hb⟩, cs, hcs⟩
      exact ⟨b :: cs, mapM_cons_eq_ok_iff.mpr ⟨b, cs, hb, hcs, rfl⟩⟩

theorem exists_of_mem_mapM {f : α → Result β} {xs : List α} {bs : List β} (h : xs.mapM f = .ok bs) {b : β}
    (hb : b ∈ bs) : ∃ x ∈ xs, f x = .ok b := by
  induction xs generalizing bs with
  | nil => simp [mapM_nil_eq_ok_iff.mp h] at hb
  | cons x xs ih =>
    obtain ⟨c, cs, hc, hcs, rfl⟩ := mapM_cons_eq_ok_iff.mp h
    rcases List.mem_cons.mp hb with rfl | hb
    · exact ⟨x, List.mem_cons_self, hc⟩
    · obtain ⟨y, hy, hfy⟩ := ih hcs hb
      exact ⟨y, List.mem_cons_of_mem x hy, hfy⟩

/-- What is true of the rounds done so far is true of all in the end. -/
theorem foldlM_done {γ : Type} {f : α → γ → Result α} {a b : α} {xs : List γ} (P : List γ → α → Prop)
    (step : ∀ done x c d, P done c → f c x = .ok d → P (done ++ [x]) d) (ha : P [] a)
    (h : xs.foldlM f a = .ok b) : P xs b := by
  suffices hdone : ∀ done c, P done c → xs.foldlM f c = .ok b → P (done ++ xs) b from hdone [] a ha h
  clear h ha
  induction xs with
  | nil =>
    intro done c hc h
    rw [List.foldlM_nil, pure_eq_ok_iff] at h
    rwa [List.append_nil, ← h]
  | cons x xs ih =>
    intro done c hc h
    rw [List.foldlM_cons, bind_eq_ok_iff] at h
    obtain ⟨d, hd, h⟩ := h
    rw [List.append_cons]
    exact ih (done ++ [x]) d (step done x c d hc hd) h

theorem filterM_eq_filter {p : α → Result Bool} {q : α → Bool} {xs ys : List α}
    (hp : ∀ x b, p x = .ok b → b = q x) (h : xs.filterM p = .ok ys) : ys = xs.filter q := by
  have haux : ∀ acc, xs.filterAuxM p acc = .ok ys.reverse → ys = acc.reverse ++ xs.filter q := by
    clear h
    induction xs with
    | nil =>
      intro acc h
      rw [List.filterAuxM, pure_eq_ok_iff] at h
      rw [h, List.reverse_reverse, List.filter_nil, List.append_nil]
    | cons x xs ih =>
      intro acc h
      rw [List.filterAuxM, bind_eq_ok_iff] at h
      obtain ⟨b, hb, h⟩ := h
      rw [ih _ h, List.filter_cons, ← hp x b hb]
      cases b <;> simp
  rw [List.filterM, bind_eq_ok_iff] at h
  obtain ⟨reversed, hreversed, h⟩ := h
  obtain rfl := pure_eq_ok_iff.mp h
  exact haux [] (by rw [hreversed, List.reverse_reverse])

theorem mem_filterM_iff {p : α → Result Bool} {xs ys : List α} {x : α} (h : xs.filterM p = .ok ys) :
    x ∈ ys ↔ x ∈ xs ∧ p x = .ok true := by
  have hp : ∀ x b, p x = .ok b → b = (p x).toOption.getD false := by
    intro x b hb
    rw [hb]
    rfl
  rw [filterM_eq_filter hp h, List.mem_filter]
  refine and_congr_right fun _ => ?_
  cases hx : p x with
  | ok b => simp [Except.toOption]
  | error e => simp [Except.toOption]

theorem mapM_length {f : α → Result β} {xs : List α} {bs : List β} (h : xs.mapM f = .ok bs) :
    bs.length = xs.length := by
  induction xs generalizing bs with
  | nil => simp [mapM_nil_eq_ok_iff.mp h]
  | cons x xs ih =>
    obtain ⟨b, cs, _, hcs, rfl⟩ := mapM_cons_eq_ok_iff.mp h
    simp [ih hcs]

theorem mapM_map {γ : Type} {f : α → Result β} {g : β → γ} {k : α → γ} {xs : List α} {bs : List β}
    (hround : ∀ x b, f x = .ok b → g b = k x) (h : xs.mapM f = .ok bs) : bs.map g = xs.map k := by
  induction xs generalizing bs with
  | nil => rw [mapM_nil_eq_ok_iff.mp h, List.map_nil, List.map_nil]
  | cons x xs ih =>
    obtain ⟨b, cs, hb, hcs, rfl⟩ := mapM_cons_eq_ok_iff.mp h
    rw [List.map_cons, List.map_cons, hround x b hb, ih hcs]

end Result

/-! ## Stateful computations -/

/-- Computations over a state that survives a failure. -/
abbrev Action (σ : Type) := ExceptT Failure (StateM σ)

/-- From `s` the computation yields `a` and leaves `t`. -/
def Runs (m : Action σ α) (s : σ) (a : α) (t : σ) : Prop := Id.run (m.run s) = (.ok a, t)

namespace Runs
variable {s t : σ} {a b : α}

theorem exists_of_isOk {m : Action σ α} (h : (Id.run (m.run s)).1.isOk = true) : ∃ a t, Runs m s a t := by
  unfold Runs
  rcases hm : Id.run (m.run s) with ⟨result, t⟩
  rw [hm] at h
  cases result with
  | error e => cases h
  | ok a => exact ⟨a, t, rfl⟩

theorem exists_of_toOption {m : Action σ α} {f : α → β} {b : β}
    (h : (Id.run (m.run s)).1.toOption.map f = some b) : ∃ a t, Runs m s a t ∧ f a = b := by
  obtain ⟨a, ha, rfl⟩ := Option.map_eq_some_iff.mp h
  exact ⟨a, (Id.run (m.run s)).2, Prod.ext (Result.eq_ok_of_toOption ha) rfl, rfl⟩

/-- A computation yields one thing and leaves one state. -/
theorem eq_of_runs {m : Action σ α} {u : σ} (h : Runs m s a t) (h' : Runs m s b u) : a = b ∧ t = u := by
  have heq : ((.ok a, t) : Except Failure α × σ) = (.ok b, u) := h.symm.trans h'
  simpa using heq

@[simp] theorem pure_iff : Runs (pure b : Action σ α) s a t ↔ a = b ∧ t = s := by
  show ((Except.ok b, s) : Except Failure α × σ) = (.ok a, t) ↔ _
  simp [eq_comm]

theorem run_bind {m : Action σ α} {f : α → Action σ β} {s : σ} :
    Id.run ((m >>= f).run s) = match Id.run (m.run s) with
      | (.ok a, u) => Id.run ((f a).run u)
      | (.error e, u) => (.error e, u) := by
  show (ExceptT.bindCont f (Id.run (m.run s)).1) (Id.run (m.run s)).2 = _
  rcases Id.run (m.run s) with ⟨result, u⟩
  cases result <;> rfl

theorem run_bind_of_runs {m : Action σ α} {f : α → Action σ β} (h : Runs m s a t) :
    Id.run ((m >>= f).run s) = Id.run ((f a).run t) := by
  rw [run_bind, h]

theorem run_bind_error {m : Action σ α} {f : α → Action σ β} {e : Failure} (h : (Id.run (m.run s)).1 = .error e) :
    (Id.run ((m >>= f).run s)).1 = .error e := by
  rw [run_bind]
  rcases hm : Id.run (m.run s) with ⟨result, u⟩
  rw [hm] at h
  obtain rfl : result = .error e := h
  rfl

@[simp] theorem bind_iff {m : Action σ α} {f : α → Action σ β} {b : β} :
    Runs (m >>= f) s b t ↔ ∃ a u, Runs m s a u ∧ Runs (f a) u b t := by
  unfold Runs
  rw [run_bind]
  rcases hm : Id.run (m.run s) with ⟨result, u⟩
  cases result with
  | error e => simp
  | ok a =>
    constructor
    · intro h
      exact ⟨a, u, rfl, h⟩
    · rintro ⟨a', u', heq, h⟩
      obtain ⟨rfl, rfl⟩ : a = a' ∧ u = u' := by simpa using heq
      exact h

@[simp] theorem get_iff {u : σ} : Runs (get : Action σ σ) s u t ↔ u = s ∧ t = s := by
  show ((Except.ok s, s) : Except Failure σ × σ) = (.ok u, t) ↔ _
  simp [eq_comm]

@[simp] theorem set_iff {u : σ} {a : PUnit} : Runs (set u : Action σ PUnit) s a t ↔ t = u := by
  show ((Except.ok PUnit.unit, u) : Except Failure PUnit × σ) = (.ok a, t) ↔ _
  simp [eq_comm]

@[simp] theorem modify_iff {f : σ → σ} {a : PUnit} :
    Runs (modify f : Action σ PUnit) s a t ↔ t = f s := by
  show ((Except.ok PUnit.unit, f s) : Except Failure PUnit × σ) = (.ok a, t) ↔ _
  simp [eq_comm]

@[simp] theorem lift_iff {r : Result α} :
    Runs (liftM r : Action σ α) s a t ↔ r = .ok a ∧ t = s := by
  show (r, s) = (Except.ok a, t) ↔ _
  simp [eq_comm]

theorem guarded_iff {condition : Bool} :
    Runs (liftM (Result.guarded condition b) : Action σ α) s a t ↔ condition = true ∧ b = a ∧ t = s := by
  rw [lift_iff, Result.guarded_eq_ok_iff, and_assoc]

@[simp] theorem throw_iff {f : Failure} : ¬ Runs (throw f : Action σ α) s a t := by
  intro h
  have heq : ((Except.error f, s) : Except Failure α × σ) = (.ok a, t) := h
  simp at heq

@[simp] theorem map_iff {m : Action σ α} {f : α → β} {b : β} :
    Runs (f <$> m) s b t ↔ ∃ a, Runs m s a t ∧ b = f a := by
  rw [map_eq_pure_bind, bind_iff]
  constructor
  · rintro ⟨a, u, hm, hp⟩
    obtain ⟨rfl, rfl⟩ := pure_iff.mp hp
    exact ⟨a, hm, rfl⟩
  · rintro ⟨a, hm, rfl⟩
    exact ⟨a, t, hm, pure_iff.mpr ⟨rfl, rfl⟩⟩

/-! ## Lists -/

section Lists
variable {γ : Type} {f : γ → Action σ α}

@[simp] theorem mapM_nil_iff {bs : List α} : Runs (([] : List γ).mapM f) s bs t ↔ bs = [] ∧ t = s := by
  rw [List.mapM_nil, pure_iff]

@[simp] theorem mapM_cons_iff {x : γ} {xs : List γ} {bs : List α} :
    Runs ((x :: xs).mapM f) s bs t ↔
      ∃ b u cs, Runs (f x) s b u ∧ Runs (xs.mapM f) u cs t ∧ bs = b :: cs := by
  simp only [List.mapM_cons, bind_iff, pure_iff]
  constructor
  · rintro ⟨b, u, hb, cs, v, hcs, rfl, rfl⟩
    exact ⟨b, u, cs, hb, hcs, rfl⟩
  · rintro ⟨b, u, cs, hb, hcs, rfl⟩
    exact ⟨b, u, hb, cs, t, hcs, rfl, rfl⟩

@[simp] theorem mapM_append_iff {xs ys : List γ} {bs : List α} :
    Runs ((xs ++ ys).mapM f) s bs t ↔
      ∃ as u cs, Runs (xs.mapM f) s as u ∧ Runs (ys.mapM f) u cs t ∧ bs = as ++ cs := by
  simp only [List.mapM_append, bind_iff, pure_iff]
  constructor
  · rintro ⟨as, u, has, cs, v, hcs, rfl, rfl⟩
    exact ⟨as, u, cs, has, hcs, rfl⟩
  · rintro ⟨as, u, cs, has, hcs, rfl⟩
    exact ⟨as, u, has, cs, t, hcs, rfl, rfl⟩

theorem mapM_length {xs : List γ} {bs : List α} (h : Runs (xs.mapM f) s bs t) : bs.length = xs.length := by
  induction xs generalizing s bs with
  | nil => simp [(mapM_nil_iff.mp h).1]
  | cons x xs ih =>
    obtain ⟨b, u, cs, _, hcs, rfl⟩ := mapM_cons_iff.mp h
    simp [ih hcs]

@[simp] theorem foldlM_nil_iff {g : α → γ → Action σ α} :
    Runs (([] : List γ).foldlM g a) s b t ↔ b = a ∧ t = s := by
  rw [List.foldlM_nil, pure_iff]

@[simp] theorem foldlM_cons_iff {g : α → γ → Action σ α} {x : γ} {xs : List γ} :
    Runs ((x :: xs).foldlM g a) s b t ↔ ∃ c u, Runs (g a x) s c u ∧ Runs (xs.foldlM g c) u b t := by
  rw [List.foldlM_cons, bind_iff]

/-- Rounds yield one thing each, whatever states they meet. -/
theorem mapM_forall₂ {R : γ → α → Prop} {xs : List γ} {bs : List α}
    (step : ∀ x u b v, Runs (f x) u b v → R x b) (h : Runs (xs.mapM f) s bs t) : List.Forall₂ R xs bs := by
  induction xs generalizing s bs with
  | nil =>
    rw [(mapM_nil_iff.mp h).1]
    exact .nil
  | cons x xs ih =>
    obtain ⟨b, u, cs, hb, hcs, rfl⟩ := mapM_cons_iff.mp h
    exact .cons (step x s b u hb) (ih hcs)

theorem exists_of_mem_mapM {xs : List γ} {bs : List α} (h : Runs (xs.mapM f) s bs t) (hb : b ∈ bs) :
    ∃ x ∈ xs, ∃ u v, Runs (f x) u b v := by
  have hrounds : List.Forall₂ (fun x b => ∃ u v, Runs (f x) u b v) xs bs :=
    mapM_forall₂ (fun x u b v hrun => ⟨u, v, hrun⟩) h
  exact exists_of_mem_forall₂ hrounds hb

/-- What is true of the rounds done so far, and of the state that they leave, is true of all in the end. -/
theorem foldlM_trace {g : α → γ → Action σ α} {xs : List γ} (P : List γ → α → σ → Prop)
    (step : ∀ done x c u d v, P done c u → Runs (g c x) u d v → P (done ++ [x]) d v) (ha : P [] a s)
    (h : Runs (xs.foldlM g a) s b t) : P xs b t := by
  suffices hdone : ∀ done c u, P done c u → Runs (xs.foldlM g c) u b t → P (done ++ xs) b t from hdone [] a s ha h
  clear h ha
  induction xs with
  | nil =>
    intro done c u hc h
    obtain ⟨rfl, rfl⟩ := foldlM_nil_iff.mp h
    rwa [List.append_nil]
  | cons x xs ih =>
    intro done c u hc h
    obtain ⟨d, v, hd, h⟩ := foldlM_cons_iff.mp h
    rw [List.append_cons]
    exact ih (done ++ [x]) d v (step done x c u d v hc hd) h

/-- What is true of the rounds done so far is true of all in the end. -/
theorem foldlM_done {g : α → γ → Action σ α} {xs : List γ} (P : List γ → α → Prop)
    (step : ∀ done x c u d v, P done c → Runs (g c x) u d v → P (done ++ [x]) d) (ha : P [] a)
    (h : Runs (xs.foldlM g a) s b t) : P xs b :=
  foldlM_trace (fun done c _ => P done c) step ha h

/-- Rounds that can all be run and leave the state as it is. -/
theorem exists_foldlM {g : α → γ → Action σ α} {xs : List γ} (P : α → Prop)
    (step : ∀ x ∈ xs, ∀ c, P c → ∃ d, Runs (g c x) s d s ∧ P d) (ha : P a) :
    ∃ b, Runs (xs.foldlM g a) s b s ∧ P b := by
  induction xs generalizing a with
  | nil => exact ⟨a, foldlM_nil_iff.mpr ⟨rfl, rfl⟩, ha⟩
  | cons x xs ih =>
    obtain ⟨c, hround, hc⟩ := step x List.mem_cons_self a ha
    obtain ⟨b, hrounds, hb⟩ := ih (fun y hy => step y (List.mem_cons_of_mem x hy)) hc
    exact ⟨b, foldlM_cons_iff.mpr ⟨c, s, hround, hrounds⟩, hb⟩

/-- What the yield of a round has in common with what the round is about. -/
theorem mapM_map {δ : Type} {g : α → δ} {k : γ → δ} {xs : List γ} {bs : List α} (Inv : σ → Prop)
    (step : ∀ x ∈ xs, ∀ u b v, Inv u → Runs (f x) u b v → Inv v ∧ g b = k x) (hs : Inv s)
    (h : Runs (xs.mapM f) s bs t) : bs.map g = xs.map k := by
  induction xs generalizing s bs with
  | nil => rw [(mapM_nil_iff.mp h).1, List.map_nil, List.map_nil]
  | cons x xs ih =>
    obtain ⟨b, u, cs, hb, hcs, rfl⟩ := mapM_cons_iff.mp h
    obtain ⟨hu, heq⟩ := step x List.mem_cons_self s b u hs hb
    rw [List.map_cons, List.map_cons, heq, ih (fun y hy => step y (List.mem_cons_of_mem x hy)) hu hcs]

/-- What holds of a state is kept by all rounds if each of them keeps it. -/
theorem mapM_keeps {xs : List γ} {bs : List α} (Inv : σ → Prop)
    (step : ∀ x ∈ xs, ∀ u b v, Inv u → Runs (f x) u b v → Inv v) (hs : Inv s) (h : Runs (xs.mapM f) s bs t) :
    Inv t := by
  induction xs generalizing s bs with
  | nil =>
    obtain ⟨_, rfl⟩ := mapM_nil_iff.mp h
    exact hs
  | cons x xs ih =>
    obtain ⟨b, u, cs, hb, hcs, rfl⟩ := mapM_cons_iff.mp h
    exact ih (fun y hy => step y (List.mem_cons_of_mem x hy)) (step x List.mem_cons_self s b u hs hb) hcs

theorem foldlM_keeps {xs : List γ} {g : α → γ → Action σ α} (Inv : σ → Prop)
    (step : ∀ x ∈ xs, ∀ a u b v, Inv u → Runs (g a x) u b v → Inv v) (hs : Inv s) (h : Runs (xs.foldlM g a) s b t) :
    Inv t := by
  induction xs generalizing s a with
  | nil =>
    obtain ⟨_, rfl⟩ := foldlM_nil_iff.mp h
    exact hs
  | cons x xs ih =>
    obtain ⟨c, u, hstep, h⟩ := foldlM_cons_iff.mp h
    exact ih (fun y hy => step y (List.mem_cons_of_mem x hy)) (step x List.mem_cons_self a s c u hs hstep) h

/-- Every round is run, from where the invariant holds. -/
theorem exists_round_of_mapM {xs : List γ} {bs : List α} (Inv : σ → Prop)
    (step : ∀ x ∈ xs, ∀ u b v, Inv u → Runs (f x) u b v → Inv v) (hs : Inv s) (h : Runs (xs.mapM f) s bs t) {x : γ}
    (hx : x ∈ xs) : ∃ u b v, Inv u ∧ Runs (f x) u b v := by
  induction xs generalizing s bs with
  | nil => exact absurd hx List.not_mem_nil
  | cons y xs ih =>
    obtain ⟨b, u, cs, hb, hcs, rfl⟩ := mapM_cons_iff.mp h
    rcases List.mem_cons.mp hx with rfl | hx
    · exact ⟨s, b, u, hs, hb⟩
    · exact ih (fun z hz => step z (List.mem_cons_of_mem y hz)) (step y List.mem_cons_self s b u hs hb) hcs hx

theorem exists_round_of_foldlM {xs : List γ} {g : α → γ → Action σ α} (Inv : σ → Prop)
    (step : ∀ x ∈ xs, ∀ a u b v, Inv u → Runs (g a x) u b v → Inv v) (hs : Inv s) (h : Runs (xs.foldlM g a) s b t)
    {x : γ} (hx : x ∈ xs) : ∃ c u d v, Inv u ∧ Runs (g c x) u d v := by
  induction xs generalizing s a with
  | nil => exact absurd hx List.not_mem_nil
  | cons y xs ih =>
    obtain ⟨c, u, hstep, h⟩ := foldlM_cons_iff.mp h
    rcases List.mem_cons.mp hx with rfl | hx
    · exact ⟨a, s, c, u, hs, hstep⟩
    · exact ih (fun z hz => step z (List.mem_cons_of_mem y hz)) (step y List.mem_cons_self a s c u hs hstep) h hx

/-- Rounds that keep an invariant while a table grows; what is good of a yield stays so as it does. -/
theorem mapM_induct {τ : Type} {xs : List γ} {bs : List α} (Inv : σ → Prop) (table : σ → List τ)
    (Good : σ → α → Prop) (mono : ∀ u v b, table u <+: table v → Good u b → Good v b)
    (step : ∀ x ∈ xs, ∀ u b v, Inv u → Runs (f x) u b v → Inv v ∧ table u <+: table v ∧ Good v b)
    (hs : Inv s) (h : Runs (xs.mapM f) s bs t) : Inv t ∧ table s <+: table t ∧ ∀ b ∈ bs, Good t b := by
  induction xs generalizing s bs with
  | nil =>
    obtain ⟨rfl, rfl⟩ := mapM_nil_iff.mp h
    exact ⟨hs, List.prefix_refl _, by simp⟩
  | cons x xs ih =>
    obtain ⟨b, u, cs, hb, hcs, rfl⟩ := mapM_cons_iff.mp h
    obtain ⟨hu, hsu, hgood⟩ := step x List.mem_cons_self s b u hs hb
    obtain ⟨ht, hut, hrest⟩ := ih (fun y hy => step y (List.mem_cons_of_mem x hy)) hu hcs
    refine ⟨ht, hsu.trans hut, ?_⟩
    intro c hc
    rcases List.mem_cons.mp hc with rfl | hc
    · exact mono u t c hut hgood
    · exact hrest c hc

theorem foldlM_induct {τ : Type} {xs : List γ} {g : α → γ → Action σ α} (Inv : σ → Prop) (table : σ → List τ)
    (Good : σ → α → Prop)
    (step : ∀ x ∈ xs, ∀ a u b v, Inv u → Good u a → Runs (g a x) u b v →
      Inv v ∧ table u <+: table v ∧ Good v b)
    (hs : Inv s) (ha : Good s a) (h : Runs (xs.foldlM g a) s b t) : Inv t ∧ table s <+: table t ∧ Good t b := by
  induction xs generalizing s a with
  | nil =>
    obtain ⟨rfl, rfl⟩ := foldlM_nil_iff.mp h
    exact ⟨hs, List.prefix_refl _, ha⟩
  | cons x xs ih =>
    obtain ⟨c, u, hstep, h⟩ := foldlM_cons_iff.mp h
    obtain ⟨hu, hsu, hc⟩ := step x List.mem_cons_self a s c u hs ha hstep
    obtain ⟨ht, hut, hb⟩ := ih (fun y hy => step y (List.mem_cons_of_mem x hy)) hu hc h
    exact ⟨ht, hsu.trans hut, hb⟩

end Lists

end Runs
end ClientBindings
