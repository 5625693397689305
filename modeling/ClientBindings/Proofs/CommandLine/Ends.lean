import ClientBindings.CommandLine.Run

/-! How actions of a session end. Each has a result or a failure, and a session that it leaves behind
also when it fails; one lemma for each way of putting actions together. -/

namespace ClientBindings.CommandLine.Session

variable {α β : Type} {s s' : Session} {r : Except Failure α}

def Ends (m : M α) (s : Session) (r : Except Failure α) (s' : Session) : Prop := ExceptT.run m s = (r, s')

theorem ends_of_run {m : M α} {r₀ : Except Failure α} {s₀ : Session} (h : ExceptT.run m s = (r₀, s₀)) :
    Ends m s r s' ↔ r = r₀ ∧ s' = s₀ := by
  rw [Ends, h, Prod.mk.injEq, eq_comm, @eq_comm _ s₀]

theorem ends_pure {a : α} : Ends (pure a) s r s' ↔ r = .ok a ∧ s' = s := ends_of_run rfl

theorem ends_throw {f : Failure} : Ends (throw f) s r s' ↔ r = .error f ∧ s' = s := ends_of_run rfl

theorem ends_lift {e : Result α} : Ends (liftM e) s r s' ↔ r = e ∧ s' = s := ends_of_run rfl

theorem ends_modify {f : Session → Session} {r : Except Failure PUnit} :
    Ends (modify f) s r s' ↔ r = .ok ⟨⟩ ∧ s' = f s := ends_of_run rfl

theorem ends_setTree {t : FileTree} {r : Except Failure Unit} :
    Ends (setTree t) s r s' ↔ r = .ok () ∧ s' = { s with world := { s.world with tree := t } } := ends_of_run rfl

theorem run_bind (m : M α) (f : α → M β) (s : Session) : ExceptT.run (m >>= f) s =
    match ExceptT.run m s with
    | (.ok a, s') => ExceptT.run (f a) s'
    | (.error e, s') => (.error e, s') := by
  show (match ExceptT.run m s with | (r, s') => ExceptT.bindCont f r s') = _
  rcases ExceptT.run m s with ⟨r, s'⟩
  cases r <;> rfl

/-- What follows a failure is not done. -/
theorem ends_bind {m : M α} {f : α → M β} {r : Except Failure β} : Ends (m >>= f) s r s' ↔
    (∃ a between, Ends m s (.ok a) between ∧ Ends (f a) between r s') ∨ ∃ e, Ends m s (.error e) s' ∧ r = .error e := by
  rw [Ends, run_bind]
  rcases hm : ExceptT.run m s with ⟨e | a, between⟩
  · constructor
    · intro h
      obtain ⟨rfl, rfl⟩ := Prod.mk.inj h
      exact .inr ⟨e, hm, rfl⟩
    · rintro (⟨a, _, h, -⟩ | ⟨e', h, rfl⟩)
      · cases hm.symm.trans h
      · obtain ⟨he, rfl⟩ := Prod.mk.inj (hm.symm.trans h)
        cases he
        rfl
  · constructor
    · intro h
      exact .inl ⟨a, between, hm, h⟩
    · rintro (⟨a', between', h, hf⟩ | ⟨e, h, -⟩)
      · obtain ⟨ha, rfl⟩ := Prod.mk.inj (hm.symm.trans h)
        cases ha
        exact hf
      · cases hm.symm.trans h

theorem ends_bind_of_run {m : M α} {f : α → M β} {a : α} {s₀ : Session} {r : Except Failure β}
    (h : ExceptT.run m s = (.ok a, s₀)) : Ends (m >>= f) s r s' ↔ Ends (f a) s₀ r s' := by
  rw [Ends, run_bind, h, Ends]

theorem ends_get_bind {f : Session → M β} {r : Except Failure β} : Ends (get >>= f) s r s' ↔ Ends (f s) s r s' :=
  ends_bind_of_run rfl

theorem ends_tree_bind {f : FileTree → M β} {r : Except Failure β} :
    Ends (tree >>= f) s r s' ↔ Ends (f s.world.tree) s r s' := ends_bind_of_run rfl

theorem ends_setTree_bind {t : FileTree} {f : Unit → M β} {r : Except Failure β} : Ends (setTree t >>= f) s r s' ↔
    Ends (f ()) { s with world := { s.world with tree := t } } r s' := ends_bind_of_run rfl

theorem ends_warn_bind {line : String} {f : Unit → M β} {r : Except Failure β} : Ends (warn line >>= f) s r s' ↔
    Ends (f ()) { s with err := s.err ++ line ++ "\n" } r s' := ends_bind_of_run rfl

theorem run_tryCatch (m : M α) (handler : Failure → M α) (s : Session) : ExceptT.run (tryCatch m handler) s =
    match ExceptT.run m s with
    | (.ok a, s') => (.ok a, s')
    | (.error e, s') => ExceptT.run (handler e) s' := by
  simp only [ExceptT.run, tryCatch, tryCatchThe, MonadExceptOf.tryCatch, ExceptT.tryCatch, ExceptT.mk, bind,
    StateT.bind]
  rcases m s with ⟨r, between⟩
  cases r <;> rfl

theorem ends_tryCatch {m : M α} {handler : Failure → M α} : Ends (tryCatch m handler) s r s' ↔
    (∃ a, Ends m s (.ok a) s' ∧ r = .ok a) ∨
      ∃ e between, Ends m s (.error e) between ∧ Ends (handler e) between r s' := by
  rw [Ends, run_tryCatch]
  rcases hm : ExceptT.run m s with ⟨e | a, between⟩
  · constructor
    · intro h
      exact .inr ⟨e, between, hm, h⟩
    · rintro (⟨a, h, -⟩ | ⟨e', between', h, hhandler⟩)
      · cases hm.symm.trans h
      · obtain ⟨he, rfl⟩ := Prod.mk.inj (hm.symm.trans h)
        cases he
        exact hhandler
  · constructor
    · intro h
      obtain ⟨rfl, rfl⟩ := Prod.mk.inj h
      exact .inl ⟨a, hm, rfl⟩
    · rintro (⟨a', h, rfl⟩ | ⟨e, _, h, -⟩)
      · exact hm.symm.trans h
      · cases hm.symm.trans h

/-! ## Actions that only report -/

/-- The action leaves the world alone and has the result that a function of the world gives. -/
def Computes (m : M α) (f : Document.World → Result α) : Prop :=
  ∀ s r s', Ends m s r s' → r = f s.world ∧ s'.world = s.world

namespace Computes

theorem pure (a : α) : Computes (pure a) fun _ => .ok a := by
  intro s r s' h
  obtain ⟨rfl, rfl⟩ := ends_pure.mp h
  exact ⟨rfl, rfl⟩

theorem lift (e : Result α) : Computes (liftM e) fun _ => e := by
  intro s r s' h
  obtain ⟨rfl, rfl⟩ := ends_lift.mp h
  exact ⟨rfl, rfl⟩

theorem bind {m : M α} {f : Document.World → Result α} {g : α → M β} {h : α → Document.World → Result β}
    (hm : Computes m f) (hg : ∀ a, Computes (g a) (h a)) : Computes (m >>= g) fun w => f w >>= fun a => h a w := by
  intro s r s' hends
  rcases ends_bind.mp hends with ⟨a, between, hfirst, hrest⟩ | ⟨e, hfirst, rfl⟩
  · obtain ⟨hresult, hworld⟩ := hm _ _ _ hfirst
    obtain ⟨hr, hworld'⟩ := hg a _ _ _ hrest
    rw [hworld] at hr hworld'
    refine ⟨?_, hworld'⟩
    show r = (f s.world >>= fun a => h a s.world)
    rw [← hresult]
    exact hr
  · obtain ⟨hresult, hworld⟩ := hm _ _ _ hfirst
    refine ⟨?_, hworld⟩
    show Except.error e = (f s.world >>= fun a => h a s.world)
    rw [← hresult]
    rfl

theorem say (line : String) : Computes (say line) fun _ => .ok () := by
  intro s r s' h
  obtain ⟨rfl, rfl⟩ := ends_modify.mp h
  exact ⟨rfl, rfl⟩

theorem warn (line : String) : Computes (warn line) fun _ => .ok () := by
  intro s r s' h
  obtain ⟨rfl, rfl⟩ := ends_modify.mp h
  exact ⟨rfl, rfl⟩

theorem congr {m : M α} {f g : Document.World → Result α} (h : Computes m f) (heq : ∀ w, f w = g w) : Computes m g := by
  intro s r s' hends
  rw [← heq]
  exact h s r s' hends

/-- After an action without any other result than one, only the rest counts. -/
theorem andThen {m : M α} {a : α} {g : α → M β} {f : Document.World → Result β} (hm : Computes m fun _ => .ok a)
    (hg : Computes (g a) f) : Computes (m >>= g) f := by
  intro s r s' hends
  rcases ends_bind.mp hends with ⟨b, between, hfirst, hrest⟩ | ⟨e, hfirst, -⟩
  · obtain ⟨hresult, hworld⟩ := hm _ _ _ hfirst
    cases hresult
    rw [← hworld]
    exact hg _ _ _ hrest
  · cases (hm _ _ _ hfirst).1

theorem forM {act : α → M Unit} (h : ∀ a, Computes (act a) fun _ => .ok ()) (xs : List α) :
    Computes (xs.forM act) fun _ => .ok () := by
  induction xs with
  | nil => exact pure ()
  | cons x xs ih => exact (h x).andThen ih

theorem world {g : Session → M β} {f : Document.World → Result β}
    (h : ∀ s : Session, Computes (g s) fun _ => f s.world) :
    Computes (get >>= g) f := by
  intro s r s' hends
  exact h s s r s' (ends_get_bind.mp hends)

theorem mapM {act : α → M β} {f : α → Document.World → Result β} (h : ∀ a, Computes (act a) (f a)) (xs : List α) :
    Computes (xs.mapM act) fun w => xs.mapM fun a => f a w := by
  induction xs with
  | nil =>
    simp only [List.mapM_nil]
    exact pure []
  | cons x xs ih =>
    simp only [List.mapM_cons]
    exact (h x).bind fun b => ih.bind fun bs => pure (b :: bs)

end Computes

/-- The API of one item. -/
def compiled (item : Item) (w : Document.World) : Result Api := do
  let document ← w.load item.spec
  Api.compile document (some item) {}

theorem compile_computes (verbose : Bool) (item : Item) : Computes (compile verbose item) (compiled item) := by
  apply Computes.world
  intro s
  apply (Computes.lift _).bind
  intro document
  apply ((Computes.lift _).bind fun api => ?_).congr fun _ => bind_pure _
  apply (Computes.forM (fun d => Computes.warn _) _).andThen
  cases verbose with
  | false => exact Computes.pure api
  | true => exact (Computes.say _).andThen ((Computes.say _).andThen (Computes.pure api))

end ClientBindings.CommandLine.Session
