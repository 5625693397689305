import ClientBindings.Proofs.Bundle.Walk
import ClientBindings.Proofs.Source.Package
import ClientBindings.Schema.Synthesis

/-! Names that are handed out on request. The names of a module, those of aliases and, section by section,
those of components are claimed in the same way; what is claimed differs from all that is in use and from
all that was claimed before. So do the files of a package. -/

namespace ClientBindings

/-- Names are claimed from those in use, part by part: a request is for a name in one part. -/
structure Registry {σ ρ κ : Type} [DecidableEq κ] (claim : ρ → Action σ String) (part : ρ → κ)
    (wanted : ρ → String) (taken : σ → κ → List String) : Prop where
  runs : ∀ r s, ∃ t, Runs (claim r) s (freshName (taken s (part r)) (wanted r)) t ∧ ∀ k,
    taken t k = if part r = k then freshName (taken s k) (wanted r) :: taken s k else taken s k

/-- Answers to a sequence of requests: how each is found, and that they are new and differ. -/
structure Supplied (taken names answers : List String) : Prop where
  claimed : Claimed taken names answers
  new : ∀ n ∈ answers, n ∉ taken
  distinct : answers.Nodup

theorem Claimed.supplied {taken names answers : List String} (h : Claimed taken names answers) :
    Supplied taken names answers := ⟨h, h.not_mem, h.nodup⟩

namespace Registry
variable {σ ρ κ : Type} [DecidableEq κ] {claim : ρ → Action σ String} {part : ρ → κ} {wanted : ρ → String}
  {taken : σ → κ → List String}

/-- What is asked for in a part, and what the answers there are. -/
def asked (part : ρ → κ) (wanted : ρ → String) (requests : List ρ) (k : κ) : List String :=
  (requests.filter fun r => part r = k).map wanted

def answered (part : ρ → κ) (requests : List ρ) (answers : List String) (k : κ) : List String :=
  ((requests.zip answers).filter fun e => part e.1 = k).map Prod.snd

theorem mapM (h : Registry claim part wanted taken) (requests : List ρ) (s : σ) : ∃ answers t,
    Runs (requests.mapM claim) s answers t ∧ answers.length = requests.length ∧
      ∀ k, Claimed (taken s k) (asked part wanted requests k) (answered part requests answers k) := by
  induction requests generalizing s with
  | nil => exact ⟨[], s, Runs.mapM_nil_iff.mpr ⟨rfl, rfl⟩, rfl, fun _ => .nil⟩
  | cons r requests ih =>
    obtain ⟨u, hclaim, htaken⟩ := h.runs r s
    obtain ⟨answers, t, hrest, hlength, hclaimed⟩ := ih u
    refine ⟨_ :: answers, t, Runs.mapM_cons_iff.mpr ⟨_, u, answers, hclaim, hrest, rfl⟩, ?_, ?_⟩
    · rw [List.length_cons, List.length_cons, hlength]
    intro k
    have hk := hclaimed k
    rw [htaken k] at hk
    by_cases hpart : part r = k
    · subst hpart
      simp only [asked, answered, List.zip_cons_cons, List.filter_cons, decide_true, if_true, List.map_cons] at hk ⊢
      exact .cons (isFresh_freshName _ _) hk
    · simpa only [asked, answered, List.zip_cons_cons, List.filter_cons, hpart, decide_false, if_false,
        Bool.false_eq_true] using hk

/-- Where there is one part only, all requests are answered in it. -/
theorem mapM_single {claim : String → Action σ String} {taken : σ → List String}
    (h : Registry claim (fun _ => ()) id fun s _ => taken s) (names : List String) (s : σ) : ∃ answers t,
    Runs (names.mapM claim) s answers t ∧ Supplied (taken s) names answers := by
  obtain ⟨answers, t, hruns, hlength, hclaimed⟩ := h.mapM names s
  refine ⟨answers, t, hruns, Claimed.supplied ?_⟩
  have hnames : asked (fun _ : String => ()) id names () = names := by simp [asked]
  have hanswers : answered (fun _ : String => ()) names answers () = answers := by
    simp [answered, List.map_snd_zip, hlength]
  have hall := hclaimed ()
  rwa [hnames, hanswers] at hall

end Registry

theorem Draft.registry : Registry Draft.claim (fun _ => ()) id fun s _ => s.taken where
  runs name s := ⟨{ s with taken := freshName s.taken name :: s.taken }, rfl, fun _ => rfl⟩

theorem Schema.registry : Registry Schema.claimName (fun _ => ()) id fun s _ => s.names where
  runs name s := ⟨{ s with names := freshName s.names name :: s.names }, rfl, fun _ => rfl⟩

theorem Bundle.registry : Registry (fun r : String × String => Bundle.claim r.1 r.2) Prod.fst Prod.snd
    Bundle.State.taken where
  runs r s := by
    refine ⟨_, Bundle.runs_claim_iff.mpr ⟨rfl, rfl⟩, fun k => ?_⟩
    rw [Bundle.State.taken, Entries.find?_put Scalar.same_equivalence]
    simp only [Scalar.same_str_left, Scalar.str.injEq]
    by_cases hk : r.1 = k
    · subst hk
      simp
    · rw [if_neg (Ne.symm hk), if_neg hk]
      rfl

/-- Names of modules, names of aliases and names of components are supplied in this way, and of the files of
a package there is one for each API, at a path of its own, beside the package file. -/
theorem names_supplied :
    (∀ names (s : Draft), ∃ answers t, Runs (names.mapM Draft.claim) s answers t ∧
      Supplied s.taken names answers) ∧
    (∀ names (s : Schema.State), ∃ answers t, Runs (names.mapM Schema.claimName) s answers t ∧
      Supplied s.names names answers) ∧
    (∀ (requests : List (String × String)) (s : Bundle.State), ∃ answers t,
      Runs (requests.mapM fun r => Bundle.claim r.1 r.2) s answers t ∧ answers.length = requests.length ∧
        ∀ sectionName, Supplied (s.taken sectionName)
          ((requests.filter fun r => r.1 = sectionName).map Prod.snd)
          (((requests.zip answers).filter fun e => e.1.1 = sectionName).map Prod.snd)) ∧
    ∀ apis naming directory package files, Package.files apis naming directory package = .ok files →
      ∃ modules names, apis.mapM (fun api => Module.ofApi api naming) = .ok modules ∧
        Supplied ["__init__"] (modules.map Module.name) names ∧ names.length = apis.length ∧
        files.map Prod.fst = (names ++ ["__init__"]).map (fun n =>
          Package.join (Package.join directory package) (n ++ ".py")) ∧
        (files.map Prod.fst).Nodup := by
  refine ⟨Draft.registry.mapM_single, Schema.registry.mapM_single, ?_, ?_⟩
  · intro requests s
    obtain ⟨answers, t, hruns, hlength, hclaimed⟩ := Bundle.registry.mapM requests s
    exact ⟨answers, t, hruns, hlength, fun sectionName => (hclaimed sectionName).supplied⟩
  · intro apis naming directory package files h
    obtain ⟨modules, hmodules, -, hpaths⟩ := Package.files_paths h
    have hclaimed := Package.rename_claimed modules
    refine ⟨modules, (Package.rename modules).map Module.name, hmodules, hclaimed.supplied, ?_, hpaths,
      Package.paths_nodup h⟩
    rw [hclaimed.length_eq, List.length_map, Result.mapM_length hmodules]

/-- An API that has a name and nothing else. -/
def Api.bare (name : String) : Api where
  name := name
  version := ""
  title := .null
  servers := []
  security := []
  aliases := []
  operations := []
  diagnostics := []

/-- The third name is one that the second API got. -/
theorem names_supplied_pets : ∃ files, Package.files (["pets", "pets", "pets2"].map Api.bare) {} "out" "zoo" = .ok files ∧
    files.map Prod.fst = ["out/zoo/pets.py", "out/zoo/pets2.py", "out/zoo/pets22.py", "out/zoo/__init__.py"] ∧
    ∃ modules names, (["pets", "pets", "pets2"].map Api.bare).mapM (fun api => Module.ofApi api {}) = .ok modules ∧
      Supplied ["__init__"] (modules.map Module.name) names ∧ (files.map Prod.fst).Nodup := by
  have hrun : (Package.files (["pets", "pets", "pets2"].map Api.bare) {} "out" "zoo").toOption.map (·.map Prod.fst) =
      some ["out/zoo/pets.py", "out/zoo/pets2.py", "out/zoo/pets22.py", "out/zoo/__init__.py"] := by decide +kernel
  obtain ⟨files, hfiles, hpaths⟩ := Option.map_eq_some_iff.mp hrun
  have hok := Result.eq_ok_of_toOption hfiles
  obtain ⟨modules, names, hmodules, hsupplied, -, -, hnodup⟩ := names_supplied.2.2.2 _ _ _ _ _ hok
  exact ⟨files, hok, hpaths, modules, names, hmodules, hsupplied, hnodup⟩

end ClientBindings
