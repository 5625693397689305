import ClientBindings.Proofs.Bundle.Walk

/-! Putting copied targets into their sections. Everything is said by what is found under keys: a copied
target where there is one, else what was there before. -/

namespace ClientBindings

namespace Data
variable {present es : Fields} {tupled : Bool} {ref : String}

theorem at?_cons_cons (d : Data) (key next : Scalar) (keys : List Scalar) :
    d.at? (key :: next :: keys) = ((d.under? key).getD (.map [])).at? (next :: keys) := by
  rw [at?_cons]
  cases d.under? key <;> rfl

theorem at?_singleton (d : Data) (key : Scalar) : d.at? [key] = d.under? key := by
  rw [at?_cons]
  cases d.under? key <;> rfl

theorem under?_merge (h : Entries.Distinct Scalar.same es) (key : Scalar) :
    (Data.map (Entries.merge Scalar.same present es)).under? key =
      ((Data.map es).under? key).or ((Data.map present).under? key) :=
  Entries.find?_merge Scalar.same_equivalence h

theorem not_freeRef_nil : ¬ FreeRef (.map []) tupled ref := by
  intro h
  cases h with
  | here h => cases h
  | entry _ h _ => cases h

/-- Under keys that were not present there may be references in the new values, and a new text under
`$ref` is one itself. -/
theorem FreeRef.of_merge (hdistinct : Entries.Distinct Scalar.same es)
    (hnew : ∀ key v, (Data.map es).under? key = some v → (Data.map present).under? key = none)
    (h : FreeRef (.map (Entries.merge Scalar.same present es)) tupled ref) :
    FreeRef (.map present) tupled ref ∨
      (∃ key v, (Data.map es).under? key = some v ∧ FreeRef v tupled ref) ∨
      (tupled = false ∧ (Data.map es).under? (.str "$ref") = some (.str ref)) := by
  cases h with
  | here h =>
    rw [refText?_eq_some_iff, under?_merge hdistinct, Option.or_eq_some_iff] at h
    rcases h with h | ⟨_, h⟩
    · exact Or.inr (Or.inr ⟨rfl, h⟩)
    · exact Or.inl (.here (refText?_eq_some_iff.mpr h))
  | @entry _ v key _ _ hnone hunder hfree =>
    rw [under?_merge hdistinct, Option.or_eq_some_iff] at hunder
    rcases hunder with hunder | ⟨_, hunder⟩
    · exact Or.inr (Or.inl ⟨key, v, hunder, hfree⟩)
    refine Or.inl (.entry ?_ hunder hfree)
    rw [Option.eq_none_iff_forall_ne_some]
    intro old hold
    have hold' := refText?_eq_some_iff.mp hold
    have hes : (Data.map es).under? (.str "$ref") = none := by
      cases hv : (Data.map es).under? (.str "$ref") with
      | none => rfl
      | some v' => exact absurd hold' (by simp [hnew _ _ hv])
    have hmerged : (Data.map (Entries.merge Scalar.same present es)).refText? = some old := by
      rw [refText?_eq_some_iff, under?_merge hdistinct, hes, Option.none_or]
      exact hold'
    exact absurd (hnone.symm.trans hmerged) (by simp)

end Data

namespace Bundle
open Data

variable {copied : List (Scalar × Fields)} {components result : Fields}

theorem addCopied_under? (hdistinct : Entries.Distinct Scalar.same copied)
    (h : addCopied components copied = .ok result) (key : Scalar) :
    (Entries.find? Scalar.same copied key = none ∧
      (Data.map result).under? key = (Data.map components).under? key) ∨
    ∃ es present, Entries.find? Scalar.same copied key = some es ∧
      ((Data.map components).under? key).getD (.map []) = .map present ∧
      (Data.map result).under? key = some (.map (Entries.merge Scalar.same present es)) := by
  induction copied generalizing components with
  | nil =>
    obtain rfl : components = result := by simpa [addCopied] using h
    exact Or.inl ⟨rfl, rfl⟩
  | cons e rest ih =>
    obtain ⟨hhead, htail⟩ := List.pairwise_cons.mp hdistinct
    rw [addCopied] at h
    split at h
    · rename_i present hpresent
      rw [Entries.find?_cons]
      by_cases he : e.1.same key = true
      · have hrest : Entries.find? Scalar.same rest key = none := by
          rw [Entries.find?_eq_none_iff]
          intro f hf hfkey
          exact hhead f hf (Scalar.same_equivalence.trans he (Scalar.same_equivalence.symm hfkey))
        rcases ih htail h with ⟨_, hresult⟩ | ⟨es, _, hes, _⟩
        · refine Or.inr ⟨e.2, present, if_pos he, ?_, ?_⟩
          · rw [← hpresent, under?, ← Entries.find?_congr Scalar.same_equivalence he]
          · rw [hresult, under?, Entries.find?_put Scalar.same_equivalence, if_pos he]
        · exact absurd (hrest.symm.trans hes) (by simp)
      · rw [if_neg he]
        have hput : (Data.map (Entries.put Scalar.same components e.1
            (.map (Entries.merge Scalar.same present e.2)))).under? key = (Data.map components).under? key := by
          rw [under?, Entries.find?_put Scalar.same_equivalence, if_neg he]
          rfl
        have hkey := ih htail h
        rw [hput] at hkey
        exact hkey
    · exact absurd h Result.throw_ne_ok

/-- What is kept when a section is put among the components is kept when all are. -/
theorem addCopied_keeps {P : Fields → Prop} (step : ∀ components, ∀ e ∈ copied, ∀ present, P components →
      ((Data.map components).under? e.1).getD (.map []) = .map present →
      P (Entries.put Scalar.same components e.1 (.map (Entries.merge Scalar.same present e.2))))
    (h : addCopied components copied = .ok result) (hcomponents : P components) : P result := by
  induction copied generalizing components with
  | nil =>
    obtain rfl := Except.ok.inj h
    exact hcomponents
  | cons e rest ih =>
    rw [addCopied] at h
    split at h
    · rename_i present hpresent
      have hput := step components e List.mem_cons_self present hcomponents hpresent
      exact ih (fun components f hf => step components f (List.mem_cons_of_mem e hf)) h hput
    · exact absurd h Result.throw_ne_ok

/-- How the result of a merge comes from what was walked. -/
theorem addComponents_cases {walked R : Data} (h : addComponents copied walked = .ok R) :
    (copied = [] ∧ R = walked) ∨ ∃ fields components result, walked = .map fields ∧
      (walked.under? (.str "components")).getD (.map []) = .map components ∧
      addCopied components copied = .ok result ∧
      R = .map (Entries.put Scalar.same fields (.str "components") (.map result)) := by
  rw [addComponents] at h
  split at h
  · rename_i hempty
    obtain rfl : walked = R := by simpa using h
    exact Or.inl ⟨List.isEmpty_iff.mp hempty, rfl⟩
  · obtain ⟨fields, hfields, hmerge⟩ := Result.bind_eq_ok_iff.mp h
    obtain rfl : walked = .map fields := by
      cases walked with
      | map es => rw [Result.pure_eq_ok_iff.mp hfields]
      | scalar | list | tuple => exact absurd hfields Result.throw_ne_ok
    split at hmerge
    · rename_i components hcomponents
      obtain ⟨result, hresult, hR⟩ := Result.bind_eq_ok_iff.mp hmerge
      exact Or.inr ⟨fields, components, result, rfl, hcomponents, hresult, (Result.pure_eq_ok_iff.mp hR).symm⟩
    · exact absurd hmerge Result.throw_ne_ok

/-! ## What is found in the result -/

section
variable {source : Source} {s : State} {walked R : Data} {tupled : Bool} {ref : String}

theorem under?_put_components (fields : Fields) (d : Data) (key : Scalar) :
    (Data.map (Entries.put Scalar.same fields (.str "components") d)).under? key =
      if key = .str "components" then some d else (Data.map fields).under? key := by
  rw [under?, Entries.find?_put Scalar.same_equivalence]
  simp only [Scalar.same_str_left]
  rfl

theorem under?_of_ne_components (h : addComponents copied walked = .ok R) {key : Scalar}
    (hkey : key ≠ .str "components") : R.under? key = walked.under? key := by
  rcases addComponents_cases h with ⟨_, rfl⟩ | ⟨fields, components, result, rfl, _, _, rfl⟩
  · rfl
  · rw [under?_put_components, if_neg hkey]

theorem refText?_addComponents (h : addComponents copied walked = .ok R) : R.refText? = walked.refText? := by
  rw [refText?, refText?, under?_of_ne_components h (by decide)]

theorem at?_addCopied (hs : Sound source s) {sectionName key : Scalar}
    (h : addCopied components s.copied = .ok result) :
    (Data.map result).at? [sectionName, key] =
      (s.content? sectionName key).or ((Data.map components).at? [sectionName, key]) := by
  rw [at?_cons_cons, at?_cons_cons, at?_singleton, at?_singleton, State.content?]
  rcases addCopied_under? hs.sections h sectionName with ⟨hnone, hunder⟩ | ⟨es, present, hes, hpresent, hunder⟩
  · rw [hnone, hunder]
    rfl
  · rw [hunder, hes, hpresent, Option.getD_some, under?_merge (hs.entries _ _ hes)]
    rfl

/-- Every component is a copied target, or else what it was before. -/
theorem at?_addComponents (hs : Sound source s) (h : addComponents s.copied walked = .ok R)
    (sectionName key : Scalar) :
    R.at? [.str "components", sectionName, key] =
      (s.content? sectionName key).or (walked.at? [.str "components", sectionName, key]) := by
  rcases addComponents_cases h with ⟨hempty, rfl⟩ | ⟨fields, components, result, rfl, hcomponents, hresult, rfl⟩
  · rw [State.content?, hempty]
    rfl
  · rw [at?_cons_cons, at?_cons_cons _ (.str "components"), hcomponents, under?_put_components, if_pos rfl,
      Option.getD_some, at?_addCopied hs hresult]

/-! ## Where references are left -/

/-- A copied target holds the reference, or is one as a text under the name `$ref`. -/
def Copied (s : State) (components : Data) (tupled : Bool) (ref : String) : Prop :=
  (∃ sectionName key content, s.content? sectionName key = some content ∧ FreeRef content tupled ref) ∨
  (tupled = false ∧ components.refText? = none ∧ ∃ sectionName,
    s.content? sectionName (.str "$ref") = some (.str ref))

theorem freeRef_addCopied (hs : Sound source s)
    (hnew : ∀ sectionName key content, s.content? sectionName key = some content →
      (Data.map components).at? [sectionName, key] = none)
    (h : addCopied components s.copied = .ok result) (hfree : FreeRef (.map result) tupled ref) :
    FreeRef (.map components) tupled ref ∨ Copied s (.map result) tupled ref := by
  have hunder := addCopied_under? hs.sections h
  have hsame : ∀ text, (Data.map result).refText? = some text ↔ (Data.map components).refText? = some text := by
    intro text
    rw [refText?_eq_some_iff, refText?_eq_some_iff]
    rcases hunder (.str "$ref") with ⟨_, heq⟩ | ⟨es, present, _, hpresent, heq⟩
    · rw [heq]
    · rw [heq]
      constructor
      · intro htext
        cases htext
      · intro htext
        rw [htext] at hpresent
        cases hpresent
  cases hfree with
  | here hhere => exact Or.inl (.here ((hsame ref).mp hhere))
  | @entry _ v sectionName _ _ hnone hv hfree =>
    have hnone' : (Data.map components).refText? = none := by
      rw [Option.eq_none_iff_forall_ne_some]
      intro text htext
      exact absurd (hnone.symm.trans ((hsame text).mpr htext)) (by simp)
    rcases hunder sectionName with ⟨_, heq⟩ | ⟨es, present, hes, hpresent, heq⟩
    · exact Or.inl (.entry hnone' (heq ▸ hv) hfree)
    obtain rfl := Option.some.inj (hv.symm.trans heq)
    have hcontent : ∀ key, s.content? sectionName key = (Data.map es).under? key := by
      intro key
      rw [State.content?, hes]
      rfl
    have hdisjoint : ∀ key v, (Data.map es).under? key = some v → (Data.map present).under? key = none := by
      intro key v hkey
      have hat := hnew sectionName key v ((hcontent key).trans hkey)
      rwa [at?_cons_cons, hpresent, at?_singleton] at hat
    rcases FreeRef.of_merge (hs.entries _ _ hes) hdisjoint hfree with hold | ⟨key, v, hkey, hfree⟩ | ⟨htupled, htext⟩
    · left
      cases hfound : (Data.map components).under? sectionName with
      | none =>
        rw [hfound] at hpresent
        cases hpresent
        exact absurd hold not_freeRef_nil
      | some d =>
        rw [hfound] at hpresent
        obtain rfl : d = .map present := hpresent
        exact .entry hnone' hfound hold
    · exact Or.inr (Or.inl ⟨sectionName, key, v, (hcontent key).trans hkey, hfree⟩)
    · exact Or.inr (Or.inr ⟨htupled, hnone, sectionName, (hcontent _).trans htext⟩)

theorem freeRef_addComponents (hs : Sound source s)
    (hnew : ∀ sectionName key content, s.content? sectionName key = some content →
      walked.at? [.str "components", sectionName, key] = none)
    (h : addComponents s.copied walked = .ok R) (hfree : FreeRef R tupled ref) :
    FreeRef walked tupled ref ∨
      R.refText? = none ∧ ∃ components, R.under? (.str "components") = some components ∧
        Copied s components tupled ref := by
  have hrefText := refText?_addComponents h
  rcases addComponents_cases h with ⟨_, rfl⟩ | ⟨fields, components, result, rfl, hcomponents, hresult, rfl⟩
  · exact Or.inl hfree
  cases hfree with
  | here hhere => exact Or.inl (.here (hrefText ▸ hhere))
  | @entry _ v key _ _ hnone hv hfree =>
    rw [under?_put_components] at hv
    split at hv
    · cases hv
      have hnew' : ∀ sectionName key content, s.content? sectionName key = some content →
          (Data.map components).at? [sectionName, key] = none := by
        intro sectionName key content hcontent
        have hat := hnew sectionName key content hcontent
        rwa [at?_cons_cons, hcomponents] at hat
      rcases freeRef_addCopied hs hnew' hresult hfree with hold | hcopied
      · left
        cases hfound : (Data.map fields).under? (.str "components") with
        | none =>
          rw [hfound] at hcomponents
          cases hcomponents
          exact absurd hold not_freeRef_nil
        | some d =>
          rw [hfound] at hcomponents
          obtain rfl : d = .map components := hcomponents
          exact .entry (hrefText ▸ hnone) hfound hold
      · refine Or.inr ⟨hnone, .map result, ?_, hcopied⟩
        rw [under?_put_components, if_pos rfl]
    · exact Or.inl (.entry (hrefText ▸ hnone) hv hfree)

end

end Bundle
end ClientBindings
