import ClientBindings.Proofs.Bundle.Faithful
import ClientBindings.Proofs.Bundle.Local
import ClientBindings.Proofs.WellKeyed

/-! Bundling a bundled document once more. The names in its sections can be read again; where every reference is
local there is nothing else to read and nothing to copy, so the document comes out as it went in. -/

namespace ClientBindings.Bundle

open Data

/-! ## The sections of a bundled document -/

section
variable {source : Source} {targets : List (Target × Place)} {base : String} {path : Path} {s : State}
  {document walked R before after d : Data} {es components result : Fields} {copied : List (Scalar × Fields)}

def HasNames (d : Data) : Prop := ∃ names, presentNames d = .ok names

theorem hasNames_iff : HasNames d ↔ ∃ xs, d.elements = .ok xs ∧ areHashable xs = true := by
  constructor
  · rintro ⟨names, h⟩
    obtain ⟨xs, hxs, h⟩ := Result.bind_eq_ok_iff.mp h
    refine ⟨xs, hxs, ?_⟩
    by_contra hnot
    rw [Bool.not_eq_true] at hnot
    simp only [hnot] at h
    exact absurd h Result.throw_ne_ok
  · rintro ⟨xs, hxs, hhash⟩
    rw [HasNames, presentNames, hxs]
    exact ⟨_, if_neg (by simp [hhash])⟩

theorem areHashable_iff {xs : List Data} : areHashable xs = true ↔ ∀ x ∈ xs, isHashable x = true := by
  induction xs with
  | nil => exact iff_of_true rfl nofun
  | cons x xs ih => rw [areHashable, Bool.and_eq_true, ih, List.forall_mem_cons]

theorem hasNames_map (es : Fields) : HasNames (.map es) := by
  refine hasNames_iff.mpr ⟨_, rfl, areHashable_iff.mpr fun x hx => ?_⟩
  obtain ⟨e, -, rfl⟩ := List.mem_map.mp hx
  rfl

theorem hasNames_str (text : String) : HasNames (.str text) := by
  refine hasNames_iff.mpr ⟨_, rfl, areHashable_iff.mpr fun x hx => ?_⟩
  obtain ⟨c, -, rfl⟩ := List.mem_map.mp hx
  rfl

/-- What a set can hold is not walked. -/
theorem Rewritten.eq_of_isHashable (h : Rewritten source targets base path before after)
    (hhash : isHashable before = true) : after = before := by
  cases h with
  | scalar | tuple => rfl
  | list | map | home | pathItem | component => cases hhash

theorem Rewritten.hasNames (h : Rewritten source targets base path before after) (hpath : isPathItem path = false)
    (hbefore : HasNames before) : HasNames after := by
  cases h with
  | scalar | tuple => exact hbefore
  | map => exact hasNames_map _
  | home | component => exact hasNames_map _
  | pathItem _ _ _ hitem => exact absurd (hitem.symm.trans hpath) nofun
  | @list _ _ xs ys hlen hitems =>
    obtain ⟨_, hxs, hhash⟩ := hasNames_iff.mp hbefore
    obtain rfl := Result.pure_eq_ok_iff.mp hxs
    have hsame : xs = ys := by
      refine List.ext_getElem hlen fun i hi hi' => ?_
      have hx := areHashable_iff.mp hhash _ (List.getElem_mem hi)
      exact ((hitems i _ _ (List.getElem?_eq_getElem hi) (List.getElem?_eq_getElem hi')).eq_of_isHashable hx).symm
    rwa [← hsame]

/-- Components that sections can be read from: nothing, or sections with names. -/
def Sectioned (components : Data) : Prop :=
  components.truthy = true → ∃ es, components = .map es ∧ ∀ e ∈ es, HasNames e.2

theorem sectioned_map_iff : Sectioned (.map es) ↔ ∀ e ∈ es, HasNames e.2 := by
  constructor
  · intro h e he
    obtain ⟨_, heq, hnames⟩ := h (by rw [Data.truthy, List.isEmpty_eq_false_iff_exists_mem.mpr ⟨e, he⟩]; rfl)
    exact hnames e (Data.map.inj heq ▸ he)
  · exact fun h _ => ⟨es, rfl, h⟩

theorem sectioned_list_iff {items : List Data} : Sectioned (.list items) ↔ items = [] := by
  cases items with
  | nil => exact iff_of_true nofun rfl
  | cons x items => exact iff_of_false (fun h => nomatch h rfl) (List.cons_ne_nil x items)

theorem sectioned_redirect (h : Sectioned (.map es)) (ref : String) : Sectioned (redirect es ref) := by
  refine sectioned_map_iff.mpr fun f hf => ?_
  rcases Entries.mem_put hf with hf | ⟨hvalue, -⟩
  · exact sectioned_map_iff.mp h f hf
  · rw [hvalue]
    exact hasNames_str ref

theorem exists_presentSections_iff {fields : Fields} : (∃ names, presentSections (.map fields) = .ok names) ↔
    Sectioned (((Data.map fields).under? (.str "components")).getD .null) := by
  have hsections : presentSections (.map fields) =
      let components := ((Data.map fields).under? (.str "components")).getD .null
      if !components.truthy then .ok [] else
        components.entries >>= fun es => es.mapM fun e => do return (e.1, ← presentNames e.2) := rfl
  rw [hsections]
  generalize ((Data.map fields).under? (.str "components")).getD .null = components
  have hentry : ∀ e : Scalar × Data, (∃ b, (do return (e.1, ← presentNames e.2) : Result _) = .ok b) ↔
      HasNames e.2 := by
    intro e
    constructor
    · rintro ⟨b, h⟩
      obtain ⟨names, hnames, -⟩ := Result.bind_eq_ok_iff.mp h
      exact ⟨names, hnames⟩
    · rintro ⟨names, hnames⟩
      exact ⟨(e.1, names), Result.bind_eq_ok_iff.mpr ⟨names, hnames, rfl⟩⟩
  cases htruthy : components.truthy with
  | false => exact iff_of_true ⟨[], by simp [htruthy]⟩ fun h => nomatch htruthy.symm.trans h
  | true =>
    simp only [htruthy, Bool.not_true, Bool.false_eq_true, if_false]
    cases components with
    | scalar | list | tuple =>
      refine iff_of_false (fun ⟨names, h⟩ => nomatch h) fun h => ?_
      obtain ⟨es, hes, -⟩ := h htruthy
      cases hes
    | map es =>
      rw [sectioned_map_iff]
      exact Result.exists_mapM_iff.trans (forall₂_congr fun e _ => hentry e)

theorem Rewritten.sectioned_components
    (h : Rewritten source targets base [.str "components"] before after) (hbefore : Sectioned before) :
    Sectioned after := by
  cases h with
  | scalar | tuple => exact hbefore
  | list hlen _ =>
    rw [sectioned_list_iff] at hbefore ⊢
    exact List.length_eq_zero_iff.mp (hlen ▸ List.length_eq_zero_iff.mpr hbefore)
  | @map _ _ es fs _ hkeys hentries =>
    rw [sectioned_map_iff] at hbefore ⊢
    intro f hf
    have hlen : es.length = fs.length := by simpa using congrArg List.length hkeys
    obtain ⟨i, e, he, hf, hmem⟩ := exists_counterpart hlen hf
    exact (hentries i e f he hf).hasNames rfl (hbefore e hmem)
  | home | component => exact sectioned_redirect hbefore _
  | pathItem _ _ _ hitem => cases hitem

theorem Rewritten.sectioned (h : Rewritten source targets base [] before after)
    (hbefore : Sectioned ((before.under? (.str "components")).getD .null)) :
    Sectioned ((after.under? (.str "components")).getD .null) := by
  cases h with
  | scalar | tuple | list => exact hbefore
  | map _ hkeys hentries =>
    rcases @Entries.find?_aligned _ _ Scalar.same _ _
      (fun key v w => Rewritten source targets base [key] v w) hkeys hentries (.str "components") with
      ⟨-, hw⟩ | ⟨key, v, w, hkey, hv, hw, hvw⟩
    · rw [Data.under?, hw]
      intro htruthy
      cases htruthy
    · rw [Data.under?, hv] at hbefore
      rw [Data.under?, hw]
      obtain rfl := Scalar.same_str_right.mp hkey
      exact hvw.sectioned_components hbefore
  | home | component =>
    rw [under?_redirect, if_neg (by decide)]
    exact hbefore
  | pathItem _ _ _ hitem => cases hitem

theorem sectioned_addComponents (h : addComponents copied walked = .ok R)
    (hwalked : Sectioned ((walked.under? (.str "components")).getD .null)) :
    Sectioned ((R.under? (.str "components")).getD .null) := by
  rcases addComponents_cases h with ⟨-, rfl⟩ | ⟨fields, components, result, rfl, hcomponents, hresult, rfl⟩
  · exact hwalked
  have hnames : ∀ e ∈ components, HasNames e.2 := by
    cases hfound : (Data.map fields).under? (.str "components") with
    | none =>
      rw [hfound] at hcomponents
      cases hcomponents
      exact nofun
    | some d =>
      rw [hfound] at hcomponents hwalked
      obtain rfl : d = .map components := hcomponents
      exact sectioned_map_iff.mp hwalked
  rw [under?_put_components, if_pos rfl]
  refine sectioned_map_iff.mpr (addCopied_keeps (P := fun es => ∀ e ∈ es, HasNames e.2) ?_ hresult hnames)
  intro components e _ present hold _ f hf
  rcases Entries.mem_put hf with hf | ⟨hvalue, -⟩
  · exact hold f hf
  · rw [hvalue]
    exact hasNames_map _

/-- From a document that was bundled names can be read again. -/
theorem exists_presentSections {names : List (Scalar × List String)} (h : presentSections document = .ok names)
    (hout : Outcome source document walked R s) : ∃ names, presentSections R = .ok names := by
  obtain ⟨es, rfl⟩ : ∃ es, document = .map es := by
    cases document with
    | map es => exact ⟨es, rfl⟩
    | scalar | list | tuple => cases h
  have hR := sectioned_addComponents hout.merged (hout.rewritten.sectioned (exists_presentSections_iff.mp ⟨names, h⟩))
  obtain ⟨fs, rfl⟩ : ∃ fs, walked = .map fs := by
    cases hout.rewritten with
    | map | home | component => exact ⟨_, rfl⟩
    | pathItem _ _ _ hitem => cases hitem
  rcases addComponents_cases hout.merged with ⟨-, rfl⟩ | ⟨_, _, _, _, _, _, rfl⟩
  · exact exists_presentSections_iff.mpr hR
  · exact exists_presentSections_iff.mpr hR

/-! ## Documents without repeated keys -/

theorem met_of_freeRef {tupled : Bool} {ref : String} (h : FreeRef d tupled ref) (htupled : tupled = false) :
    Met d ref := by
  induction h with
  | here href => exact .here href
  | @entry d v key _ _ hnone hunder _ ih =>
    cases d with
    | scalar | list | tuple => cases hunder
    | map es =>
      obtain ⟨_, hmem, -⟩ := Entries.mem_of_find? hunder
      exact .entry hnone hmem (ih htupled)
  | item hx _ ih => exact .item hx (ih htupled)
  | part => cases htupled

/-- Where no key is repeated, every entry is found under its key. -/
theorem freeRef_of_met {ref : String} (h : Met d ref) (hd : d.WellKeyed) : FreeRef d false ref := by
  induction h with
  | here href => exact .here href
  | item hx _ ih =>
    cases hd with
    | list hitems => exact .item hx (ih (hitems _ hx))
  | entry hnone hmem _ ih =>
    cases hd with
    | map hkeys hvalues =>
      exact .entry hnone (Entries.find?_of_mem Scalar.same_equivalence hkeys hmem) (ih (hvalues _ hmem))

theorem Rewritten.wellKeyed (hread : ∀ location d, source.read location = .ok d → d.WellKeyed)
    (h : Rewritten source targets base path before after) (hbefore : before.WellKeyed) : after.WellKeyed := by
  induction h with
  | scalar | tuple => exact hbefore
  | @list _ _ xs ys hlen _ ih =>
    cases hbefore with
    | list hxs =>
      refine .list fun y hy => ?_
      obtain ⟨i, x, hx, hy, hmem⟩ := exists_counterpart hlen hy
      exact ih i x y hx hy (hxs x hmem)
  | @map _ _ es fs _ hkeys _ ih =>
    cases hbefore with
    | map hdistinct hvalues =>
      have hlen : es.length = fs.length := by simpa using congrArg List.length hkeys
      refine .map ?_ fun f hf => ?_
      · have hpairwise : (fs.map Prod.fst).Pairwise fun a b => ¬ a.same b = true :=
          hkeys ▸ List.pairwise_map.mpr hdistinct
        exact List.pairwise_map.mp hpairwise
      · obtain ⟨i, e, he, hf, hmem⟩ := exists_counterpart hlen hf
        exact ih i e f he hf (hvalues e hmem)
  | home | component => exact hbefore.put _ (.scalar _)
  | pathItem _ _ _ _ hnode _ ih =>
    obtain ⟨d, hd, hwalk⟩ := hnode
    exact ih ((hread _ d hd).walk? hwalk)

theorem wellKeyed_under? {fields : Fields} {key : Scalar} (h : (Data.map fields).WellKeyed)
    (hpresent : ((Data.map fields).under? key).getD (.map []) = .map es) : (Data.map es).WellKeyed := by
  rw [← hpresent]
  cases hfound : (Data.map fields).under? key with
  | none => exact .map .nil nofun
  | some d =>
    obtain ⟨_, hmem, -⟩ := Entries.mem_of_find? hfound
    exact h.entry hmem

theorem wellKeyed_addComponents (hcopied : ∀ e ∈ copied, (Data.map e.2).WellKeyed)
    (h : addComponents copied walked = .ok R) (hwalked : walked.WellKeyed) : R.WellKeyed := by
  rcases addComponents_cases h with ⟨-, rfl⟩ | ⟨fields, components, result, rfl, hcomponents, hresult, rfl⟩
  · exact hwalked
  · refine hwalked.put _ (addCopied_keeps (P := fun es => (Data.map es).WellKeyed) ?_ hresult
      (wellKeyed_under? hwalked hcomponents))
    intro components e he present hold hpresent
    exact hold.put _ ((wellKeyed_under? hold hpresent).merge (hcopied e he))

theorem Outcome.wellKeyed (hout : Outcome source document walked R s) (hdocument : document.WellKeyed)
    (hread : ∀ location d, source.read location = .ok d → d.WellKeyed) : R.WellKeyed := by
  refine wellKeyed_addComponents ?_ hout.merged (hout.rewritten.wellKeyed hread hdocument)
  rintro ⟨sectionName, es⟩ hes
  have hfound := Entries.find?_of_mem Scalar.same_equivalence hout.sound.sections hes
  have hdistinct := hout.sound.entries sectionName es hfound
  refine .map hdistinct ?_
  rintro ⟨name, content⟩ hcontent
  have hcontent' : s.content? sectionName name = some content := by
    rw [State.content?, hfound]
    exact Entries.find?_of_mem Scalar.same_equivalence hdistinct hcontent
  obtain ⟨target, place, hmem, rfl, rfl⟩ := hout.sound.kept _ _ _ hcontent'
  obtain ⟨-, node, filled, ⟨d, hd, hwalk⟩, hfilled, hrewritten⟩ := hout.filled target place hmem
  obtain rfl := Option.some.inj (hfilled.symm.trans hcontent')
  exact hrewritten.wellKeyed hread ((hread _ d hd).walk? hwalk)

/-- The references that are not local are texts that came to stand under the name `$ref`. -/
theorem Outcome.allLocal_iff (hout : Outcome source document walked R s) (hdocument : document.WellKeyed)
    (hread : ∀ location d, source.read location = .ok d → d.WellKeyed) :
    AllLocal R ↔ ∀ ref, Misplaced document R s.targets ref → Reference.IsLocal ref := by
  constructor
  · exact fun h ref hmisplaced => h ref (met_of_freeRef hmisplaced.freeRef rfl)
  · intro h ref hmet
    rcases hout.left (freeRef_of_met hmet (hout.wellKeyed hdocument hread)) with hlocal | htupled | hmisplaced
    · exact hlocal
    · cases htupled
    · exact h ref hmisplaced

end

/-! ## Bundling again -/

section
variable {source : Source} {document R : Data} {s : State} {depth : Nat}

theorem exists_names (h : Runs (bundleAt source depth document) {} R s) :
    ∃ names, presentSections document = .ok names := by
  simp only [bundleAt, Runs.bind_iff, Runs.lift_iff] at h
  obtain ⟨names, _, ⟨hnames, -⟩, -⟩ := h
  exact ⟨names, hnames⟩

theorem not_runs_bundleAt_zero : ¬ Runs (bundleAt source 0 document) {} R s := by
  intro h
  simp only [bundleAt, Runs.bind_iff] at h
  obtain ⟨_, _, -, _, _, -, _, _, hwalk, -⟩ := h
  exact Runs.throw_iff hwalk

theorem runs_bundleAt_of_allLocal {names : List (Scalar × List String)} (hnames : presentSections R = .ok names)
    (h : AllLocal R) : Runs (bundleAt source (depth + 1) R) {} R { names } := by
  refine Runs.bind_iff.mpr ⟨names, {}, Runs.lift_iff.mpr ⟨hnames, rfl⟩, ?_⟩
  refine Runs.bind_iff.mpr ⟨(), { names }, Runs.modify_iff.mpr rfl, ?_⟩
  refine Runs.bind_iff.mpr ⟨R, { names }, runs_walkAt_of_allLocal h depth [] _, ?_⟩
  exact Runs.bind_iff.mpr ⟨_, _, Runs.get_iff.mpr ⟨rfl, rfl⟩, Runs.lift_iff.mpr ⟨rfl, rfl⟩⟩

theorem allLocal_of_runs (h : Runs (bundleAt source depth R) {} R s) (hreads : s.reads = []) : AllLocal R := by
  simp only [bundleAt, Runs.bind_iff, Runs.lift_iff, Runs.modify_iff, Runs.get_iff] at h
  obtain ⟨names, _, ⟨-, rfl⟩, _, _, rfl, walked, t, hwalk, _, _, ⟨rfl, rfl⟩, hmerged, rfl⟩ := h
  rcases (reads_walkAt depth _ _ _ _ _ _ hwalk).2 ⟨rfl, rfl⟩ with hlt | ⟨rfl, hlocal⟩
  · rw [hreads] at hlt
    exact absurd hlt (Nat.not_lt_zero _)
  · exact hlocal (Except.ok.inj hmerged)

theorem run_eq_iff {read : String → Result Data} {workingDirectory location : String} {reads : List String} :
    run read workingDirectory document location = (.ok R, reads) ↔
      ∃ s, Runs (bundle ⟨read, workingDirectory, Location.normalize workingDirectory location⟩ document) {} R s ∧
        s.reads.reverse = reads := by
  have hrun : run read workingDirectory document location = ((Id.run ((bundle ⟨read, workingDirectory,
      Location.normalize workingDirectory location⟩ document).run {})).1, (Id.run ((bundle ⟨read, workingDirectory,
      Location.normalize workingDirectory location⟩ document).run {})).2.reads.reverse) := rfl
  rw [hrun]
  unfold Runs
  rcases Id.run ((bundle ⟨read, workingDirectory, Location.normalize workingDirectory location⟩ document).run {}) with
    ⟨result, t⟩
  constructor
  · intro h
    obtain ⟨rfl, hreads⟩ := Prod.mk.inj h
    exact ⟨t, rfl, hreads⟩
  · rintro ⟨s, h, hreads⟩
    obtain ⟨rfl, rfl⟩ := Prod.mk.inj h
    exact Prod.ext rfl hreads

end

/-- A bundled document comes out of another bundling as it is, and nothing is read, exactly when every reference
that is walked in it is local, however deep either bundling may go; and it has another reference only where a text
came to stand under the name `$ref`. A document whose references are local is bundled already. -/
theorem bundle_again {source : Source} {depth : Nat} {document R : Data} {s : State}
    (h : Runs (bundleAt source depth document) {} R s) :
    (∀ (again : Source) more, (∃ t, Runs (bundleAt again (more + 1) R) {} R t ∧ t.reads = []) ↔ AllLocal R) ∧
    (∀ read workingDirectory location, run read workingDirectory R location = (.ok R, []) ↔ AllLocal R) ∧
    (document.WellKeyed → (∀ location d, source.read location = .ok d → d.WellKeyed) →
      (AllLocal R ↔ ∀ ref, Misplaced document R s.targets ref → Reference.IsLocal ref)) ∧
    (AllLocal document → R = document ∧ s.reads = []) := by
  obtain ⟨walked, hout⟩ := outcome h
  obtain ⟨names, hnames⟩ := exists_names h
  obtain ⟨names', hnames'⟩ := exists_presentSections hnames hout
  refine ⟨fun again more => ?_, fun read workingDirectory location => ?_,
    fun hdocument hread => hout.allLocal_iff hdocument hread, fun hlocal => ?_⟩
  · constructor
    · rintro ⟨t, hagain, hreads⟩
      exact allLocal_of_runs hagain hreads
    · exact fun hlocal => ⟨_, runs_bundleAt_of_allLocal hnames' hlocal, rfl⟩
  · rw [run_eq_iff]
    constructor
    · rintro ⟨t, hagain, hreads⟩
      exact allLocal_of_runs hagain (List.reverse_eq_nil_iff.mp hreads)
    · exact fun hlocal => ⟨_, runs_bundleAt_of_allLocal hnames' hlocal, rfl⟩
  · cases depth with
    | zero => exact absurd h not_runs_bundleAt_zero
    | succ depth =>
      obtain ⟨rfl, rfl⟩ := Runs.eq_of_runs h (runs_bundleAt_of_allLocal hnames hlocal)
      exact ⟨rfl, rfl⟩

theorem wellKeyed_refObject (ref : String) : (refObject ref).WellKeyed :=
  wellKeyed_object_iff.mpr ⟨List.nodup_singleton _, by simpa using .scalar _⟩

theorem wellKeyed_of_read_ofFiles {files : List (String × Data)} (h : ∀ file ∈ files, file.2.WellKeyed)
    {location : String} {d : Data} (hread : (Source.ofFiles files).read location = .ok d) : d.WellKeyed := by
  cases hfound : files.lookup location with
  | none => simp [Source.ofFiles, hfound] at hread
  | some found =>
    simp only [Source.ofFiles, hfound] at hread
    obtain rfl := Except.ok.inj hread
    exact h _ (Entries.mem_of_lookup hfound)

/-- Two files that refer to each other and back to the document. -/
theorem bundle_again_ring : ∃ R s, Runs (bundle ⟨ringFiles.read, "/work", Location.normalize "/work" "/work/api.json"⟩
    ringRoot) {} R s ∧ s.reads = ["/work/owner.json", "/work/pet.json"] ∧
    ∀ again, run again "/work" R "/work/api.json" = (.ok R, []) := by
  obtain ⟨R, s, h⟩ : ∃ R s, Runs (bundle ⟨ringFiles.read, "/work", Location.normalize "/work" "/work/api.json"⟩
      ringRoot) {} R s := Runs.exists_of_isOk (by decide +kernel)
  have hstate : (fun s : State => (s.reads, s.targets.map (·.2.name))) (Id.run ((bundle ⟨ringFiles.read, "/work",
      Location.normalize "/work" "/work/api.json"⟩ ringRoot).run {})).2 =
      (["/work/owner.json", "/work/pet.json"], ["pet2", "owner"]) := by
    decide +kernel
  rw [h] at hstate
  obtain ⟨hreads, hnames⟩ := Prod.mk.inj hstate
  have hroot : ringRoot.WellKeyed := by simp [ringRoot, wellKeyed_object_iff, wellKeyed_refObject]
  have hread : ∀ location d, ringFiles.read location = .ok d → d.WellKeyed := fun location d hread =>
    wellKeyed_of_read_ofFiles (by simp [wellKeyed_object_iff, wellKeyed_refObject]) hread
  have hmisplaced : ∀ ref, Misplaced ringRoot R s.targets ref → Reference.IsLocal ref := by
    rintro ref (⟨hmem, hname, -⟩ | ⟨-, hpaths, -⟩)
    · have hin : "$ref" ∈ s.targets.map (·.2.name) := List.mem_map.mpr ⟨_, hmem, hname⟩
      rw [hnames] at hin
      exact absurd hin (by decide)
    · cases hpaths
  obtain ⟨-, hrun, hiff, -⟩ := bundle_again h
  exact ⟨R, s, h, hreads, fun again => (hrun again _ _).mpr ((hiff hroot hread).mpr hmisplaced)⟩

/-- The text that was copied under the name `$ref` is taken for a reference, which leads nowhere. -/
theorem exists_bundle_not_again : ∃ R s,
    Runs (bundle ⟨textFiles.read, "/work", Location.normalize "/work" "/work/api.json"⟩ textRoot) {} R s ∧
    (run textFiles.read "/work" R "/work/api.json").1.isOk = false ∧
    (run textFiles.read "/work" R "/work/api.json").2 = ["/work/z.json"] := by
  obtain ⟨R, s, h⟩ : ∃ R s, Runs (bundle ⟨textFiles.read, "/work", Location.normalize "/work" "/work/api.json"⟩
      textRoot) {} R s := Runs.exists_of_isOk (by decide +kernel)
  have hagain : (Id.run ((bundle ⟨textFiles.read, "/work", Location.normalize "/work" "/work/api.json"⟩
      textRoot).run {})).1.toOption.map (fun R => ((run textFiles.read "/work" R "/work/api.json").1.isOk,
        (run textFiles.read "/work" R "/work/api.json").2)) = some (false, ["/work/z.json"]) := by
    decide +kernel
  rw [h] at hagain
  obtain ⟨hfailed, hread⟩ := Prod.mk.inj (Option.some.inj hagain)
  exact ⟨R, s, h, hfailed, hread⟩

end ClientBindings.Bundle
