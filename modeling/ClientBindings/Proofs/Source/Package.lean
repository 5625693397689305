import ClientBindings.Proofs.FileTree
import ClientBindings.Proofs.Identifier
import ClientBindings.Source.Package

/-! Where the files of a package are: side by side in one directory, under names that differ. -/

namespace ClientBindings.Package

open Location

variable {t : FileTree} {base path name : String} {apis : List Api} {naming : Naming} {directory package : String}
  {files : List (String × String)}

/-! ## Joined paths -/

theorem toList_join : (join base path).toList = tidyPath (appendPath base.toList path.toList) := String.toList_ofList

theorem segments_join (h : ¬ IsAbsolute path.toList) :
    segments (join base path).toList = segments base.toList ++ segments path.toList := by
  rw [toList_join, segments_tidyPath, segments_appendPath h]

theorem isAbsolute_join (h : ¬ IsAbsolute path.toList) :
    IsAbsolute (join base path).toList ↔ IsAbsolute base.toList := by
  rw [toList_join, isAbsolute_tidyPath, isAbsolute_appendPath h]

/-- A file that is named below a directory is in it. -/
theorem destination_join (hslash : '/' ∉ name.toList) (hname : isSegment name.toList = true) :
    t.destination (join base name) = t.placeOf base ++ [name] := by
  have habsolute : ¬ IsAbsolute name.toList := fun h => hslash (List.mem_of_mem_head? h)
  have hsegments : segments (appendPath base.toList name.toList) = segments base.toList ++ [name.toList] := by
    rw [segments_appendPath habsolute, segments_of_isSegment hslash hname]
  obtain ⟨hlast, hfront, hparent⟩ := cutLast_tidyPath hsegments
  have hfolder : (FileTree.parent (join base name)).toList =
      folder (tidyPath (appendPath base.toList name.toList)) := by
    rw [FileTree.parent, Text.onChars, String.toList_ofList, toList_join]
  have hplace : t.placeOf (FileTree.parent (join base name)) = t.placeOf base := by
    apply FileTree.placeOf_eq
    · rw [hfolder, hfront]
    · rw [hfolder, hparent, isAbsolute_appendPath habsolute]
  rw [FileTree.destination, hplace, toList_join, hlast, String.ofList_toList]

theorem placeOf_join (h : ¬ IsAbsolute path.toList) (hplain : ".." ∉ FileTree.names path) :
    t.placeOf (join base path) = t.placeOf base ++ FileTree.names path := by
  have hnames : FileTree.names (join base path) = FileTree.names base ++ FileTree.names path := by
    rw [FileTree.names_eq, segments_join h, List.map_append, ← FileTree.names_eq, ← FileTree.names_eq]
  have hbase : t.base (join base path) = t.base base := FileTree.base_eq (isAbsolute_join h)
  rw [FileTree.placeOf, hbase, hnames, FileTree.resolve, List.foldl_append]
  exact FileTree.resolve_of_plain hplain

/-! ## Names of modules -/

theorem slash_not_mem_of_isValid (h : Identifier.isValid name = true) : '/' ∉ name.toList :=
  Identifier.not_mem_of_isValid h (by decide)

theorem isValid_name_of_ofApi {api : Api} {naming : Naming} {m : Module} (h : Module.ofApi api naming = .ok m) :
    Identifier.isValid m.name = true := by
  have hrun : Runs (Module.draftAt TypeWriter.depthLimit api naming) { taken := Module.reservedNames naming } m _ :=
    Prod.ext h rfl
  simp only [Module.draftAt, Runs.bind_iff, Runs.get_iff, Runs.pure_iff] at hrun
  obtain ⟨scope, s₀, hscope, servers, s₁, hservers, setters, s₂, hsetters, own, s₃, hown, operations, _, hoperations,
    _, t, ⟨rfl, rfl⟩, rfl, rfl⟩ := hrun
  have hname : Identifier.IsNameOrEmpty (Identifier.functionName api.name) := Identifier.normalize_isNameOrEmpty _
  dsimp only [Scope.nonEmpty]
  exact Identifier.isValid_nonEmpty hname (by decide +kernel)

/-- One round of giving modules their names. -/
def renameNext (acc : List String × List Module) (m : Module) : List String × List Module :=
  (freshName acc.1 m.name :: acc.1, acc.2 ++ [{ m with name := freshName acc.1 m.name }])

theorem rename_claimed (modules : List Module) :
    Claimed ["__init__"] (modules.map Module.name) ((rename modules).map Module.name) := by
  -- the names in use are those of the modules done so far and that of the package file
  suffices hfold : ∀ acc : List String × List Module, ∃ names, Claimed acc.1 (modules.map Module.name) names ∧
      (modules.foldl renameNext acc).2.map Module.name = acc.2.map Module.name ++ names by
    obtain ⟨names, hclaimed, hnames⟩ := hfold (["__init__"], [])
    exact (show (rename modules).map Module.name = names from hnames) ▸ hclaimed
  induction modules with
  | nil => exact fun acc => ⟨[], .nil, (List.append_nil _).symm⟩
  | cons m modules ih =>
    intro acc
    obtain ⟨names, hclaimed, hnames⟩ := ih (renameNext acc m)
    refine ⟨freshName acc.1 m.name :: names, .cons (isFresh_freshName acc.1 m.name) hclaimed, ?_⟩
    rw [List.foldl_cons, hnames]
    simp [renameNext]

theorem rename_valid {modules : List Module} (h : ∀ m ∈ modules, Identifier.isValid m.name = true) :
    ∀ m ∈ rename modules, Identifier.isValid m.name = true := by
  suffices hfold : ∀ acc : List String × List Module, (∀ m ∈ acc.2, Identifier.isValid m.name = true) →
      ∀ m ∈ (modules.foldl renameNext acc).2, Identifier.isValid m.name = true from hfold (["__init__"], []) nofun
  induction modules with
  | nil => exact fun acc hvalid => hvalid
  | cons m modules ih =>
    intro acc hvalid
    apply ih fun m' hm' => h m' (List.mem_cons_of_mem m hm')
    intro m' hm'
    rcases List.mem_append.mp hm' with hm' | hm'
    · exact hvalid m' hm'
    · obtain rfl := List.mem_singleton.mp hm'
      exact Identifier.isValid_freshName (h m List.mem_cons_self) acc.1

/-- Where the files of a package are, by the names of its modules. -/
theorem files_paths (h : Package.files apis naming directory package = .ok files) : ∃ modules,
    apis.mapM (fun api => Module.ofApi api naming) = .ok modules ∧
      (∀ m ∈ modules, Identifier.isValid m.name = true) ∧
      files.map Prod.fst = ((rename modules).map Module.name ++ ["__init__"]).map fun n =>
        join (join directory package) (n ++ ".py") := by
  simp only [Package.files, Result.bind_eq_ok_iff, Result.pure_eq_ok_iff] at h
  obtain ⟨modules, hmodules, texts, htexts, lines, hlines, rfl⟩ := h
  refine ⟨modules, hmodules, ?_, ?_⟩
  · intro m hm
    obtain ⟨api, -, hm⟩ := Result.exists_of_mem_mapM hmodules hm
    exact isValid_name_of_ofApi hm
  · rw [List.map_append, List.map_append, List.map_map]
    congr 1
    apply Result.mapM_map _ htexts
    intro m text htext
    obtain ⟨_, -, htext⟩ := Result.bind_eq_ok_iff.mp htext
    exact congrArg Prod.fst (Result.pure_eq_ok_iff.mp htext).symm

theorem files_names (h : Package.files apis naming directory package = .ok files) :
    ∃ names : List String, names.Nodup ∧ (∀ n ∈ names, '/' ∉ n.toList) ∧
      files.map Prod.fst = names.map fun n => join (join directory package) (n ++ ".py") := by
  obtain ⟨modules, -, hvalid, hpaths⟩ := files_paths h
  have hclaimed := rename_claimed modules
  refine ⟨(rename modules).map Module.name ++ ["__init__"], ?_, ?_, hpaths⟩
  · refine (List.perm_append_singleton _ _).nodup_iff.mpr (List.nodup_cons.mpr ⟨?_, hclaimed.nodup⟩)
    exact fun hmem => hclaimed.not_mem _ hmem List.mem_cons_self
  · intro n hn
    rcases List.mem_append.mp hn with hn | hn
    · obtain ⟨m, hm, rfl⟩ := List.mem_map.mp hn
      exact slash_not_mem_of_isValid (rename_valid hvalid m hm)
    · obtain rfl := List.mem_singleton.mp hn
      decide

theorem isSegment_file (h : '/' ∉ name.toList) :
    '/' ∉ (name ++ ".py").toList ∧ isSegment (name ++ ".py").toList = true := by
  rw [isSegment, String.toList_append, List.mem_append]
  refine ⟨not_or.mpr ⟨h, by decide⟩, ?_⟩
  cases name.toList with
  | nil => rfl
  | cons c cs => simp

/-- The files of a package are side by side. -/
theorem destinations (h : Package.files apis naming directory package = .ok files) (t : FileTree) :
    ∃ names : List String, names.Nodup ∧
      files.map (fun f => t.destination f.1) =
        names.map fun n => t.placeOf (join directory package) ++ [n ++ ".py"] := by
  obtain ⟨names, hnodup, hslash, hpaths⟩ := files_names h
  refine ⟨names, hnodup, ?_⟩
  have hmap : (files.map Prod.fst).map t.destination = files.map fun f => t.destination f.1 := List.map_map
  rw [← hmap, hpaths, List.map_map]
  apply List.map_congr_left
  intro n hn
  obtain ⟨hfile, hsegment⟩ := isSegment_file (hslash n hn)
  exact destination_join hfile hsegment

theorem join_file_inj {m n : String} (hm : '/' ∉ m.toList) (hn : '/' ∉ n.toList)
    (h : join base (m ++ ".py") = join base (n ++ ".py")) : m = n := by
  have hlast : ∀ n : String, '/' ∉ n.toList → segments (join base (n ++ ".py")).toList =
      segments base.toList ++ [(n ++ ".py").toList] := by
    intro n hn
    obtain ⟨hslash, hsegment⟩ := isSegment_file hn
    rw [segments_join fun habsolute => hslash (List.mem_of_mem_head? habsolute), segments_of_isSegment hslash hsegment]
  have hsame := hlast m hm
  rw [h, hlast n hn] at hsame
  simpa [String.toList_inj] using (List.append_cancel_left hsame).symm

theorem paths_nodup (h : Package.files apis naming directory package = .ok files) :
    (files.map Prod.fst).Nodup := by
  obtain ⟨names, hnodup, hslash, hpaths⟩ := files_names h
  rw [hpaths]
  exact hnodup.map_on fun m hm n hn => join_file_inj (hslash m hm) (hslash n hn)

theorem located_nodup (h : Package.files apis naming directory package = .ok files) (t : FileTree) :
    ((t.located files).map Prod.fst).Nodup := by
  obtain ⟨names, hnodup, hplaces⟩ := destinations h t
  have hmap : (t.located files).map Prod.fst = files.map fun f => t.destination f.1 := List.map_map
  rw [hmap, hplaces]
  apply hnodup.map
  intro m n heq
  simpa using heq

/-- A package whose name leads neither up nor elsewhere is below its directory. -/
theorem placeOf_isPrefix_destination (h : Package.files apis naming directory package = .ok files)
    (hrelative : ¬ IsAbsolute package.toList) (hplain : ".." ∉ FileTree.names package) (t : FileTree)
    {f : String × String} (hf : f ∈ files) : t.placeOf directory <+: t.destination f.1 := by
  obtain ⟨names, -, hplaces⟩ := destinations h t
  have hplace : t.destination f.1 ∈ files.map fun f => t.destination f.1 := List.mem_map_of_mem hf
  rw [hplaces] at hplace
  obtain ⟨n, -, hn⟩ := List.mem_map.mp hplace
  rw [← hn, placeOf_join hrelative hplain, List.append_assoc]
  exact List.prefix_append _ _

end ClientBindings.Package
