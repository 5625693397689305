import ClientBindings.Document.FileTree
import ClientBindings.Proofs.Entries
import ClientBindings.Proofs.Location
import ClientBindings.Proofs.Runs

/-! Where paths lead in a file tree, and what is found there after directories were made, emptied, filled
and put back. -/

namespace ClientBindings.FileTree

variable {t u : FileTree} {here place path : FilePath} {name : String} {rest : List String} {shown : String}

/-! ## Ways -/

def step (here : FilePath) (name : String) : FilePath := if name == ".." then here.dropLast else here ++ [name]

/-- Where names lead from a directory if everything on the way is a directory. -/
def resolve (here : FilePath) (rest : List String) : FilePath := rest.foldl step here

theorem resolve_of_plain (h : ".." ∉ rest) : resolve here rest = here ++ rest := by
  induction rest generalizing here with
  | nil => exact (List.append_nil here).symm
  | cons name rest ih =>
    obtain ⟨hname, hrest⟩ := not_or.mp (mt List.mem_cons.mpr h)
    have hstep : step here name = here ++ [name] := if_neg (by simpa using Ne.symm hname)
    rw [resolve, List.foldl_cons, ← resolve, hstep, ih hrest, List.append_assoc]
    rfl

def base (t : FileTree) (path : String) : FilePath := if path.startsWith "/" then [] else names t.workingDirectory

/-- The place that a path stands for. -/
def placeOf (t : FileTree) (path : String) : FilePath := resolve (t.base path) (names path)

/-- The path has names, and none of them leads to a directory above. -/
def IsPlain (path : String) : Prop := names path ≠ [] ∧ ".." ∉ names path

instance (path : String) : Decidable (IsPlain path) := inferInstanceAs (Decidable (_ ∧ _))

theorem base_congr (h : u.workingDirectory = t.workingDirectory) (path : String) : u.base path = t.base path := by
  rw [base, base, h]

theorem placeOf_congr (h : u.workingDirectory = t.workingDirectory) (path : String) :
    u.placeOf path = t.placeOf path := by
  rw [placeOf, placeOf, base_congr h]

theorem names_eq (path : String) : names path = (Location.segments path.toList).map String.ofList := rfl

theorem startsWith_slash_iff {path : String} : path.startsWith "/" = true ↔ Location.IsAbsolute path.toList := by
  rw [String.startsWith_string_iff, Location.IsAbsolute]
  show ['/'] <+: path.toList ↔ _
  cases path.toList with
  | nil => simp
  | cons c cs => simp [eq_comm]

theorem base_eq {path other : String} (h : Location.IsAbsolute path.toList ↔ Location.IsAbsolute other.toList) :
    t.base path = t.base other := by
  rw [base, base, Bool.eq_iff_iff.mpr (startsWith_slash_iff.trans (h.trans startsWith_slash_iff.symm))]

/-- Only the names of a path count, and whether they are taken from the root. -/
theorem placeOf_eq {path other : String} (hsegments : Location.segments path.toList = Location.segments other.toList)
    (habsolute : Location.IsAbsolute path.toList ↔ Location.IsAbsolute other.toList) :
    t.placeOf path = t.placeOf other := by
  rw [placeOf, placeOf, base_eq habsolute, names_eq, names_eq, hsegments]

/-! ## Making directories -/

/-- One name of a way that was made: a name that does not lead up is no file. -/
theorem makeAlong_cons_ok {r : FileTree × FilePath} (h : makeAlong shown t here (name :: rest) = .ok r) :
    ∃ v : FileTree, v.files = t.files ∧ v.workingDirectory = t.workingDirectory ∧
      makeAlong shown v (step here name) rest = .ok r ∧ (name ≠ ".." → t.file? (here ++ [name]) = none) := by
  rw [makeAlong] at h
  by_cases hname : (name == "..") = true
  · rw [if_pos hname] at h
    rw [step, if_pos hname]
    exact ⟨t, rfl, rfl, h, fun hne => absurd (beq_iff_eq.mp hname) hne⟩
  · rw [if_neg hname] at h
    rw [step, if_neg hname]
    cases hfile : t.file? (here ++ [name]) with
    | some content => simp only [hfile] at h; cases h
    | none =>
      simp only [hfile] at h
      refine ⟨_, ?_, ?_, h, fun _ => rfl⟩ <;> split <;> rfl

theorem makeAlong_ok (h : makeAlong shown t here rest = .ok (u, place)) :
    place = resolve here rest ∧ u.files = t.files ∧ u.workingDirectory = t.workingDirectory := by
  induction rest generalizing t here with
  | nil =>
    cases h
    exact ⟨rfl, rfl, rfl⟩
  | cons name rest ih =>
    obtain ⟨v, hvfiles, hvwork, hrest, -⟩ := makeAlong_cons_ok h
    obtain ⟨hplace, hfiles, hwork⟩ := ih hrest
    exact ⟨hplace, hfiles.trans hvfiles, hwork.trans hvwork⟩

/-- Directories can be made along a way that leads to a directory, also where fewer files are left. -/
theorem makeAlong_of_directory (h : t.follow here rest = .directory place)
    (hfiles : ∀ path, t.file? path = none → u.file? path = none) :
    place = resolve here rest ∧ ∃ v, makeAlong shown u here rest = .ok (v, place) := by
  induction rest generalizing u here with
  | nil =>
    cases h
    exact ⟨rfl, u, rfl⟩
  | cons name rest ih =>
    rw [follow] at h
    rw [makeAlong, resolve, List.foldl_cons, ← resolve]
    by_cases hname : (name == "..") = true
    · rw [if_pos hname] at h ⊢
      rw [step, if_pos hname]
      exact ih h hfiles
    · rw [if_neg hname] at h ⊢
      rw [step, if_neg hname]
      cases hfile : t.file? (here ++ [name]) with
      | some content =>
        simp only [hfile] at h
        split at h <;> cases h
      | none =>
        simp only [hfile, hfiles _ hfile] at h ⊢
        by_cases hdirectory : t.isDirectory (here ++ [name]) = true
        · rw [if_pos hdirectory] at h
          apply ih h
          intro path hpath
          split
          · exact hfiles path hpath
          · exact hfiles path hpath
        · rw [if_neg hdirectory] at h
          cases h

/-- Where directories can be made, a directory is found or nothing. -/
theorem follow_of_makeAlong {r : FileTree × FilePath} (hfiles : u.files = t.files)
    (h : makeAlong shown u here rest = .ok r) :
    ∃ path, t.follow here rest = .directory path ∨ t.follow here rest = .missing path := by
  induction rest generalizing u here with
  | nil => exact ⟨here, .inl rfl⟩
  | cons name rest ih =>
    obtain ⟨v, hvfiles, -, hrest, hfree⟩ := makeAlong_cons_ok h
    have hfound := ih (hvfiles.trans hfiles) hrest
    rw [follow]
    by_cases hname : (name == "..") = true
    · rw [if_pos hname]
      rwa [step, if_pos hname] at hfound
    · rw [if_neg hname]
      rw [step, if_neg hname] at hfound
      have hfile : t.file? (here ++ [name]) = none := by
        rw [file?, ← hfiles]
        exact hfree (mt beq_iff_eq.mpr hname)
      simp only [hfile]
      by_cases hdirectory : t.isDirectory (here ++ [name]) = true
      · rwa [if_pos hdirectory]
      · rw [if_neg hdirectory]
        exact ⟨_, .inr rfl⟩

theorem makeDirectory_ok {shownPath : String} (h : t.makeDirectory shownPath = .ok (u, place)) :
    place = t.placeOf shownPath ∧ u.files = t.files ∧ u.workingDirectory = t.workingDirectory :=
  makeAlong_ok h

theorem find_of_makeDirectory {shownPath : String} {r : FileTree × FilePath} (h : t.makeDirectory shownPath = .ok r) :
    ∃ path, t.find shownPath = .directory path ∨ t.find shownPath = .missing path :=
  follow_of_makeAlong rfl h

/-! ## What is at a directory and below -/

theorem isDirectory_iff : t.isDirectory path = true ↔
    path = [] ∨ (∃ d ∈ t.directories, path <+: d) ∨ ∃ f ∈ t.files, path <+: f.1.dropLast := by
  simp [isDirectory, or_assoc]

theorem hasAnything_iff : t.hasAnything path = true ↔
    (∃ f ∈ t.files, path <+: f.1) ∨ ∃ d ∈ t.directories, path <+: d ∧ d ≠ path := by
  simp [hasAnything]

theorem file?_eq_none_iff : t.file? path = none ↔ ∀ f ∈ t.files, f.1 ≠ path := by
  rw [file?, List.lookup_eq_none_iff]
  exact forall₂_congr fun f _ => by rw [bne_iff_ne, ne_comm]

theorem file?_eq_none_of_not_hasAnything (h : ¬ t.hasAnything place = true) (hbelow : place <+: path) :
    t.file? path = none := by
  rw [file?_eq_none_iff]
  rintro f hf rfl
  exact h (hasAnything_iff.mpr (.inl ⟨f, hf, hbelow⟩))

/-- Nothing is below a path at which there is neither a file nor a directory. -/
theorem not_hasAnything_of_not_isDirectory (hfile : t.file? path = none) (hdirectory : ¬ t.isDirectory path = true)
    (hbelow : path <+: place) : ¬ t.hasAnything place = true := by
  rw [isDirectory_iff, not_or, not_or] at hdirectory
  obtain ⟨-, hdirectories, hfiles⟩ := hdirectory
  rw [hasAnything_iff]
  rintro (⟨f, hf, hplace⟩ | ⟨d, hd, hplace, -⟩)
  · obtain ⟨tail, htail⟩ := hbelow.trans hplace
    rcases List.eq_nil_or_concat tail with rfl | ⟨init, last, rfl⟩
    · rw [List.append_nil] at htail
      exact file?_eq_none_iff.mp hfile f hf htail.symm
    · refine hfiles ⟨f, hf, ?_⟩
      rw [← htail, List.concat_eq_append, ← List.append_assoc, List.dropLast_concat]
      exact List.prefix_append path init
  · exact hdirectories ⟨d, hd, hbelow.trans hplace⟩

theorem not_hasAnything_of_missing {found : FilePath} (hplain : ".." ∉ rest) (h : t.follow here rest = .missing found) :
    ¬ t.hasAnything (here ++ rest) = true := by
  induction rest generalizing here with
  | nil => cases h
  | cons name rest ih =>
    obtain ⟨hname, hrest⟩ := not_or.mp (mt List.mem_cons.mpr hplain)
    rw [follow, if_neg (by simpa using Ne.symm hname)] at h
    have hplace : here ++ name :: rest = here ++ [name] ++ rest := by simp
    cases hfile : t.file? (here ++ [name]) with
    | some content =>
      simp only [hfile] at h
      split at h <;> cases h
    | none =>
      simp only [hfile] at h
      rw [hplace]
      by_cases hdirectory : t.isDirectory (here ++ [name]) = true
      · rw [if_pos hdirectory] at h
        exact ih hrest h
      · exact not_hasAnything_of_not_isDirectory hfile hdirectory (List.prefix_append _ _)

/-- Below a place there are exactly these files. -/
def Holds (t : FileTree) (place : FilePath) (files : List (FilePath × List UInt8)) : Prop :=
  ∀ path content, place <+: path → (t.file? path = some content ↔ (path, content) ∈ files)

/-- Two trees have the same files and directories at a place and below. -/
def AgreeBelow (place : FilePath) (t u : FileTree) : Prop :=
  ∀ path, place <+: path → t.file? path = u.file? path ∧ t.isDirectory path = u.isDirectory path

theorem not_agreeBelow (hbelow : place <+: path) (h : t.file? path ≠ u.file? path) : ¬ AgreeBelow place t u :=
  fun hagree => h (hagree path hbelow).1

theorem file?_without (hbelow : place <+: path) : (t.without place).file? path = none := by
  rw [file?_eq_none_iff]
  rintro f hf rfl
  have hout : (!place.isPrefixOf f.1) = true := (List.mem_filter.mp hf).2
  rw [List.isPrefixOf_iff_prefix.mpr hbelow] at hout
  cases hout

theorem file?_without_of_none (h : t.file? path = none) : (t.without place).file? path = none := by
  rw [file?_eq_none_iff] at h ⊢
  exact fun f hf => h f (List.mem_filter.mp hf).1

theorem exists_putBack {α : Type} {inside : α → Bool} {P : α → Prop} {xs ys : List α} (h : ∀ x, P x → inside x = true) :
    (∃ x ∈ xs.filter (fun x => !inside x) ++ ys.filter inside, P x) ↔ ∃ x ∈ ys, P x := by
  constructor
  · rintro ⟨x, hx, hP⟩
    rcases List.mem_append.mp hx with hx | hx
    · have hout := (List.mem_filter.mp hx).2
      rw [h x hP] at hout
      cases hout
    · exact ⟨x, (List.mem_filter.mp hx).1, hP⟩
  · rintro ⟨x, hx, hP⟩
    exact ⟨x, List.mem_append_right _ (List.mem_filter.mpr ⟨hx, h x hP⟩), hP⟩

/-- A directory that is emptied and removed can be made again. -/
theorem makeDirectory_without {shownPath : String} (h : t.find shownPath = .directory place) :
    place = t.placeOf shownPath ∧ ∃ v, (t.without place).makeDirectory shownPath = .ok (v, place) :=
  makeAlong_of_directory h fun _ => file?_without_of_none

/-- What was taken from a place is there again when it is put back, whatever has come to the place. -/
theorem agreeBelow_putBack : AgreeBelow place ((u.without place).union (t.under place)) t := by
  intro path hbelow
  have hinside : ∀ p : FilePath, path <+: p → place.isPrefixOf p = true := fun p hp =>
    List.isPrefixOf_iff_prefix.mpr (hbelow.trans hp)
  constructor
  · have hsame : (t.under place).file? path = t.file? path := by
      rw [file?, under, Entries.lookup_filter_key fun p => place.isPrefixOf p, if_pos (hinside path List.prefix_rfl)]
      rfl
    rw [← hsame]
    show ((u.without place).files ++ (t.under place).files).lookup path = _
    rw [List.lookup_append, ← file?, file?_without hbelow]
    rfl
  · rw [Bool.eq_iff_iff, isDirectory_iff, isDirectory_iff]
    refine or_congr Iff.rfl (or_congr ?_ ?_)
    · exact exists_putBack hinside
    · exact exists_putBack fun f hf => hinside f.1 (hf.trans (List.dropLast_prefix f.1))

/-! ## Writing files -/

def parent (path : String) : String := Text.onChars Location.folder path

/-- The place that a path stands for when a file is written there. -/
def destination (t : FileTree) (path : String) : FilePath :=
  t.placeOf (parent path) ++ [String.ofList (Text.cutLast '/' path.toList).2]

theorem destination_congr (h : u.workingDirectory = t.workingDirectory) (path : String) :
    u.destination path = t.destination path := by
  rw [destination, destination, placeOf_congr h]

theorem write_ok {shownPath content : String} (h : t.write shownPath content = .ok u) :
    u.files = Entries.put (· == ·) t.files (t.destination shownPath) (Utf8.encode content.toList) ∧
      u.workingDirectory = t.workingDirectory := by
  rw [write] at h
  obtain ⟨⟨v, folder⟩, hmake, h⟩ := Result.bind_eq_ok_iff.mp h
  obtain ⟨hplace, hfiles, hwork⟩ := makeDirectory_ok hmake
  have hfile : folder ++ [String.ofList (Text.cutLast '/' shownPath.toList).2] = t.destination shownPath := by
    rw [hplace]
    rfl
  simp only [hfile] at h
  by_cases hdirectory : v.isDirectory (t.destination shownPath) = true
  · rw [if_pos hdirectory] at h
    cases h
  · rw [if_neg hdirectory] at h
    obtain rfl := Result.pure_eq_ok_iff.mp h
    exact ⟨by rw [← hfiles], hwork⟩

/-- Files with the places at which they are written. -/
def located (t : FileTree) (files : List (String × String)) : List (FilePath × List UInt8) :=
  files.map fun f => (t.destination f.1, Utf8.encode f.2.toList)

theorem located_congr (h : u.workingDirectory = t.workingDirectory) (files : List (String × String)) :
    u.located files = t.located files :=
  List.map_congr_left fun f _ => by rw [destination_congr h]

/-- Files written at places where there was nothing are exactly what is there. -/
theorem holds_of_merge {files : List (FilePath × List UInt8)}
    (hmerge : u.files = Entries.merge (· == ·) t.files files) (hdistinct : (files.map Prod.fst).Nodup)
    (hempty : ∀ path, place <+: path → t.file? path = none) : u.Holds place files := by
  intro path content hbelow
  have hfound : u.file? path = files.lookup path := by
    have hkeys := Entries.distinct_of_nodup hdistinct
    rw [file?, hmerge, ← Entries.find?_eq_lookup, Entries.find?_merge Entries.beq_equivalence hkeys,
      Entries.find?_eq_lookup, Entries.find?_eq_lookup, ← file?, hempty path hbelow, Option.or_none]
  rw [hfound]
  exact ⟨Entries.mem_of_lookup, Entries.lookup_of_mem hdistinct⟩

end ClientBindings.FileTree
