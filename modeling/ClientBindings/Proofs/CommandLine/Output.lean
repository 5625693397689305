import ClientBindings.Proofs.CommandLine.Ends
import ClientBindings.Proofs.Source.Package

/-! What a run leaves in the output directory: the generated files if it succeeds, what was there before
if it fails and there was anything, and what was written so far if there was nothing. -/

namespace ClientBindings.CommandLine

namespace Session

open FileTree (IsPlain)

variable {s s' : Session} {o : Options} {output : String} {items : List Item} {files : List (String × String)}
  {w : Document.World}

/-! ## Writing files -/

/-- Files were written to one tree in order and have led to another. -/
structure Written (files : List (String × String)) (t t' : FileTree) : Prop where
  files : t'.files = Entries.merge (· == ·) t.files (t.located files)
  workingDirectory : t'.workingDirectory = t.workingDirectory

theorem Written.nil (t : FileTree) : Written [] t t := ⟨rfl, rfl⟩

theorem Written.cons {f : String × String} {t u v : FileTree} (hfirst : t.write f.1 f.2 = .ok u)
    (hrest : Written files u v) : Written (f :: files) t v := by
  obtain ⟨hfiles, hwork⟩ := FileTree.write_ok hfirst
  constructor
  · rw [hrest.files, hfiles, FileTree.located_congr hwork]
    rfl
  · exact hrest.workingDirectory.trans hwork

def writeOne (f : String × String) : M Unit := do setTree (← ((← tree).write f.1 f.2 : Result _))

theorem writeAll_cons (f : String × String) : writeAll (f :: files) = writeOne f >>= fun _ => writeAll files := rfl

theorem ends_writeOne {f : String × String} {r : Except Failure Unit} (h : Ends (writeOne f) s r s') :
    (∃ e, r = .error e) ∧ s' = s ∨ r = .ok () ∧ s.world.tree.write f.1 f.2 = .ok s'.world.tree := by
  rcases ends_bind.mp (ends_tree_bind.mp h) with ⟨t, between, hwrite, h⟩ | ⟨e, hwrite, hr⟩
  · obtain ⟨ht, -⟩ := ends_lift.mp hwrite
    obtain ⟨hr, hs⟩ := ends_setTree.mp h
    have htree : s'.world.tree = t := by rw [hs]
    rw [← ht, htree]
    exact .inr ⟨hr, rfl⟩
  · obtain ⟨-, hs⟩ := ends_lift.mp hwrite
    exact .inl ⟨⟨e, hr⟩, hs⟩

/-- Writing stops at the first file that fails. -/
theorem ends_writeAll {r : Except Failure Unit} (h : Ends (writeAll files) s r s') :
    ∃ done, done <+: files ∧ (r = .ok () → done = files) ∧ Written done s.world.tree s'.world.tree := by
  induction files generalizing s with
  | nil =>
    obtain ⟨rfl, rfl⟩ := ends_pure.mp h
    exact ⟨[], List.prefix_rfl, fun _ => rfl, Written.nil _⟩
  | cons f files ih =>
    rw [writeAll_cons] at h
    rcases ends_bind.mp h with ⟨_, between, hfirst, hrest⟩ | ⟨e, hfirst, hr⟩
    · rcases ends_writeOne hfirst with ⟨⟨e, he⟩, -⟩ | ⟨-, hwrite⟩
      · cases he
      · obtain ⟨done, hprefix, hall, hdone⟩ := ih hrest
        exact ⟨f :: done, List.cons_prefix_cons.mpr ⟨rfl, hprefix⟩, fun hr => congrArg _ (hall hr), hdone.cons hwrite⟩
    · rcases ends_writeOne hfirst with ⟨-, rfl⟩ | ⟨he, -⟩
      · have hfailed : r ≠ .ok () := by rw [hr]; exact nofun
        exact ⟨[], List.nil_prefix, fun hok => absurd hok hfailed, Written.nil _⟩
      · cases he

/-! ## Generating -/

/-- The files of the package that a world gives. -/
def generated (o : Options) (items : List Item) (w : Document.World) : Result (List (String × String)) := do
  let apis ← items.mapM fun item => compiled item w
  Package.files apis {} o.output o.package

/-- What is told about a package that was written. -/
theorem announce_computes (o : Options) (files : List (String × String)) :
    Computes (do
      if o.verbose then (summary files).forM say
      say ("Python client generated successfully in " ++ o.output)) fun _ => .ok () := by
  cases o.verbose with
  | false => exact Computes.say _
  | true => exact (Computes.forM Computes.say _).andThen (Computes.say _)

theorem ends_generate {r : Except Failure Unit} (h : Ends (generate o items) s r s') :
    ∃ done, done <+: (generated o items s.world).toOption.getD [] ∧
      (r = .ok () → generated o items s.world = .ok done) ∧ Written done s.world.tree s'.world.tree := by
  have hnothing : ∀ e, r = .error e → s'.world = s.world →
      ∃ done, done <+: (generated o items s.world).toOption.getD [] ∧
        (r = .ok () → generated o items s.world = .ok done) ∧ Written done s.world.tree s'.world.tree := by
    intro e hr hworld
    rw [hworld, hr]
    exact ⟨[], List.nil_prefix, nofun, Written.nil _⟩
  rcases ends_bind.mp h with ⟨apis, compiling, hapis, h⟩ | ⟨e, hapis, hr⟩
  · obtain ⟨hresult, hcompiling⟩ := Computes.mapM (compile_computes o.verbose) items _ _ _ hapis
    have hcompiled : items.mapM (fun item => compiled item s.world) = .ok apis := hresult.symm
    rcases ends_bind.mp h with ⟨files, rendering, hfiles, h⟩ | ⟨e, hfiles, hr⟩
    · obtain ⟨hrendered, hrendering⟩ := ends_lift.mp hfiles
      have hgenerated : generated o items s.world = .ok files := by
        rw [generated, hcompiled]
        exact hrendered.symm
      have htree : rendering.world.tree = s.world.tree := by rw [hrendering, hcompiling]
      rcases ends_bind.mp h with ⟨_, writing, hwrite, h⟩ | ⟨e, hwrite, hr⟩
      · obtain ⟨done, -, hall, hdone⟩ := ends_writeAll hwrite
        obtain rfl := hall rfl
        obtain ⟨-, hannounced⟩ := announce_computes o done _ _ _ h
        refine ⟨done, ?_, fun _ => hgenerated, ?_⟩
        · rw [hgenerated]
          exact List.prefix_rfl
        · rw [hannounced, ← htree]
          exact hdone
      · obtain ⟨done, hprefix, -, hdone⟩ := ends_writeAll hwrite
        refine ⟨done, ?_, ?_, ?_⟩
        · rw [hgenerated]
          exact hprefix
        · rw [hr]
          exact nofun
        · rw [← htree]
          exact hdone
    · obtain ⟨-, hs⟩ := ends_lift.mp hfiles
      exact hnothing e hr (by rw [hs, hcompiling])
  · obtain ⟨-, hworld⟩ := Computes.mapM (compile_computes o.verbose) items _ _ _ hapis
    exact hnothing e hr hworld

/-! ## Replacing what a directory holds -/

/-- The tree without what a directory holds. -/
def cleared (output : String) (t : FileTree) : FileTree :=
  match t.find output with
  | .directory path => t.without path
  | _ => t

/-- What a directory holds, if it holds anything. -/
def kept (output : String) (t : FileTree) : Option (FilePath × FileTree) :=
  match t.find output with
  | .directory path => if t.hasAnything path then some (path, t.under path) else none
  | _ => none

def putBack : Option (FilePath × FileTree) → FileTree → FileTree
  | none, t => t
  | some (path, content), t => (t.without path).union content

/-- The tree in which the files are generated and written. -/
def prepared (output : String) (t : FileTree) : Result FileTree := do
  return (← (cleared output t).makeDirectory output).1

/-- The directory can be removed under its path if it is found, and nothing is where the path leads if
nothing is found. -/
def Replaceable (t : FileTree) (output : String) : Prop :=
  match t.find output with
  | .directory _ => unremovable? output = none
  | .missing _ => ¬ t.hasAnything (t.placeOf output) = true
  | _ => True

theorem unremovable?_of_isPlain (h : IsPlain output) : unremovable? output = none := by
  obtain ⟨hne, hplain⟩ := h
  rw [unremovable?]
  cases hnames : (FileTree.names output).reverse with
  | nil => exact absurd (List.reverse_eq_nil_iff.mp hnames) hne
  | cons last others =>
    have hlast : last ∈ FileTree.names output := List.mem_reverse.mp (hnames ▸ List.mem_cons_self)
    have hup : (last != "..") = true := bne_iff_ne.mpr fun heq => hplain (heq ▸ hlast)
    simp only [hup, if_true]

/-- Only a path that leads up on its way can miss what is where it leads. -/
theorem replaceable_of_isPlain (h : IsPlain output) (t : FileTree) : Replaceable t output := by
  rw [Replaceable]
  cases hfound : t.find output with
  | directory path => exact unremovable?_of_isPlain h
  | missing path =>
    show ¬ t.hasAnything (t.placeOf output) = true
    rw [FileTree.placeOf, FileTree.resolve_of_plain h.2]
    exact FileTree.not_hasAnything_of_missing h.2 hfound
  | file path content => trivial
  | blocked => trivial

/-- What was cleared can be made again. -/
theorem cleared_eq_or_made (output : String) (t : FileTree) :
    cleared output t = t ∨ ∃ made, (cleared output t).makeDirectory output = .ok made := by
  rw [cleared]
  cases hfound : t.find output with
  | directory path =>
    obtain ⟨-, v, hmade⟩ := FileTree.makeDirectory_without hfound
    exact .inr ⟨_, hmade⟩
  | file path content => exact .inl rfl
  | missing path => exact .inl rfl
  | blocked => exact .inl rfl

/-- A directory that can be removed is cleared, or nothing is done. -/
theorem ends_clear {r : Except Failure (Option (FilePath × FileTree))} (hreplaceable : Replaceable s.world.tree output)
    (h : Ends (clear output) s r s') :
    r = .ok (kept output s.world.tree) ∧ s'.world = { s.world with tree := cleared output s.world.tree } ∨
      (∃ e, r = .error e) ∧ s'.world = s.world := by
  have h := ends_tree_bind.mp h
  rw [kept, cleared]
  cases hfound : s.world.tree.find output with
  | file path content =>
    simp only [hfound] at h
    obtain ⟨hr, hs⟩ := ends_throw.mp h
    exact .inr ⟨⟨_, hr⟩, by rw [hs]⟩
  | directory path =>
    have hremovable : unremovable? output = none := by simpa only [Replaceable, hfound] using hreplaceable
    simp only [hfound, hremovable] at h
    have h := ends_setTree_bind.mp h
    obtain ⟨hr, hs⟩ := ends_pure.mp h
    exact .inl ⟨hr, by rw [hs]⟩
  | missing path =>
    simp only [hfound] at h
    obtain ⟨hr, hs⟩ := ends_pure.mp h
    exact .inl ⟨hr, by rw [hs]⟩
  | blocked =>
    simp only [hfound] at h
    obtain ⟨hr, hs⟩ := ends_pure.mp h
    exact .inl ⟨hr, by rw [hs]⟩

/-- An action after whose failure the tree is put back. -/
def guarded (held : Option (FilePath × FileTree)) (act : M Unit) : M Unit :=
  match held with
  | none => act
  | some (path, content) =>
    tryCatch act fun f => do
      warn "Error: Generation failed. Restoring original content."
      setTree (((← tree).without path).union content)
      throw f

theorem replacing_eq (output : String) (act : M Unit) : replacing output act = (do
    let held ← clear output
    let made ← ((← tree).makeDirectory output : Result _)
    setTree made.1
    guarded held act) := rfl

theorem ends_guarded {held : Option (FilePath × FileTree)} {act : M Unit} {r : Except Failure Unit}
    (h : Ends (guarded held act) s r s') :
    ∃ last, Ends act s r last ∧ (r = .ok () → s'.world = last.world) ∧
      ∀ e, r = .error e → s'.world.tree = putBack held last.world.tree := by
  rcases held with _ | ⟨path, content⟩
  · exact ⟨s', h, fun _ => rfl, fun _ _ => rfl⟩
  rcases ends_tryCatch.mp h with ⟨_, hact, hr⟩ | ⟨e, last, hact, h⟩
  · rw [hr]
    exact ⟨s', hact, fun _ => rfl, nofun⟩
  obtain ⟨hr, hs⟩ := ends_throw.mp (ends_setTree_bind.mp (ends_tree_bind.mp (ends_warn_bind.mp h)))
  rw [hr, hs]
  exact ⟨last, hact, nofun, fun _ _ => rfl⟩

/-- Nothing is done, or the directory is emptied for the action, after whose failure the tree is put back. -/
theorem ends_replacing {act : M Unit} {r : Except Failure Unit} (hreplaceable : Replaceable s.world.tree output)
    (h : Ends (replacing output act) s r s') :
    (∃ e, r = .error e) ∧ s'.world = s.world ∨
      ∃ ready first last, prepared output s.world.tree = .ok ready ∧ first.world = { s.world with tree := ready } ∧
        Ends act first r last ∧ (r = .ok () → s'.world = last.world) ∧
        ∀ e, r = .error e → s'.world.tree = putBack (kept output s.world.tree) last.world.tree := by
  rw [replacing_eq] at h
  rcases ends_bind.mp h with ⟨held, clearing, hclear, h⟩ | ⟨e, hclear, hr⟩
  · rcases ends_clear hreplaceable hclear with ⟨hheld, hclearing⟩ | ⟨⟨e, he⟩, -⟩
    · obtain rfl := Except.ok.inj hheld
      rcases ends_bind.mp (ends_tree_bind.mp h) with ⟨made, making, hmake, h⟩ | ⟨e, hmake, hr⟩
      · obtain ⟨hmade, hmaking⟩ := ends_lift.mp hmake
        obtain ⟨last, hact, hkept, hback⟩ := ends_guarded (ends_setTree_bind.mp h)
        refine .inr ⟨made.1, _, last, ?_, ?_, hact, hkept, hback⟩
        · rw [hclearing] at hmade
          rw [prepared, ← hmade]
          rfl
        · rw [hmaking, hclearing]
      · obtain ⟨hfailed, hs⟩ := ends_lift.mp hmake
        refine .inl ⟨⟨e, hr⟩, ?_⟩
        rcases cleared_eq_or_made output s.world.tree with hsame | ⟨made, hmade⟩
        · rw [hs, hclearing, hsame]
        · rw [hclearing, hmade] at hfailed
          cases hfailed
    · cases he
  · rcases ends_clear hreplaceable hclear with ⟨he, -⟩ | ⟨-, hs⟩
    · cases he
    · exact .inl ⟨⟨e, hr⟩, hs⟩

theorem find_of_cleared {t : FileTree} {made : FileTree × FilePath}
    (h : (cleared output t).makeDirectory output = .ok made) :
    ∃ path, t.find output = .directory path ∨ t.find output = .missing path := by
  rw [cleared] at h
  cases hfound : t.find output with
  | directory path => exact ⟨path, .inl rfl⟩
  | missing path => exact ⟨path, .inr rfl⟩
  | file path content =>
    simp only [hfound] at h
    rw [← hfound]
    exact FileTree.find_of_makeDirectory h
  | blocked =>
    simp only [hfound] at h
    rw [← hfound]
    exact FileTree.find_of_makeDirectory h

/-- There is nothing in the directory when the action starts, and what was in it is known. -/
theorem prepared_ok {t ready : FileTree} (hreplaceable : Replaceable t output) (h : prepared output t = .ok ready) :
    (∀ path, t.placeOf output <+: path → ready.file? path = none) ∧ ready.workingDirectory = t.workingDirectory ∧
      kept output t =
        if t.hasAnything (t.placeOf output) then some (t.placeOf output, t.under (t.placeOf output)) else none := by
  obtain ⟨⟨made, path⟩, hmade, h⟩ := Result.bind_eq_ok_iff.mp h
  obtain rfl : made = ready := Result.pure_eq_ok_iff.mp h
  obtain ⟨-, hfiles, hwork⟩ := FileTree.makeDirectory_ok hmade
  have hsame : ∀ path, made.file? path = (cleared output t).file? path := fun path => by
    rw [FileTree.file?, FileTree.file?, hfiles]
  obtain ⟨found, hfound | hfound⟩ := find_of_cleared hmade
  · obtain ⟨rfl, -⟩ := FileTree.makeDirectory_without hfound
    have hcleared : cleared output t = t.without (t.placeOf output) := by rw [cleared, hfound]
    refine ⟨fun path hbelow => ?_, ?_, ?_⟩
    · rw [hsame, hcleared]
      exact FileTree.file?_without hbelow
    · rw [hwork, hcleared]
      rfl
    · rw [kept, hfound]
  · have hcleared : cleared output t = t := by rw [cleared, hfound]
    have hnothing : ¬ t.hasAnything (t.placeOf output) = true := by simpa only [Replaceable, hfound] using hreplaceable
    refine ⟨fun path hbelow => ?_, ?_, ?_⟩
    · rw [hsame, hcleared]
      exact FileTree.file?_eq_none_of_not_hasAnything hnothing hbelow
    · rw [hwork, hcleared]
    · rw [kept, hfound, if_neg hnothing]

/-! ## A whole run -/

/-- The items of the settings, or the one that the options describe. -/
def configured (o : Options) : Document.World → Result (List Item) :=
  match o.config with
  | some path => fun w => Settings.load w.tree path
  | none => fun _ => .ok [o.item]

theorem items_computes (o : Options) : Computes (Session.items o) (configured o) := by
  rw [Session.items, configured]
  cases o.config with
  | none => exact Computes.pure _
  | some path =>
    apply Computes.world
    intro s
    exact Computes.lift _

/-- The files that a run sets out to write. -/
def planned (o : Options) (w : Document.World) : Result (List (String × String)) := do
  let items ← configured o w
  let tree ← prepared o.output w.tree
  generated o items { w with tree }

theorem planned_files (h : planned o w = .ok files) :
    ∃ apis, Package.files apis {} o.output o.package = .ok files := by
  obtain ⟨items, -, h⟩ := Result.bind_eq_ok_iff.mp h
  obtain ⟨tree, -, h⟩ := Result.bind_eq_ok_iff.mp h
  obtain ⟨apis, -, h⟩ := Result.bind_eq_ok_iff.mp h
  exact ⟨apis, h⟩

/-- Files written are at different places, also if not all were written. -/
theorem located_nodup_of_planned (h : files <+: (planned o w).toOption.getD []) (t : FileTree) :
    ((t.located files).map Prod.fst).Nodup := by
  cases hplanned : planned o w with
  | error e =>
    rw [hplanned] at h
    obtain rfl := List.prefix_nil.mp h
    exact List.nodup_nil
  | ok all =>
    rw [hplanned] at h
    obtain ⟨apis, hall⟩ := planned_files hplanned
    have hprefix : (t.located files).map Prod.fst <+: (t.located all).map Prod.fst := (h.map _).map _
    exact (Package.located_nodup hall t).sublist hprefix.sublist

/-- A run that got past its settings has written some of its files into the empty directory. -/
structure Attempt (o : Options) (t : FileTree) (files : List (String × String)) (last : FileTree) : Prop where
  holds : last.Holds (t.placeOf o.output) (t.located files)
  kept : kept o.output t =
    if t.hasAnything (t.placeOf o.output) then some (t.placeOf o.output, t.under (t.placeOf o.output)) else none

theorem ends_main {r : Except Failure Unit} (hreplaceable : Replaceable s.world.tree o.output)
    (h : Ends (Session.main o) s r s') :
    (∃ e, r = .error e) ∧ s'.world = s.world ∨
      ∃ done last, done <+: (planned o s.world).toOption.getD [] ∧ Attempt o s.world.tree done last ∧
        (r = .ok () → planned o s.world = .ok done ∧ s'.world.tree = last) ∧
        ∀ e, r = .error e → s'.world.tree = putBack (kept o.output s.world.tree) last := by
  rcases ends_bind.mp h with ⟨items, configuring, hitems, h⟩ | ⟨e, hitems, hr⟩
  · obtain ⟨hconfigured, hconfiguring⟩ := items_computes o _ _ _ hitems
    rw [← hconfiguring] at hreplaceable
    rcases ends_replacing hreplaceable h with ⟨hr, hs⟩ | ⟨ready, first, last, hready, hfirst, hact, hkept, hback⟩
    · exact .inl ⟨hr, hs.trans hconfiguring⟩
    · rw [hconfiguring] at hready hfirst hback
      have hplanned : planned o s.world = generated o items first.world := by
        rw [planned, ← hconfigured, hfirst]
        show (prepared o.output s.world.tree >>= fun tree => generated o items { s.world with tree }) = _
        rw [hready]
        rfl
      obtain ⟨done, hprefix, hall, hdone⟩ := ends_generate hact
      rw [← hplanned] at hprefix hall
      obtain ⟨hempty, hwork, hheld⟩ := prepared_ok (hconfiguring ▸ hreplaceable) hready
      have hholds : last.world.tree.Holds (s.world.tree.placeOf o.output) (s.world.tree.located done) := by
        rw [hfirst] at hdone
        rw [← FileTree.located_congr hwork]
        exact FileTree.holds_of_merge hdone.files (located_nodup_of_planned hprefix ready) hempty
      exact .inr ⟨done, last.world.tree, hprefix, ⟨hholds, hheld⟩, fun hr => ⟨hall hr, by rw [hkept hr]⟩, hback⟩
  · exact .inl ⟨⟨e, hr⟩, (items_computes o _ _ _ hitems).2⟩

end Session

open FileTree (AgreeBelow)

variable {w : Document.World} {arguments : List String} {o : Options}

/-- The arguments of a run are options. -/
theorem run_of_parse (h : Options.parse arguments (isPresent (w.tree.find Options.defaultConfig)) = .ok o) :
    ∃ r s, Session.Ends (Session.main o) { world := w } r s ∧ (run w arguments).tree = s.world.tree ∧
      ((run w arguments).failure = none ↔ r = .ok ()) := by
  rcases hends : (Session.main o).run { world := w } with ⟨e | _, s⟩
  · have hrun : run w arguments = ⟨.ofFailure e, s.out, s.err ++ report e, s.world.tree, some e⟩ := by
      simp only [run, h, hends]
    rw [hrun]
    exact ⟨_, s, hends, rfl, nofun, nofun⟩
  · have hrun : run w arguments = { exit := .success, out := s.out, err := s.err, tree := s.world.tree } := by
      simp only [run, h, hends]
    rw [hrun]
    exact ⟨_, s, hends, rfl, fun _ => rfl, fun _ => rfl⟩

/-- A document beside some files. -/
def beside (files : List (FilePath × List UInt8)) : Document.World where
  tree :=
    { workingDirectory := "/work"
      files := (["work", "p.json"], Utf8.encode "\x7b\"openapi\": \"3.0.0\", \"paths\": \x7b\x7d\x7d".toList) :: files
      directories := [] }
  pages := []

/-- Arguments for a package whose directory is made by way of one that takes the place of the package file, so
that the module is written and the package file is not. -/
def clashing : List String := ["p.json", "-o", "out", "--package-name", "__init__.py/.."]

def clashingOptions : Options := { spec := some "p.json", output := "out", package := "__init__.py/.." }

def occupied : Document.World := beside [(["work", "out", "keep.py"], [1])]

def upward : List String := ["p.json", "-o", "out/.."]

end ClientBindings.CommandLine
