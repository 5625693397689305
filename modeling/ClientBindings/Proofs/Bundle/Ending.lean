import ClientBindings.Proofs.Bundle.Faithful
import ClientBindings.Proofs.Settling

/-! Whether bundling ends. A component is copied once, so references to components lead on only as often
as there are targets without a place. Path items have no place and nothing stops one that refers to itself:
bundling ends where every path item comes to an end, and elsewhere it never comes to a bundle. -/

namespace ClientBindings

namespace Data

mutual
/-- The texts that pointers lead to. -/
def texts : Data → List String
  | .scalar (.str text) => [text]
  | .scalar _ | .tuple _ => []
  | .list items => textsOfItems items
  | .map entries => textsOfEntries entries
def textsOfItems : List Data → List String
  | [] => []
  | x :: xs => texts x ++ textsOfItems xs
def textsOfEntries : List (Scalar × Data) → List String
  | [] => []
  | (_, v) :: es => texts v ++ textsOfEntries es
end

theorem texts_item {items : List Data} {x : Data} (h : x ∈ items) : texts x ⊆ texts (.list items) := by
  show texts x ⊆ textsOfItems items
  induction items with
  | nil => exact absurd h List.not_mem_nil
  | cons y items ih =>
    rcases List.mem_cons.mp h with rfl | h
    · exact List.subset_append_left _ _
    · exact List.Subset.trans (ih h) (List.subset_append_right _ _)

theorem texts_entry {es : Fields} {key : Scalar} {v : Data} (h : (key, v) ∈ es) : texts v ⊆ texts (.map es) := by
  show texts v ⊆ textsOfEntries es
  induction es with
  | nil => exact absurd h List.not_mem_nil
  | cons e es ih =>
    rcases List.mem_cons.mp h with rfl | h
    · exact List.subset_append_left _ _
    · exact List.Subset.trans (ih h) (List.subset_append_right _ _)

theorem exists_map_of_refText? {d : Data} {ref : String} (h : d.refText? = some ref) : ∃ es, d = .map es := by
  cases d with
  | scalar | list | tuple => cases h
  | map es => exact ⟨es, rfl⟩

theorem mem_texts_of_refText? {d : Data} {ref : String} (h : d.refText? = some ref) : ref ∈ d.texts := by
  obtain ⟨es, rfl⟩ := exists_map_of_refText? h
  obtain ⟨key, hmem, _⟩ := Entries.mem_of_find? (refText?_eq_some_iff.mp h)
  exact texts_entry hmem (List.mem_singleton_self ref)

theorem texts_walk? {d node : Data} {segments : List String} (h : Pointer.walk? d segments = .ok (some node)) :
    node.texts ⊆ d.texts :=
  Pointer.walk?_induct (R := fun node d => node.texts ⊆ d.texts) (fun d => List.Subset.refl d.texts) List.Subset.trans
    texts_item texts_entry h

end Data

namespace Bundle
open Data

/-! ## Where a walk comes by -/

/-- The nodes of a document that a walk comes by, and their paths; references are not followed. -/
inductive Visits : Path → Data → Path → Data → Prop
  | here {path : Path} {node : Data} : Visits path node path node
  | item {path q : Path} {xs : List Data} {x e : Data} {i : Nat} :
      xs[i]? = some x → Visits (.int i :: path) x q e → Visits path (.list xs) q e
  | entry {path q : Path} {es : Fields} {key : Scalar} {v e : Data} :
      (Data.map es).refText? = none → (key, v) ∈ es → Visits (key :: path) v q e → Visits path (.map es) q e

namespace Visits
variable {path q : Path} {node e : Data}

theorem texts_subset (h : Visits path node q e) : e.texts ⊆ node.texts := by
  induction h with
  | here => exact List.Subset.refl _
  | item hx _ ih => exact List.Subset.trans ih (texts_item (List.mem_of_getElem? hx))
  | entry _ hmem _ ih => exact List.Subset.trans ih (texts_entry hmem)

theorem length_le (h : Visits path node q e) : path.length ≤ q.length := by
  induction h with
  | here => exact Nat.le_refl _
  | item _ _ ih | entry _ _ _ ih => exact Nat.le_of_succ_le ih

theorem length_of_isPathItem (h : isPathItem q = true) : q.length = 2 := by
  unfold isPathItem at h
  split at h
  · rfl
  · cases h

/-- Beneath a path item there is no other one. -/
theorem eq_of_isPathItem (h : Visits path node q e) (hpath : isPathItem path = true) (hq : isPathItem q = true) :
    q = path ∧ e = node := by
  have hlen : q.length = path.length := (length_of_isPathItem hq).trans (length_of_isPathItem hpath).symm
  cases h with
  | here => exact ⟨rfl, rfl⟩
  | item _ h | entry _ _ h =>
    have hle := h.length_le
    rw [List.length_cons, hlen] at hle
    exact absurd hle (Nat.not_succ_le_self _)

theorem not_isPathItem_of_place {place : Place} (h : Visits place.path node q e) : isPathItem q = false := by
  rw [Bool.eq_false_iff]
  intro hq
  have hle := h.length_le
  rw [length_of_isPathItem hq] at hle
  exact absurd hle (by simp [Place.path])

end Visits

/-! ## Path items -/

/-- A path item gives way to the one that it refers to in another document. -/
inductive GivesWay (source : Source) : String × Data → String × Data → Prop
  | intro {base ref : String} {node next : Data} {target : Target} :
      node.refText? = some ref → targetOf source base ref = .ok target → target.location ≠ source.root →
      Designates source target next → GivesWay source (base, node) (target.location, next)

/-- From a node of the document at a location, path items give way to others only so often. -/
def Ends (source : Source) : String × Data → Prop := Acc fun next item => GivesWay source item next

def PathItemsEnd (source : Source) (base : String) (path : Path) (node : Data) : Prop :=
  ∀ q e, Visits path node q e → isPathItem q = true → Ends source (base, e)

theorem Ends.of_refText?_eq_none {source : Source} {base : String} {node : Data} (h : node.refText? = none) :
    Ends source (base, node) := by
  refine Acc.intro _ fun _ hstep => ?_
  cases hstep with
  | intro href => exact absurd (h.symm.trans href) (by simp)

theorem Rewritten.pathItemsEnd {source : Source} {targets : List (Target × Place)} {base : String} {path : Path}
    {before after : Data} (h : Rewritten source targets base path before after) :
    PathItemsEnd source base path before := by
  induction h with
  | scalar | tuple =>
    intro q e hvisit _
    cases hvisit
    exact Ends.of_refText?_eq_none rfl
  | list hlen _ ih =>
    intro q e hvisit hq
    cases hvisit with
    | here => exact Ends.of_refText?_eq_none rfl
    | @item _ _ _ x _ i hx hvisit =>
      obtain ⟨hi, _⟩ := List.getElem?_eq_some_iff.mp hx
      exact ih i x _ hx (List.getElem?_eq_getElem (hlen ▸ hi)) q e hvisit hq
  | @map base path es fs href hkeys _ ih =>
    intro q e hvisit hq
    cases hvisit with
    | here => exact Ends.of_refText?_eq_none href
    | entry _ hmem hvisit =>
      obtain ⟨i, hi, heq⟩ := List.mem_iff_getElem.mp hmem
      have hlen : es.length = fs.length := by simpa using congrArg List.length hkeys
      have hes := List.getElem?_eq_getElem hi
      rw [heq] at hes
      exact ih i _ _ hes (List.getElem?_eq_getElem (hlen ▸ hi)) q e hvisit hq
  | home href htarget hroot =>
    intro q e hvisit _
    cases hvisit with
    | here =>
      refine Acc.intro _ fun _ hstep => ?_
      cases hstep with
      | intro href' htarget' haway =>
        obtain rfl := Rewritten.target_unique href htarget href' htarget'
        exact absurd hroot haway
    | entry hnone => exact absurd (hnone.symm.trans href) (by simp)
  | pathItem href htarget _ hitem hnode _ ih =>
    intro q e hvisit hq
    obtain ⟨rfl, rfl⟩ := hvisit.eq_of_isPathItem hitem hq
    refine Acc.intro _ fun _ hstep => ?_
    cases hstep with
    | intro href' htarget' _ hnode' =>
      obtain rfl := Rewritten.target_unique href htarget href' htarget'
      obtain rfl := hnode.unique hnode'
      exact ih _ _ .here hitem
  | component href _ _ hitem =>
    intro q e hvisit hq
    cases hvisit with
    | here => exact absurd (hitem.symm.trans hq) (by simp)
    | entry hnone => exact absurd (hnone.symm.trans href) (by simp)

/-! ## Why bundling fails -/

/-- What stops the search for a target. -/
inductive Unfound (source : Source) (target : Target) (ref : String) : Failure → Prop
  | read {f : Failure} : source.read target.location = .error f → Unfound source target ref f
  /-- The pointer has a segment of digits that are no number. -/
  | pointer {d : Data} {f : Failure} : source.read target.location = .ok d →
      Pointer.walk? d (Pointer.segments target.pointer) = .error f → Unfound source target ref f
  | absent {d : Data} : source.read target.location = .ok d →
      Pointer.walk? d (Pointer.segments target.pointer) = .ok none →
      Unfound source target ref (.unresolvedReference ref)

theorem Unfound.not_designates {source : Source} {target : Target} {ref : String} {f : Failure} {node : Data}
    (h : Unfound source target ref f) : ¬ Designates source target node := by
  rintro ⟨d, hread, hwalk⟩
  cases h with
  | read h => exact absurd (h.symm.trans hread) (by simp)
  | pointer h hfailed | absent h hfailed =>
    obtain rfl := Except.ok.inj (h.symm.trans hread)
    exact absurd (hfailed.symm.trans hwalk) (by simp)

/-- What stops a bundling that does not go too deep. -/
inductive Cause (source : Source) (document : Data) : Failure → Prop
  /-- The components of the document are no sections of named entries. -/
  | sections {f : Failure} : presentSections document = .error f → Cause source document f
  | components {copied : List (Scalar × Fields)} {walked : Data} {f : Failure} :
      addComponents copied walked = .error f → Cause source document f
  /-- A reference cannot be read relative to where it stands. -/
  | reference {base ref : String} {f : Failure} : targetOf source base ref = .error f → Cause source document f
  | target {base ref : String} {target : Target} {f : Failure} : targetOf source base ref = .ok target →
      Unfound source target ref f → Cause source document f

/-! ## Targets without a place -/

/-- Of a list of targets, those that have no place. -/
def State.unplaced (s : State) (all : List Target) : List Target := all.filter (· ∉ s.targets.map Prod.fst)

/-- What is true of the tables while at most `n` of all targets have no place. -/
structure Within (source : Source) (all : List Target) (n : Nat) (s : State) : Prop where
  documents : ∀ location document, Entries.find? (· == ·) s.documents location = some document →
    source.read location = .ok document
  unplaced : (s.unplaced all).length ≤ n

/-- The references in a node of the document at `base` have their targets in a list. -/
def Foreseen (source : Source) (all : List Target) (base : String) (node : Data) : Prop :=
  ∀ ref ∈ node.texts, ∀ target, targetOf source base ref = .ok target → target ∈ all

section
variable {source : Source} {document : Data} {all : List Target} {n : Nat} {s t : State}

theorem Foreseen.visit {base : String} {path q : Path} {node e : Data} (h : Foreseen source all base node)
    (hvisit : Visits path node q e) : Foreseen source all base e :=
  fun ref href => h ref (hvisit.texts_subset href)

theorem length_unplaced_given {target : Target} {place : Place} (hmem : target ∈ s.unplaced all) :
    ((s.given target place).unplaced all).length < (s.unplaced all).length := by
  have hkeys : (s.given target place).targets.map Prod.fst = s.targets.map Prod.fst ++ [target] := List.map_append
  obtain ⟨hall, hnew⟩ := List.mem_filter.mp hmem
  rw [State.unplaced, hkeys]
  refine length_filter_lt ?_ hall hnew (by simp)
  intro known hknown
  simp only [decide_eq_true_eq, List.mem_append, not_or] at hknown ⊢
  exact hknown.1

/-! ## Each part settles -/

theorem settles_fetch {location : String} (hs : Within source all n s) :
    Settles (fun d t => source.read location = .ok d ∧ Within source all n t) (source.read location = .error ·)
      (fun _ => fetch source location) s := by
  refine Settles.get_bind ?_
  cases hfound : Entries.find? (· == ·) s.documents location with
  | some d => exact .pure ⟨hs.documents location d hfound, hs⟩
  | none =>
    refine Settles.set_bind (Settles.lift_bind (fun d hread => ?_) fun f hf => hf)
    refine Settles.modify_bind (.pure ⟨hread, { hs with documents := ?_ }⟩)
    intro l e hl
    rw [Entries.find?_append, Option.or_eq_some_iff] at hl
    rcases hl with hl | ⟨_, hl⟩
    · exact hs.documents l e hl
    · obtain ⟨_, hmem, hkey⟩ := Entries.mem_of_find? hl
      obtain ⟨rfl, rfl⟩ := Prod.mk.inj (List.mem_singleton.mp hmem)
      rw [← beq_iff_eq.mp hkey, hread]

theorem settles_lookup (target : Target) (ref : String) (hs : Within source all n s) :
    Settles (fun node t => Designates source target node ∧ Within source all n t) (Unfound source target ref)
      (fun _ => lookup source target ref) s := by
  refine Settles.bind ((settles_fetch hs).mono (fun _ _ h => h) fun f hf => .read hf) ?_
  rintro d u ⟨hread, hu⟩
  refine Settles.lift_bind (fun found hfound => ?_) fun f hf => .pointer hread hf
  cases found with
  | none => exact .throw (.absent hread hfound)
  | some node => exact .pure ⟨⟨d, hread, hfound⟩, hu⟩

theorem settles_lookup_target {target : Target} {base ref : String} (htarget : targetOf source base ref = .ok target)
    (hs : Within source all n s) :
    Settles (fun node t => Designates source target node ∧ Within source all n t) (Cause source document)
      (fun _ => lookup source target ref) s :=
  (settles_lookup target ref hs).mono (fun _ _ h => h) fun _ hf => .target htarget hf

/-- What settles and leaves at most `n` targets unplaced. -/
abbrev SettlesWithin (source : Source) (document : Data) (all : List Target) (n : Nat) {α : Type} (A : Nat → M α)
    (s : State) : Prop :=
  Settles (fun _ t => Within source all n t) (Cause source document) A s

/-- Walking a node settles from all tables with at most `n` targets unplaced. -/
def SettlesAt (source : Source) (document : Data) (all : List Target) (n : Nat)
    (walk : Nat → String → Path → Data → M Data) (base : String) (path : Path) (node : Data) : Prop :=
  ∀ s, Within source all n s →
    SettlesWithin source document all n (fun depth => walk depth base path node) s

section
variable {walk : Nat → String → Path → Data → M Data} {base ref : String} {es : Fields} {path : Path}

theorem settles_copy {target : Target} (htarget : targetOf source base ref = .ok target)
    (hnew : target ∈ s.unplaced all)
    (hwalk : ∀ less < n, ∀ (place : Place) node, Designates source target node →
      SettlesAt source document all less walk target.location place.path node)
    (hs : Within source all n s) :
    SettlesWithin source document all n (fun depth => copy source (walk depth) target ref path) s := by
  simp only [copy, claim, bind_assoc, pure_bind]
  refine Settles.get_bind (Settles.set_bind (Settles.modify_bind ?_))
  set place : Place := ⟨sectionOf target.pointer path, _⟩ with hplace
  have hless : ((s.given target place).unplaced all).length < n :=
    Nat.lt_of_lt_of_le (length_unplaced_given hnew) hs.unplaced
  have hgiven : Within source all _ (s.given target place) := ⟨hs.documents, Nat.le_refl _⟩
  refine Settles.bind (settles_lookup_target htarget hgiven) ?_
  rintro node u ⟨hnode, hu⟩
  refine Settles.bind (hwalk _ hless place node hnode u hu) fun content v hv => ?_
  refine Settles.modify_bind (.pure ?_)
  exact ⟨hv.documents, Nat.le_trans hv.unplaced (Nat.le_of_lt hless)⟩

/-- A reference settles if what its target leads to does: a path item takes the place of the reference, any
other target has a place from there on. -/
theorem settles_makeLocal (href : (Data.map es).refText? = some ref) (hforeseen : Foreseen source all base (.map es))
    (hitem : isPathItem path = true → ∀ target node, targetOf source base ref = .ok target →
      target.location ≠ source.root → Designates source target node →
      SettlesAt source document all n walk target.location path node)
    (hcomponent : ∀ less < n, ∀ target (place : Place) node, Designates source target node →
      SettlesAt source document all less walk target.location place.path node)
    (hs : Within source all n s) :
    SettlesWithin source document all n (fun depth => makeLocal source (walk depth) base es ref path) s := by
  refine Settles.lift_bind (fun target htarget => ?_) fun f hf => .reference hf
  by_cases hroot : target.location = source.root
  · simp only [beq_iff_eq.mpr hroot, if_true]
    exact .pure hs
  simp only [beq_eq_false_iff_ne.mpr hroot, Bool.false_eq_true, if_false]
  by_cases hpath : isPathItem path = true
  · simp only [hpath, if_true]
    refine Settles.bind (settles_lookup_target htarget hs) ?_
    rintro node u ⟨hnode, hu⟩
    exact hitem hpath target node htarget hroot hnode u hu
  simp only [hpath]
  refine Settles.get_bind ?_
  cases hfound : Entries.find? (· == ·) s.targets target with
  | some place => exact .pure hs
  | none =>
    have hnew : target ∈ s.unplaced all := by
      refine List.mem_filter.mpr ⟨hforeseen ref (mem_texts_of_refText? href) target htarget, ?_⟩
      rw [decide_eq_true_iff]
      intro hmem
      obtain ⟨e, he, rfl⟩ := List.mem_map.mp hmem
      exact Entries.find?_eq_none_iff.mp hfound e he (beq_self_eq_true _)
    refine Settles.bind (settles_copy htarget hnew (fun less hless => hcomponent less hless target) hs) ?_
    exact fun place t ht => .pure ht

end

mutual

theorem settles_walkWith {follow : Nat → Fields → String → Path → M Data} :
    ∀ (node : Data) (path : Path) (s : State), Within source all n s →
      (∀ es ref q u, Visits path node q (.map es) → (Data.map es).refText? = some ref → Within source all n u →
        SettlesWithin source document all n (fun depth => follow depth es ref q) u) →
      SettlesWithin source document all n (fun depth => walkWith (follow depth) path node) s
  | .scalar _, _, _, hs, _ | .tuple _, _, _, hs, _ => .pure hs
  | .list items, path, s, hs, hfollow => by
    refine Settles.bind (settles_walkItems items path 0 s hs ?_) fun _ _ ht => .pure ht
    intro i x hx es ref q u hvisit
    rw [Nat.zero_add] at hvisit
    exact hfollow es ref q u (.item hx hvisit)
  | .map entries, path, s, hs, hfollow => by
    simp only [walkWith]
    split
    · rename_i ref href
      exact hfollow entries ref path s .here (refText?_eq_some_iff.mpr href) hs
    · rename_i href
      have hnone : (Data.map entries).refText? = none := by
        rw [Option.eq_none_iff_forall_ne_some]
        intro ref hsome
        exact href ref (refText?_eq_some_iff.mp hsome)
      refine Settles.bind (settles_walkEntries entries path s hs ?_) fun _ _ ht => .pure ht
      intro key v hmem es ref q u hvisit
      exact hfollow es ref q u (.entry hnone hmem hvisit)

theorem settles_walkItems {follow : Nat → Fields → String → Path → M Data} :
    ∀ (xs : List Data) (path : Path) (index : Nat) (s : State), Within source all n s →
      (∀ (i : Nat) x, xs[i]? = some x → ∀ es ref q u, Visits (.int (index + i : Nat) :: path) x q (.map es) →
        (Data.map es).refText? = some ref → Within source all n u →
        SettlesWithin source document all n (fun depth => follow depth es ref q) u) →
      SettlesWithin source document all n (fun depth => walkItems (follow depth) path index xs) s
  | [], _, _, _, hs, _ => .pure hs
  | x :: xs, path, index, s, hs, hfollow => by
    refine Settles.bind (settles_walkWith x (.int index :: path) s hs (hfollow 0 x rfl)) fun y u hu => ?_
    refine Settles.bind (settles_walkItems xs path (index + 1) u hu ?_) fun _ _ ht => .pure ht
    intro i z hz es ref q v hvisit
    rw [Nat.add_assoc, Nat.add_comm 1 i] at hvisit
    exact hfollow (i + 1) z hz es ref q v hvisit

theorem settles_walkEntries {follow : Nat → Fields → String → Path → M Data} :
    ∀ (es : Fields) (path : Path) (s : State), Within source all n s →
      (∀ key v, (key, v) ∈ es → ∀ fs ref q u, Visits (key :: path) v q (.map fs) →
        (Data.map fs).refText? = some ref → Within source all n u →
        SettlesWithin source document all n (fun depth => follow depth fs ref q) u) →
      SettlesWithin source document all n (fun depth => walkEntries (follow depth) path es) s
  | [], _, _, hs, _ => .pure hs
  | (key, value) :: es, path, s, hs, hfollow => by
    refine Settles.bind (settles_walkWith value (key :: path) s hs (hfollow key value List.mem_cons_self)) fun w u hu => ?_
    refine Settles.bind (settles_walkEntries es path u hu ?_) fun _ _ ht => .pure ht
    intro k v hmem
    exact hfollow k v (List.mem_cons_of_mem _ hmem)

end

/-! ## The whole walk -/

/-- What is reached through references is foreseen wherever the walk goes on. -/
def Closed (source : Source) (all : List Target) : Prop :=
  ∀ target node, Designates source target node → Foreseen source all target.location node

theorem settles_walkAt (hclosed : Closed source all) {base : String} {path : Path} {node : Data}
    (hforeseen : Foreseen source all base node) (hends : PathItemsEnd source base path node) :
    SettlesAt source document all n (walkAt source) base path node := by
  induction n using Nat.strongRecOn generalizing base path node with
  | _ n ih =>
    -- a component has a place when its content is walked, so fewer targets have none
    have hcomponent : ∀ less < n, ∀ target (place : Place) node, Designates source target node →
        SettlesAt source document all less (walkAt source) target.location place.path node := by
      intro less hless target place node hnode
      refine ih less hless (hclosed target node hnode) fun q e hvisit hq => ?_
      exact absurd (hvisit.not_isPathItem_of_place.symm.trans hq) (by simp)
    -- a path item leads to one that is nearer to the end
    have hitem : ∀ item : String × Data, Ends source item → Foreseen source all item.1 item.2 → ∀ path,
        isPathItem path = true → SettlesAt source document all n (walkAt source) item.1 path item.2 := by
      intro item hitem
      induction hitem with
      | intro item _ ihitem =>
        intro hforeseen path hpath s hs
        refine Settles.succ (settles_walkWith item.2 path s hs ?_)
        intro es ref q u hvisit href hu
        refine settles_makeLocal href (hforeseen.visit hvisit) ?_ hcomponent hu
        intro hq target next htarget hroot hnext
        obtain ⟨rfl, heq⟩ := hvisit.eq_of_isPathItem hpath hq
        exact ihitem _ (.intro (heq ▸ href) htarget hroot hnext) (hclosed target next hnext) q hpath
    intro s hs
    refine Settles.succ (settles_walkWith node path s hs ?_)
    intro es ref q u hvisit href hu
    refine settles_makeLocal href (hforeseen.visit hvisit) ?_ hcomponent hu
    intro hq target next htarget hroot hnext
    have hstep : GivesWay source (base, .map es) (target.location, next) := .intro href htarget hroot hnext
    exact hitem _ ((hends q _ hvisit hq).inv hstep) (hclosed target next hnext) q hq

theorem walkAt_succ_of_refText? {base ref : String} {path : Path} {es : Fields}
    (href : (Data.map es).refText? = some ref) (depth : Nat) :
    walkAt source (depth + 1) base path (.map es) = makeLocal source (walkAt source depth) base es ref path := by
  have hfind : Entries.find? Scalar.same es (.str "$ref") = some (.str ref) := refText?_eq_some_iff.mp href
  simp only [walkAt, walkWith, hfind]

theorem run_makeLocal_pathItem {walk : String → Path → Data → M Data} {base ref : String} {path : Path} {es : Fields}
    {target : Target} {node : Data} (htarget : targetOf source base ref = .ok target)
    (haway : target.location ≠ source.root) (hpath : isPathItem path = true)
    (hlookup : Runs (lookup source target ref) s node t) :
    Id.run ((makeLocal source walk base es ref path).run s) = Id.run ((walk target.location path node).run t) := by
  have htargets : Runs (liftM (targetOf source base ref) : M Target) s target s := Runs.lift_iff.mpr ⟨htarget, rfl⟩
  rw [makeLocal, Runs.run_bind_of_runs htargets, beq_eq_false_iff_ne.mpr haway, hpath]
  exact Runs.run_bind_of_runs hlookup

/-- At a path item without an end the walk goes beyond every depth. -/
theorem walkAt_tooDeep {base : String} {path : Path} {node : Data} (hs : Within source all n s)
    (hpath : isPathItem path = true) (hends : ¬ Ends source (base, node)) (depth : Nat) :
    (Id.run ((walkAt source depth base path node).run s)).1 = .error .tooDeep := by
  induction depth generalizing base node s with
  | zero => rfl
  | succ depth ih =>
    obtain ⟨next, hstep, hnext⟩ : ∃ next, GivesWay source (base, node) next ∧ ¬ Ends source next := by
      by_contra hnone
      refine hends (Acc.intro _ fun next hstep => ?_)
      by_contra hnext
      exact hnone ⟨next, hstep, hnext⟩
    cases hstep with
    | @intro _ ref _ next target href htarget haway hnode =>
      obtain ⟨es, rfl⟩ := exists_map_of_refText? href
      obtain ⟨found, t, hlookup, hfound, ht⟩ :=
        (settles_lookup target ref hs).exists_runs fun f hf => hf.not_designates hnode
      obtain rfl := hfound.unique hnode
      rw [walkAt_succ_of_refText? href, run_makeLocal_pathItem htarget haway hpath hlookup]
      exact ih ht hnext

theorem settles_bundleAt (hclosed : Closed source all) (hforeseen : Foreseen source all source.root document)
    (hends : PathItemsEnd source source.root [] document) :
    Settles (fun _ _ => True) (Cause source document) (fun depth => bundleAt source depth document) {} := by
  refine Settles.lift_bind (fun names _ => ?_) fun f hf => .sections hf
  refine Settles.modify_bind ?_
  have hstart : Within source all _ ({ names } : State) := ⟨(sound_start source names).documents, Nat.le_refl _⟩
  refine Settles.bind (settles_walkAt hclosed hforeseen hends _ hstart) fun walked t _ => ?_
  exact Settles.get_bind (.lift (fun _ _ => trivial) fun f hf => .components hf)

theorem run_bundleAt_error {names : List (Scalar × List String)} {f : Failure} {depth : Nat}
    (hnames : presentSections document = .ok names)
    (h : (Id.run ((walkAt source depth source.root [] document).run { names })).1 = .error f) :
    (Id.run ((bundleAt source depth document).run {})).1 = .error f := by
  rw [bundleAt, hnames]
  exact Runs.run_bind_error (s := { names })
    (f := fun walked => get >>= fun t : State => liftM (addComponents t.copied walked)) h

/-- With finitely many documents there are finitely many targets. -/
theorem exists_closed {locations : List String} (document : Data)
    (hfinite : ∀ location d, source.read location = .ok d → location ∈ locations) :
    ∃ all, Closed source all ∧ Foreseen source all source.root document := by
  set documents := document :: locations.filterMap fun location => (source.read location).toOption with hdocuments
  set all := (source.root :: locations).flatMap fun base =>
    (documents.flatMap texts).filterMap fun ref => (targetOf source base ref).toOption with hall
  have hmem : ∀ base ∈ source.root :: locations, ∀ d ∈ documents, Foreseen source all base d := by
    intro base hbase d hd ref href target htarget
    refine List.mem_flatMap.mpr ⟨base, hbase, List.mem_filterMap.mpr ⟨ref, List.mem_flatMap.mpr ⟨d, hd, href⟩, ?_⟩⟩
    rw [htarget]
    rfl
  refine ⟨all, ?_, hmem _ List.mem_cons_self _ List.mem_cons_self⟩
  rintro target node ⟨d, hread, hwalk⟩ ref href
  have hlocation : target.location ∈ locations := hfinite _ d hread
  refine hmem _ (List.mem_cons_of_mem _ hlocation) d (List.mem_cons_of_mem _ ?_) ref (texts_walk? hwalk href)
  exact List.mem_filterMap.mpr ⟨target.location, hlocation, by rw [hread]; rfl⟩

end

/-- With finitely many documents: where path items end, bundling ends, in a bundle or in a failure with a
cause of its own, whatever depth beyond some is allowed; and only there anything is bundled at all. -/
theorem bundle_ends {source : Source} {document : Data} {locations : List String}
    (hfinite : ∀ location d, source.read location = .ok d → location ∈ locations) :
    (PathItemsEnd source source.root [] document → ∃ depth result s,
      (∀ more, depth ≤ more → Id.run ((bundleAt source more document).run {}) = (result, s)) ∧
      ∀ f, result = .error f → Cause source document f) ∧
    ∀ depth R s, Runs (bundleAt source depth document) {} R s → PathItemsEnd source source.root [] document := by
  constructor
  · intro hends
    obtain ⟨all, hclosed, hforeseen⟩ := exists_closed document hfinite
    obtain ⟨depth, result, s, hrun, hwanted⟩ := settles_bundleAt hclosed hforeseen hends
    refine ⟨depth, result, s, hrun, ?_⟩
    rintro f rfl
    exact hwanted
  · intro depth R s h
    obtain ⟨walked, hout⟩ := outcome h
    exact hout.rewritten.pathItemsEnd

theorem mem_of_read_ofFiles {files : List (String × Data)} {location : String} {d : Data}
    (h : (Source.ofFiles files).read location = .ok d) : location ∈ files.map Prod.fst := by
  cases hfound : files.lookup location with
  | none => simp [Source.ofFiles, hfound] at h
  | some found => exact List.mem_map.mpr ⟨_, Entries.mem_of_lookup hfound, rfl⟩

/-- A path item that gives way to another twice, and schemas that refer to each other. -/
def relayFiles : List (String × Data) :=
  [("/work/items.json", .object [("pets", refObject "more.json#/pets")]),
   ("/work/more.json", .object [("pets", .object [("schema", refObject "pet.json")])]),
   ("/work/pet.json", .object [("owner", refObject "owner.json")]),
   ("/work/owner.json", .object [("pet", refObject "pet.json")])]

def relayRoot : Data := .object [("paths", .object [("/pets", refObject "items.json#/pets")])]

theorem bundle_ends_relay : PathItemsEnd (.ofFiles relayFiles) (Source.ofFiles relayFiles).root [] relayRoot ∧
    ∃ depth result s,
      (∀ more, depth ≤ more → Id.run ((bundleAt (.ofFiles relayFiles) more relayRoot).run {}) = (result, s)) ∧
      ∀ f, result = .error f → Cause (.ofFiles relayFiles) relayRoot f := by
  obtain ⟨R, s, h⟩ : ∃ R s, Runs (bundleAt (.ofFiles relayFiles) 5 relayRoot) {} R s :=
    Runs.exists_of_isOk (by decide +kernel)
  have hfinite : ∀ location d, (Source.ofFiles relayFiles).read location = .ok d → location ∈ relayFiles.map Prod.fst :=
    fun _ _ => mem_of_read_ofFiles
  obtain ⟨hsettles, hends⟩ := bundle_ends hfinite
  exact ⟨hends 5 R s h, hsettles (hends 5 R s h)⟩

/-- A path item that gives way to itself. -/
def loopFiles : List (String × Data) := [("/work/o.json", refObject "o.json")]

def loopRoot : Data := .object [("paths", .object [("/a", refObject "o.json")])]

theorem targetOf_loop {base : String} (hbase : base ∈ ["/work/api.json", "/work/o.json"]) :
    targetOf (.ofFiles loopFiles) base "o.json" = .ok ⟨"/work/o.json", ""⟩ := by
  simp only [List.mem_cons, List.not_mem_nil, or_false] at hbase
  rcases hbase with rfl | rfl <;> exact Result.eq_ok_of_toOption (by decide +kernel)

theorem not_ends_loop {base : String} (hbase : base ∈ ["/work/api.json", "/work/o.json"]) :
    ¬ Ends (.ofFiles loopFiles) (base, refObject "o.json") := by
  have hstep : ∀ base ∈ ["/work/api.json", "/work/o.json"],
      GivesWay (.ofFiles loopFiles) (base, refObject "o.json") ("/work/o.json", refObject "o.json") :=
    fun base hbase => .intro rfl (targetOf_loop hbase) (by decide) ⟨_, rfl, rfl⟩
  intro hends
  generalize hitem : (base, refObject "o.json") = item at hends
  induction hends generalizing base with
  | intro item _ ih =>
    subst hitem
    exact ih _ (hstep base hbase) (by simp) rfl

theorem exists_bundle_endless :
    (∀ location d, (Source.ofFiles loopFiles).read location = .ok d → location ∈ ["/work/o.json"]) ∧
      ∀ depth, (Id.run ((bundleAt (.ofFiles loopFiles) depth loopRoot).run {})).1 = .error .tooDeep := by
  refine ⟨fun _ _ => mem_of_read_ofFiles, fun depth => ?_⟩
  cases depth with
  | zero => rfl
  | succ depth =>
    have hitem : ∀ s, Within (.ofFiles loopFiles) [] 0 s → (Id.run ((makeLocal (.ofFiles loopFiles)
        (walkAt (.ofFiles loopFiles) depth) "/work/api.json" [(.str "$ref", .str "o.json")] "o.json"
        [.str "/a", .str "paths"]).run s)).1 = .error .tooDeep := by
      intro s hs
      rw [← walkAt_succ_of_refText? rfl]
      exact walkAt_tooDeep hs rfl (not_ends_loop (by simp)) _
    have hwalk : (Id.run ((walkAt (.ofFiles loopFiles) (depth + 1) "/work/api.json" [] loopRoot).run {})).1 =
        .error .tooDeep := by
      exact Runs.run_bind_error (Runs.run_bind_error (Runs.run_bind_error (Runs.run_bind_error
        (hitem {} ⟨fun _ _ h => (by cases h), Nat.le_refl _⟩))))
    exact run_bundleAt_error rfl hwalk

end Bundle
end ClientBindings
