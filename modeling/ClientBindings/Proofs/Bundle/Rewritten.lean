import ClientBindings.Document.Bundle
import ClientBindings.Document.Reference
import ClientBindings.Proofs.Entries
import Mathlib.Data.List.Nodup

/-! What it means that a node was rewritten. The relation has one rule for each kind of node and three
for references; it does not know in which order targets were met, only the components they were given. -/

namespace ClientBindings

/-- A reference into the document it stands in. -/
def Reference.IsLocal (ref : String) : Prop := ∃ cs, ref.toList = '#' :: cs

namespace Data

/-- What a mapping holds under a key. -/
def under? : Data → Scalar → Option Data
  | .map entries, key => Entries.find? Scalar.same entries key
  | _, _ => none

/-- What nested mappings hold under keys. -/
def at? : Data → List Scalar → Option Data
  | d, [] => some d
  | d, key :: keys => (d.under? key).bind (at? · keys)

/-- The reference that a mapping holds as a text. -/
def refText? (d : Data) : Option String :=
  match d.under? (.str "$ref") with
  | some (.str ref) => some ref
  | _ => none

/-- A reference that does not stand beneath another one; the flag tells whether it stands in a tuple. -/
inductive FreeRef : Data → Bool → String → Prop
  | here {d : Data} {ref : String} : d.refText? = some ref → FreeRef d false ref
  | entry {d v : Data} {key : Scalar} {tupled : Bool} {ref : String} :
      d.refText? = none → d.under? key = some v → FreeRef v tupled ref → FreeRef d tupled ref
  | item {items : List Data} {x : Data} {tupled : Bool} {ref : String} :
      x ∈ items → FreeRef x tupled ref → FreeRef (.list items) tupled ref
  | part {items : List Data} {x : Data} {tupled : Bool} {ref : String} :
      x ∈ items → FreeRef x tupled ref → FreeRef (.tuple items) true ref

theorem refText?_eq_some_iff {d : Data} {ref : String} :
    d.refText? = some ref ↔ d.under? (.str "$ref") = some (.str ref) := by
  unfold refText?
  split
  · simp_all
  · rename_i h
    constructor
    · intro h'
      cases h'
    · intro h'
      exact absurd h' (h ref)

@[simp] theorem at?_nil (d : Data) : d.at? [] = some d := rfl

@[simp] theorem at?_cons (d : Data) (key : Scalar) (keys : List Scalar) :
    d.at? (key :: keys) = (d.under? key).bind (at? · keys) := rfl

theorem at?_str_eq_none_iff (a b : String) (keys : List Scalar) :
    (Data.str a).at? keys = none ↔ (Data.str b).at? keys = none := by
  cases keys with
  | nil => simp
  | cons key keys => exact Iff.rfl

end Data

namespace Bundle
open Data

/-- The node that a target stands for, in the document read at its location. -/
def Designates (source : Source) (target : Target) (node : Data) : Prop :=
  ∃ document, source.read target.location = .ok document ∧
    Pointer.walk? document (Pointer.segments target.pointer) = .ok (some node)

theorem Designates.unique {source : Source} {target : Target} {node other : Data}
    (h : Designates source target node) (h' : Designates source target other) : node = other := by
  obtain ⟨document, hread, hwalk⟩ := h
  obtain ⟨document', hread', hwalk'⟩ := h'
  obtain rfl := Except.ok.inj (hread.symm.trans hread')
  exact Option.some.inj (Except.ok.inj (hwalk.symm.trans hwalk'))

/-- A member of a list has one at its place in every list of the same length. -/
theorem exists_counterpart {α β : Type} {xs : List α} {ys : List β} (hlen : xs.length = ys.length) {y : β} (hy : y ∈ ys) :
    ∃ (i : Nat) (x : α), xs[i]? = some x ∧ ys[i]? = some y ∧ x ∈ xs := by
  obtain ⟨i, hi, rfl⟩ := List.mem_iff_getElem.mp hy
  exact ⟨i, xs[i], List.getElem?_eq_getElem _, List.getElem?_eq_getElem hi, List.getElem_mem _⟩

/-- Rewriting a node that stands at a path of the document at `base`. References to the root become
local; a path item is replaced by its rewritten target; every other reference leads to the component
that its target was given. -/
inductive Rewritten (source : Source) (targets : List (Target × Place)) :
    String → Path → Data → Data → Prop
  | scalar {base : String} {path : Path} (s : Scalar) :
      Rewritten source targets base path (.scalar s) (.scalar s)
  | tuple {base : String} {path : Path} (items : List Data) :
      Rewritten source targets base path (.tuple items) (.tuple items)
  | list {base : String} {path : Path} {xs ys : List Data} :
      xs.length = ys.length →
      (∀ (i : Nat) x y, xs[i]? = some x → ys[i]? = some y →
        Rewritten source targets base (.int i :: path) x y) →
      Rewritten source targets base path (.list xs) (.list ys)
  | map {base : String} {path : Path} {es fs : Fields} :
      (Data.map es).refText? = none → es.map Prod.fst = fs.map Prod.fst →
      (∀ (i : Nat) e f, es[i]? = some e → fs[i]? = some f →
        Rewritten source targets base (e.1 :: path) e.2 f.2) →
      Rewritten source targets base path (.map es) (.map fs)
  | home {base : String} {path : Path} {es : Fields} {ref : String} {target : Target} :
      (Data.map es).refText? = some ref → targetOf source base ref = .ok target →
      target.location = source.root →
      Rewritten source targets base path (.map es) (redirect es ("#" ++ target.pointer))
  | pathItem {base : String} {path : Path} {es : Fields} {ref : String} {target : Target}
      {node after : Data} :
      (Data.map es).refText? = some ref → targetOf source base ref = .ok target →
      target.location ≠ source.root → isPathItem path = true → Designates source target node →
      Rewritten source targets target.location path node after →
      Rewritten source targets base path (.map es) after
  | component {base : String} {path : Path} {es : Fields} {ref : String} {target : Target}
      {place : Place} :
      (Data.map es).refText? = some ref → targetOf source base ref = .ok target →
      target.location ≠ source.root → isPathItem path = false → (target, place) ∈ targets →
      Rewritten source targets base path (.map es) (redirect es place.ref)

theorem under?_redirect (es : Fields) (ref : String) (key : Scalar) :
    (redirect es ref).under? key =
      if key = .str "$ref" then some (.str ref) else (Data.map es).under? key := by
  show Entries.find? Scalar.same (Entries.put Scalar.same es (.str "$ref") (.str ref)) key = _
  rw [Entries.find?_put Scalar.same_equivalence]
  simp only [Scalar.same_str_left]
  rfl

@[simp] theorem refText?_redirect (es : Fields) (ref : String) : (redirect es ref).refText? = some ref := by
  rw [refText?_eq_some_iff, under?_redirect, if_pos rfl]

theorem FreeRef.eq_of_redirect {es : Fields} {ref ref' : String} {tupled : Bool}
    (h : FreeRef (redirect es ref) tupled ref') : ref' = ref := by
  have hnone : (redirect es ref).refText? ≠ none := by simp
  cases h with
  | here h => simpa using h.symm
  | entry h _ _ => exact absurd h hnone

theorem Place.isLocal_ref (place : Place) : Reference.IsLocal place.ref := by
  refine ⟨("/components/" ++ (Pointer.escape place.sectionName ++ ("/" ++ Pointer.escape place.name))).toList, ?_⟩
  simp only [Place.ref, String.append_assoc, String.toList_append]
  rfl

namespace Rewritten
variable {source : Source} {targets more : List (Target × Place)} {base : String} {path : Path}
  {before after : Data}

theorem mono (h : Rewritten source targets base path before after) (hmore : targets ⊆ more) :
    Rewritten source more base path before after := by
  induction h with
  | scalar s => exact .scalar s
  | tuple items => exact .tuple items
  | list hlen _ ih => exact .list hlen ih
  | map href hkeys _ ih => exact .map href hkeys ih
  | home href htarget hroot => exact .home href htarget hroot
  | pathItem href htarget hroot hitem hnode _ ih => exact .pathItem href htarget hroot hitem hnode ih
  | component href htarget hroot hitem hmem => exact .component href htarget hroot hitem (hmore hmem)

theorem target_unique {d : Data} {ref ref' : String} {target target' : Target} (href : d.refText? = some ref)
    (htarget : targetOf source base ref = .ok target) (href' : d.refText? = some ref')
    (htarget' : targetOf source base ref' = .ok target') : target = target' := by
  obtain rfl := Option.some.inj (href.symm.trans href')
  exact Except.ok.inj (htarget.symm.trans htarget')

/-- The components that targets were given determine what a node is rewritten to. -/
theorem unique (hnodup : (targets.map Prod.fst).Nodup) {other : Data}
    (h : Rewritten source targets base path before after)
    (h' : Rewritten source targets base path before other) : after = other := by
  induction h generalizing other with
  | scalar | tuple =>
    cases h'
    rfl
  | @list base path xs ys hlen _ ih =>
    cases h' with
    | @list _ _ _ zs hlen' hitems' =>
      congr 1
      refine List.ext_getElem (hlen.symm.trans hlen') fun i hi hi' => ?_
      obtain ⟨x, hx⟩ : ∃ x, xs[i]? = some x := ⟨_, List.getElem?_eq_getElem (hlen ▸ hi)⟩
      exact ih i _ _ hx (List.getElem?_eq_getElem hi) (hitems' i _ _ hx (List.getElem?_eq_getElem hi'))
  | @map base path es fs href hkeys _ ih =>
    cases h' with
    | @map _ _ _ gs _ hkeys' hentries' =>
      have hlen : fs.length = gs.length := by
        simpa using congrArg List.length (hkeys.symm.trans hkeys')
      have hlen' : fs.length = es.length := by
        simpa using congrArg List.length hkeys.symm
      congr 1
      refine List.ext_getElem hlen fun i hi hi' => Prod.ext ?_ ?_
      · have hkey := List.getElem_of_eq (hkeys.symm.trans hkeys') (by simpa using hi)
        simpa using hkey
      · obtain ⟨e, he⟩ : ∃ e, es[i]? = some e := ⟨_, List.getElem?_eq_getElem (hlen' ▸ hi)⟩
        exact ih i _ _ he (List.getElem?_eq_getElem hi) (hentries' i _ _ he (List.getElem?_eq_getElem hi'))
    | home href' | pathItem href' | component href' => exact absurd (href.symm.trans href') (by simp)
  | home href htarget hroot =>
    cases h' with
    | map href' => exact absurd (href'.symm.trans href) (by simp)
    | home href' htarget' =>
      obtain rfl := target_unique href htarget href' htarget'
      rfl
    | pathItem href' htarget' haway | component href' htarget' haway =>
      obtain rfl := target_unique href htarget href' htarget'
      exact absurd hroot haway
  | pathItem href htarget haway hitem hnode _ ih =>
    cases h' with
    | map href' => exact absurd (href'.symm.trans href) (by simp)
    | home href' htarget' hroot =>
      obtain rfl := target_unique href htarget href' htarget'
      exact absurd hroot haway
    | pathItem href' htarget' _ _ hnode' h' =>
      obtain rfl := target_unique href htarget href' htarget'
      exact ih (hnode.unique hnode' ▸ h')
    | component _ _ _ hitem' => exact absurd (hitem.symm.trans hitem') (by simp)
  | component href htarget haway hitem hmem =>
    cases h' with
    | map href' => exact absurd (href'.symm.trans href) (by simp)
    | home href' htarget' hroot =>
      obtain rfl := target_unique href htarget href' htarget'
      exact absurd hroot haway
    | pathItem _ _ _ hitem' => exact absurd (hitem.symm.trans hitem') (by simp)
    | component href' htarget' _ _ hmem' =>
      obtain rfl := target_unique href htarget href' htarget'
      have hplace := List.inj_on_of_nodup_map hnodup hmem hmem' rfl
      rw [(Prod.mk.inj hplace).2]

/-- Only a path item turns into a text: any other node that becomes one was one. -/
theorem of_str {text : String} (h : Rewritten source targets base path before (.str text))
    (hpath : isPathItem path = false) : before = .str text := by
  cases h with
  | scalar => rfl
  | pathItem _ _ _ hitem _ _ => exact absurd hitem (by simp [hpath])

/-- Whence a reference that was left comes: it is local, or it stands in a tuple, or it is the text
that a path item under the name `$ref` was replaced by. -/
def Explained (path : Path) (before after : Data) (tupled : Bool) (ref : String) : Prop :=
  Reference.IsLocal ref ∨ tupled = true ∨
    (path = [.str "paths"] ∧ before.refText? = none ∧ after.refText? = some ref) ∨
    (path = [] ∧ after.refText? = none ∧ ∃ v w, before.under? (.str "paths") = some v ∧
      after.under? (.str "paths") = some w ∧ v.refText? = none ∧ w.refText? = some ref)

theorem explained_map {es fs : Fields} (href : (Data.map es).refText? = none)
    (haligned : ∀ k, ((Data.map es).under? k = none ∧ (Data.map fs).under? k = none) ∨
      ∃ key v w, key.same k = true ∧ (Data.map es).under? k = some v ∧ (Data.map fs).under? k = some w ∧
        Rewritten source targets base (key :: path) v w ∧
        ∀ tupled ref, FreeRef w tupled ref → Explained (key :: path) v w tupled ref)
    {tupled : Bool} {ref : String} (hfree : FreeRef (.map fs) tupled ref) :
    Explained path (.map es) (.map fs) tupled ref := by
  cases hfree with
  | here h =>
    have hafter := refText?_eq_some_iff.mp h
    rcases haligned (.str "$ref") with ⟨_, hnone⟩ | ⟨key, v, w, hkey, hv, hw, hvw, _⟩
    · exact absurd (hnone.symm.trans hafter) (by simp)
    obtain rfl : w = .str ref := Option.some.inj (hw.symm.trans hafter)
    cases hitem : isPathItem (key :: path) with
    | false =>
      have hbefore := refText?_eq_some_iff.mpr (hvw.of_str hitem ▸ hv)
      exact absurd (href.symm.trans hbefore) (by simp)
    | true =>
      have hpaths : path = [.str "paths"] := by
        unfold isPathItem at hitem
        split at hitem <;> simp_all
      exact Or.inr (Or.inr (Or.inl ⟨hpaths, href, h⟩))
  | @entry _ w k _ _ hnone hunder hfree =>
    rcases haligned k with ⟨_, hnone'⟩ | ⟨key, v, w', hkey, hv, hw, _, hih⟩
    · exact absurd (hnone'.symm.trans hunder) (by simp)
    obtain rfl : w' = w := Option.some.inj (hw.symm.trans hunder)
    rcases hih _ _ hfree with hlocal | htupled | ⟨hpath, hbefore, hafter⟩ | ⟨hpath, _⟩
    · exact Or.inl hlocal
    · exact Or.inr (Or.inl htupled)
    · obtain ⟨rfl, rfl⟩ := List.cons.inj hpath
      obtain rfl := Scalar.same_str_left.mp hkey
      exact Or.inr (Or.inr (Or.inr ⟨rfl, hnone, v, w', hv, hw, hbefore, hafter⟩))
    · cases hpath

theorem explained (h : Rewritten source targets base path before after) {tupled : Bool} {ref : String}
    (hfree : FreeRef after tupled ref) : Explained path before after tupled ref := by
  induction h generalizing tupled ref with
  | scalar s =>
    cases hfree with
    | here h => cases h
    | entry _ h _ => cases h
  | tuple items =>
    cases hfree with
    | here h => cases h
    | entry _ h _ => cases h
    | part _ _ => exact Or.inr (Or.inl rfl)
  | @list base path xs ys hlen _ ih =>
    cases hfree with
    | here h => cases h
    | entry _ h _ => cases h
    | @item _ y _ _ hy hfree =>
      obtain ⟨i, x, hx, hy', -⟩ := exists_counterpart hlen hy
      rcases ih i x y hx hy' hfree with hlocal | htupled | ⟨hpath, _⟩ | ⟨hpath, _⟩
      · exact Or.inl hlocal
      · exact Or.inr (Or.inl htupled)
      · cases hpath
      · cases hpath
  | @map base path es fs href hkeys hentries ih =>
    refine @explained_map source targets base path es fs href ?_ tupled ref hfree
    exact Entries.find?_aligned hkeys fun i e f he hf =>
      ⟨hentries i e f he hf, fun tupled ref => ih i e f he hf⟩
  | home => exact Or.inl (FreeRef.eq_of_redirect hfree ▸ ⟨_, String.toList_append⟩)
  | pathItem _ _ _ hitem _ _ ih =>
    rcases ih hfree with hlocal | htupled | ⟨rfl, _⟩ | ⟨rfl, _⟩
    · exact Or.inl hlocal
    · exact Or.inr (Or.inl htupled)
    · cases hitem
    · cases hitem
  | component => exact Or.inl (FreeRef.eq_of_redirect hfree ▸ Place.isLocal_ref _)

/-! ## Keys -/

theorem under? (h : Rewritten source targets base path before after) (hpath : isPathItem path = false)
    (k : Scalar) : (before.under? k = none ∧ after.under? k = none) ∨
      ∃ key v w, key.same k = true ∧ before.under? k = some v ∧ after.under? k = some w ∧
        (Rewritten source targets base (key :: path) v w ∨ v = w ∨ ∃ a b, v = .str a ∧ w = .str b) := by
  have hredirect : ∀ (es : Fields) (ref new : String), (Data.map es).refText? = some ref →
      ((Data.map es).under? k = none ∧ (redirect es new).under? k = none) ∨
        ∃ key v w, key.same k = true ∧ (Data.map es).under? k = some v ∧ (redirect es new).under? k = some w ∧
          (Rewritten source targets base (key :: path) v w ∨ v = w ∨ ∃ a b, v = .str a ∧ w = .str b) := by
    intro es ref new href
    rw [under?_redirect]
    by_cases hk : k = .str "$ref"
    · subst hk
      exact Or.inr ⟨_, _, _, Scalar.same_refl _, refText?_eq_some_iff.mp href, if_pos rfl,
        Or.inr (Or.inr ⟨ref, new, rfl, rfl⟩)⟩
    · rw [if_neg hk]
      cases hv : (Data.map es).under? k with
      | none => exact Or.inl ⟨rfl, rfl⟩
      | some v => exact Or.inr ⟨k, v, v, Scalar.same_refl k, rfl, rfl, Or.inr (Or.inl rfl)⟩
  cases h with
  | scalar | tuple | list => exact Or.inl ⟨rfl, rfl⟩
  | map _ hkeys hentries =>
    rcases @Entries.find?_aligned _ _ Scalar.same _ _
      (fun key v w => Rewritten source targets base (key :: path) v w) hkeys hentries k with
      hnone | ⟨key, v, w, hkey, hv, hw, hvw⟩
    · exact Or.inl hnone
    · exact Or.inr ⟨key, v, w, hkey, hv, hw, Or.inl hvw⟩
  | home href _ _ => exact hredirect _ _ _ href
  | pathItem _ _ _ hitem _ _ => exact absurd hitem (by simp [hpath])
  | component href _ _ _ _ => exact hredirect _ _ _ href

theorem not_isPathItem (h : path.getLast? = some (.str "components")) : isPathItem path = false := by
  unfold isPathItem
  split
  · simp at h
  · rfl

/-- Below `components` a walk keeps all keys. -/
theorem at?_eq_none_iff (h : Rewritten source targets base path before after)
    (hpath : path.getLast? = some (.str "components")) (keys : List Scalar) :
    before.at? keys = none ↔ after.at? keys = none := by
  induction keys generalizing path before after with
  | nil => simp
  | cons k keys ih =>
    rw [at?_cons, at?_cons]
    rcases h.under? (not_isPathItem hpath) k with ⟨hv, hw⟩ | ⟨key, v, w, _, hv, hw, hvw⟩
    · rw [hv, hw]
    rw [hv, hw]
    rcases hvw with hvw | rfl | ⟨a, b, rfl, rfl⟩
    · exact ih hvw (by rw [List.getLast?_cons, hpath]; rfl)
    · exact Iff.rfl
    · exact at?_str_eq_none_iff a b keys

theorem at?_components_eq_none_iff (h : Rewritten source targets base [] before after)
    (keys : List Scalar) :
    before.at? (.str "components" :: keys) = none ↔ after.at? (.str "components" :: keys) = none := by
  rw [at?_cons, at?_cons]
  rcases h.under? rfl (.str "components") with ⟨hv, hw⟩ | ⟨key, v, w, hkey, hv, hw, hvw⟩
  · rw [hv, hw]
  obtain rfl := Scalar.same_str_right.mp hkey
  rw [hv, hw]
  rcases hvw with hvw | rfl | ⟨a, b, rfl, rfl⟩
  · exact hvw.at?_eq_none_iff rfl keys
  · exact Iff.rfl
  · exact at?_str_eq_none_iff a b keys

end Rewritten

end Bundle
end ClientBindings
