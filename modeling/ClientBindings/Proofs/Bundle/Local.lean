import ClientBindings.Proofs.Bundle.Walk

/-! Walks of documents whose references are local. Such a walk reads nothing and leaves everything as it is; any
other walk that starts from fresh tables reads a document or spells a reference anew. -/

namespace ClientBindings

namespace Data

/-- A reference that a walk comes by: it stands in no tuple and beneath no other reference. -/
inductive Met : Data → String → Prop
  | here {d : Data} {ref : String} : d.refText? = some ref → Met d ref
  | item {items : List Data} {x : Data} {ref : String} : x ∈ items → Met x ref → Met (.list items) ref
  | entry {es : Fields} {key : Scalar} {v : Data} {ref : String} :
      (Data.map es).refText? = none → (key, v) ∈ es → Met v ref → Met (.map es) ref

def AllLocal (d : Data) : Prop := ∀ ref, Met d ref → Reference.IsLocal ref

section
variable {es : Fields} {items : List Data} {ref : String}

theorem not_met_scalar {s : Scalar} : ¬ Met (.scalar s) ref := by
  rintro ⟨h⟩
  cases h

theorem not_met_tuple : ¬ Met (.tuple items) ref := by
  rintro ⟨h⟩
  cases h

theorem allLocal_list_iff : AllLocal (.list items) ↔ ∀ x ∈ items, AllLocal x := by
  constructor
  · exact fun h x hx ref hmet => h ref (.item hx hmet)
  · intro h ref hmet
    cases hmet with
    | here href => cases href
    | item hx hmet => exact h _ hx ref hmet

theorem allLocal_map_iff (hnone : (Data.map es).refText? = none) :
    AllLocal (.map es) ↔ ∀ e ∈ es, AllLocal e.2 := by
  constructor
  · exact fun h e he ref hmet => h ref (.entry hnone he hmet)
  · intro h ref hmet
    cases hmet with
    | here href => exact absurd (hnone.symm.trans href) nofun
    | entry _ hmem hmet => exact h _ hmem ref hmet

theorem allLocal_iff_of_refText? (href : (Data.map es).refText? = some ref) :
    AllLocal (.map es) ↔ Reference.IsLocal ref := by
  constructor
  · exact fun h => h ref (.here href)
  · intro h other hmet
    cases hmet with
    | here hother =>
      obtain rfl := Option.some.inj (href.symm.trans hother)
      exact h
    | entry hnone => exact absurd (hnone.symm.trans href) nofun

end
end Data

namespace Bundle
open Data

section
variable {source : Source} {base ref : String} {es : Fields} {s t : State} {out : Data}

theorem redirect_self (href : (Data.map es).refText? = some ref) : redirect es ref = .map es :=
  congrArg Data.map (Entries.put_of_find? (refText?_eq_some_iff.mp href))

/-- A local reference is read as a place in the document it stands in, and written as it was. -/
theorem exists_targetOf (h : Reference.IsLocal ref) :
    ∃ pointer, targetOf source base ref = .ok ⟨base, pointer⟩ ∧ "#" ++ pointer = ref := by
  obtain ⟨cs, hcs⟩ := h
  refine ⟨String.ofList cs, ?_, ?_⟩
  · have hsplit : splitRef ref = ("", String.ofList cs) := by
      rw [splitRef, hcs]
      rfl
    rw [targetOf, hsplit]
    rfl
  · rw [← String.ofList_toList (s := ref), hcs, ← String.toList_inj]
    simp

theorem isLocal_hash (pointer : String) : Reference.IsLocal ("#" ++ pointer) := ⟨_, String.toList_append⟩

/-! ## Walking where every reference is local -/

theorem runs_makeLocal_of_isLocal {walk : String → Path → Data → M Data} (path : Path)
    (href : (Data.map es).refText? = some ref) (h : Reference.IsLocal ref) (s : State) :
    Runs (makeLocal source walk source.root es ref path) s (.map es) s := by
  obtain ⟨pointer, htarget, hpointer⟩ := exists_targetOf h
  refine Runs.bind_iff.mpr ⟨⟨source.root, pointer⟩, s, Runs.lift_iff.mpr ⟨htarget, rfl⟩, ?_⟩
  rw [beq_self_eq_true, if_pos rfl, hpointer, redirect_self href]
  exact Runs.pure_iff.mpr ⟨rfl, rfl⟩

mutual

theorem runs_walkWith_of_allLocal {follow : Fields → String → Path → M Data}
    (hfollow : ∀ es ref path s, (Data.map es).refText? = some ref → Reference.IsLocal ref →
      Runs (follow es ref path) s (.map es) s) :
    ∀ (node : Data) (path : Path) (s : State), AllLocal node → Runs (walkWith follow path node) s node s
  | .scalar _, _, _, _ => Runs.pure_iff.mpr ⟨rfl, rfl⟩
  | .tuple _, _, _, _ => Runs.pure_iff.mpr ⟨rfl, rfl⟩
  | .list items, path, s, h => by
    have hitems := runs_walkItems_of_allLocal hfollow items path 0 s (allLocal_list_iff.mp h)
    rw [walkWith]
    exact Runs.bind_iff.mpr ⟨_, _, hitems, Runs.pure_iff.mpr ⟨rfl, rfl⟩⟩
  | .map entries, path, s, h => by
    rw [walkWith]
    split
    · rename_i ref hfind
      have href : (Data.map entries).refText? = some ref := refText?_eq_some_iff.mpr hfind
      exact hfollow entries ref path s href ((allLocal_iff_of_refText? href).mp h)
    · rename_i hfind
      have hnone : (Data.map entries).refText? = none :=
        Option.eq_none_iff_forall_ne_some.mpr fun ref href => hfind ref (refText?_eq_some_iff.mp href)
      have hentries := runs_walkEntries_of_allLocal hfollow entries path s ((allLocal_map_iff hnone).mp h)
      exact Runs.bind_iff.mpr ⟨_, _, hentries, Runs.pure_iff.mpr ⟨rfl, rfl⟩⟩

theorem runs_walkItems_of_allLocal {follow : Fields → String → Path → M Data}
    (hfollow : ∀ es ref path s, (Data.map es).refText? = some ref → Reference.IsLocal ref →
      Runs (follow es ref path) s (.map es) s) :
    ∀ (items : List Data) (path : Path) (index : Nat) (s : State), (∀ x ∈ items, AllLocal x) →
      Runs (walkItems follow path index items) s items s
  | [], _, _, _, _ => Runs.pure_iff.mpr ⟨rfl, rfl⟩
  | x :: items, path, index, s, h => by
    obtain ⟨hx, hitems⟩ := List.forall_mem_cons.mp h
    refine Runs.bind_iff.mpr ⟨_, _, runs_walkWith_of_allLocal hfollow x _ s hx, ?_⟩
    refine Runs.bind_iff.mpr ⟨_, _, runs_walkItems_of_allLocal hfollow items path _ s hitems, ?_⟩
    exact Runs.pure_iff.mpr ⟨rfl, rfl⟩

theorem runs_walkEntries_of_allLocal {follow : Fields → String → Path → M Data}
    (hfollow : ∀ es ref path s, (Data.map es).refText? = some ref → Reference.IsLocal ref →
      Runs (follow es ref path) s (.map es) s) :
    ∀ (entries : Fields) (path : Path) (s : State), (∀ e ∈ entries, AllLocal e.2) →
      Runs (walkEntries follow path entries) s entries s
  | [], _, _, _ => Runs.pure_iff.mpr ⟨rfl, rfl⟩
  | (key, v) :: entries, path, s, h => by
    obtain ⟨hv, hentries⟩ := List.forall_mem_cons.mp h
    refine Runs.bind_iff.mpr ⟨_, _, runs_walkWith_of_allLocal hfollow v _ s hv, ?_⟩
    refine Runs.bind_iff.mpr ⟨_, _, runs_walkEntries_of_allLocal hfollow entries path s hentries, ?_⟩
    exact Runs.pure_iff.mpr ⟨rfl, rfl⟩

end

theorem runs_walkAt_of_allLocal {node : Data} (h : AllLocal node) (depth : Nat) (path : Path) (s : State) :
    Runs (walkAt source (depth + 1) source.root path node) s node s :=
  runs_walkWith_of_allLocal (fun _ _ path s href hlocal => runs_makeLocal_of_isLocal path href hlocal s) node path s h

/-! ## Walks that read nothing -/

/-- Nothing has been read and no target has a place. -/
def Fresh (s : State) : Prop := s.documents = [] ∧ s.targets = []

/-- Between two states something was read, if it was from fresh tables on and not without effect and with `P`. -/
def Reads (s t : State) (P : Prop) : Prop :=
  s.reads.length ≤ t.reads.length ∧ (Fresh s → s.reads.length < t.reads.length ∨ t = s ∧ P)

theorem Reads.still (s : State) {P : Prop} (hP : P) : Reads s s P := ⟨Nat.le_refl _, fun _ => Or.inr ⟨rfl, hP⟩⟩

theorem Reads.of_documents {P : Prop} (hle : s.reads.length ≤ t.reads.length)
    (hlt : s.documents = [] → s.reads.length < t.reads.length) : Reads s t P :=
  ⟨hle, fun hfresh => Or.inl (hlt hfresh.1)⟩

theorem Reads.then {u : State} {P Q : Prop} (h : Reads s u P) (h' : Reads u t Q) : Reads s t (P ∧ Q) := by
  refine ⟨Nat.le_trans h.1 h'.1, fun hfresh => ?_⟩
  rcases h.2 hfresh with hlt | ⟨rfl, hP⟩
  · exact Or.inl (Nat.lt_of_lt_of_le hlt h'.1)
  · exact (h'.2 hfresh).imp_right fun ⟨heq, hQ⟩ => ⟨heq, hP, hQ⟩

theorem Reads.imp {P Q : Prop} (h : Reads s t P) (hPQ : P → Q) : Reads s t Q :=
  ⟨h.1, fun hfresh => (h.2 hfresh).imp_right fun ⟨heq, hP⟩ => ⟨heq, hPQ hP⟩⟩

theorem reads_fetch {location : String} {d : Data} (h : Runs (fetch source location) s d t) :
    s.reads.length ≤ t.reads.length ∧ (s.documents = [] → s.reads.length < t.reads.length) := by
  simp only [fetch, Runs.bind_iff, Runs.get_iff] at h
  obtain ⟨_, _, ⟨rfl, rfl⟩, h⟩ := h
  split at h
  · rename_i found hfound
    obtain ⟨rfl, rfl⟩ := Runs.pure_iff.mp h
    refine ⟨Nat.le_refl _, fun hempty => ?_⟩
    rw [hempty] at hfound
    cases hfound
  · simp only [Runs.bind_iff, Runs.set_iff, Runs.lift_iff, Runs.modify_iff, Runs.pure_iff] at h
    obtain ⟨_, _, rfl, _, _, ⟨-, rfl⟩, _, _, rfl, -, rfl⟩ := h
    exact ⟨Nat.le_succ _, fun _ => Nat.lt_succ_self _⟩

theorem reads_lookup {target : Target} {node : Data} (h : Runs (lookup source target ref) s node t) :
    s.reads.length ≤ t.reads.length ∧ (s.documents = [] → s.reads.length < t.reads.length) := by
  simp only [lookup, Runs.bind_iff, Runs.lift_iff] at h
  obtain ⟨_, u, hfetch, found, _, ⟨-, rfl⟩, h⟩ := h
  cases found with
  | none => exact absurd h Runs.throw_iff
  | some d =>
    obtain ⟨-, rfl⟩ := Runs.pure_iff.mp h
    exact reads_fetch hfetch

section
variable {walk : String → Path → Data → M Data} {path : Path}

theorem reads_copy {target : Target} {place : Place}
    (hwalk : ∀ base path node s out t, Runs (walk base path node) s out t → s.reads.length ≤ t.reads.length)
    (h : Runs (copy source walk target ref path) s place t) : Reads s t False := by
  -- The target has its place before it is looked up, so the tables are not fresh any more; nothing is read yet.
  simp only [copy, keep, Runs.bind_iff, runs_claim_iff, Runs.modify_iff, Runs.pure_iff] at h
  obtain ⟨_, _, ⟨-, rfl⟩, _, _, rfl, _, u, hlookup, _, v, hcontent, _, _, rfl, -, rfl⟩ := h
  obtain ⟨hle, hlt⟩ := reads_lookup hlookup
  have hrest := hwalk _ _ _ _ _ _ hcontent
  exact .of_documents (Nat.le_trans hle hrest) fun hempty => Nat.lt_of_lt_of_le (hlt hempty) hrest

/-- A reference is local, or it is spelled anew, or something is read. -/
theorem reads_makeLocal
    (hwalk : ∀ base path node s out t, Runs (walk base path node) s out t → s.reads.length ≤ t.reads.length)
    (href : (Data.map es).refText? = some ref) (h : Runs (makeLocal source walk base es ref path) s out t) :
    Reads s t (out = .map es → AllLocal (.map es)) := by
  simp only [makeLocal, Runs.bind_iff, Runs.lift_iff] at h
  obtain ⟨target, s, ⟨htarget, rfl⟩, h⟩ := h
  split at h
  · obtain ⟨rfl, rfl⟩ := Runs.pure_iff.mp h
    refine .still _ fun heq => (allLocal_iff_of_refText? href).mpr ?_
    have hafter := refText?_redirect es ("#" ++ target.pointer)
    rw [heq] at hafter
    rw [Option.some.inj (href.symm.trans hafter)]
    exact isLocal_hash _
  split at h
  · simp only [Runs.bind_iff] at h
    obtain ⟨node, u, hlookup, hwalked⟩ := h
    obtain ⟨hle, hlt⟩ := reads_lookup hlookup
    have hrest := hwalk _ _ _ _ _ _ hwalked
    exact .of_documents (Nat.le_trans hle hrest) fun hempty => Nat.lt_of_lt_of_le (hlt hempty) hrest
  simp only [Runs.bind_iff, Runs.get_iff] at h
  obtain ⟨_, s, ⟨rfl, rfl⟩, h⟩ := h
  split at h
  · rename_i place hplace
    obtain ⟨rfl, rfl⟩ := Runs.pure_iff.mp h
    refine ⟨Nat.le_refl _, fun hfresh => ?_⟩
    rw [hfresh.2] at hplace
    cases hplace
  · simp only [Runs.bind_iff, Runs.pure_iff] at h
    obtain ⟨place, u, hcopy, rfl, rfl⟩ := h
    exact (reads_copy hwalk hcopy).imp False.elim

end

mutual

theorem reads_walkWith {follow : Fields → String → Path → M Data}
    (hfollow : ∀ es ref path s out t, (Data.map es).refText? = some ref → Runs (follow es ref path) s out t →
      Reads s t (out = .map es → AllLocal (.map es))) :
    ∀ (node : Data) (path : Path) (s : State) (out : Data) (t : State), Runs (walkWith follow path node) s out t →
      Reads s t (out = node → AllLocal node)
  | .scalar _, _, _, _, _, h => by
    obtain ⟨rfl, rfl⟩ := Runs.pure_iff.mp h
    exact .still _ fun _ _ hmet => absurd hmet not_met_scalar
  | .tuple _, _, _, _, _, h => by
    obtain ⟨rfl, rfl⟩ := Runs.pure_iff.mp h
    exact .still _ fun _ _ hmet => absurd hmet not_met_tuple
  | .list items, path, s, out, t, h => by
    simp only [walkWith, Runs.bind_iff, Runs.pure_iff] at h
    obtain ⟨ys, _, hys, rfl, rfl⟩ := h
    refine (reads_walkItems hfollow items path 0 s ys _ hys).imp fun hitems heq => ?_
    exact allLocal_list_iff.mpr (hitems (Data.list.inj heq))
  | .map entries, path, s, out, t, h => by
    simp only [walkWith] at h
    split at h
    · rename_i ref hfind
      exact hfollow entries ref path s out t (refText?_eq_some_iff.mpr hfind) h
    · rename_i hfind
      have hnone : (Data.map entries).refText? = none :=
        Option.eq_none_iff_forall_ne_some.mpr fun ref href => hfind ref (refText?_eq_some_iff.mp href)
      simp only [Runs.bind_iff, Runs.pure_iff] at h
      obtain ⟨fs, _, hfs, rfl, rfl⟩ := h
      refine (reads_walkEntries hfollow entries path s fs _ hfs).imp fun hentries heq => ?_
      exact (allLocal_map_iff hnone).mpr (hentries (Data.map.inj heq))

theorem reads_walkItems {follow : Fields → String → Path → M Data}
    (hfollow : ∀ es ref path s out t, (Data.map es).refText? = some ref → Runs (follow es ref path) s out t →
      Reads s t (out = .map es → AllLocal (.map es))) :
    ∀ (items : List Data) (path : Path) (index : Nat) (s : State) (ys : List Data) (t : State),
      Runs (walkItems follow path index items) s ys t → Reads s t (ys = items → ∀ x ∈ items, AllLocal x)
  | [], _, _, _, _, _, h => by
    obtain ⟨rfl, rfl⟩ := Runs.pure_iff.mp h
    exact .still _ fun _ => nofun
  | x :: items, path, index, s, ys, t, h => by
    simp only [walkItems, Runs.bind_iff, Runs.pure_iff] at h
    obtain ⟨y, u, hy, zs, _, hzs, rfl, rfl⟩ := h
    have hfirst := reads_walkWith hfollow x _ s y u hy
    refine (hfirst.then (reads_walkItems hfollow items path (index + 1) u zs _ hzs)).imp ?_
    rintro ⟨hx, hitems⟩ heq
    obtain ⟨rfl, rfl⟩ := List.cons.inj heq
    exact List.forall_mem_cons.mpr ⟨hx rfl, hitems rfl⟩

theorem reads_walkEntries {follow : Fields → String → Path → M Data}
    (hfollow : ∀ es ref path s out t, (Data.map es).refText? = some ref → Runs (follow es ref path) s out t →
      Reads s t (out = .map es → AllLocal (.map es))) :
    ∀ (entries : Fields) (path : Path) (s : State) (fs : Fields) (t : State),
      Runs (walkEntries follow path entries) s fs t → Reads s t (fs = entries → ∀ e ∈ entries, AllLocal e.2)
  | [], _, _, _, _, h => by
    obtain ⟨rfl, rfl⟩ := Runs.pure_iff.mp h
    exact .still _ fun _ => nofun
  | (key, v) :: entries, path, s, fs, t, h => by
    simp only [walkEntries, Runs.bind_iff, Runs.pure_iff] at h
    obtain ⟨w, u, hw, gs, _, hgs, rfl, rfl⟩ := h
    have hfirst := reads_walkWith hfollow v _ s w u hw
    refine (hfirst.then (reads_walkEntries hfollow entries path u gs _ hgs)).imp ?_
    rintro ⟨hv, hentries⟩ heq
    obtain ⟨hentry, rfl⟩ := List.cons.inj heq
    exact List.forall_mem_cons.mpr ⟨hv (Prod.mk.inj hentry).2, hentries rfl⟩

end

theorem reads_walkAt (depth : Nat) : ∀ base path node s out t, Runs (walkAt source depth base path node) s out t →
    Reads s t (out = node → AllLocal node) := by
  induction depth with
  | zero => exact fun _ _ _ _ _ _ h => absurd h Runs.throw_iff
  | succ depth ih =>
    intro base path node s out t h
    have hfollow : ∀ es ref path s out t, (Data.map es).refText? = some ref →
        Runs (makeLocal source (walkAt source depth) base es ref path) s out t →
        Reads s t (out = .map es → AllLocal (.map es)) := fun es ref path s out t href h =>
      reads_makeLocal (fun base path node s out t h => (ih base path node s out t h).1) href h
    exact reads_walkWith hfollow node path s out t h

end

end Bundle
end ClientBindings
