import ClientBindings.Proofs.Binding.Operations
import ClientBindings.Proofs.Binding.Types

/-! What becomes of the operations of a document. Those that the tags select are met in the order of paths
and methods; each of them is bound, or reported because it has no id or because an earlier one has the same
id. A binding reports at most places of parameters that are unknown, so nothing else is reported. -/

namespace ClientBindings

/-! ## Tags -/

namespace Item
variable {item : Item} {tags : Data}

/-- Whether an operation with these tags is kept: none of them is excluded, and one of them is included
unless nothing is. -/
def Keeps (item : Item) (tags : Data) : Prop :=
  (item.without.getD [] = [] ∨
    ∃ own, (tags.orElse (.list [])).elements = .ok own ∧ ∀ name ∈ item.without.getD [], Data.str name ∉ own) ∧
  (item.only.getD [] = [] ∨
    ∃ own, (tags.orElse (.list [])).elements = .ok own ∧ ∃ name ∈ item.only.getD [], Data.str name ∈ own)

theorem same_str_iff {d : Data} {name : String} : d.same (.str name) = true ↔ d = .str name := by
  cases d with
  | scalar s => rw [Data.same, Scalar.same_str_right, Data.scalar.injEq]
  | _ => exact ⟨fun h => (nomatch h), fun h => (nomatch h)⟩

theorem carries_eq_ok_iff {among : List String} {carried : Bool} :
    carries tags among = .ok carried ↔ ∃ own, (tags.orElse (.list [])).elements = .ok own ∧
      (carried = true ↔ ∃ name ∈ among, Data.str name ∈ own) := by
  have hany : ∀ own : List Data, (own.any fun t => among.any fun name => t.same (.str name)) = true ↔
      ∃ name ∈ among, Data.str name ∈ own := by
    intro own
    simp only [List.any_eq_true, same_str_iff]
    constructor
    · rintro ⟨_, ht, name, hname, rfl⟩
      exact ⟨name, hname, ht⟩
    · rintro ⟨name, hname, ht⟩
      exact ⟨_, ht, name, hname, rfl⟩
  rw [carries, Result.bind_eq_ok_iff]
  refine exists_congr fun own => and_congr_right fun _ => ?_
  rw [Result.pure_eq_ok_iff, Bool.eq_iff_iff, hany own]
  exact Iff.comm

theorem carries_eq_false_iff {among : List String} : carries tags among = .ok false ↔
    ∃ own, (tags.orElse (.list [])).elements = .ok own ∧ ∀ name ∈ among, Data.str name ∉ own := by
  simp [carries_eq_ok_iff]

theorem carries_eq_true_iff {among : List String} : carries tags among = .ok true ↔
    ∃ own, (tags.orElse (.list [])).elements = .ok own ∧ ∃ name ∈ among, Data.str name ∈ own := by
  simp [carries_eq_ok_iff]

theorem skips_eq_false_iff : item.skips tags = .ok false ↔ item.Keeps tags := by
  have hincluded : (if (item.only.getD []).isEmpty = true then pure false
      else (do return !(← carries tags (item.only.getD [])) : Result Bool)) = .ok false ↔
      (item.only.getD [] = [] ∨ carries tags (item.only.getD []) = .ok true) := by
    by_cases hempty : item.only.getD [] = []
    · simp [hempty]
    · rw [if_neg (by simpa using hempty), or_iff_right hempty]
      cases carries tags (item.only.getD []) with
      | error e => simp
      | ok carried => cases carried <;> simp
  rw [Keeps, ← carries_eq_true_iff, ← carries_eq_false_iff, ← hincluded, skips]
  by_cases hempty : item.without.getD [] = []
  · simp [hempty]
  · cases hcarries : carries tags (item.without.getD []) with
    | error e => simp [hempty, List.isEmpty_iff, bind, Except.bind]
    | ok carried => cases carried <;> simp [hempty, List.isEmpty_iff]

end Item

/-! ## What a binding reports -/

/-- A later state of a compilation, for which unknown places of parameters were reported at a location. -/
structure Compilation.Notes (location : String) (s t : Compilation) : Prop where
  ids : t.operationIds = s.operationIds
  diagnostics : ∃ places : List String,
    t.diagnostics = s.diagnostics ++ places.map (Diagnostic.unknownParameterLocation · location)

section
variable {document : Data} {naming : Naming} {location : String} {s t u : Compilation}

namespace Compilation.Notes

theorem refl (location : String) (s : Compilation) : Notes location s s := ⟨rfl, [], (List.append_nil _).symm⟩

theorem trans (h : Notes location s t) (h' : Notes location t u) : Notes location s u where
  ids := h'.ids.trans h.ids
  diagnostics := by
    obtain ⟨places, hplaces⟩ := h.diagnostics
    obtain ⟨places', hplaces'⟩ := h'.diagnostics
    exact ⟨places ++ places', by rw [hplaces', hplaces, List.map_append, List.append_assoc]⟩

theorem of_synthesize {α : Type} {m : Schema.M α} {a : α} (h : Runs (Compilation.synthesize m) s a t) :
    Notes location s t := by
  obtain ⟨_, _, rfl⟩ := Compilation.runs_synthesize_iff.mp h
  exact ⟨rfl, [], (List.append_nil _).symm⟩

end Compilation.Notes

open Compilation (Notes)

namespace Parameters

theorem notes_memberOf {key : GroupKey} {parameters : List Data} {p : Data} {m : Member}
    (h : Runs (memberOf document key parameters p) s m t) : Notes location s t := by
  simp only [memberOf, typeOf, Runs.bind_iff, Runs.lift_iff, Runs.pure_iff] at h
  obtain ⟨_, _, ⟨_, rfl⟩, _, _, ⟨_, rfl⟩, type, _, ⟨content, _, ⟨_, rfl⟩, htype⟩, rfl, rfl⟩ := h
  split at htype
  all_goals
    simp only [Runs.bind_iff, Runs.lift_iff] at htype
    obtain ⟨_, _, ⟨_, rfl⟩, htype⟩ := htype
    exact .of_synthesize htype

theorem notes_groupOne {g g' : Grouping} {placed : Scalar × List Data}
    (h : Runs (groupOne document naming location g placed) s g' t) : Notes location s t := by
  unfold groupOne at h
  split at h
  · simp only [Runs.bind_iff, Runs.pure_iff] at h
    obtain ⟨members, _, hmembers, rfl, rfl⟩ := h
    exact Runs.mapM_keeps (Notes location s) (fun _ _ _ _ _ hu hm => hu.trans (notes_memberOf hm)) (.refl _ _) hmembers
  · split at h
    · obtain ⟨rfl, rfl⟩ := Runs.pure_iff.mp h
      exact .refl _ _
    · simp only [Runs.bind_iff, Runs.lift_iff, Runs.pure_iff, Compilation.runs_warn_iff] at h
      obtain ⟨place, _, ⟨_, rfl⟩, _, _, rfl, rfl, rfl⟩ := h
      exact ⟨rfl, [place], rfl⟩

theorem notes_group {parameters : List Data} {g g' : Grouping}
    (h : Runs (group document naming location parameters g) s g' t) : Notes location s t := by
  simp only [group, Runs.bind_iff, Runs.lift_iff] at h
  obtain ⟨placed, _, ⟨_, rfl⟩, h⟩ := h
  exact Runs.foldlM_keeps (Notes location _) (fun _ _ _ _ _ _ hu hstep => hu.trans (notes_groupOne hstep)) (.refl _ _) h

theorem notes_classify {operation pathItem : Data} {ps : Parameters}
    (h : Runs (classify document naming location operation pathItem) s ps t) : Notes location s t := by
  simp only [classify, Runs.bind_iff, Runs.lift_iff] at h
  obtain ⟨_, _, ⟨_, rfl⟩, _, _, ⟨_, rfl⟩, _, _, ⟨_, rfl⟩, body, _, ⟨_, rfl⟩, _, s, ⟨_, rfl⟩, located, u, hgroup,
    h⟩ := h
  split at h
  · simp only [Runs.bind_iff, Runs.pure_iff] at h
    obtain ⟨_, _, ⟨rfl, rfl⟩, rfl, rfl⟩ := h
    exact notes_group hgroup
  · simp only [Runs.bind_iff, Runs.map_iff, Runs.pure_iff, bodyGroup, Runs.lift_iff] at h
    obtain ⟨_, _, ⟨g, ⟨_, _, ⟨_, rfl⟩, _, _, ⟨_, rfl⟩, _, _, ⟨_, rfl⟩, type, _, htype, rfl, rfl⟩, rfl⟩, rfl, rfl⟩ := h
    exact (notes_group hgroup).trans (.of_synthesize htype)

end Parameters

namespace OperationBinding

theorem notes_pathSpans {ps : Parameters} {found : List (String × String)} {placed : Parameters × List UrlSpan}
    (h : Runs (pathSpans document naming location ps found) s placed t) : Notes location s t := by
  refine Runs.foldlM_keeps (Notes location s) (fun x _ acc u acc' v hu hstep => hu.trans ?_) (.refl _ _) h
  simp only [Runs.bind_iff, Runs.pure_iff] at hstep
  obtain ⟨ps', _, hadd, rfl, rfl⟩ := hstep
  unfold addPlaceholder at hadd
  split at hadd
  · obtain ⟨rfl, rfl⟩ := Runs.pure_iff.mp hadd
    exact .refl _ _
  · simp only [Parameters.addPath, Runs.bind_iff, Runs.pure_iff] at hadd
    obtain ⟨grouping, _, hgroup, rfl, rfl⟩ := hadd
    exact Parameters.notes_group hgroup

/-- A binding keeps the id it is made for, claims none, and reports at its own location only. -/
theorem bind_notes {security : List SecurityBinding} {site : Site} {operation pathItem : Data} {b : OperationBinding}
    (h : Runs (bind document naming security site operation pathItem) s b t) :
    b.id = site.id ∧ Notes site.location s t := by
  simp only [bind, Runs.bind_iff, Runs.lift_iff, Runs.pure_iff] at h
  obtain ⟨declared, u, hclassify, _, _, ⟨_, rfl⟩, _, _, ⟨_, rfl⟩, ps, v, hspans, _, _, ⟨_, rfl⟩, _, _, ⟨_, rfl⟩,
    _, _, ⟨_, rfl⟩, response, w, hresponse, _, _, ⟨_, rfl⟩, _, _, ⟨_, rfl⟩, _, _, ⟨_, rfl⟩, _, _, ⟨_, rfl⟩,
    rfl, rfl⟩ := h
  exact ⟨rfl, ((Parameters.notes_classify hclassify).trans (notes_pathSpans hspans)).trans (.of_synthesize hresponse)⟩

end OperationBinding

end

/-! ## Selected operations -/

namespace Paths

/-- An operation of a document and where it stands: the row of its path among the paths and the column of
its method among the methods. -/
structure Slot where
  row : Nat
  column : Nat
  path : Scalar
  method : String
  pathItem : Data
  operation : Data

namespace Slot

def location (slot : Slot) : String := slot.path.text ++ "." ++ slot.method

/-- What may be an id; null says that there is none. -/
def idOf? : Data → Option Scalar
  | .null => none
  | .scalar id => some id
  | _ => none

/-- The id that an operation gives itself. -/
def id? (slot : Slot) : Option Scalar := idOf? (slot.operation.said "operationId")

def HasId (slot : Slot) (id : Scalar) : Prop := ∃ own, slot.id? = some own ∧ own.same id = true

/-- The order of paths, and of the methods of one path. -/
def Before (a b : Slot) : Prop := a.row < b.row ∨ a.row = b.row ∧ a.column < b.column

end Slot

/-- Whether an operation counts: a path item holds it under one of the methods, be it by reference, and the
choice of tags keeps it. -/
structure Selected (document : Data) (item : Option Item) (slot : Slot) : Prop where
  listed : ∃ paths entries node, document.get "paths" = .ok paths ∧ (paths.orElse (.map [])).entries = .ok entries ∧
    entries[slot.row]? = some (slot.path, node) ∧ node.isNull = false ∧
    Reference.resolve document node = .ok slot.pathItem
  method : methods[slot.column]? = some slot.method
  operation : slot.pathItem.get slot.method = .ok slot.operation
  present : slot.operation.isNull = false
  kept : ∃ tags, slot.operation.get "tags" = .ok tags ∧ ∀ choice, item = some choice → choice.Keeps tags

section
variable (document : Data) (item : Option Item)

/-- The slot of one method of a path item, if its operation is selected. -/
def slotOf? (row : Nat) (path : Scalar) (pathItem : Data) (place : String × Nat) : Option Slot :=
  match pathItem.get place.1 with
  | .ok operation =>
    if operation.isNull then none else
    match isSkipped item operation with
    | .ok false => some ⟨row, place.2, path, place.1, pathItem, operation⟩
    | _ => none
  | .error _ => none

def slotsOfPath (place : (Scalar × Data) × Nat) : List Slot :=
  if place.1.2.isNull then [] else
  match Reference.resolve document place.1.2 with
  | .ok pathItem => methods.zipIdx.filterMap (slotOf? item place.2 place.1.1 pathItem)
  | .error _ => []

def slots (entries : Data.Fields) : List Slot := entries.zipIdx.flatMap (slotsOfPath document item)

end

section
variable {document : Data} {item : Option Item}

theorem isSkipped_eq_false_iff {operation : Data} : isSkipped item operation = .ok false ↔
    ∃ tags, operation.get "tags" = .ok tags ∧ ∀ choice, item = some choice → choice.Keeps tags := by
  rw [isSkipped, Result.bind_eq_ok_iff]
  refine exists_congr fun tags => and_congr_right fun _ => ?_
  cases item with
  | none => simp
  | some choice => simp [Item.skips_eq_false_iff]

theorem slotOf?_eq_some_iff {row : Nat} {path : Scalar} {pathItem : Data} {place : String × Nat} {slot : Slot} :
    slotOf? item row path pathItem place = some slot ↔
      slot.row = row ∧ slot.column = place.2 ∧ slot.path = path ∧ slot.method = place.1 ∧ slot.pathItem = pathItem ∧
      slot.pathItem.get slot.method = .ok slot.operation ∧ slot.operation.isNull = false ∧
      isSkipped item slot.operation = .ok false := by
  constructor
  · intro h
    unfold slotOf? at h
    split at h
    case h_2 => cases h
    case h_1 operation hget =>
    split at h
    case isTrue => cases h
    case isFalse hnull =>
    split at h
    case h_2 => cases h
    case h_1 hskip =>
    cases h
    exact ⟨rfl, rfl, rfl, rfl, rfl, hget, Bool.eq_false_iff.mpr hnull, hskip⟩
  · rintro ⟨rfl, hcolumn, rfl, hmethod, rfl, hget, hnull, hskip⟩
    unfold slotOf?
    rw [← hmethod, hget]
    simp only [hnull, hskip, ← hcolumn]
    rfl

theorem mem_slots_iff {paths : Data} {entries : Data.Fields} (hpaths : document.get "paths" = .ok paths)
    (hentries : (paths.orElse (.map [])).entries = .ok entries) {slot : Slot} :
    slot ∈ slots document item entries ↔ Selected document item slot := by
  constructor
  · intro h
    obtain ⟨⟨⟨path, node⟩, row⟩, hplace, hslot⟩ := List.mem_flatMap.mp h
    unfold slotsOfPath at hslot
    split at hslot
    case isTrue => exact absurd hslot List.not_mem_nil
    case isFalse hnull =>
    split at hslot
    case h_2 => exact absurd hslot List.not_mem_nil
    case h_1 pathItem hresolve =>
    obtain ⟨⟨method, column⟩, hmethod, hsome⟩ := List.mem_filterMap.mp hslot
    obtain ⟨rfl, rfl, rfl, rfl, rfl, hget, hpresent, hskip⟩ := slotOf?_eq_some_iff.mp hsome
    exact ⟨⟨paths, entries, node, hpaths, hentries, List.mem_zipIdx_iff_getElem?.mp hplace, Bool.eq_false_iff.mpr hnull,
      hresolve⟩, List.mem_zipIdx_iff_getElem?.mp hmethod, hget, hpresent, isSkipped_eq_false_iff.mp hskip⟩
  · intro h
    obtain ⟨paths', entries', node, hpaths', hentries', hplace, hnull, hresolve⟩ := h.listed
    obtain rfl : paths' = paths := Except.ok.inj (hpaths'.symm.trans hpaths)
    obtain rfl : entries' = entries := Except.ok.inj (hentries'.symm.trans hentries)
    refine List.mem_flatMap.mpr ⟨((slot.path, node), slot.row), List.mem_zipIdx_iff_getElem?.mpr hplace, ?_⟩
    unfold slotsOfPath
    rw [if_neg (by simp [hnull]), hresolve]
    refine List.mem_filterMap.mpr ⟨(slot.method, slot.column), List.mem_zipIdx_iff_getElem?.mpr h.method, ?_⟩
    exact slotOf?_eq_some_iff.mpr ⟨rfl, rfl, rfl, rfl, rfl, h.operation, h.present, isSkipped_eq_false_iff.mpr h.kept⟩

theorem pairwise_zipIdx {α : Type} (xs : List α) (k : Nat) : (xs.zipIdx k).Pairwise fun a b => a.2 < b.2 := by
  induction xs generalizing k with
  | nil => exact List.Pairwise.nil
  | cons x xs ih =>
    rw [List.zipIdx_cons]
    refine List.pairwise_cons.mpr ⟨fun b hb => ?_, ih (k + 1)⟩
    exact List.le_snd_of_mem_zipIdx hb

theorem slots_ordered (entries : Data.Fields) : (slots document item entries).Pairwise Slot.Before := by
  have hrow : ∀ place slot, slot ∈ slotsOfPath document item place → slot.row = place.2 := by
    intro place slot hslot
    unfold slotsOfPath at hslot
    split at hslot
    · exact absurd hslot List.not_mem_nil
    split at hslot
    · obtain ⟨_, _, hsome⟩ := List.mem_filterMap.mp hslot
      exact (slotOf?_eq_some_iff.mp hsome).1
    · exact absurd hslot List.not_mem_nil
  refine List.pairwise_flatMap.mpr ⟨?_, ?_⟩
  · intro place _
    unfold slotsOfPath
    split
    · exact List.Pairwise.nil
    split
    · refine List.pairwise_filterMap.mpr ((pairwise_zipIdx methods 0).imp ?_)
      intro a b hab slot hslot slot' hslot'
      obtain ⟨hrow, hcolumn, _⟩ := slotOf?_eq_some_iff.mp hslot
      obtain ⟨hrow', hcolumn', _⟩ := slotOf?_eq_some_iff.mp hslot'
      exact Or.inr ⟨hrow.trans hrow'.symm, by rw [hcolumn, hcolumn']; exact hab⟩
    · exact List.Pairwise.nil
  · refine (pairwise_zipIdx entries 0).imp ?_
    intro a b hab slot hslot slot' hslot'
    exact Or.inl (by rw [hrow a slot hslot, hrow b slot' hslot']; exact hab)

end

/-! ## What becomes of them -/

/-- What becomes of operations that are met behind some others: the bindings that they yield and what is
reported, in their order. Each one falls under one of the rules. -/
inductive Accounted (document : Data) (naming : Naming) (security : List SecurityBinding) :
    List Slot → List Slot → List OperationBinding → List Diagnostic → Prop where
  | nil (earlier : List Slot) : Accounted document naming security earlier [] [] []
  /-- An operation without an id is reported. -/
  | missing {earlier rest : List Slot} {slot : Slot} {bs : List OperationBinding} {ds : List Diagnostic} :
      slot.id? = none → Accounted document naming security (earlier ++ [slot]) rest bs ds →
      Accounted document naming security earlier (slot :: rest) bs (.missingOperationId slot.location :: ds)
  /-- An operation with the id of an earlier one is reported. -/
  | duplicate {earlier rest : List Slot} {slot : Slot} {id : Scalar} {bs : List OperationBinding}
      {ds : List Diagnostic} : slot.id? = some id → (∃ other ∈ earlier, other.HasId id) →
      Accounted document naming security (earlier ++ [slot]) rest bs ds →
      Accounted document naming security earlier (slot :: rest) bs (.duplicateOperationId id.text slot.location :: ds)
  /-- Any other operation is bound. -/
  | bound {earlier rest : List Slot} {slot : Slot} {id : Scalar} {b : OperationBinding}
      {bs : List OperationBinding} {ds : List Diagnostic} {places : List String} {u v : Compilation} :
      slot.id? = some id → (∀ other ∈ earlier, ¬ other.HasId id) →
      Runs (OperationBinding.bind document naming security ⟨id, slot.path, slot.method⟩ slot.operation slot.pathItem)
        u b v →
      Accounted document naming security (earlier ++ [slot]) rest bs ds →
      Accounted document naming security earlier (slot :: rest) (b :: bs)
        (places.map (Diagnostic.unknownParameterLocation · slot.location) ++ ds)

namespace Accounted
variable {document : Data} {naming : Naming} {security : List SecurityBinding} {earlier xs ys : List Slot}
  {bs cs : List OperationBinding} {ds es : List Diagnostic}

theorem append (h : Accounted document naming security earlier xs bs ds)
    (h' : Accounted document naming security (earlier ++ xs) ys cs es) :
    Accounted document naming security earlier (xs ++ ys) (bs ++ cs) (ds ++ es) := by
  induction h with
  | nil earlier => simpa using h'
  | missing hid _ ih => exact .missing hid (ih (by simpa using h'))
  | duplicate hid hknown _ ih => exact .duplicate hid hknown (ih (by simpa using h'))
  | bound hid hnew hrun _ ih =>
    rw [List.append_assoc]
    exact .bound hid hnew hrun (ih (by simpa using h'))

/-- No two bindings have one id, and none has that of an operation that was met before. -/
theorem distinct (h : Accounted document naming security earlier xs bs ds) :
    (∀ b ∈ bs, ∀ other ∈ earlier, ¬ other.HasId b.id) ∧ bs.Pairwise fun a b => ¬ a.id.same b.id = true := by
  induction h with
  | nil => exact ⟨fun b hb => absurd hb List.not_mem_nil, List.Pairwise.nil⟩
  | missing _ _ ih => exact ⟨fun b hb other hother => ih.1 b hb other (List.mem_append_left _ hother), ih.2⟩
  | duplicate _ _ _ ih => exact ⟨fun b hb other hother => ih.1 b hb other (List.mem_append_left _ hother), ih.2⟩
  | @bound earlier rest slot id b bs ds places u v hid hnew hrun _ ih =>
    obtain rfl : b.id = id := (OperationBinding.bind_notes hrun).1
    refine ⟨?_, List.pairwise_cons.mpr ⟨fun c hc hsame => ?_, ih.2⟩⟩
    · intro c hc other hother
      rcases List.mem_cons.mp hc with rfl | hc
      · exact hnew other hother
      · exact ih.1 c hc other (List.mem_append_left _ hother)
    · exact ih.1 c hc slot (List.mem_append_right _ List.mem_cons_self) ⟨b.id, hid, hsame⟩

end Accounted

section
variable {document : Data} {naming : Naming} {item : Option Item} {security : List SecurityBinding}
  {earlier xs ys : List Slot} {bs cs : List OperationBinding} {s t u : Compilation}

/-- The table of ids holds those of the operations that have been met. -/
def Knows (earlier : List Slot) (s : Compilation) : Prop :=
  ∀ id, Entries.contains Scalar.same s.operationIds id = true ↔ ∃ other ∈ earlier, other.HasId id

/-- A run that accounts for some operations. -/
def Settles (document : Data) (naming : Naming) (security : List SecurityBinding) (earlier xs : List Slot)
    (s : Compilation) (bs : List OperationBinding) (t : Compilation) : Prop :=
  Knows (earlier ++ xs) t ∧
    ∃ ds, t.diagnostics = s.diagnostics ++ ds ∧ Accounted document naming security earlier xs bs ds

theorem Settles.append (h : Settles document naming security earlier xs s bs t)
    (h' : Settles document naming security (earlier ++ xs) ys t cs u) :
    Settles document naming security earlier (xs ++ ys) s (bs ++ cs) u := by
  obtain ⟨_, ds, hds, haccounted⟩ := h
  obtain ⟨hknows, es, hes, haccounted'⟩ := h'
  refine ⟨by rwa [← List.append_assoc], ds ++ es, ?_, haccounted.append haccounted'⟩
  rw [hes, hds, List.append_assoc]

theorem Settles.nothing (h : Knows earlier s) : Settles document naming security earlier [] s [] s :=
  ⟨by rwa [List.append_nil], [], (List.append_nil _).symm, .nil earlier⟩

/-- Rounds that account for the operations of what they are about. -/
theorem settles_mapM {γ β : Type} {f : γ → Compilation.M β} {xs : List γ} {yields : List β} {k : Nat}
    (slotsOf : γ × Nat → List Slot) (bindingsOf : β → List OperationBinding)
    (step : ∀ x k earlier s b t, Knows earlier s → Runs (f x) s b t →
      Settles document naming security earlier (slotsOf (x, k)) s (bindingsOf b) t)
    (hs : Knows earlier s) (h : Runs (xs.mapM f) s yields t) :
    Settles document naming security earlier ((xs.zipIdx k).flatMap slotsOf) s (yields.flatMap bindingsOf) t := by
  induction xs generalizing s yields k earlier with
  | nil =>
    obtain ⟨rfl, rfl⟩ := Runs.mapM_nil_iff.mp h
    exact .nothing hs
  | cons x xs ih =>
    obtain ⟨b, u, cs, hb, hcs, rfl⟩ := Runs.mapM_cons_iff.mp h
    have hround := step x k earlier s b u hs hb
    rw [List.zipIdx_cons, List.flatMap_cons, List.flatMap_cons]
    exact hround.append (ih hround.1 hcs)

theorem claimId_runs {slot : Slot} {location : String} {claimed : Option Scalar}
    (h : Runs (claimId slot.operation location) s claimed t) :
    (slot.id? = none ∧ claimed = none ∧
      t = { s with diagnostics := s.diagnostics ++ [.missingOperationId location] }) ∨
    ∃ id, slot.id? = some id ∧
      ((Entries.contains Scalar.same s.operationIds id = true ∧ claimed = none ∧
        t = { s with diagnostics := s.diagnostics ++ [.duplicateOperationId id.text location] }) ∨
      (¬ Entries.contains Scalar.same s.operationIds id = true ∧ claimed = some id ∧
        t = { s with operationIds := s.operationIds ++ [(id, location)] })) := by
  simp only [claimId, Runs.bind_iff, Runs.lift_iff] at h
  obtain ⟨given, s, ⟨hget, rfl⟩, h⟩ := h
  have hid : slot.id? = Slot.idOf? given := by rw [Slot.id?, Data.said_of_get hget]
  split at h
  case isTrue hnull =>
    simp only [Runs.bind_iff, Runs.pure_iff, Compilation.runs_warn_iff] at h
    obtain ⟨_, _, rfl, rfl, rfl⟩ := h
    refine Or.inl ⟨?_, rfl, rfl⟩
    unfold Data.isNull at hnull
    split at hnull
    · exact hid
    · cases hnull
  case isFalse hnull =>
    simp only [Runs.bind_iff, Runs.lift_iff, Runs.get_iff] at h
    obtain ⟨id, _, ⟨hkey, rfl⟩, _, _, ⟨rfl, rfl⟩, h⟩ := h
    right
    refine ⟨id, ?_, ?_⟩
    · cases given with
      | scalar own =>
        obtain rfl : own = id := Result.pure_eq_ok_iff.mp hkey
        cases own with
        | null => exact absurd rfl hnull
        | _ => exact hid
      | _ => exact absurd hkey Result.throw_ne_ok
    · split at h
      case isTrue hcontains =>
        simp only [Scalar.toText, Runs.bind_iff, Runs.guarded_iff, Runs.pure_iff, Compilation.runs_warn_iff] at h
        obtain ⟨_, _, ⟨_, rfl, rfl⟩, _, _, rfl, rfl, rfl⟩ := h
        exact Or.inl ⟨hcontains, rfl, rfl⟩
      case isFalse hcontains =>
        simp only [Runs.bind_iff, Runs.pure_iff, Runs.modify_iff] at h
        obtain ⟨_, _, rfl, rfl, rfl⟩ := h
        exact Or.inr ⟨hcontains, rfl, rfl⟩

theorem Knows.congr (h : Knows earlier s) (heq : t.operationIds = s.operationIds) : Knows earlier t := by
  unfold Knows
  rw [heq]
  exact h

/-- An operation without an id of its own adds nothing to what is known. -/
theorem Knows.append_of_subsumed {slot : Slot} (h : Knows earlier s)
    (hslot : ∀ id, slot.HasId id → ∃ other ∈ earlier, other.HasId id) : Knows (earlier ++ [slot]) s := by
  intro id
  rw [h id]
  constructor
  · rintro ⟨other, hother, hid⟩
    exact ⟨other, List.mem_append_left _ hother, hid⟩
  · rintro ⟨other, hother, hid⟩
    rcases List.mem_append.mp hother with hother | hother
    · exact ⟨other, hother, hid⟩
    · exact hslot id (List.mem_singleton.mp hother ▸ hid)

theorem Knows.append_claimed {slot : Slot} {own : Scalar} (h : Knows earlier s) (hown : slot.id? = some own)
    (ht : t.operationIds.map Prod.fst = s.operationIds.map Prod.fst ++ [own]) : Knows (earlier ++ [slot]) t := by
  intro id
  have hcontains : ∀ u : Compilation, Entries.contains Scalar.same u.operationIds id =
      (u.operationIds.map Prod.fst).any fun key => key.same id := by
    intro u
    rw [Entries.contains, List.any_map]
    rfl
  have hslot : slot.HasId id ↔ own.same id = true := by simp [Slot.HasId, hown]
  have hbefore := h id
  rw [hcontains] at hbefore
  rw [hcontains, ht, List.any_append, Bool.or_eq_true, hbefore]
  simp [or_and_right, exists_or, hslot]

/-- An operation that has claimed its id is accounted for, as is one that could not. -/
theorem settles_claimed (slot : Slot) {claimed : Option Scalar} {found : Option OperationBinding}
    (hs : Knows earlier s) (hclaim : Runs (claimId slot.operation slot.location) s claimed u)
    (h : Runs (match claimed with
      | none => pure none
      | some id => some <$> OperationBinding.bind document naming security ⟨id, slot.path, slot.method⟩
          slot.operation slot.pathItem) u found t) :
    Settles document naming security earlier [slot] s found.toList t := by
  rcases claimId_runs hclaim with ⟨hid, rfl, rfl⟩ | ⟨id, hid, ⟨hknown, rfl, rfl⟩ | ⟨hnew, rfl, rfl⟩⟩
  · obtain ⟨rfl, rfl⟩ := Runs.pure_iff.mp h
    have hslot : ∀ id, ¬ slot.HasId id := by
      rintro id ⟨own, hown, _⟩
      exact absurd (hid.symm.trans hown) (Option.some_ne_none own).symm
    exact ⟨(hs.congr rfl).append_of_subsumed fun id h => absurd h (hslot id), _, rfl, .missing hid (.nil _)⟩
  · obtain ⟨rfl, rfl⟩ := Runs.pure_iff.mp h
    obtain ⟨other, hother, own, hown, hsame⟩ := (hs id).mp hknown
    refine ⟨(hs.congr rfl).append_of_subsumed ?_, _, rfl, .duplicate hid ⟨other, hother, own, hown, hsame⟩ (.nil _)⟩
    rintro id' ⟨id'', hid'', hsame'⟩
    obtain rfl : id = id'' := Option.some.inj (hid.symm.trans hid'')
    exact ⟨other, hother, own, hown, Scalar.same_equivalence.trans hsame hsame'⟩
  · obtain ⟨b, hbind, rfl⟩ := Runs.map_iff.mp h
    obtain ⟨_, hids, places, hplaces⟩ := OperationBinding.bind_notes hbind
    have hnone : ∀ other ∈ earlier, ¬ other.HasId id := fun other hother hother' =>
      hnew ((hs id).mpr ⟨other, hother, hother'⟩)
    refine ⟨hs.append_claimed hid (by rw [hids]; simp), _, hplaces, ?_⟩
    exact List.append_nil (places.map _) ▸ .bound hid hnone hbind (.nil _)

/-- The operation of one method is accounted for. -/
theorem settles_bindMethod {path : Scalar} {pathItem : Data} {method : String} {found : Option OperationBinding}
    (row column : Nat) (hs : Knows earlier s)
    (h : Runs (bindMethod document naming item security path pathItem method) s found t) :
    Settles document naming security earlier (slotOf? item row path pathItem (method, column)).toList s
      found.toList t := by
  simp only [bindMethod, Runs.bind_iff, Runs.lift_iff] at h
  obtain ⟨operation, _, ⟨hget, rfl⟩, h⟩ := h
  unfold slotOf?
  rw [hget]
  dsimp only
  split at h
  case isTrue hnull =>
    obtain ⟨rfl, rfl⟩ := Runs.pure_iff.mp h
    rw [if_pos hnull]
    exact .nothing hs
  case isFalse hnull =>
  rw [if_neg hnull]
  simp only [Runs.bind_iff, Runs.lift_iff] at h
  obtain ⟨skipped, _, ⟨hskip, rfl⟩, h⟩ := h
  rw [hskip]
  split at h
  case isTrue hskipped =>
    obtain ⟨rfl, rfl⟩ := Runs.pure_iff.mp h
    subst hskipped
    exact .nothing hs
  case isFalse hskipped =>
  obtain rfl : skipped = false := Bool.eq_false_iff.mpr hskipped
  simp only [Scalar.toText, Runs.bind_iff, Runs.guarded_iff] at h
  obtain ⟨_, _, ⟨_, rfl, rfl⟩, claimed, u, hclaim, h⟩ := h
  exact settles_claimed ⟨row, column, path, method, pathItem, operation⟩ hs hclaim h

theorem settles_bindPath {entry : Scalar × Data} {found : List OperationBinding} (row : Nat) (hs : Knows earlier s)
    (h : Runs (bindPath document naming item security entry) s found t) :
    Settles document naming security earlier (slotsOfPath document item (entry, row)) s found t := by
  unfold bindPath at h
  unfold slotsOfPath
  split at h
  case isTrue hnull =>
    obtain ⟨rfl, rfl⟩ := Runs.pure_iff.mp h
    rw [if_pos hnull]
    exact .nothing hs
  case isFalse hnull =>
  simp only [Runs.bind_iff, Runs.lift_iff, Runs.pure_iff] at h
  obtain ⟨pathItem, _, ⟨hresolve, rfl⟩, yields, _, hyields, rfl, rfl⟩ := h
  rw [if_neg hnull, hresolve]
  dsimp only
  rw [List.filterMap_eq_flatMap_toList, List.reduceOption, List.filterMap_eq_flatMap_toList]
  exact settles_mapM _ _ (fun method column earlier s b t hs h => settles_bindMethod row column hs h) hs hyields

/-- How bindings and diagnostics account for the operations of a document. -/
structure Account (document : Data) (naming : Naming) (item : Option Item) (security : List SecurityBinding)
    (bs : List OperationBinding) (ds : List Diagnostic) (slots : List Slot) : Prop where
  /-- Exactly the selected operations are met. -/
  selected : ∀ slot, slot ∈ slots ↔ Selected document item slot
  /-- They are met once each, in the order of paths and methods. -/
  ordered : slots.Pairwise Slot.Before
  accounted : Accounted document naming security [] slots bs ds
  distinct : bs.Pairwise fun a b => ¬ a.id.same b.id = true

theorem bindAll_accounts (hs : s.operationIds = []) (h : Runs (bindAll document naming item security) s bs t) :
    ∃ ds slots, t.diagnostics = s.diagnostics ++ ds ∧ Account document naming item security bs ds slots := by
  simp only [bindAll, Runs.bind_iff, Runs.lift_iff, Runs.pure_iff, Result.bind_eq_ok_iff] at h
  obtain ⟨entries, s, ⟨⟨paths, hpaths, hentries⟩, rfl⟩, found, _, hfound, rfl, rfl⟩ := h
  have hknows : Knows [] s := fun id => by simp [hs, Entries.contains]
  obtain ⟨_, ds, hds, haccounted⟩ := settles_mapM (k := 0) (slotsOfPath document item) id
    (fun entry row earlier s b t hs h => settles_bindPath row hs h) hknows hfound
  rw [List.flatMap_id] at haccounted
  exact ⟨ds, slots document item entries, hds, fun slot => mem_slots_iff hpaths hentries, slots_ordered entries,
    haccounted, haccounted.distinct.2⟩

end

/-- Two paths share one path item, and an operation that is left out has the id of a later one. -/
def museum : Data := .object [
  ("halls", .object [
    ("post", .object []),
    ("get", .object [("operationId", .str "visit")])]),
  ("paths", .object [
    ("/west", .object [("$ref", .str "#/halls")]),
    ("/cellar", .object [("get", .object [("operationId", .str "clean"), ("tags", .list [.str "staff"])])]),
    ("/east", .object [("$ref", .str "#/halls")]),
    ("/roof", .object [("put", .object [
      ("operationId", .str "clean"),
      ("parameters", .list [.object [("name", .str "door"), ("in", .str "lobby")]])])])])]

def forVisitors : Item := { name := "museum", spec := "museum.yaml", without := some ["staff"] }

theorem bindAll_accounts_museum : ∃ bs t,
    Runs (bindAll museum {} (some forVisitors) []) {} bs t ∧
    bs.map (fun b => (b.id, b.path, b.method)) = [(.str "visit", "/west", "get"), (.str "clean", "/roof", "put")] ∧
    t.diagnostics = [.missingOperationId "/west.post", .duplicateOperationId "visit" "/east.get",
      .missingOperationId "/east.post", .unknownParameterLocation "lobby" "/roof.put"] ∧
    ∃ ds slots, t.diagnostics = [] ++ ds ∧ Account museum {} (some forVisitors) [] bs ds slots := by
  have hcomputed : (fun r : Except Failure (List OperationBinding) × Compilation =>
      (r.1.toOption.map fun bs => bs.map fun b => (b.id, b.path, b.method), r.2.diagnostics))
      (Id.run ((bindAll museum {} (some forVisitors) []).run {})) =
      (some [(.str "visit", "/west", "get"), (.str "clean", "/roof", "put")],
        [.missingOperationId "/west.post", .duplicateOperationId "visit" "/east.get",
          .missingOperationId "/east.post", .unknownParameterLocation "lobby" "/roof.put"]) := by decide +kernel
  obtain ⟨hbound, hreported⟩ := Prod.mk.inj hcomputed
  obtain ⟨bs, ht, hrun⟩ := Option.map_eq_some_iff.mp hbound
  have hruns : Runs (bindAll museum {} (some forVisitors) []) {} bs _ := Prod.ext (Result.eq_ok_of_toOption ht) rfl
  exact ⟨bs, _, hruns, hrun, hreported, bindAll_accounts rfl hruns⟩

end Paths
end ClientBindings
