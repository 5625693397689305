import ClientBindings.Proofs.Entries
import ClientBindings.Proofs.Settling
import ClientBindings.Source.TypeText

/-! Which intersections writing an intersection leads to. It is either built on its members or merged: the
fields of all its members, aliases followed, are written anew where it stands. A merged field may hold an
intersection that is merged in turn, and nothing remembers what was merged before. -/

namespace ClientBindings

open Draft

namespace TypeNode

mutual
/-- The intersections that stand in a type, each as its members; what stands inside of one is left out. -/
def intersections : TypeNode → List (List TypeNode)
  | .array items => intersections items
  | .object fields index => if fields.isEmpty then intersectionsOfIndex index else intersectionsOfFields fields
  | .union ts => intersectionsOfAll ts
  | .intersection ts => [ts]
  | .any | .never | .primitive _ | .literal _ | .reference _ _ | .supplied _ => []
def intersectionsOfIndex : Option TypeNode → List (List TypeNode)
  | none => []
  | some t => intersections t
def intersectionsOfAll : List TypeNode → List (List TypeNode)
  | [] => []
  | t :: ts => intersections t ++ intersectionsOfAll ts
def intersectionsOfFields : List (FieldOf TypeNode) → List (List TypeNode)
  | [] => []
  | ⟨_, t, _, _, _⟩ :: fs => intersections t ++ intersectionsOfFields fs
end

theorem mem_intersectionsOfFields {us : List TypeNode} {fs : List Field} :
    us ∈ intersectionsOfFields fs ↔ ∃ f ∈ fs, us ∈ f.type.intersections := by
  induction fs with
  | nil => simp [intersectionsOfFields]
  | cons f fs ih => cases f; simp [intersectionsOfFields, ih]

mutual
theorem exists_part_of_intersections : ∀ (t : TypeNode) {us : List TypeNode}, us ∈ t.intersections →
    ∃ part ∈ t.flatten, us ∈ part.intersections
  | .union ts, _, h => exists_part_of_intersectionsOfAll ts h
  | .any, _, h | .never, _, h | .primitive _, _, h | .literal _, _, h | .array _, _, h | .object _ _, _, h
  | .intersection _, _, h | .reference _ _, _, h | .supplied _, _, h => ⟨_, List.mem_singleton_self _, h⟩
theorem exists_part_of_intersectionsOfAll : ∀ (ts : List TypeNode) {us : List TypeNode}, us ∈ intersectionsOfAll ts →
    ∃ part ∈ flattenAll ts, us ∈ part.intersections
  | [], _, h => absurd h List.not_mem_nil
  | t :: ts, us, h => by
    rw [flattenAll]
    rcases List.mem_append.mp h with h | h
    · obtain ⟨part, hpart, hus⟩ := exists_part_of_intersections t h
      exact ⟨part, List.mem_append_left _ hpart, hus⟩
    · obtain ⟨part, hpart, hus⟩ := exists_part_of_intersectionsOfAll ts h
      exact ⟨part, List.mem_append_right _ hpart, hus⟩
end

/-! ## What is found in a type -/

section
variable {P : TypeNode → Prop}

mutual
theorem forall_mem_flatten (hunion : ∀ ts, P (.union ts) → ∀ t ∈ ts, P t) :
    ∀ {t u : TypeNode}, P t → u ∈ t.flatten → P u
  | .union ts, u, h, hu => forall_mem_flattenAll hunion (hunion ts h) (by rwa [flatten] at hu)
  | .any, _, h, hu | .never, _, h, hu | .primitive _, _, h, hu | .literal _, _, h, hu | .array _, _, h, hu
  | .object _ _, _, h, hu | .intersection _, _, h, hu | .reference _ _, _, h, hu | .supplied _, _, h, hu =>
    List.mem_singleton.mp hu ▸ h
theorem forall_mem_flattenAll (hunion : ∀ ts, P (.union ts) → ∀ t ∈ ts, P t) :
    ∀ {ts : List TypeNode} {u : TypeNode}, (∀ t ∈ ts, P t) → u ∈ flattenAll ts → P u
  | [], u, h, hu => absurd hu List.not_mem_nil
  | t :: ts, u, h, hu => by
    rw [flattenAll, List.mem_append] at hu
    rcases hu with hu | hu
    · exact forall_mem_flatten hunion (h t List.mem_cons_self) hu
    · exact forall_mem_flattenAll hunion (fun t ht => h t (List.mem_cons_of_mem _ ht)) hu
end

/-- What passes from records to the types of their fields and from intersections to their members. -/
structure PassesDown (P : TypeNode → Prop) : Prop where
  field : ∀ fields index, P (.object fields index) → ∀ f ∈ fields, P f.type
  member : ∀ ts, P (.intersection ts) → ∀ t ∈ ts, P t

mutual
theorem PassesDown.fieldsWith (h : PassesDown P) {follow : String → Option (List Field)}
    (hfollow : ∀ name fields, follow name = some fields → ∀ f ∈ fields, P f.type) :
    ∀ (t : TypeNode) (fields : List Field), P t → t.fieldsWith follow = some fields → ∀ f ∈ fields, P f.type
  | .object own index, fields, ht, heq => by
    rw [TypeNode.fieldsWith, Option.some.injEq] at heq
    exact heq ▸ h.field own index ht
  | .intersection ts, fields, ht, heq => by
    rw [TypeNode.fieldsWith] at heq
    exact h.fieldsOfAll hfollow ts fields (h.member ts ht) heq
  | .reference name _, fields, _, heq => by
    rw [TypeNode.fieldsWith] at heq
    exact hfollow name fields heq
  | .any, _, _, heq | .never, _, _, heq | .primitive _, _, _, heq | .literal _, _, _, heq
  | .array _, _, _, heq | .union _, _, _, heq | .supplied _, _, _, heq => by simp [TypeNode.fieldsWith] at heq
theorem PassesDown.fieldsOfAll (h : PassesDown P) {follow : String → Option (List Field)}
    (hfollow : ∀ name fields, follow name = some fields → ∀ f ∈ fields, P f.type) :
    ∀ (ts : List TypeNode) (fields : List Field), (∀ t ∈ ts, P t) → TypeNode.fieldsOfAll follow ts = some fields →
      ∀ f ∈ fields, P f.type
  | [], fields, _, heq => by
    rw [TypeNode.fieldsOfAll, Option.some.injEq] at heq
    exact heq ▸ fun f hf => absurd hf List.not_mem_nil
  | t :: ts, fields, hts, heq => by
    simp only [TypeNode.fieldsOfAll, Option.bind_eq_bind, Option.bind_eq_some_iff, Option.pure_def,
      Option.some.injEq] at heq
    obtain ⟨first, hfirst, rest, hrest, rfl⟩ := heq
    intro f hf
    rcases List.mem_append.mp hf with hf | hf
    · exact h.fieldsWith hfollow t first (hts t List.mem_cons_self) hfirst f hf
    · exact h.fieldsOfAll hfollow ts rest (fun u hu => hts u (List.mem_cons_of_mem t hu)) hrest f hf
end

/-- What passes down and holds of all aliases holds of the fields that are found by following aliases. -/
theorem PassesDown.fieldsFor (h : PassesDown P) {scope : Scope} (haliases : ∀ name given pointer type comment,
      scope.aliases.lookup name = some (.synonym given pointer type comment) → P type)
    {barred : List String} {turns : Nat} {t : TypeNode} {fields : List Field} (ht : P t)
    (heq : scope.fieldsFor barred turns t = some fields) : ∀ f ∈ fields, P f.type := by
  induction turns generalizing barred t fields with
  | zero => cases heq
  | succ turns ih =>
    rw [Scope.fieldsFor] at heq
    refine h.fieldsWith ?_ t fields ht heq
    intro name found hfound
    split at hfound
    · cases hfound
    split at hfound
    · rename_i hlookup
      exact ih (haliases _ _ _ _ _ hlookup) hfound
    · cases hfound

end

/-! ## Merged fields -/

section
variable {follow more : String → Option (List Field)}

mutual
theorem fieldsWith_mono (hfollow : ∀ name fields, follow name = some fields → more name = some fields) :
    ∀ (t : TypeNode) (fields : List Field), t.fieldsWith follow = some fields → t.fieldsWith more = some fields
  | .object _ _, _, h => by rwa [fieldsWith] at h ⊢
  | .intersection ts, fields, h => by
    rw [fieldsWith] at h ⊢
    exact fieldsOfAll_mono hfollow ts fields h
  | .reference name _, fields, h => by
    rw [fieldsWith] at h ⊢
    exact hfollow name fields h
  | .any, _, h | .never, _, h | .primitive _, _, h | .literal _, _, h | .array _, _, h | .union _, _, h
  | .supplied _, _, h => by simp [fieldsWith] at h
theorem fieldsOfAll_mono (hfollow : ∀ name fields, follow name = some fields → more name = some fields) :
    ∀ (ts : List TypeNode) (fields : List Field), fieldsOfAll follow ts = some fields →
      fieldsOfAll more ts = some fields
  | [], _, h => h
  | t :: ts, fields, h => by
    simp only [fieldsOfAll, Option.bind_eq_bind, Option.bind_eq_some_iff] at h ⊢
    obtain ⟨first, hfirst, rest, hrest, hfields⟩ := h
    exact ⟨first, fieldsWith_mono hfollow t first hfirst, rest, fieldsOfAll_mono hfollow ts rest hrest, hfields⟩
end

end

end TypeNode

namespace Scope

variable {scope : Scope}

/-- With fewer aliases barred the same fields are found. -/
theorem fieldsFor_mono {barred more : List String} (hsub : barred ⊆ more) {turns : Nat} {t : TypeNode}
    {fields : List Field} (h : scope.fieldsFor more turns t = some fields) :
    scope.fieldsFor barred turns t = some fields := by
  induction turns generalizing barred more t fields with
  | zero => cases h
  | succ turns ih =>
    refine TypeNode.fieldsWith_mono ?_ t fields h
    intro name found hfound
    have hmore : ¬ more.contains name = true := by
      intro hname
      simp only [hname, if_true] at hfound
      cases hfound
    have hbarred : ¬ barred.contains name = true := by
      intro hname
      exact hmore (List.contains_iff_mem.mpr (hsub (List.contains_iff_mem.mp hname)))
    rw [if_neg hmore] at hfound
    rw [if_neg hbarred]
    split at hfound
    · exact ih (List.cons_subset_cons name hsub) hfound
    · cases hfound

/-- Turns beyond the number of aliases that are not barred change nothing. -/
theorem fieldsFor_succ {barred : List String} {turns : Nat} {t : TypeNode}
    (hturns : ((scope.aliases.map Prod.fst).filter (· ∉ barred)).length < turns) :
    scope.fieldsFor barred (turns + 1) t = scope.fieldsFor barred turns t := by
  induction turns generalizing barred t with
  | zero => exact absurd hturns (Nat.not_lt_zero _)
  | succ turns ih =>
    rw [Scope.fieldsFor, Scope.fieldsFor]
    congr 1
    funext name
    by_cases hname : barred.contains name = true
    · rw [if_pos hname, if_pos hname]
    rw [if_neg hname, if_neg hname]
    split
    · rename_i a hlookup
      refine ih (Nat.lt_of_lt_of_le (length_filter_lt (x := name) ?_ ?_ ?_ ?_) (Nat.le_of_lt_succ hturns))
      · intro other hother
        simp only [decide_eq_true_eq, List.mem_cons, not_or] at hother ⊢
        exact hother.2
      · exact List.mem_map_of_mem (f := Prod.fst) (Entries.mem_of_lookup hlookup)
      · simpa using hname
      · simp
    · rfl

theorem fieldsFor_eq_fieldsOf {barred : List String} {turns : Nat} {t : TypeNode} (h : scope.aliases.length < turns) :
    scope.fieldsFor barred turns t = scope.fieldsOf barred t := by
  obtain ⟨more, rfl⟩ := Nat.exists_eq_add_of_lt h
  induction more with
  | zero => rfl
  | succ more ih =>
    refine (fieldsFor_succ ?_).trans (ih (by omega))
    have hleft := List.length_filter_le (fun key => decide (key ∉ barred)) (scope.aliases.map Prod.fst)
    rw [List.length_map] at hleft
    omega

end Scope

/-! ## Class form -/

/-- Whether a declaration can be a base. -/
def Declaration.isClass : Declaration → Bool
  | .record d => !d.functional
  | _ => false

namespace Alias

/-- Whether an alias can be a base, as far as its type tells: an intersection does not. -/
def form : Alias → Option Bool
  | .synonym _ _ (.object (f :: fields) _) _ => some ((Field.allAttributes (f :: fields)).toOption.getD false)
  | .synonym _ _ (.intersection _) _ => none
  | _ => some false

/-- Only a record tells that it can be a base. -/
theorem eq_false_of_form {a : Alias} {b : Bool} (hobject : ∀ key pointer f fields index comment,
    a ≠ .synonym key pointer (.object (f :: fields) index) comment) (h : a.form = some b) : b = false := by
  unfold form at h
  split at h
  · exact absurd rfl (hobject _ _ _ _ _ _)
  · cases h
  · exact (Option.some.inj h).symm

/-- Whether an alias with a declaration can be a base. Enumerations are not asked for one. -/
def formAs (a : Alias) (d : Declaration) : Bool :=
  match a with
  | .synonym .. => d.isClass
  | .enumeration .. => false

end Alias

namespace Scope

/-- Whether an alias can be a base, as far as that is certain: what is declared stays as it is. -/
def form (scope : Scope) (s : Draft) (name : String) : Option Bool :=
  match scope.aliases.lookup name with
  | some a => (s.declared.lookup name).elim a.form fun d => some (a.formAs d)
  | none => some false

/-- Whether a member of an intersection can be a base. -/
def formOf (scope : Scope) (s : Draft) : TypeNode → Option Bool
  | .reference name _ => scope.form s name
  | _ => some false

/-- Members that an intersection perhaps is built on. -/
def MayCompose (scope : Scope) (s : Draft) (ts : List TypeNode) : Prop :=
  ∀ t ∈ ts, scope.formOf s t ≠ some false ∨ ∃ fields index, t = .object fields index

/-- Members that an intersection certainly is built on: bases and fields in class form, and not none at all. -/
structure Composes (scope : Scope) (s : Draft) (ts : List TypeNode) : Prop where
  members : ∀ t ∈ ts, scope.formOf s t = some true ∨
    ∃ fields index, t = .object fields index ∧ Field.allAttributes fields = .ok true
  nonempty : ∃ t ∈ ts, scope.formOf s t = some true ∨ ∃ f fields index, t = .object (f :: fields) index

/-- Writing an intersection leads to writing another one: in a field of its own if perhaps it is built on its
members, in a merged one unless certainly it is. -/
inductive Opens (scope : Scope) (s : Draft) : List TypeNode → List TypeNode → Prop
  | own {ts us : List TypeNode} {fields : List Field} {index : Option TypeNode} {f : Field} :
      scope.MayCompose s ts → .object fields index ∈ ts → f ∈ fields → us ∈ f.type.intersections →
      Opens scope s ts us
  | merged {ts us : List TypeNode} {fields kept : List Field} {f : Field} :
      ¬ scope.Composes s ts → scope.fieldsOf s.declaring (.intersection ts) = some fields →
      Field.distinct fields = .ok kept → f ∈ kept → us ∈ f.type.intersections → Opens scope s ts us

/-- Every intersection in a type leads to others only so often. -/
def Ends (scope : Scope) (s : Draft) (type : TypeNode) : Prop :=
  ∀ ts ∈ type.intersections, Acc (fun us ts => scope.Opens s ts us) ts

end Scope

end ClientBindings
