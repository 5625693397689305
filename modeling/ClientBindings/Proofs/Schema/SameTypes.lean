import ClientBindings.Proofs.Schema.Dependencies
import ClientBindings.Proofs.WellKeyed
import Mathlib.Data.List.Induction

/-! Types that count as the same. The comparison is transitive, so without repetitions those types are left that no
earlier one is the same as. It is reflexive on the types of schemas whose mappings repeat no key, and it tells two trees
apart unless numbers or truth values in them are equal. -/

namespace ClientBindings

/-! ## Types that are the same as themselves -/

namespace TypeNode

theorem sameMembers_self {ts : List TypeNode} (h : ∀ t ∈ ts, t.same t = true) : sameMembers ts ts = true := by
  induction ts with
  | nil => rw [sameMembers]
  | cons t ts ih =>
    obtain ⟨ht, hts⟩ := List.forall_mem_cons.mp h
    rw [sameMembers, ht, ih hts]
    rfl

theorem unionOf_same_self {ts : List TypeNode} (h : ∀ t ∈ ts, t.same t = true) :
    (unionOf ts).same (unionOf ts) = true := by
  match ts with
  | [] => simp [unionOf, same]
  | [t] => exact h t (List.mem_singleton_self t)
  | t :: u :: rest =>
    show (TypeNode.union (t :: u :: rest)).same (.union (t :: u :: rest)) = true
    rw [same]
    exact sameMembers_self h

theorem sameFields_self {fs : List Field}
    (h : ∀ f ∈ fs, f.name.same f.name = true ∧ f.type.same f.type = true ∧ f.comment.same f.comment = true) :
    sameFields fs fs = true := by
  induction fs with
  | nil => rw [sameFields]
  | cons f fs ih =>
    obtain ⟨⟨hname, htype, hcomment⟩, hfs⟩ := List.forall_mem_cons.mp h
    obtain ⟨name, type, required, comment, deprecated⟩ := f
    simp_all [sameFields]

theorem sameIndex_self {index : Option TypeNode} (h : ∀ t, index = some t → t.same t = true) :
    sameIndex index index = true := by
  cases index with
  | none => rw [sameIndex]
  | some t =>
    rw [sameIndex]
    exact h t rfl

mutual
theorem same_trans : ∀ {a b c : TypeNode}, a.same b = true → b.same c = true → a.same c = true
  | .any, b, _, hab, hbc | .never, b, _, hab, hbc => by
    cases b <;> simp only [same, Bool.false_eq_true] at hab
    exact hbc
  | .primitive p, b, c, hab, hbc | .supplied p, b, c, hab, hbc => by
    cases b <;> simp only [same, Bool.false_eq_true, beq_iff_eq] at hab
    exact hab ▸ hbc
  | .reference m _, b, c, hab, hbc => by
    cases b <;> simp only [same, Bool.false_eq_true, beq_iff_eq] at hab
    cases c <;> simp only [same, Bool.false_eq_true, beq_iff_eq] at hbc ⊢
    exact hab.trans hbc
  | .literal v, b, c, hab, hbc => by
    cases b <;> simp only [same, Bool.false_eq_true] at hab
    cases c <;> simp only [same, Bool.false_eq_true] at hbc ⊢
    exact Scalar.same_equivalence.trans hab hbc
  | .array a, b, c, hab, hbc => by
    cases b <;> simp only [same, Bool.false_eq_true] at hab
    cases c <;> simp only [same, Bool.false_eq_true] at hbc ⊢
    exact same_trans hab hbc
  | .object fs i, b, c, hab, hbc => by
    cases b <;> simp only [same, Bool.false_eq_true, Bool.and_eq_true] at hab
    cases c <;> simp only [same, Bool.false_eq_true, Bool.and_eq_true] at hbc ⊢
    exact ⟨sameFields_trans hab.1 hbc.1, sameIndex_trans hab.2 hbc.2⟩
  | .union ss, b, c, hab, hbc | .intersection ss, b, c, hab, hbc => by
    cases b <;> simp only [same, Bool.false_eq_true] at hab
    cases c <;> simp only [same, Bool.false_eq_true] at hbc ⊢
    exact sameMembers_trans hab hbc
theorem sameIndex_trans : ∀ {i j k : Option TypeNode}, sameIndex i j = true → sameIndex j k = true → sameIndex i k = true
  | none, j, _, hab, hbc => by
    cases j <;> simp only [sameIndex, Bool.false_eq_true] at hab
    exact hbc
  | some a, j, k, hab, hbc => by
    cases j <;> simp only [sameIndex, Bool.false_eq_true] at hab
    cases k <;> simp only [sameIndex, Bool.false_eq_true] at hbc ⊢
    exact same_trans hab hbc
theorem sameMembers_trans : ∀ {ss ts us : List TypeNode}, sameMembers ss ts = true → sameMembers ts us = true →
    sameMembers ss us = true
  | [], ts, _, hab, hbc => by
    cases ts <;> simp only [sameMembers, Bool.false_eq_true] at hab
    exact hbc
  | a :: ss, ts, us, hab, hbc => by
    cases ts <;> simp only [sameMembers, Bool.false_eq_true, Bool.and_eq_true] at hab
    cases us <;> simp only [sameMembers, Bool.false_eq_true, Bool.and_eq_true] at hbc ⊢
    exact ⟨same_trans hab.1 hbc.1, sameMembers_trans hab.2 hbc.2⟩
theorem sameFields_trans : ∀ {fs gs hs : List Field}, sameFields fs gs = true → sameFields gs hs = true →
    sameFields fs hs = true
  | [], gs, _, hab, hbc => by
    cases gs <;> simp only [sameFields, Bool.false_eq_true] at hab
    exact hbc
  | _ :: _, [], _, hab, _ | _ :: _, _ :: _, [], _, hab => by simp [sameFields] at hab
  | ⟨name, type, required, comment, deprecated⟩ :: fs, ⟨_, _, _, _, _⟩ :: gs, _ :: hs, hab, hbc => by
    simp only [sameFields, Bool.and_eq_true, beq_iff_eq] at hab hbc ⊢
    obtain ⟨⟨⟨⟨⟨hname, htype⟩, rfl⟩, hcomment⟩, rfl⟩, hfs⟩ := hab
    obtain ⟨⟨⟨⟨⟨hname', htype'⟩, hrequired⟩, hcomment'⟩, hdeprecated⟩, hgs⟩ := hbc
    exact ⟨⟨⟨⟨⟨Data.same_trans hname hname', same_trans htype htype'⟩, hrequired⟩, Data.same_trans hcomment hcomment'⟩,
      hdeprecated⟩, sameFields_trans hfs hgs⟩
end

/-! ## Types without repetitions -/

/-- A type stands among others, and none in front of it is the same. -/
def IsFirst (types : List TypeNode) (t : TypeNode) : Prop :=
  ∃ before after, types = before ++ t :: after ∧ ∀ u ∈ before, ¬ u.same t = true

/-- What is left of some types without the repetitions. -/
structure KeptOf (types members : List TypeNode) : Prop where
  ordered : members.Sublist types
  apart : members.Pairwise fun a b => ¬ a.same b = true
  covered : ∀ t ∈ types, t ∈ members ∨ ∃ m ∈ members, m.same t = true
  mem_iff : ∀ t, t ∈ members ↔ IsFirst types t

section
variable {types members : List TypeNode} {t u : TypeNode}

theorem isFirst_concat_iff :
    IsFirst (types ++ [t]) u ↔ IsFirst types u ∨ u = t ∧ ∀ v ∈ types, ¬ v.same t = true := by
  constructor
  · rintro ⟨before, after, heq, hbefore⟩
    rcases List.eq_nil_or_concat after with rfl | ⟨after, last, rfl⟩
    · obtain ⟨rfl, hlast⟩ := List.append_inj' heq rfl
      obtain rfl : t = u := (List.cons.inj hlast).1
      exact .inr ⟨rfl, hbefore⟩
    · rw [List.concat_eq_append, ← List.cons_append, ← List.append_assoc] at heq
      exact .inl ⟨before, after, (List.append_inj' heq rfl).1, hbefore⟩
  · rintro (⟨before, after, rfl, hbefore⟩ | ⟨rfl, hbefore⟩)
    · exact ⟨before, after ++ [t], by simp, hbefore⟩
    · exact ⟨types, [], rfl, hbefore⟩

theorem KeptOf.dropped (h : KeptOf types members) (ht : ∃ m ∈ members, m.same t = true) :
    KeptOf (types ++ [t]) members where
  ordered := h.ordered.trans (List.sublist_append_left types [t])
  apart := h.apart
  covered u hu := by
    rcases List.mem_append.mp hu with hu | hu
    · exact h.covered u hu
    · obtain rfl := List.mem_singleton.mp hu
      exact .inr ht
  mem_iff u := by
    rw [isFirst_concat_iff, h.mem_iff u]
    refine ⟨.inl, fun hfirst => hfirst.resolve_right fun ⟨_, hnone⟩ => ?_⟩
    obtain ⟨m, hm, hsame⟩ := ht
    exact hnone m (h.ordered.subset hm) hsame

theorem KeptOf.added (h : KeptOf types members) (ht : ∀ m ∈ members, ¬ m.same t = true) :
    KeptOf (types ++ [t]) (members ++ [t]) where
  ordered := h.ordered.append (.refl [t])
  apart := by
    refine List.pairwise_append.mpr ⟨h.apart, List.pairwise_singleton _ _, fun m hm u hu => ?_⟩
    exact List.mem_singleton.mp hu ▸ ht m hm
  covered u hu := by
    rcases List.mem_append.mp hu with hu | hu
    · refine (h.covered u hu).imp (List.mem_append_left [t]) ?_
      exact fun ⟨m, hm, hsame⟩ => ⟨m, List.mem_append_left [t] hm, hsame⟩
    · exact .inl (List.mem_append_right members hu)
  mem_iff u := by
    have hnone : ∀ v ∈ types, ¬ v.same t = true := by
      intro v hv hsame
      -- what stands for an earlier type would stand for this one
      rcases h.covered v hv with hmem | ⟨m, hm, hmv⟩
      · exact ht v hmem hsame
      · exact ht m hm (same_trans hmv hsame)
    rw [isFirst_concat_iff, ← h.mem_iff u, List.mem_append, List.mem_singleton]
    exact or_congr_right ⟨fun heq => ⟨heq, hnone⟩, And.left⟩

theorem keptOf_dedup (types : List TypeNode) : KeptOf types (dedup types) := by
  induction types using List.reverseRecOn with
  | nil => exact ⟨.refl [], .nil, fun _ h => .inl h, fun t => by simp [dedup, IsFirst]⟩
  | append_singleton types t ih =>
    have hstep : dedup (types ++ [t]) =
        if (dedup types).any fun k => k.same t then dedup types else dedup types ++ [t] := by
      rw [dedup, List.foldl_append]
      rfl
    rw [hstep]
    split
    · rename_i hany
      exact ih.dropped (List.any_eq_true.mp hany)
    · rename_i hany
      exact ih.added fun m hm hsame => hany (List.any_eq_true.mpr ⟨m, hm, hsame⟩)

theorem KeptOf.nodup (h : KeptOf types members) (hself : ∀ t ∈ types, t.same t = true) : members.Nodup := by
  refine h.apart.imp_of_mem fun {a b} ha _ hab heq => hab ?_
  exact heq ▸ hself a (h.ordered.subset ha)

end

end TypeNode

/-! ## Types that only one tree is the same as -/

/-- A value that is the same as itself alone: no integer equals it, and it holds no further values. -/
def Data.Telling : Data → Prop
  | .scalar s => s.whole? = none
  | _ => False

theorem Scalar.eq_of_same {a b : Scalar} (hb : b.whole? = none) (h : a.same b = true) : a = b := by
  rcases Scalar.same_iff.mp h with rfl | ⟨n, _, hn⟩
  · rfl
  · cases hb.symm.trans hn

theorem Data.Telling.eq_of_same {c d : Data} (hd : d.Telling) (h : c.same d = true) : c = d := by
  cases d with
  | scalar b =>
    cases c with
    | scalar a =>
      rw [Data.same] at h
      rw [Scalar.eq_of_same hd h]
    | list | tuple | map => simp [Data.same] at h
  | list | tuple | map => exact hd.elim

namespace TypeNode

mutual
/-- Whether the literals, the names of fields and the remarks in a type are the same as themselves alone. -/
def Telling : TypeNode → Prop
  | .literal v => v.whole? = none
  | .array items => Telling items
  | .object fields index => TellingFields fields ∧ TellingIndex index
  | .union ts | .intersection ts => TellingAll ts
  | .any | .never | .primitive _ | .reference _ _ | .supplied _ => True
def TellingIndex : Option TypeNode → Prop
  | none => True
  | some t => Telling t
def TellingAll : List TypeNode → Prop
  | [] => True
  | t :: ts => Telling t ∧ TellingAll ts
def TellingFields : List (FieldOf TypeNode) → Prop
  | [] => True
  | ⟨name, t, _, comment, _⟩ :: fs => name.Telling ∧ Telling t ∧ comment.Telling ∧ TellingFields fs
end

end TypeNode

namespace Schema

section
variable {refs : List (String × String)}

theorem Anchored.pointer_eq (hnames : (refs.map Prod.snd).Nodup) {name : String} {p q : Option String}
    (hp : Anchored refs (.reference name p)) (hq : Anchored refs (.reference name q)) : p = q := by
  obtain ⟨p, rfl, hp⟩ := hp
  obtain ⟨q, rfl, hq⟩ := hq
  have heq : (p, name) = (q, name) := List.inj_on_of_nodup_map hnames hp hq rfl
  rw [(Prod.mk.inj heq).1]

mutual
/-- References are compared by name. As long as a name stands for one pointer that is no loss. -/
theorem eq_of_same (hnames : (refs.map Prod.snd).Nodup) : ∀ {a b : TypeNode}, b.Telling → Settled refs a.leaves →
    Settled refs b.leaves → a.same b = true → a = b
  | a, .any, _, _, _, h | a, .never, _, _, _, h | a, .primitive _, _, _, _, h | a, .supplied _, _, _, _, h => by
    cases a <;> simp_all [TypeNode.same]
  | a, .literal w, hb, _, _, h => by
    cases a <;> simp only [TypeNode.same, Bool.false_eq_true] at h
    rw [Scalar.eq_of_same hb h]
  | a, .reference n q, _, ha, hb, h => by
    cases a <;> simp only [TypeNode.same, Bool.false_eq_true, beq_iff_eq] at h
    subst h
    rw [(ha _ (List.mem_singleton_self _)).pointer_eq hnames (hb _ (List.mem_singleton_self _))]
  | a, .array t, ht, ha, hb, h => by
    cases a <;> simp only [TypeNode.same, Bool.false_eq_true] at h
    exact congrArg TypeNode.array (eq_of_same hnames ht ha hb h)
  | a, .object gs j, hb, hsa, hsb, h => by
    cases a <;> simp only [TypeNode.same, Bool.false_eq_true, Bool.and_eq_true] at h
    obtain ⟨hsa, hsa'⟩ := List.forall_mem_append.mp hsa
    obtain ⟨hsb, hsb'⟩ := List.forall_mem_append.mp hsb
    rw [eq_of_sameFields hnames hb.1 hsa hsb h.1, eq_of_sameIndex hnames hb.2 hsa' hsb' h.2]
  | a, .union ts, hb, hsa, hsb, h | a, .intersection ts, hb, hsa, hsb, h => by
    cases a <;> simp only [TypeNode.same, Bool.false_eq_true] at h
    rw [eq_of_sameMembers hnames hb hsa hsb h]
theorem eq_of_sameIndex (hnames : (refs.map Prod.snd).Nodup) : ∀ {i j : Option TypeNode}, TypeNode.TellingIndex j →
    Settled refs (TypeNode.leavesOfIndex i) → Settled refs (TypeNode.leavesOfIndex j) → TypeNode.sameIndex i j = true →
    i = j
  | none, none, _, _, _, _ => rfl
  | some s, some t, ht, hs, ht', h => by
    rw [TypeNode.sameIndex] at h
    rw [eq_of_same hnames ht hs ht' h]
  | none, some _, _, _, _, h | some _, none, _, _, _, h => by simp [TypeNode.sameIndex] at h
theorem eq_of_sameMembers (hnames : (refs.map Prod.snd).Nodup) : ∀ {ss ts : List TypeNode}, TypeNode.TellingAll ts →
    Settled refs (TypeNode.leavesOfAll ss) → Settled refs (TypeNode.leavesOfAll ts) → TypeNode.sameMembers ss ts = true →
    ss = ts
  | [], [], _, _, _, _ => rfl
  | s :: ss, t :: ts, ht, hs, hs', h => by
    simp only [TypeNode.sameMembers, Bool.and_eq_true] at h
    obtain ⟨hs, hss⟩ := List.forall_mem_append.mp hs
    obtain ⟨hs', hss'⟩ := List.forall_mem_append.mp hs'
    rw [eq_of_same hnames ht.1 hs hs' h.1, eq_of_sameMembers hnames ht.2 hss hss' h.2]
  | [], _ :: _, _, _, _, h | _ :: _, [], _, _, _, h => by simp [TypeNode.sameMembers] at h
theorem eq_of_sameFields (hnames : (refs.map Prod.snd).Nodup) : ∀ {fs gs : List Field}, TypeNode.TellingFields gs →
    Settled refs (TypeNode.leavesOfFields fs) → Settled refs (TypeNode.leavesOfFields gs) →
    TypeNode.sameFields fs gs = true → fs = gs
  | [], [], _, _, _, _ => rfl
  | ⟨_, _, _, _, _⟩ :: fs, ⟨_, _, _, _, _⟩ :: gs, hg, hs, hs', h => by
    simp only [TypeNode.sameFields, Bool.and_eq_true, beq_iff_eq] at h
    obtain ⟨⟨⟨⟨⟨hname, htype⟩, rfl⟩, hcomment⟩, rfl⟩, hfields⟩ := h
    obtain ⟨hgname, hgtype, hgcomment, hgs⟩ := hg
    obtain ⟨hs, hss⟩ := List.forall_mem_append.mp hs
    obtain ⟨hs', hss'⟩ := List.forall_mem_append.mp hs'
    rw [hgname.eq_of_same hname, eq_of_same hnames hgtype hs hs' htype, hgcomment.eq_of_same hcomment,
      eq_of_sameFields hnames hgs hss hss' hfields]
  | [], _ :: _, _, _, _, h | _ :: _, [], _, _, _, h => by simp [TypeNode.sameFields] at h
end

end

end Schema

/-! ## Types of schemas -/

namespace Schema

theorem wellKeyed_of_asks {d x : Data} (h : d.WellKeyed) (hasks : Schema.Asks d x) : x.WellKeyed := by
  cases hasks with
  | member _ hvalue hparts hpart => exact (h.find? hvalue).elements hparts hpart
  | items hitems => exact h.find? hitems
  | property hproperties hmem => exact (h.find? hproperties).entry hmem
  | further hfurther => exact h.find? hfurther

/-- Types that are the same as themselves. -/
def SameSelf (ts : List TypeNode) : Prop := ∀ t ∈ ts, t.same t = true

theorem remark_wellKeyed {schema comment : Data} (h : schema.WellKeyed) (hcomment : remark schema = .ok comment) :
    comment.WellKeyed := by
  obtain ⟨title, htitle, hcomment⟩ := Result.bind_eq_ok_iff.mp hcomment
  split at hcomment
  · obtain rfl := Result.pure_eq_ok_iff.mp hcomment
    exact h.get htitle
  · exact h.get hcomment

namespace Plan

/-- A plan that makes a type the same as itself if the types of the parts are. -/
def Reflects (plan : Plan) : Prop := ∀ ts, SameSelf ts → (plan.build ts).same (plan.build ts) = true

theorem literalOf_same_self (d : Data) : (literalOf d).same (literalOf d) = true := by
  unfold literalOf
  split
  · split <;> simp [TypeNode.null, TypeNode.same]
  · simp [TypeNode.null, TypeNode.same]

theorem reflects_literals (values : List Data) : Reflects (leaf (.unionOf (values.map literalOf))) := by
  intro _ _
  apply TypeNode.unionOf_same_self
  intro t ht
  obtain ⟨d, _, rfl⟩ := List.mem_map.mp ht
  exact literalOf_same_self d

theorem reflects_array (items : Option Data) : Reflects (array items) := by
  intro ts h
  cases items with
  | none => simp [array, leaf, TypeNode.same]
  | some items =>
    cases ts with
    | nil => simp [array, TypeNode.same]
    | cons t ts => simpa [array, TypeNode.same] using h t List.mem_cons_self

theorem reflects_text (format : Option Data) : Reflects (text format) := by
  intro ts _
  unfold text
  split <;> simp [leaf, TypeNode.binary, TypeNode.string, TypeNode.same]

theorem fieldShape_same_self {required : Data} {property : Scalar × Data} {shape : TypeNode → Field} {t : TypeNode}
    (hshape : fieldShape required property = .ok shape) (h : property.2.WellKeyed) :
    (shape t).name.same (shape t).name = true ∧ (shape t).comment.same (shape t).comment = true := by
  simp only [fieldShape, Result.bind_eq_ok_iff, Result.pure_eq_ok_iff] at hshape
  obtain ⟨_, _, comment, hcomment, _, _, rfl⟩ := hshape
  refine ⟨(Data.WellKeyed.scalar _).same_self, (remark_wellKeyed ?_ hcomment).same_self⟩
  split
  · exact h
  · exact .map .nil (by simp)

theorem reflects_record {properties required additional : Data} {plan : Plan} (hproperties : properties.WellKeyed)
    (hplan : record properties required additional = .ok plan) : Reflects plan := by
  simp only [record, Result.bind_eq_ok_iff, Result.pure_eq_ok_iff] at hplan
  obtain ⟨entries, hentries, shapes, hshapes, rfl⟩ := hplan
  obtain rfl := Data.eq_map_of_entries hentries
  intro ts h
  simp only [recordType, TypeNode.same, Bool.and_eq_true]
  refine ⟨TypeNode.sameFields_self fun f hf => ?_, TypeNode.sameIndex_self fun t ht => ?_⟩
  · obtain ⟨i, hi, rfl⟩ := List.mem_iff_getElem.mp hf
    rw [List.getElem_zipWith]
    obtain ⟨property, hproperty, hshape⟩ := Result.exists_of_mem_mapM hshapes (List.getElem_mem _)
    obtain ⟨hname, hcomment⟩ := fieldShape_same_self hshape (hproperties.entry hproperty)
    refine ⟨hname, ?_, hcomment⟩
    rw [(fieldShape_type hshape _).1]
    exact h _ (List.getElem_mem _)
  · unfold furtherType at ht
    split at ht
    · cases ht
    split at ht
    · obtain rfl := Option.some.inj ht
      rw [TypeNode.same]
    · exact h t (List.mem_of_mem_drop (List.mem_of_mem_head? ht))

theorem reflects_members {schema : Data} {key : String} {build : List TypeNode → TypeNode} {plan : Plan}
    (hplan : members schema key build = .ok plan) (hbuild : ∀ ts, SameSelf ts → (build ts).same (build ts) = true) :
    Reflects plan := by
  obtain ⟨_, _, _, _, rfl⟩ := parts_of_members hplan
  exact hbuild

theorem reflects_named {schema : Data} {plan : Plan} (h : schema.WellKeyed) (hplan : named schema = .ok plan) :
    Reflects plan := by
  simp only [named, Result.bind_eq_ok_iff] at hplan
  obtain ⟨type, -, hplan⟩ := hplan
  unfold typed at hplan
  split at hplan
  case h_6 => exact reflects_record (h.said "properties").orElse hplan
  all_goals obtain rfl := Result.pure_eq_ok_iff.mp hplan
  case h_1 => exact reflects_array _
  case h_5 => exact reflects_text _
  all_goals exact fun _ _ => by simp [leaf, TypeNode.number, TypeNode.boolean, TypeNode.same]

theorem reflects_base {schema : Data} {plan : Plan} (h : schema.WellKeyed) (hplan : base schema = .ok plan) :
    Reflects plan := by
  have hunion : ∀ ts, SameSelf ts → (TypeNode.unionOf ts).same (.unionOf ts) = true :=
    fun ts hts => TypeNode.unionOf_same_self hts
  unfold base at hplan
  split at hplan
  · obtain rfl := Result.pure_eq_ok_iff.mp hplan
    exact fun _ _ => by simp [leaf, TypeNode.same]
  obtain ⟨isOneOf, -, hplan⟩ := Result.bind_eq_ok_iff.mp hplan
  split at hplan
  · exact reflects_members hplan hunion
  obtain ⟨isAnyOf, -, hplan⟩ := Result.bind_eq_ok_iff.mp hplan
  split at hplan
  · exact reflects_members hplan hunion
  obtain ⟨isAllOf, -, hplan⟩ := Result.bind_eq_ok_iff.mp hplan
  split at hplan
  · refine reflects_members hplan fun ts hts => ?_
    rw [TypeNode.same]
    exact TypeNode.sameMembers_self hts
  obtain ⟨isEnum, -, hplan⟩ := Result.bind_eq_ok_iff.mp hplan
  split at hplan
  · simp only [Result.bind_eq_ok_iff, Result.pure_eq_ok_iff] at hplan
    obtain ⟨_, _, values, _, rfl⟩ := hplan
    exact reflects_literals values
  · exact reflects_named h hplan

theorem reflects_of {schema : Data} {plan : Plan} (h : schema.WellKeyed) (hplan : of schema = .ok plan) :
    Reflects plan := by
  simp only [of, Result.bind_eq_ok_iff, Result.pure_eq_ok_iff] at hplan
  obtain ⟨inner, hinner, rfl⟩ := hplan
  intro ts hts
  have hbase := reflects_base h hinner ts hts
  simp only [withNull]
  split
  · refine TypeNode.unionOf_same_self fun t ht => ?_
    rcases List.mem_cons.mp ht with rfl | ht
    · exact hbase
    · obtain rfl := List.mem_singleton.mp ht
      simp [TypeNode.null, TypeNode.same]
  · exact hbase

end Plan

/-- A reference is the same as itself whatever it leads to, so only what a schema holds itself matters. -/
theorem typeOfAt_same_self {document schema : Data} {depth : Nat} {type : TypeNode} {s t : State} (h : schema.WellKeyed)
    (hruns : Runs (typeOfAt document depth schema) s type t) : type.same type = true := by
  induction depth generalizing schema type s t with
  | zero => exact absurd hruns Runs.throw_iff
  | succ depth ih =>
    rcases runs_typeOfAt_succ_iff.mp hruns with ⟨_, pointer, name, _, rfl, _⟩ | ⟨_, plan, hplan, ts, hts, rfl⟩
    · simp [TypeNode.same]
    · refine Plan.reflects_of h hplan ts fun part hpart => ?_
      obtain ⟨d, hd, _, _, hruns⟩ := Runs.exists_of_mem_mapM hts hpart
      exact ih (wellKeyed_of_asks h (Plan.asks_of_mem_parts hplan hd)) hruns

end Schema
end ClientBindings
