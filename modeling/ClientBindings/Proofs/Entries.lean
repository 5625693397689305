import ClientBindings.Wire.Value

/-! Looking up what was put into entries. The laws hold for every way of comparing keys that is an
equivalence; the comparison of scalars is one, although it identifies numbers of different kinds. -/

namespace ClientBindings

theorem Scalar.same_iff {a b : Scalar} : a.same b = true ↔ a = b ∨ ∃ n, a.whole? = some n ∧ b.whole? = some n := by
  rw [Scalar.same, Bool.or_eq_true, beq_iff_eq]
  apply or_congr Iff.rfl
  constructor
  · intro h
    split at h
    · rename_i m n hm hn
      have hmn : m = n := by simpa using h
      exact ⟨n, hmn ▸ hm, hn⟩
    · cases h
  · rintro ⟨n, ha, hb⟩
    rw [ha, hb]
    exact beq_self_eq_true n

theorem Scalar.same_equivalence : Equivalence fun a b : Scalar => a.same b = true where
  refl := Scalar.same_refl
  symm := by
    intro a b h
    rcases Scalar.same_iff.mp h with rfl | ⟨n, ha, hb⟩
    · exact h
    · exact Scalar.same_iff.mpr (Or.inr ⟨n, hb, ha⟩)
  trans := by
    intro a b c hab hbc
    rcases Scalar.same_iff.mp hab with rfl | ⟨n, ha, hb⟩
    · exact hbc
    rcases Scalar.same_iff.mp hbc with rfl | ⟨m, hb', hc⟩
    · exact hab
    obtain rfl : n = m := Option.some.inj (hb.symm.trans hb')
    exact Scalar.same_iff.mpr (Or.inr ⟨n, ha, hc⟩)

@[simp] theorem Scalar.same_str_right {a : Scalar} {text : String} : a.same (.str text) = true ↔ a = .str text := by
  rw [Scalar.same_iff]
  simp [Scalar.whole?]

@[simp] theorem Scalar.same_str_left {a : Scalar} {text : String} : Scalar.same (.str text) a = true ↔ a = .str text := by
  rw [Scalar.same_iff]
  simp [Scalar.whole?, eq_comm]

namespace Entries
variable {κ ν : Type} {same : κ → κ → Bool} {es fs : List (κ × ν)} {key k : κ} {value v : ν}

/-! ## Keys that are compared for equality -/

section
variable [BEq κ] [LawfulBEq κ]

theorem mem_of_lookup (h : es.lookup k = some v) : (k, v) ∈ es := by
  obtain ⟨before, after, rfl, _⟩ := List.lookup_eq_some_iff.mp h
  exact List.mem_append_right before List.mem_cons_self

theorem lookup_of_mem (h : (es.map Prod.fst).Nodup) (hmem : (k, v) ∈ es) : es.lookup k = some v := by
  obtain ⟨before, after, rfl⟩ := List.append_of_mem hmem
  refine List.lookup_eq_some_iff.mpr ⟨before, after, rfl, ?_⟩
  intro e he
  rw [List.map_append, List.map_cons] at h
  have hne := (List.nodup_append.mp h).2.2 e.1 (List.mem_map_of_mem he) k List.mem_cons_self
  simpa using Ne.symm hne

theorem lookup_perm (h : es.Perm fs) (hdistinct : (fs.map Prod.fst).Nodup) (k : κ) : es.lookup k = fs.lookup k := by
  apply Option.ext
  intro v
  constructor
  · intro hv
    exact lookup_of_mem hdistinct (h.mem_iff.mp (mem_of_lookup hv))
  · intro hv
    exact lookup_of_mem ((h.map Prod.fst).nodup_iff.mpr hdistinct) (h.mem_iff.mpr (mem_of_lookup hv))

theorem lookup_filter_key (p : κ → Bool) : (es.filter fun e => p e.1).lookup k = if p k then es.lookup k else none := by
  induction es with
  | nil => simp
  | cons e es ih =>
    obtain ⟨key, value⟩ := e
    rw [List.filter_cons, List.lookup_cons]
    by_cases hk : k = key
    · subst hk
      by_cases hp : p k = true <;> simp [hp, ih]
    · have hne : (k == key) = false := by simpa using hk
      by_cases hp : p key = true <;> simp [hp, List.lookup_cons, hne, ih]

theorem beq_equivalence : Equivalence fun a b : κ => (a == b) = true := by
  simp only [beq_iff_eq]
  exact ⟨fun _ => rfl, Eq.symm, Eq.trans⟩

end

/-! ## Any comparison of keys -/

/-- No key occurs twice. -/
def Distinct (same : κ → κ → Bool) (es : List (κ × ν)) : Prop :=
  es.Pairwise fun e f => ¬ same e.1 f.1 = true

theorem find?_cons (e : κ × ν) : find? same (e :: es) k = if same e.1 k then some e.2 else find? same es k := by
  unfold find?
  rw [List.find?_cons]
  cases same e.1 k <;> rfl

theorem find?_eq_lookup [BEq κ] [LawfulBEq κ] : find? (· == ·) es k = es.lookup k := by
  induction es with
  | nil => rfl
  | cons e es ih =>
    obtain ⟨key, value⟩ := e
    rw [find?_cons, List.lookup_cons, ih, BEq.comm]
    cases k == key <;> rfl

theorem distinct_of_nodup [BEq κ] [LawfulBEq κ] (h : (es.map Prod.fst).Nodup) : Distinct (· == ·) es := by
  apply (List.pairwise_map.mp h).imp
  intro e f hne hsame
  exact hne (beq_iff_eq.mp hsame)

theorem mem_of_find? (h : find? same es k = some v) : ∃ key, (key, v) ∈ es ∧ same key k = true := by
  obtain ⟨e, he, rfl⟩ := Option.map_eq_some_iff.mp h
  exact ⟨e.1, List.mem_of_find?_eq_some he, by simpa using List.find?_some he⟩

theorem find?_eq_none_iff : find? same es k = none ↔ ∀ e ∈ es, ¬ same e.1 k = true := by
  simp [find?]

theorem find?_append : find? same (es ++ fs) k = (find? same es k).or (find? same fs k) := by
  unfold find?
  rw [List.find?_append]
  cases es.find? fun e => same e.1 k <;> rfl

theorem find?_congr (hsame : Equivalence fun a b => same a b = true) (h : same key k = true) :
    find? same es key = find? same es k := by
  induction es with
  | nil => rfl
  | cons e es ih =>
    have hiff : same e.1 key = same e.1 k := by
      rw [Bool.eq_iff_iff]
      exact ⟨fun he => hsame.trans he h, fun he => hsame.trans he (hsame.symm h)⟩
    rw [find?_cons, find?_cons, ih, hiff]

/-- What looking up a key needs of the comparison: it may be no equivalence elsewhere. -/
structure Separates (same : κ → κ → Bool) (k : κ) : Prop where
  congr : ∀ {a b}, same a b = true → same a k = same b k
  join : ∀ {a b}, same a k = true → same b k = true → same a b = true

theorem separates_of_equivalence (hsame : Equivalence fun a b => same a b = true) : Separates same k where
  congr := by
    intro a b hab
    rw [Bool.eq_iff_iff]
    exact ⟨fun h => hsame.trans (hsame.symm hab) h, fun h => hsame.trans hab h⟩
  join ha hb := hsame.trans ha (hsame.symm hb)

theorem find?_put_of_separates (hk : Separates same k) :
    find? same (put same es key value) k = if same key k then some value else find? same es k := by
  induction es with
  | nil => rw [put_nil, find?_cons]
  | cons e es ih =>
    rw [put]
    by_cases he : same e.1 key = true
    · rw [if_pos he, find?_cons, find?_cons, hk.congr he]
      split <;> rfl
    · rw [if_neg he, find?_cons, find?_cons, ih]
      by_cases h : same e.1 k = true
      · have hkey : ¬ same key k = true := fun hkey => he (hk.join h hkey)
        rw [if_pos h, if_pos h, if_neg hkey]
      · rw [if_neg h, if_neg h]

theorem find?_put (hsame : Equivalence fun a b => same a b = true) :
    find? same (put same es key value) k = if same key k then some value else find? same es k :=
  find?_put_of_separates (separates_of_equivalence hsame)

theorem put_of_find? (h : find? same es k = some v) : put same es k v = es := by
  induction es with
  | nil => cases h
  | cons e es ih =>
    rw [find?_cons] at h
    rw [put]
    split at h
    · rename_i he
      obtain rfl := Option.some.inj h
      rw [if_pos he]
    · rename_i he
      rw [if_neg he, ih h]

theorem mem_put {e : κ × ν} (h : e ∈ put same es key value) :
    e ∈ es ∨ e.2 = value ∧ (e.1 = key ∨ ∃ f ∈ es, f.1 = e.1) := by
  induction es with
  | nil => exact Or.inr (by simp_all [put])
  | cons f es ih =>
    rw [put] at h
    split at h
    · rcases List.mem_cons.mp h with rfl | h
      · exact Or.inr ⟨rfl, Or.inr ⟨f, List.mem_cons_self, rfl⟩⟩
      · exact Or.inl (List.mem_cons_of_mem f h)
    · rcases List.mem_cons.mp h with rfl | h
      · exact Or.inl List.mem_cons_self
      · rcases ih h with h | ⟨hvalue, h | ⟨g, hg, h⟩⟩
        · exact Or.inl (List.mem_cons_of_mem f h)
        · exact Or.inr ⟨hvalue, Or.inl h⟩
        · exact Or.inr ⟨hvalue, Or.inr ⟨g, List.mem_cons_of_mem f hg, h⟩⟩

/-- Merging brings in no values. -/
theorem snd_mem_of_mem_merge {e : κ × ν} (h : e ∈ merge same es fs) : e.2 ∈ (es ++ fs).map Prod.snd := by
  induction fs generalizing es with
  | nil =>
    rw [merge_nil] at h
    exact List.mem_map_of_mem (List.mem_append_left _ h)
  | cons f fs ih =>
    obtain ⟨g, hg, heq⟩ := List.mem_map.mp (ih h)
    rw [← heq]
    rcases List.mem_append.mp hg with hg | hg
    · rcases mem_put hg with hg | ⟨hvalue, _⟩
      · exact List.mem_map_of_mem (List.mem_append_left _ hg)
      · rw [hvalue]
        exact List.mem_map_of_mem (List.mem_append_right _ List.mem_cons_self)
    · exact List.mem_map_of_mem (List.mem_append_right _ (List.mem_cons_of_mem f hg))

theorem Distinct.put (h : Distinct same es) : Distinct same (put same es key value) := by
  induction es with
  | nil => exact List.pairwise_singleton _ _
  | cons e es ih =>
    obtain ⟨hhead, htail⟩ := List.pairwise_cons.mp h
    rw [Entries.put]
    by_cases he : same e.1 key = true
    · rw [if_pos he]
      exact List.pairwise_cons.mpr ⟨hhead, htail⟩
    · rw [if_neg he]
      refine List.pairwise_cons.mpr ⟨?_, ih htail⟩
      intro f hf
      rcases mem_put hf with hf | ⟨_, rfl | ⟨g, hg, hgf⟩⟩
      · exact hhead f hf
      · exact he
      · exact hgf ▸ hhead g hg

theorem find?_of_mem (hsame : Equivalence fun a b => same a b = true) (h : Distinct same es)
    (hmem : (key, value) ∈ es) : find? same es key = some value := by
  induction es with
  | nil => exact absurd hmem List.not_mem_nil
  | cons e es ih =>
    obtain ⟨hhead, htail⟩ := List.pairwise_cons.mp h
    rw [find?_cons]
    rcases List.mem_cons.mp hmem with rfl | hmem
    · rw [if_pos (hsame.refl key)]
    · rw [if_neg (hhead _ hmem), ih htail hmem]

theorem put_eq_append (h : ∀ e ∈ es, ¬ same e.1 key = true) : put same es key value = es ++ [(key, value)] := by
  induction es with
  | nil => rfl
  | cons e es ih =>
    rw [put, if_neg (h e List.mem_cons_self), ih fun f hf => h f (List.mem_cons_of_mem e hf)]
    rfl

/-- Entries of distinct keys are kept as they are. -/
theorem merge_eq_append (h : Distinct same (es ++ fs)) : merge same es fs = es ++ fs := by
  induction fs generalizing es with
  | nil => rw [merge_nil, List.append_nil]
  | cons f fs ih =>
    have hfresh : ∀ e ∈ es, ¬ same e.1 f.1 = true := fun e he =>
      (List.pairwise_append.mp h).2.2 e he f List.mem_cons_self
    have hassoc : es ++ f :: fs = es ++ [f] ++ fs := by simp
    rw [merge_cons, put_eq_append hfresh, hassoc]
    exact ih (hassoc ▸ h)

theorem find?_merge (hsame : Equivalence fun a b => same a b = true) (h : Distinct same fs) :
    find? same (merge same es fs) k = (find? same fs k).or (find? same es k) := by
  induction fs generalizing es with
  | nil => rfl
  | cons f fs ih =>
    obtain ⟨hhead, htail⟩ := List.pairwise_cons.mp h
    rw [merge_cons, ih htail, find?_put hsame, find?_cons]
    by_cases hf : same f.1 k = true
    · have hnone : find? same fs k = none := by
        rw [find?_eq_none_iff]
        intro g hg hgk
        exact hhead g hg (hsame.trans hf (hsame.symm hgk))
      rw [if_pos hf, if_pos hf, hnone]
      rfl
    · rw [if_neg hf, if_neg hf]

theorem Distinct.merge (h : Distinct same es) : Distinct same (merge same es fs) := by
  induction fs generalizing es with
  | nil => exact h
  | cons f fs ih =>
    rw [merge_cons]
    exact ih h.put

section
variable [BEq κ] [LawfulBEq κ]

theorem lookup_merge (h : (fs.map Prod.fst).Nodup) (k : κ) :
    (merge (· == ·) es fs).lookup k = (fs.lookup k).or (es.lookup k) := by
  rw [← find?_eq_lookup, find?_merge beq_equivalence (distinct_of_nodup h), find?_eq_lookup, find?_eq_lookup]

theorem nodup_keys_merge (h : (es.map Prod.fst).Nodup) : ((merge (· == ·) es fs).map Prod.fst).Nodup := by
  apply List.pairwise_map.mpr
  apply (distinct_of_nodup h).merge.imp
  intro e f hne heq
  exact hne (beq_iff_eq.mpr heq)

end

/-- Of several entries with one key the last one counts. -/
theorem find?_merge_last (hk : Separates same k) :
    find? same (merge same es fs) k = (find? same fs.reverse k).or (find? same es k) := by
  induction fs generalizing es with
  | nil => rfl
  | cons f fs ih =>
    rw [merge_cons, ih, find?_put_of_separates hk, List.reverse_cons, find?_append, Option.or_assoc, find?_cons]
    split <;> rfl

theorem find?_ofList (hsame : Equivalence fun a b => same a b = true) :
    find? same (ofList same es) k = find? same es.reverse k := by
  have hmerged : find? same (ofList same es) k = (find? same es.reverse k).or none :=
    find?_merge_last (separates_of_equivalence hsame)
  rw [hmerged, Option.or_none]

/-- Every key is found again, with the value of one of its entries. -/
theorem exists_find?_ofList (hsame : Equivalence fun a b => same a b = true) {e : κ × ν} (he : e ∈ es) :
    ∃ key v, (key, v) ∈ es ∧ same key e.1 = true ∧ find? same (ofList same es) e.1 = some v := by
  rw [find?_ofList hsame]
  cases hlast : find? same es.reverse e.1 with
  | none =>
    have hno := find?_eq_none_iff.mp hlast e (List.mem_reverse.mpr he)
    exact absurd (hsame.refl e.1) hno
  | some v =>
    obtain ⟨key, hmem, hkey⟩ := mem_of_find? hlast
    exact ⟨key, v, List.mem_reverse.mp hmem, hkey, rfl⟩

/-- Entries with the same keys whose values are related hold related values under every key. -/
theorem find?_aligned {P : κ → ν → ν → Prop} (hkeys : es.map Prod.fst = fs.map Prod.fst)
    (h : ∀ (i : Nat) (e f : κ × ν), es[i]? = some e → fs[i]? = some f → P e.1 e.2 f.2) (k : κ) :
    (find? same es k = none ∧ find? same fs k = none) ∨
      ∃ key v w, same key k = true ∧ find? same es k = some v ∧ find? same fs k = some w ∧ P key v w := by
  induction es generalizing fs with
  | nil =>
    obtain rfl : fs = [] := by simpa using hkeys.symm
    exact Or.inl ⟨rfl, rfl⟩
  | cons e es ih =>
    cases fs with
    | nil => simp at hkeys
    | cons f fs =>
      obtain ⟨hkey, hkeys⟩ := List.cons.inj hkeys
      rw [find?_cons, find?_cons, ← hkey]
      by_cases he : same e.1 k = true
      · rw [if_pos he, if_pos he]
        exact Or.inr ⟨e.1, e.2, f.2, he, rfl, rfl, h 0 e f rfl rfl⟩
      · rw [if_neg he, if_neg he]
        exact ih hkeys fun i e' f' he' hf' => h (i + 1) e' f' he' hf'

end Entries

/-! ## Equality of values -/

namespace Data

theorem same_of_mem_sameEntries {es fs : Fields} {key : Scalar} {v : Data} (h : sameEntries es fs = true)
    (hmem : (key, v) ∈ es) : ∃ w, Entries.find? Scalar.same fs key = some w ∧ v.same w = true := by
  induction es with
  | nil => exact absurd hmem List.not_mem_nil
  | cons e es ih =>
    rw [sameEntries, Bool.and_eq_true] at h
    rcases List.mem_cons.mp hmem with rfl | hmem
    · cases hfind : Entries.find? Scalar.same fs key with
      | none => simp [hfind] at h
      | some w => exact ⟨w, rfl, by simpa [hfind] using h.1⟩
    · exact ih h.2 hmem

mutual
theorem same_trans : ∀ {a b c : Data}, a.same b = true → b.same c = true → a.same c = true
  | .scalar a, .scalar b, .scalar c, hab, hbc => by
    rw [same] at hab hbc ⊢
    exact Scalar.same_equivalence.trans hab hbc
  | .list xs, .list ys, .list zs, hab, hbc => by
    rw [same] at hab hbc ⊢
    exact sameItems_trans hab hbc
  | .tuple xs, .tuple ys, .tuple zs, hab, hbc => by
    rw [same] at hab hbc ⊢
    exact sameItems_trans hab hbc
  | .map es, .map fs, .map gs, hab, hbc => by
    rw [same, Bool.and_eq_true, beq_iff_eq] at hab hbc ⊢
    exact ⟨hab.1.trans hbc.1, sameEntries_trans hab.2 hbc.2⟩
theorem sameItems_trans : ∀ {xs ys zs : List Data}, sameItems xs ys = true → sameItems ys zs = true →
    sameItems xs zs = true
  | [], [], [], _, _ => rfl
  | x :: xs, y :: ys, z :: zs, hxy, hyz => by
    rw [sameItems, Bool.and_eq_true] at hxy hyz ⊢
    exact ⟨same_trans hxy.1 hyz.1, sameItems_trans hxy.2 hyz.2⟩
theorem sameEntries_trans : ∀ {es fs gs : Fields}, sameEntries es fs = true → sameEntries fs gs = true →
    sameEntries es gs = true
  | [], _, _, _, _ => by rw [sameEntries]
  | (k, v) :: es, fs, gs, hef, hfg => by
    obtain ⟨w, hw, hvw⟩ := same_of_mem_sameEntries hef List.mem_cons_self
    rw [sameEntries, Bool.and_eq_true] at hef ⊢
    obtain ⟨key, hmem, hkey⟩ := Entries.mem_of_find? hw
    obtain ⟨u, hu, hwu⟩ := same_of_mem_sameEntries hfg hmem
    rw [← Entries.find?_congr Scalar.same_equivalence hkey, hu]
    exact ⟨same_trans hvw hwu, sameEntries_trans hef.2 hfg⟩
end

end Data

namespace Value

theorem same_str_right {v : Value} {text : String} : v.same (.str text) = true ↔ v = .str text := by
  cases v with
  | scalar s =>
    rw [same, Bool.and_eq_true, Scalar.same_str_right, Value.scalar.injEq]
    exact ⟨And.left, fun h => ⟨h, h ▸ rfl⟩⟩
  | _ => exact ⟨fun h => (nomatch h), fun h => (nomatch h)⟩

theorem same_str_left {v : Value} {text : String} : Value.same (.str text) v = true ↔ v = .str text := by
  cases v with
  | scalar s =>
    rw [same, Bool.and_eq_true, Scalar.same_str_left, Value.scalar.injEq]
    exact ⟨And.left, fun h => ⟨h, rfl⟩⟩
  | _ => exact ⟨fun h => (nomatch h), fun h => (nomatch h)⟩

theorem separates_str (text : String) : Entries.Separates Value.same (.str text) where
  congr := by
    intro a b hab
    rw [Bool.eq_iff_iff, same_str_right, same_str_right]
    constructor
    · rintro rfl
      exact same_str_left.mp hab
    · rintro rfl
      exact same_str_right.mp hab
  join := by
    intro a b ha hb
    rw [same_str_right.mp ha, same_str_right.mp hb]
    exact same_str_right.mpr rfl

theorem getD_put {entries : Fields} {key : String} {v : Value} (other : String) :
    getD (put entries key v) other = if key = other then v else getD entries other := by
  have hsame : Value.same (.str key) (.str other) = true ↔ key = other := by
    simp [same_str_right]
  rw [getD, getD, find?, find?, put, Entries.find?_put_of_separates (separates_str other)]
  by_cases h : key = other
  · rw [if_pos (hsame.mpr h), if_pos h]
    rfl
  · rw [if_neg (mt hsame.mp h), if_neg h]

end Value
end ClientBindings
