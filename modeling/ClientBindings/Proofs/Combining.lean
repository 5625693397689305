import ClientBindings.Proofs.Entries

/-! Entries combined under equal keys. A value that meets another one under its key is combined with it; putting
is the case in which the new value counts alone. Combining entries one after the other comes to the same as
combining what some of them come to, in the same order of keys. -/

namespace ClientBindings.Entries

variable {κ ν : Type} {same : κ → κ → Bool} {combine : κ → ν → ν → ν} {base es fs : List (κ × ν)} {key k : κ}
  {value u v : ν}

section
variable (same) (combine)

/-- Combines a value with the one under its key, or adds it at the end. -/
def amend : List (κ × ν) → κ → ν → List (κ × ν)
  | [], key, value => [(key, value)]
  | e :: rest, key, value =>
    if same e.1 key then (e.1, combine key e.2 value) :: rest else e :: amend rest key value

def amendAll (base update : List (κ × ν)) : List (κ × ν) :=
  update.foldl (fun acc e => amend same combine acc e.1 e.2) base

@[simp] theorem amendAll_nil : amendAll same combine base [] = base := rfl

@[simp] theorem amendAll_cons (e : κ × ν) :
    amendAll same combine base (e :: fs) = amendAll same combine (amend same combine base e.1 e.2) fs := rfl

end

/-! ## Putting -/

theorem amend_eq_put (h : ∀ u, combine key u value = value) : amend same combine es key value = put same es key value := by
  induction es with
  | nil => rfl
  | cons e es ih => rw [amend, put, ih, h]

theorem merge_eq_amendAll : merge same es fs = amendAll same (fun _ _ v => v) es fs := by
  induction fs generalizing es with
  | nil => rfl
  | cons f fs ih => rw [merge_cons, amendAll_cons, ih, amend_eq_put fun _ => rfl]

/-- What is found under a key may be combined before it is put back. -/
theorem put_combine (h : find? same es key = some u) :
    put same es key (combine key u value) = amend same combine es key value := by
  induction es with
  | nil => cases h
  | cons e es ih =>
    rw [find?_cons] at h
    rw [put, amend]
    split at h
    case isTrue he =>
      obtain rfl := Option.some.inj h
      rw [if_pos he, if_pos he]
    case isFalse he => rw [if_neg he, if_neg he, ih h]

theorem amend_eq_append (h : ∀ e ∈ es, ¬ same e.1 key = true) :
    amend same combine es key value = es ++ [(key, value)] := by
  induction es with
  | nil => rfl
  | cons e es ih =>
    rw [amend, if_neg (h e List.mem_cons_self), ih fun f hf => h f (List.mem_cons_of_mem e hf)]
    rfl

/-! ## Keys and values -/

theorem mem_amend {e : κ × ν} (h : e ∈ amend same combine es key value) :
    e ∈ es ∨ e = (key, value) ∨ ∃ u, (e.1, u) ∈ es ∧ same e.1 key = true ∧ e.2 = combine key u value := by
  induction es with
  | nil => exact .inr (.inl (List.mem_singleton.mp h))
  | cons f es ih =>
    rw [amend] at h
    split at h
    case isTrue hf =>
      rcases List.mem_cons.mp h with rfl | h
      · exact .inr (.inr ⟨f.2, List.mem_cons_self, hf, rfl⟩)
      · exact .inl (List.mem_cons_of_mem f h)
    case isFalse =>
      rcases List.mem_cons.mp h with rfl | h
      · exact .inl List.mem_cons_self
      · rcases ih h with h | h | ⟨u, hu, hkey, hvalue⟩
        · exact .inl (List.mem_cons_of_mem f h)
        · exact .inr (.inl h)
        · exact .inr (.inr ⟨u, List.mem_cons_of_mem f hu, hkey, hvalue⟩)

theorem forall_key_merge {p : κ → Prop} (hes : ∀ e ∈ es, p e.1) (hfs : ∀ f ∈ fs, p f.1) :
    ∀ e ∈ merge same es fs, p e.1 := by
  induction fs generalizing es with
  | nil => exact hes
  | cons f fs ih =>
    obtain ⟨hf, hrest⟩ := List.forall_mem_cons.mp hfs
    apply ih _ hrest
    intro e he
    rcases mem_put he with he | ⟨-, hkey | ⟨g, hg, hkey⟩⟩
    · exact hes e he
    · exact hkey ▸ hf
    · exact hkey ▸ hes g hg

/-- A key that is there stays. -/
theorem exists_key_amend (h : ∃ e ∈ es, same e.1 k = true) :
    ∃ e ∈ amend same combine es key value, same e.1 k = true := by
  induction es with
  | nil =>
    obtain ⟨e, he, -⟩ := h
    exact absurd he List.not_mem_nil
  | cons f es ih =>
    obtain ⟨e, he, hkey⟩ := h
    rw [amend]
    split
    · rcases List.mem_cons.mp he with rfl | he
      · exact ⟨_, List.mem_cons_self, hkey⟩
      · exact ⟨e, List.mem_cons_of_mem _ he, hkey⟩
    · rcases List.mem_cons.mp he with rfl | he
      · exact ⟨e, List.mem_cons_self, hkey⟩
      · obtain ⟨g, hg, hgk⟩ := ih ⟨e, he, hkey⟩
        exact ⟨g, List.mem_cons_of_mem _ hg, hgk⟩

theorem exists_key_of_amend (hk : Separates same k) (hkey : same key k = true) :
    ∃ e ∈ amend same combine es key value, same e.1 k = true := by
  induction es with
  | nil => exact ⟨(key, value), List.mem_cons_self, hkey⟩
  | cons f es ih =>
    rw [amend]
    split
    case isTrue hf => exact ⟨_, List.mem_cons_self, by rwa [hk.congr hf]⟩
    case isFalse =>
      obtain ⟨e, he, hek⟩ := ih
      exact ⟨e, List.mem_cons_of_mem f he, hek⟩

theorem Distinct.amend (h : Distinct same es) : Distinct same (amend same combine es key value) := by
  induction es with
  | nil => exact List.pairwise_singleton _ _
  | cons e es ih =>
    obtain ⟨hhead, htail⟩ := List.pairwise_cons.mp h
    rw [Entries.amend]
    split
    case isTrue => exact List.pairwise_cons.mpr ⟨hhead, htail⟩
    case isFalse he =>
      refine List.pairwise_cons.mpr ⟨?_, ih htail⟩
      intro f hf
      rcases mem_amend hf with hf | rfl | ⟨u, hu, -⟩
      · exact hhead f hf
      · exact he
      · exact hhead (f.1, u) hu

theorem find?_amend (hk : Separates same k) : find? same (amend same combine es key value) k =
    if same key k then some ((find? same es k).elim value (combine key · value)) else find? same es k := by
  induction es with
  | nil => rw [amend, find?_cons]; rfl
  | cons e es ih =>
    rw [amend, find?_cons]
    by_cases he : same e.1 key = true
    · rw [if_pos he, find?_cons, hk.congr he]
      split <;> rfl
    · rw [if_neg he, find?_cons, ih]
      by_cases h : same e.1 k = true
      · have hkey : ¬ same key k = true := fun hkey => he (hk.join h hkey)
        rw [if_pos h, if_pos h, if_neg hkey]
      · rw [if_neg h, if_neg h]

theorem find?_eq_none_of_distinct (hk : Separates same k) {e : κ × ν} (h : Distinct same (e :: es))
    (he : same e.1 k = true) : find? same es k = none := by
  rw [find?_eq_none_iff]
  intro f hf hfk
  exact (List.pairwise_cons.mp h).1 f hf (hk.join he hfk)

/-- What is found once entries are combined: the new value, with the one that was there. -/
theorem find?_amendAll (hk : Separates same k) {g : ν → ν → ν}
    (hg : ∀ key, same key k = true → ∀ u v, combine key u v = g u v) (hdistinct : Distinct same fs) :
    find? same (amendAll same combine es fs) k =
      ((find? same fs k).map fun v => (find? same es k).elim v (g · v)).or (find? same es k) := by
  induction fs generalizing es with
  | nil => rfl
  | cons f fs ih =>
    rw [amendAll_cons, ih (List.pairwise_cons.mp hdistinct).2, find?_amend hk, find?_cons]
    by_cases hf : same f.1 k = true
    · simp only [if_pos hf, find?_eq_none_of_distinct hk hdistinct hf, hg f.1 hf]
      rfl
    · rw [if_neg hf, if_neg hf]

theorem find?_amendAll_of_replaces (hk : Separates same k)
    (h : ∀ key, same key k = true → ∀ u v, combine key u v = v) (hdistinct : Distinct same fs) :
    find? same (amendAll same combine es fs) k = (find? same fs k).or (find? same es k) := by
  have hvalue : (fun v : ν => (find? same es k).elim v fun _ => v) = id := by
    funext v
    cases find? same es k <;> rfl
  rw [find?_amendAll hk h hdistinct, hvalue, Option.map_id_apply]

/-- Looking up a key among the entries that are kept, where only the value tells whether they are. -/
theorem find?_filter (hk : Separates same k) (hdistinct : Distinct same es) {p : κ × ν → Bool} {q : ν → Bool}
    (hp : ∀ e ∈ es, same e.1 k = true → p e = q e.2) : find? same (es.filter p) k = (find? same es k).filter q := by
  induction es with
  | nil => rfl
  | cons e es ih =>
    obtain ⟨he, hrest⟩ := List.forall_mem_cons.mp hp
    have htail := ih (List.pairwise_cons.mp hdistinct).2 hrest
    rw [List.filter_cons, find?_cons]
    by_cases hek : same e.1 k = true
    · rw [find?_eq_none_of_distinct hk hdistinct hek] at htail
      rw [if_pos hek, he hek, Option.filter_some]
      split
      · rw [find?_cons, if_pos hek]
      · exact htail
    · rw [if_neg hek, ← htail]
      split
      · rw [find?_cons, if_neg hek]
      · rfl

/-! ## Order -/

/-- A value may be combined with one that is there before another key is dealt with. -/
theorem amend_comm (hkey : Separates same key) (hne : ¬ same k key = true) (hmem : ∃ e ∈ es, same e.1 k = true) :
    amend same combine (amend same combine es key u) k v = amend same combine (amend same combine es k v) key u := by
  induction es with
  | nil =>
    obtain ⟨e, he, -⟩ := hmem
    exact absurd he List.not_mem_nil
  | cons e es ih =>
    by_cases hk : same e.1 k = true
    · have hother : ¬ same e.1 key = true := by rwa [hkey.congr hk]
      simp only [amend, if_pos hk, if_neg hother]
    · by_cases hother : same e.1 key = true
      · simp only [amend, if_neg hk, if_pos hother]
      · have htail : ∃ f ∈ es, same f.1 k = true := by
          obtain ⟨f, hf, hfk⟩ := hmem
          rcases List.mem_cons.mp hf with rfl | hf
          · exact absurd hfk hk
          · exact ⟨f, hf, hfk⟩
        simp only [amend, if_neg hk, if_neg hother, ih htail]

theorem amendAll_comm (hfs : ∀ f ∈ fs, Separates same f.1 ∧ ¬ same k f.1 = true)
    (hmem : ∃ e ∈ es, same e.1 k = true) :
    amend same combine (amendAll same combine es fs) k v = amendAll same combine (amend same combine es k v) fs := by
  induction fs generalizing es with
  | nil => rfl
  | cons f fs ih =>
    obtain ⟨⟨hf, hne⟩, hrest⟩ := List.forall_mem_cons.mp hfs
    rw [amendAll_cons, amendAll_cons, ih hrest (exists_key_amend hmem), amend_comm hf hne hmem]

/-- Two values combined under one key, one after the other. -/
theorem amend_amend (hk : Separates same k) (hkey : same key k = true)
    (hassoc : ∀ t, combine k (combine key t u) v = combine key t (combine k u v)) :
    amend same combine (amend same combine es key u) k v = amend same combine es key (combine k u v) := by
  induction es with
  | nil => simp only [amend, if_pos hkey]
  | cons e es ih =>
    by_cases he : same e.1 key = true
    · have hek : same e.1 k = true := by rwa [hk.congr he]
      simp only [amend, if_pos he, if_pos hek, hassoc]
    · have hek : ¬ same e.1 k = true := fun hek => he (hk.join hek hkey)
      simp only [amend, if_neg he, if_neg hek, ih]

/-- A way of combining values, lawful for keys and values that are good. -/
structure Combines (same : κ → κ → Bool) (combine : κ → ν → ν → ν) (Good : κ → ν → Prop) : Prop where
  separates : ∀ {key v}, Good key v → Separates same key
  combined : ∀ {key k u v}, same key k = true → Good key u → Good k v → Good key (combine k u v)
  assoc : ∀ {key k u v}, same key k = true → Good key u → Good k v → ∀ t,
    combine k (combine key t u) v = combine key t (combine k u v)

variable {Good : κ → ν → Prop}

theorem Combines.good_amend (h : Combines same combine Good) (hes : ∀ e ∈ es, Good e.1 e.2) (hvalue : Good key value) :
    ∀ e ∈ amend same combine es key value, Good e.1 e.2 := by
  intro e he
  rcases mem_amend he with he | rfl | ⟨u, hu, hkey, hvalueOf⟩
  · exact hes e he
  · exact hvalue
  · exact hvalueOf ▸ h.combined hkey (hes _ hu) hvalue

theorem Combines.amendAll_amend (h : Combines same combine Good) (hes : ∀ e ∈ es, Good e.1 e.2)
    (hdistinct : Distinct same es) (hvalue : Good key value) :
    amendAll same combine base (amend same combine es key value) =
      amend same combine (amendAll same combine base es) key value := by
  induction es generalizing base with
  | nil => rfl
  | cons e es ih =>
    obtain ⟨he, hrest⟩ := List.forall_mem_cons.mp hes
    obtain ⟨hhead, htail⟩ := List.pairwise_cons.mp hdistinct
    rw [amend]
    split
    case isTrue hkey =>
      -- the key stands first, and no later one is the same
      have hlater : ∀ f ∈ es, Separates same f.1 ∧ ¬ same key f.1 = true := by
        intro f hf
        have hf' := h.separates (hrest f hf)
        exact ⟨hf', hf'.congr hkey ▸ hhead f hf⟩
      have hthere : ∃ f ∈ amend same combine base e.1 e.2, same f.1 key = true :=
        exists_key_of_amend (h.separates hvalue) hkey
      rw [amendAll_cons, amendAll_cons, amendAll_comm hlater hthere,
        amend_amend (h.separates hvalue) hkey (h.assoc hkey he hvalue)]
    case isFalse => rw [amendAll_cons, amendAll_cons, ih hrest htail]

/-- Combining entries that were combined with each other before. -/
theorem Combines.amendAll_amendAll (h : Combines same combine Good) (hes : ∀ e ∈ es, Good e.1 e.2)
    (hdistinct : Distinct same es) (hfs : ∀ f ∈ fs, Good f.1 f.2) :
    amendAll same combine base (amendAll same combine es fs) =
      amendAll same combine (amendAll same combine base es) fs := by
  induction fs generalizing es with
  | nil => rfl
  | cons f fs ih =>
    obtain ⟨hf, hrest⟩ := List.forall_mem_cons.mp hfs
    rw [amendAll_cons, amendAll_cons, ih (h.good_amend hes hf) hdistinct.amend hrest, h.amendAll_amend hes hdistinct hf]

theorem Combines.good_amendAll (h : Combines same combine Good) (hes : ∀ e ∈ es, Good e.1 e.2)
    (hfs : ∀ f ∈ fs, Good f.1 f.2) : ∀ e ∈ amendAll same combine es fs, Good e.1 e.2 := by
  induction fs generalizing es with
  | nil => exact hes
  | cons f fs ih =>
    obtain ⟨hf, hrest⟩ := List.forall_mem_cons.mp hfs
    exact ih (h.good_amend hes hf) hrest

theorem Distinct.amendAll (h : Distinct same es) : Distinct same (amendAll same combine es fs) := by
  induction fs generalizing es with
  | nil => exact h
  | cons f fs ih => exact ih h.amend

/-- Entries laid over themselves, if every value is the same when combined with itself. -/
theorem amendAll_self (hdistinct : Distinct same es)
    (h : ∀ e ∈ es, same e.1 e.1 = true ∧ combine e.1 e.2 e.2 = e.2) : amendAll same combine es es = es := by
  have hone : ∀ {gs : List (κ × ν)}, Distinct same gs → ∀ e ∈ gs, same e.1 e.1 = true → combine e.1 e.2 e.2 = e.2 →
      amend same combine gs e.1 e.2 = gs := by
    intro gs hgs e he hkey hvalue
    induction gs with
    | nil => exact absurd he List.not_mem_nil
    | cons g gs ih =>
      obtain ⟨hhead, htail⟩ := List.pairwise_cons.mp hgs
      rw [amend]
      rcases List.mem_cons.mp he with rfl | he
      · rw [if_pos hkey, hvalue]
      · rw [if_neg (hhead e he), ih htail he]
  suffices hsome : ∀ fs, fs ⊆ es → amendAll same combine es fs = es from hsome es (List.Subset.refl es)
  intro fs hfs
  induction fs with
  | nil => rfl
  | cons f fs ih =>
    obtain ⟨hf, hrest⟩ := List.cons_subset.mp hfs
    rw [amendAll_cons, hone hdistinct f hf (h f hf).1 (h f hf).2, ih hrest]

theorem amendAll_append (fs gs : List (κ × ν)) :
    amendAll same combine es (fs ++ gs) = amendAll same combine (amendAll same combine es fs) gs :=
  List.foldl_append

theorem combines_put : Combines same (fun (_ : κ) (_ v : ν) => v) fun key _ => Separates same key where
  separates h := h
  combined _ hkey _ := hkey
  assoc _ _ _ _ := rfl

theorem merge_merge (hes : ∀ e ∈ es, Separates same e.1) (hdistinct : Distinct same es)
    (hfs : ∀ f ∈ fs, Separates same f.1) :
    merge same base (merge same es fs) = merge same (merge same base es) fs := by
  simp only [merge_eq_amendAll]
  exact combines_put.amendAll_amendAll hes hdistinct hfs

end ClientBindings.Entries
