import ClientBindings.Proofs.Bundle.Rewritten
import ClientBindings.Proofs.FreshName
import ClientBindings.Proofs.Runs

/-! What a walk leaves in the tables. A target has its place before it has its content, so the tables
are compared at the two ends of a walk: every place that was given out in between has been filled, and
no place that was taken before has been touched. -/

namespace ClientBindings.Bundle

open Data

/-- The names in use in a component section. -/
def State.taken (s : State) (sectionName : String) : List String :=
  (Entries.find? Scalar.same s.names (.str sectionName)).getD []

/-- What has been kept under two keys. -/
def State.content? (s : State) (sectionName name : Scalar) : Option Data :=
  (Entries.find? Scalar.same s.copied sectionName).bind fun entries =>
    Entries.find? Scalar.same entries name

def State.contentAt? (s : State) (place : Place) : Option Data :=
  s.content? (.str place.sectionName) (.str place.name)

def State.Claimed (s : State) (place : Place) : Prop := place.name ∈ s.taken place.sectionName

/-- Tables that agree with each other and with the documents read. -/
structure Sound (source : Source) (s : State) : Prop where
  documents : ∀ location document, Entries.find? (· == ·) s.documents location = some document →
    source.read location = .ok document
  targets : (s.targets.map Prod.fst).Nodup
  places : (s.targets.map Prod.snd).Nodup
  claimed : ∀ target place, (target, place) ∈ s.targets → s.Claimed place
  sections : Entries.Distinct Scalar.same s.copied
  entries : ∀ sectionName es, Entries.find? Scalar.same s.copied sectionName = some es →
    Entries.Distinct Scalar.same es
  kept : ∀ sectionName name content, s.content? sectionName name = some content →
    ∃ target place, (target, place) ∈ s.targets ∧ sectionName = .str place.sectionName ∧
      name = .str place.name

/-- The content of a place is the rewritten copy of what its target stands for. -/
def Filled (source : Source) (t : State) (target : Target) (place : Place) : Prop :=
  ∃ node content, Designates source target node ∧ t.contentAt? place = some content ∧
    Rewritten source t.targets target.location place.path node content

/-- What has happened to the tables between two states of a walk. -/
structure Progress (source : Source) (s t : State) : Prop where
  targets : s.targets <+: t.targets
  claimed : ∀ place, s.Claimed place → t.Claimed place
  untouched : ∀ place, s.Claimed place → t.contentAt? place = s.contentAt? place
  filled : ∀ target place, (target, place) ∈ t.targets → (target, place) ∉ s.targets →
    ¬ s.Claimed place ∧ Filled source t target place

section
variable {source : Source} {s t u : State}

theorem Progress.refl (source : Source) (s : State) : Progress source s s where
  targets := List.prefix_refl _
  claimed _ h := h
  untouched _ _ := rfl
  filled _ _ h hnot := absurd h hnot

theorem Progress.trans (hu : Sound source u) (h : Progress source s u) (h' : Progress source u t) :
    Progress source s t where
  targets := h.targets.trans h'.targets
  claimed place hplace := h'.claimed place (h.claimed place hplace)
  untouched place hplace := (h'.untouched place (h.claimed place hplace)).trans (h.untouched place hplace)
  filled := by
    intro target place hmem hnot
    by_cases hmid : (target, place) ∈ u.targets
    · obtain ⟨hfresh, node, content, hnode, hcontent, hrewritten⟩ := h.filled target place hmid hnot
      refine ⟨hfresh, node, content, hnode, ?_, hrewritten.mono h'.targets.subset⟩
      rw [h'.untouched place (hu.claimed target place hmid), hcontent]
    · obtain ⟨hfresh, hfilled⟩ := h'.filled target place hmem hmid
      exact ⟨fun hplace => hfresh (h.claimed place hplace), hfilled⟩

/-! ## Claiming, reading and keeping -/

theorem runs_claim_iff {sectionName name fresh : String} :
    Runs (claim sectionName name) s fresh t ↔ fresh = freshName (s.taken sectionName) name ∧
      t = { s with names := Entries.put Scalar.same s.names (.str sectionName) (fresh :: s.taken sectionName) } := by
  simp only [claim, Runs.bind_iff, Runs.get_iff, Runs.set_iff, Runs.pure_iff]
  constructor
  · rintro ⟨_, _, ⟨rfl, rfl⟩, _, _, rfl, rfl, rfl⟩
    exact ⟨rfl, rfl⟩
  · rintro ⟨rfl, rfl⟩
    exact ⟨_, _, ⟨rfl, rfl⟩, ⟨⟩, _, rfl, rfl, rfl⟩

/-- The tables apart from the documents are the same. -/
structure SameTables (s t : State) : Prop where
  names : t.names = s.names
  targets : t.targets = s.targets
  copied : t.copied = s.copied

theorem runs_fetch {location : String} {document : Data} (hs : Sound source s)
    (h : Runs (fetch source location) s document t) :
    source.read location = .ok document ∧ Sound source t ∧ SameTables s t := by
  simp only [fetch, Runs.bind_iff, Runs.get_iff] at h
  obtain ⟨_, _, ⟨rfl, rfl⟩, h⟩ := h
  split at h
  · rename_i d hd
    obtain ⟨rfl, rfl⟩ := Runs.pure_iff.mp h
    exact ⟨hs.documents location document hd, hs, rfl, rfl, rfl⟩
  · simp only [Runs.bind_iff, Runs.set_iff, Runs.lift_iff, Runs.modify_iff, Runs.pure_iff] at h
    obtain ⟨_, _, rfl, d, _, ⟨hread, rfl⟩, _, _, rfl, rfl, rfl⟩ := h
    refine ⟨hread, { hs with documents := ?_ }, rfl, rfl, rfl⟩
    intro l e hl
    rw [Entries.find?_append, Option.or_eq_some_iff] at hl
    rcases hl with hl | ⟨_, hl⟩
    · exact hs.documents l e hl
    · obtain ⟨_, hmem, hkey⟩ := Entries.mem_of_find? hl
      obtain ⟨rfl, rfl⟩ := Prod.mk.inj (List.mem_singleton.mp hmem)
      rw [← beq_iff_eq.mp hkey, hread]

theorem runs_lookup {target : Target} {ref : String} {node : Data} (hs : Sound source s)
    (h : Runs (lookup source target ref) s node t) :
    Designates source target node ∧ Sound source t ∧ SameTables s t := by
  simp only [lookup, Runs.bind_iff, Runs.lift_iff] at h
  obtain ⟨document, u, hfetch, found, v, ⟨hfound, rfl⟩, h⟩ := h
  obtain ⟨hread, hv, htables⟩ := runs_fetch hs hfetch
  cases found with
  | none => exact absurd h Runs.throw_iff
  | some d =>
    obtain ⟨rfl, rfl⟩ := Runs.pure_iff.mp h
    exact ⟨⟨document, hread, hfound⟩, hv, htables⟩

/-! ## Giving a target its place -/

/-- The tables with a place for a further target. -/
def State.given (s : State) (target : Target) (place : Place) : State :=
  { s with names := Entries.put Scalar.same s.names (.str place.sectionName)
                      (place.name :: s.taken place.sectionName)
           targets := s.targets ++ [(target, place)] }

theorem claimed_given_iff {target : Target} {place p : Place} :
    (s.given target place).Claimed p ↔ p = place ∨ s.Claimed p := by
  have htaken : (s.given target place).taken p.sectionName =
      if p.sectionName = place.sectionName then place.name :: s.taken place.sectionName
      else s.taken p.sectionName := by
    rw [State.taken, State.given, Entries.find?_put Scalar.same_equivalence]
    simp only [Scalar.same_str_left, Scalar.str.injEq]
    split <;> rfl
  rw [State.Claimed, htaken]
  by_cases hsection : p.sectionName = place.sectionName
  · rw [if_pos hsection, List.mem_cons, State.Claimed, hsection]
    apply or_congr_left
    constructor
    · intro hname
      cases p
      cases place
      simp_all
    · rintro rfl
      rfl
  · rw [if_neg hsection]
    constructor
    · exact Or.inr
    · rintro (rfl | hplace)
      · exact absurd rfl hsection
      · exact hplace

theorem Sound.given (hs : Sound source s) {target : Target} {place : Place}
    (htarget : target ∉ s.targets.map Prod.fst) (hplace : ¬ s.Claimed place) :
    Sound source (s.given target place) where
  documents := hs.documents
  targets := by
    rw [State.given, List.map_append, List.map_singleton]
    exact List.nodup_append_comm.mp (List.nodup_cons.mpr ⟨htarget, hs.targets⟩)
  places := by
    have hnew : place ∉ s.targets.map Prod.snd := by
      intro hmem
      obtain ⟨⟨known, _⟩, hknown, rfl⟩ := List.mem_map.mp hmem
      exact hplace (hs.claimed known _ hknown)
    rw [State.given, List.map_append, List.map_singleton]
    exact List.nodup_append_comm.mp (List.nodup_cons.mpr ⟨hnew, hs.places⟩)
  claimed := by
    intro known p hmem
    rcases List.mem_append.mp hmem with hmem | hmem
    · exact claimed_given_iff.mpr (Or.inr (hs.claimed known p hmem))
    · obtain ⟨_, rfl⟩ := Prod.mk.inj (List.mem_singleton.mp hmem)
      exact claimed_given_iff.mpr (Or.inl rfl)
  sections := hs.sections
  entries := hs.entries
  kept := by
    intro sectionName name content hcontent
    obtain ⟨known, p, hmem, hsection, hname⟩ := hs.kept sectionName name content hcontent
    exact ⟨known, p, List.mem_append_left _ hmem, hsection, hname⟩

/-! ## Filling a place -/

/-- The tables with the content of a place. -/
def State.filledWith (s : State) (place : Place) (content : Data) : State :=
  { s with copied := Entries.put Scalar.same s.copied (.str place.sectionName)
             (Entries.put Scalar.same ((Entries.find? Scalar.same s.copied (.str place.sectionName)).getD [])
               (.str place.name) content) }

theorem content?_filledWith (place : Place) (content : Data) (sectionName name : Scalar) :
    (s.filledWith place content).content? sectionName name =
      if sectionName = .str place.sectionName ∧ name = .str place.name then some content
      else s.content? sectionName name := by
  rw [State.content?, State.filledWith, Entries.find?_put Scalar.same_equivalence]
  simp only [Scalar.same_str_left]
  by_cases hsection : sectionName = .str place.sectionName
  · rw [if_pos hsection, Option.bind_some, Entries.find?_put Scalar.same_equivalence, State.content?]
    simp only [Scalar.same_str_left, hsection, true_and]
    cases Entries.find? Scalar.same s.copied (.str place.sectionName) <;> rfl
  · rw [if_neg hsection, if_neg (fun h => hsection h.1)]
    rfl

theorem contentAt?_filledWith_self (place : Place) (content : Data) :
    (s.filledWith place content).contentAt? place = some content := by
  rw [State.contentAt?, content?_filledWith, if_pos ⟨rfl, rfl⟩]

theorem contentAt?_filledWith_of_ne {place p : Place} (h : p ≠ place) (content : Data) :
    (s.filledWith place content).contentAt? p = s.contentAt? p := by
  rw [State.contentAt?, content?_filledWith, if_neg]
  · rfl
  rintro ⟨hsection, hname⟩
  apply h
  cases p
  cases place
  simp_all

theorem Sound.filledWith (hs : Sound source s) {target : Target} {place : Place}
    (hplace : (target, place) ∈ s.targets) (content : Data) : Sound source (s.filledWith place content) where
  documents := hs.documents
  targets := hs.targets
  places := hs.places
  claimed := hs.claimed
  sections := hs.sections.put
  entries := by
    intro sectionName es hes
    rw [State.filledWith, Entries.find?_put Scalar.same_equivalence] at hes
    split at hes
    · cases hes
      apply Entries.Distinct.put
      cases hfound : Entries.find? Scalar.same s.copied (.str place.sectionName) with
      | none => exact List.Pairwise.nil
      | some present => exact hs.entries _ present hfound
    · exact hs.entries sectionName es hes
  kept := by
    intro sectionName name c hc
    rw [content?_filledWith] at hc
    split at hc
    · rename_i heq
      exact ⟨target, place, hplace, heq.1, heq.2⟩
    · exact hs.kept sectionName name c hc

/-! ## The walk -/

/-- What a walk does wherever it starts: the tables stay sound and make progress, and what comes out is
the node rewritten as the tables say in the end. -/
def Walks (source : Source) (walk : String → Path → Data → M Data) : Prop :=
  ∀ base path node s out t, Sound source s → Runs (walk base path node) s out t →
    Sound source t ∧ Progress source s t ∧ Rewritten source t.targets base path node out

theorem SameTables.progress (h : SameTables s t) : Progress source s t where
  targets := h.targets ▸ List.prefix_refl _
  claimed place hplace := by
    rw [State.Claimed, State.taken, h.names]
    exact hplace
  untouched place _ := by
    rw [State.contentAt?, State.content?, h.copied]
    rfl
  filled _ _ hmem hnot := absurd (h.targets ▸ hmem) hnot

/-- Copying a target that has no place yet. -/
theorem runs_copy {walk : String → Path → Data → M Data} (hwalk : Walks source walk) {target : Target}
    {ref : String} {path : Path} {place : Place} (hs : Sound source s)
    (htarget : target ∉ s.targets.map Prod.fst) (h : Runs (copy source walk target ref path) s place t) :
    Sound source t ∧ Progress source s t ∧ (target, place) ∈ t.targets := by
  simp only [copy, keep, Runs.bind_iff, runs_claim_iff, Runs.modify_iff, Runs.pure_iff] at h
  obtain ⟨name, _, ⟨hname, rfl⟩, _, _, rfl, node, u, hlookup, content, v, hcontent, _, _, rfl, rfl, rfl⟩ := h
  set place : Place := ⟨sectionOf target.pointer path, name⟩ with hplace
  have hfresh : ¬ s.Claimed place := by
    show name ∉ s.taken (sectionOf target.pointer path)
    rw [hname]
    exact freshName_not_mem _ _
  have hgiven : Sound source (s.given target place) := hs.given htarget hfresh
  obtain ⟨hnode, hu, htables⟩ := runs_lookup hgiven hlookup
  obtain ⟨hv, hprogress, hrewritten⟩ := hwalk _ _ _ _ _ _ hu hcontent
  have hsteps : Progress source (s.given target place) v := htables.progress.trans hu hprogress
  have hmem : (target, place) ∈ v.targets :=
    hsteps.targets.subset (List.mem_append_right _ (List.mem_singleton_self _))
  refine ⟨hv.filledWith hmem content, ?_, hmem⟩
  refine ⟨(List.prefix_append _ _).trans hsteps.targets, ?_, ?_, ?_⟩
  · intro p hp
    exact hsteps.claimed p (claimed_given_iff.mpr (Or.inr hp))
  · intro p hp
    have hne : p ≠ place := fun heq => hfresh (heq ▸ hp)
    exact (contentAt?_filledWith_of_ne hne content).trans
      (hsteps.untouched p (claimed_given_iff.mpr (Or.inr hp)))
  · intro known p hknown hnot
    by_cases hold : (known, p) ∈ (s.given target place).targets
    · rcases List.mem_append.mp hold with hold | hold
      · exact absurd hold hnot
      obtain ⟨rfl, rfl⟩ := Prod.mk.inj (List.mem_singleton.mp hold)
      exact ⟨hfresh, node, content, hnode, contentAt?_filledWith_self _ content, hrewritten⟩
    · obtain ⟨hnew, node', content', hnode', hcontent', hrewritten'⟩ := hsteps.filled known p hknown hold
      have hne : p ≠ place := fun heq => hnew (claimed_given_iff.mpr (Or.inl heq))
      refine ⟨fun hp => hnew (claimed_given_iff.mpr (Or.inr hp)), node', content', hnode', ?_, hrewritten'⟩
      exact (contentAt?_filledWith_of_ne hne content).trans hcontent'

theorem runs_makeLocal {walk : String → Path → Data → M Data} (hwalk : Walks source walk) {base : String}
    {es : Fields} {ref : String} {path : Path} {out : Data} (href : (Data.map es).refText? = some ref)
    (hs : Sound source s) (h : Runs (makeLocal source walk base es ref path) s out t) :
    Sound source t ∧ Progress source s t ∧ Rewritten source t.targets base path (.map es) out := by
  simp only [makeLocal, Runs.bind_iff, Runs.lift_iff] at h
  obtain ⟨target, s, ⟨htarget, rfl⟩, h⟩ := h
  split at h
  · rename_i hroot
    obtain ⟨rfl, rfl⟩ := Runs.pure_iff.mp h
    exact ⟨hs, Progress.refl source _, .home href htarget (beq_iff_eq.mp hroot)⟩
  rename_i hroot
  have haway : target.location ≠ source.root := fun heq => hroot (beq_iff_eq.mpr heq)
  split at h
  · rename_i hitem
    simp only [Runs.bind_iff] at h
    obtain ⟨node, u, hlookup, hwalked⟩ := h
    obtain ⟨hnode, hu, htables⟩ := runs_lookup hs hlookup
    obtain ⟨ht, hprogress, hrewritten⟩ := hwalk _ _ _ _ _ _ hu hwalked
    exact ⟨ht, htables.progress.trans hu hprogress, .pathItem href htarget haway hitem hnode hrewritten⟩
  rename_i hitem
  have hitem' : isPathItem path = false := Bool.eq_false_iff.mpr hitem
  simp only [Runs.bind_iff, Runs.get_iff] at h
  obtain ⟨_, s, ⟨rfl, rfl⟩, h⟩ := h
  split at h
  · rename_i place hplace
    obtain ⟨rfl, rfl⟩ := Runs.pure_iff.mp h
    obtain ⟨known, hmem, hknown⟩ := Entries.mem_of_find? hplace
    obtain rfl := beq_iff_eq.mp hknown
    exact ⟨hs, Progress.refl source _, .component href htarget haway hitem' hmem⟩
  · rename_i hnone
    have hnew : target ∉ s.targets.map Prod.fst := by
      intro hmem
      obtain ⟨e, he, rfl⟩ := List.mem_map.mp hmem
      exact Entries.find?_eq_none_iff.mp hnone e he (beq_self_eq_true _)
    simp only [Runs.bind_iff, Runs.pure_iff] at h
    obtain ⟨place, u, hcopy, rfl, rfl⟩ := h
    obtain ⟨ht, hprogress, hmem⟩ := runs_copy hwalk hs hnew hcopy
    exact ⟨ht, hprogress, .component href htarget haway hitem' hmem⟩

/-- What is done at the references of the document at `base`. -/
def Follows (source : Source) (base : String) (follow : Fields → String → Path → M Data) : Prop :=
  ∀ es ref path s out t, (Data.map es).refText? = some ref → Sound source s →
    Runs (follow es ref path) s out t →
    Sound source t ∧ Progress source s t ∧ Rewritten source t.targets base path (.map es) out

mutual

theorem runs_walkWith {follow : Fields → String → Path → M Data} {base : String}
    (hfollow : Follows source base follow) :
    ∀ (node : Data) (path : Path) (s : State) (out : Data) (t : State), Sound source s →
      Runs (walkWith follow path node) s out t →
      Sound source t ∧ Progress source s t ∧ Rewritten source t.targets base path node out
  | .scalar value, path, s, out, t, hs, h => by
    obtain ⟨rfl, rfl⟩ := Runs.pure_iff.mp h
    exact ⟨hs, Progress.refl source t, .scalar value⟩
  | .tuple items, path, s, out, t, hs, h => by
    obtain ⟨rfl, rfl⟩ := Runs.pure_iff.mp h
    exact ⟨hs, Progress.refl source t, .tuple items⟩
  | .list items, path, s, out, t, hs, h => by
    simp only [walkWith, Runs.bind_iff, Runs.pure_iff] at h
    obtain ⟨ys, _, hys, rfl, rfl⟩ := h
    obtain ⟨ht, hprogress, hlen, hitems⟩ := runs_walkItems hfollow items path 0 s ys _ hs hys
    refine ⟨ht, hprogress, .list hlen ?_⟩
    intro i x y hx hy
    have hitem := hitems i x y hx hy
    rwa [Nat.zero_add] at hitem
  | .map entries, path, s, out, t, hs, h => by
    simp only [walkWith] at h
    split at h
    · rename_i ref href
      exact hfollow entries ref path s out t (refText?_eq_some_iff.mpr href) hs h
    · rename_i href
      simp only [Runs.bind_iff, Runs.pure_iff] at h
      obtain ⟨fs, _, hfs, rfl, rfl⟩ := h
      obtain ⟨ht, hprogress, hkeys, hentries⟩ := runs_walkEntries hfollow entries path s fs _ hs hfs
      have hnone : (Data.map entries).refText? = none := by
        rw [Option.eq_none_iff_forall_ne_some]
        intro ref hsome
        exact href ref (refText?_eq_some_iff.mp hsome)
      exact ⟨ht, hprogress, .map hnone hkeys hentries⟩

theorem runs_walkItems {follow : Fields → String → Path → M Data} {base : String}
    (hfollow : Follows source base follow) :
    ∀ (xs : List Data) (path : Path) (index : Nat) (s : State) (ys : List Data) (t : State), Sound source s →
      Runs (walkItems follow path index xs) s ys t →
      Sound source t ∧ Progress source s t ∧ xs.length = ys.length ∧
        ∀ (i : Nat) x y, xs[i]? = some x → ys[i]? = some y →
          Rewritten source t.targets base (.int (index + i : Nat) :: path) x y
  | [], path, index, s, ys, t, hs, h => by
    obtain ⟨rfl, rfl⟩ := Runs.pure_iff.mp h
    exact ⟨hs, Progress.refl source t, rfl, fun i x y hx => by simp at hx⟩
  | x :: xs, path, index, s, ys, t, hs, h => by
    simp only [walkItems, Runs.bind_iff, Runs.pure_iff] at h
    obtain ⟨y, u, hy, zs, _, hzs, rfl, rfl⟩ := h
    obtain ⟨hu, hfirst, hxy⟩ := runs_walkWith hfollow x _ s y u hs hy
    obtain ⟨ht, hrest, hlen, hitems⟩ := runs_walkItems hfollow xs path (index + 1) u zs _ hu hzs
    refine ⟨ht, hfirst.trans hu hrest, by rw [List.length_cons, hlen, List.length_cons], ?_⟩
    intro i x' y' hx' hy'
    cases i with
    | zero =>
      obtain rfl : x = x' := by simpa using hx'
      obtain rfl : y = y' := by simpa using hy'
      exact hxy.mono hrest.targets.subset
    | succ i =>
      have hitem := hitems i x' y' (by simpa using hx') (by simpa using hy')
      rwa [Nat.add_assoc, Nat.add_comm 1 i] at hitem

theorem runs_walkEntries {follow : Fields → String → Path → M Data} {base : String}
    (hfollow : Follows source base follow) :
    ∀ (es : Fields) (path : Path) (s : State) (fs : Fields) (t : State), Sound source s →
      Runs (walkEntries follow path es) s fs t →
      Sound source t ∧ Progress source s t ∧ es.map Prod.fst = fs.map Prod.fst ∧
        ∀ (i : Nat) e f, es[i]? = some e → fs[i]? = some f →
          Rewritten source t.targets base (e.1 :: path) e.2 f.2
  | [], path, s, fs, t, hs, h => by
    obtain ⟨rfl, rfl⟩ := Runs.pure_iff.mp h
    exact ⟨hs, Progress.refl source t, rfl, fun i x y hx => by simp at hx⟩
  | (key, value) :: es, path, s, fs, t, hs, h => by
    simp only [walkEntries, Runs.bind_iff, Runs.pure_iff] at h
    obtain ⟨w, u, hw, gs, _, hgs, rfl, rfl⟩ := h
    obtain ⟨hu, hfirst, hvw⟩ := runs_walkWith hfollow value _ s w u hs hw
    obtain ⟨ht, hrest, hkeys, hentries⟩ := runs_walkEntries hfollow es path u gs _ hu hgs
    refine ⟨ht, hfirst.trans hu hrest, by rw [List.map_cons, List.map_cons, hkeys], ?_⟩
    intro i e f he hf
    cases i with
    | zero =>
      obtain rfl : (key, value) = e := by simpa using he
      obtain rfl : (key, w) = f := by simpa using hf
      exact hvw.mono hrest.targets.subset
    | succ i => exact hentries i e f (by simpa using he) (by simpa using hf)

end

theorem walkAt_walks (source : Source) (depth : Nat) : Walks source (walkAt source depth) := by
  induction depth with
  | zero =>
    intro base path node s out t _ h
    exact absurd h Runs.throw_iff
  | succ depth ih =>
    intro base path node s out t hs h
    exact runs_walkWith (fun es ref path s out t href hs h => runs_makeLocal ih href hs h) node path s out t hs h

end

end ClientBindings.Bundle
