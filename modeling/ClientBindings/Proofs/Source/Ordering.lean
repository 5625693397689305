import ClientBindings.Source.Declaration
import Mathlib.Data.List.Nodup
import Mathlib.Data.List.Perm.Subperm
import Mathlib.Logic.Relation

/-! Ordering declarations loses none and repeats none. While bases are placed, the declarations built on
them are open: met and not yet placed. Open names differ, so the depth that is left and the number of
open names together always exceed the number of declarations. Where no declaration is built on itself,
no base is open when it is asked for, so that it comes before what is built on it. -/

namespace ClientBindings.Declaration

/-- What holds while declarations are placed and some names are open. -/
structure Underway (all : List Declaration) (opened : List String) (p : Placing) : Prop where
  placed : ∀ d ∈ p.placed, d ∈ all
  known : ∀ n ∈ opened, n ∈ all.map name
  distinct : (p.placed.map name ++ opened).Nodup
  met : ∀ n, n ∈ p.met ↔ n ∈ p.placed.map name ∨ n ∈ opened

section
variable {all : List Declaration} {opened : List String} {p : Placing} {d : Declaration}

theorem Underway.length_le (h : Underway all opened p) : opened.length ≤ all.length := by
  have hnodup : opened.Nodup := (List.nodup_append.mp h.distinct).2.1
  have hle := (List.subperm_of_subset hnodup h.known).length_le
  rwa [List.length_map] at hle

theorem mem_of_named? {name : String} (h : named? all name = some d) : d ∈ all :=
  List.mem_reverse.mp (List.mem_of_find?_eq_some h)

theorem Underway.open_ (h : Underway all opened p) (hd : d ∈ all) (hnew : d.name ∉ p.met) :
    Underway all (d.name :: opened) { p with met := d.name :: p.met } where
  placed := h.placed
  known := by
    intro n hn
    rcases List.mem_cons.mp hn with rfl | hn
    · exact List.mem_map_of_mem hd
    · exact h.known n hn
  distinct := by
    have hfresh : d.name ∉ p.placed.map name ++ opened := by
      rw [List.mem_append, ← h.met]
      exact hnew
    exact List.perm_middle.nodup_iff.mpr (List.nodup_cons.mpr ⟨hfresh, h.distinct⟩)
  met := by
    intro n
    rw [List.mem_cons, List.mem_cons, h.met]
    tauto

theorem Underway.close (h : Underway all (d.name :: opened) p) (hd : d ∈ all) :
    Underway all opened { p with placed := p.placed ++ [d] } where
  placed := by
    intro e he
    rcases List.mem_append.mp he with he | he
    · exact h.placed e he
    · rwa [List.mem_singleton.mp he]
  known n hn := h.known n (List.mem_cons_of_mem _ hn)
  distinct := by
    rw [List.map_append, List.map_singleton, List.append_assoc]
    exact h.distinct
  met := by
    intro n
    rw [h.met, List.map_append, List.map_singleton, List.mem_append, List.mem_cons, List.mem_singleton]
    tauto

/-- What one placing keeps, placing one by one keeps. -/
theorem foldl_underway {f : Placing → Declaration → Placing} {ds : List Declaration} (hds : ∀ d ∈ ds, d ∈ all)
    (step : ∀ q d, Underway all opened q → d ∈ all →
      Underway all opened (f q d) ∧ q.placed <+: (f q d).placed ∧ (d.name ∈ opened ∨ d ∈ (f q d).placed))
    (h : Underway all opened p) : Underway all opened (ds.foldl f p) ∧ p.placed <+: (ds.foldl f p).placed ∧
      ∀ d ∈ ds, d.name ∈ opened ∨ d ∈ (ds.foldl f p).placed := by
  induction ds generalizing p with
  | nil => exact ⟨h, List.prefix_refl _, fun d hd => absurd hd List.not_mem_nil⟩
  | cons d ds ih =>
    obtain ⟨hd, hgrows, hplaced⟩ := step p d h (hds d List.mem_cons_self)
    obtain ⟨hrest, hgrows', hrestPlaced⟩ := ih (fun e he => hds e (List.mem_cons_of_mem d he)) hd
    refine ⟨hrest, hgrows.trans hgrows', ?_⟩
    intro e he
    rcases List.mem_cons.mp he with rfl | he
    · exact hplaced.imp_right fun hmem => hgrows'.subset hmem
    · exact hrestPlaced e he

theorem mem_of_mem_bases {b : Declaration} (hb : b ∈ d.bases.filterMap (named? all)) : b ∈ all := by
  obtain ⟨name, _, hnamed⟩ := List.mem_filterMap.mp hb
  exact mem_of_named? hnamed

theorem place_underway (hall : (all.map name).Nodup) {depth : Nat} (h : Underway all opened p) (hd : d ∈ all)
    (hdepth : all.length < opened.length + depth) :
    Underway all opened (place all depth p d) ∧ p.placed <+: (place all depth p d).placed ∧
      (d.name ∈ opened ∨ d ∈ (place all depth p d).placed) := by
  induction depth generalizing opened p d with
  | zero =>
    have hle := h.length_le
    omega
  | succ depth ih =>
    rw [place]
    by_cases hmet : d.name ∈ p.met
    · rw [if_pos (by simpa using hmet)]
      refine ⟨h, List.prefix_refl _, ?_⟩
      rcases (h.met d.name).mp hmet with hplaced | hopened
      · obtain ⟨e, he, hname⟩ := List.mem_map.mp hplaced
        obtain rfl := List.inj_on_of_nodup_map hall (h.placed e he) hd hname
        exact Or.inr he
      · exact Or.inl hopened
    · rw [if_neg (by simpa using hmet)]
      have hdepth' : all.length < (d.name :: opened).length + depth := by
        rw [List.length_cons]
        omega
      obtain ⟨hbelow, hgrows, _⟩ := foldl_underway (fun b hb => mem_of_mem_bases hb)
        (fun q b hq hb => ih hq hb hdepth') (h.open_ hd hmet)
      refine ⟨hbelow.close hd, ?_, Or.inr (List.mem_append_right _ (List.mem_singleton_self d))⟩
      exact List.IsPrefix.trans hgrows (List.prefix_append _ [d])

end

theorem underway_start (ds : List Declaration) : Underway ds [] {} := by
  constructor <;> simp

/-- At the top no name is open, and the depth is enough for all declarations. -/
theorem place_top {ds : List Declaration} (h : (ds.map name).Nodup) {p : Placing} {d : Declaration}
    (hp : Underway ds [] p) (hd : d ∈ ds) : Underway ds [] (place ds (ds.length + 1) p d) ∧
      p.placed <+: (place ds (ds.length + 1) p d).placed ∧
      (d.name ∈ ([] : List String) ∨ d ∈ (place ds (ds.length + 1) p d).placed) :=
  place_underway h hp hd (by simp)

/-- Declarations of different names are ordered without losing or repeating any. -/
theorem ordered_perm {ds : List Declaration} (h : (ds.map name).Nodup) : (ordered ds).Perm ds := by
  obtain ⟨hordered, _, hmem⟩ := foldl_underway (fun _ hd => hd) (fun _ _ hp hd => place_top h hp hd) (underway_start ds)
  have hdistinct : (ordered ds).Nodup := by
    have hnames := hordered.distinct
    rw [List.append_nil] at hnames
    exact hnames.of_map name
  refine (List.perm_ext_iff_of_nodup hdistinct (h.of_map name)).mpr fun d => ⟨hordered.placed d, fun hd => ?_⟩
  exact (hmem d hd).resolve_left List.not_mem_nil

/-! ## Bases come first -/

/-- One declaration is built on another. -/
def IsBase (all : List Declaration) (b d : Declaration) : Prop := b ∈ all ∧ d ∈ all ∧ b.name ∈ d.bases

/-- No declaration is built on itself, be it by way of others. -/
def Acyclic (all : List Declaration) : Prop := ∀ d, ¬ Relation.TransGen (IsBase all) d d

/-- Where going from declarations to their bases comes to an end everywhere, there is no circle. -/
theorem acyclic_of_acc {all : List Declaration} (h : ∀ d ∈ all, Acc (IsBase all) d) : Acyclic all := by
  intro d hcircle
  have hd : d ∈ all := by
    obtain ⟨_, _, hbase⟩ := Relation.TransGen.tail'_iff.mp hcircle
    exact hbase.2.1
  have hacc := (h d hd).transGen
  clear hd
  induction hacc with
  | intro d _ ih => exact ih d hcircle hcircle

theorem Acyclic.perm {all more : List Declaration} (h : Acyclic all) (hperm : all.Perm more) : Acyclic more := by
  intro d hcircle
  refine h d (hcircle.lift id fun b e hbase => ?_)
  exact ⟨hperm.mem_iff.mpr hbase.1, hperm.mem_iff.mpr hbase.2.1, hbase.2.2⟩

/-- Every declaration stands behind all of its bases. -/
def BasesFirst (all ds : List Declaration) : Prop :=
  ∀ before d after, ds = before ++ d :: after → ∀ b, IsBase all b d → b ∈ before

section
variable {all ds : List Declaration} {opened : List String} {p : Placing} {d : Declaration}

theorem named?_of_mem (hall : (all.map name).Nodup) {b : Declaration} (hb : b ∈ all) : named? all b.name = some b := by
  obtain ⟨found, hfound⟩ : ∃ found, named? all b.name = some found :=
    Option.isSome_iff_exists.mp (List.find?_isSome.mpr ⟨b, List.mem_reverse.mpr hb, beq_self_eq_true _⟩)
  have hname : found.name = b.name := by simpa using List.find?_some hfound
  rw [hfound, List.inj_on_of_nodup_map hall (mem_of_named? hfound) hb hname]

theorem BasesFirst.concat (h : BasesFirst all ds) (hd : ∀ b, IsBase all b d → b ∈ ds) : BasesFirst all (ds ++ [d]) := by
  intro before e after heq b hb
  rcases List.eq_nil_or_concat after with rfl | ⟨after, last, rfl⟩
  · obtain ⟨rfl, hlast⟩ := List.append_inj' heq rfl
    obtain rfl : d = e := by simpa using hlast
    exact hd b hb
  · have hfront : ds ++ [d] = (before ++ e :: after) ++ [last] := by simpa using heq
    obtain ⟨hfront, _⟩ := List.append_inj' hfront rfl
    exact h before e after hfront b hb

/-- What is open is built on what is placed next, so an open base would close a circle. -/
theorem place_basesFirst (hall : (all.map name).Nodup) (hacyclic : Acyclic all) {depth : Nat}
    (h : Underway all opened p) (hd : d ∈ all) (hdepth : all.length < opened.length + depth)
    (hopened : ∀ e ∈ all, e.name ∈ opened → Relation.TransGen (IsBase all) d e) (hp : BasesFirst all p.placed) :
    BasesFirst all (place all depth p d).placed := by
  induction depth generalizing opened p d with
  | zero => exact hp
  | succ depth ih =>
    rw [place]
    by_cases hmet : d.name ∈ p.met
    · rwa [if_pos (by simpa using hmet)]
    rw [if_neg (by simpa using hmet)]
    have hdepth' : all.length < (d.name :: opened).length + depth := by
      rw [List.length_cons]
      omega
    have hopen : ∀ e ∈ all, e.name ∈ d.name :: opened → e = d ∨ Relation.TransGen (IsBase all) d e := by
      intro e he hname
      rcases List.mem_cons.mp hname with hname | hname
      · exact Or.inl (List.inj_on_of_nodup_map hall he hd hname)
      · exact Or.inr (hopened e he hname)
    have hmem : ∀ b, b ∈ d.bases.filterMap (named? all) ↔ IsBase all b d := by
      intro b
      rw [List.mem_filterMap]
      constructor
      · rintro ⟨base, hbase, hnamed⟩
        have hname : b.name = base := by simpa using List.find?_some hnamed
        exact ⟨mem_of_named? hnamed, hd, hname ▸ hbase⟩
      · rintro ⟨hb, _, hbase⟩
        exact ⟨b.name, hbase, named?_of_mem hall hb⟩
    obtain ⟨_, _, hplaced⟩ := foldl_underway (fun b hb => ((hmem b).mp hb).1)
      (fun q b hq hb => place_underway hall hq hb hdepth') (h.open_ hd hmet)
    have hbelow := List.foldlRecOn (motive := fun q => Underway all (d.name :: opened) q ∧ BasesFirst all q.placed)
      (d.bases.filterMap (named? all)) (place all depth) ⟨h.open_ hd hmet, hp⟩ (by
        rintro q ⟨hq, hqfirst⟩ b hb
        have hbase := (hmem b).mp hb
        refine ⟨(place_underway hall hq hbase.1 hdepth').1, ih hq hbase.1 hdepth' ?_ hqfirst⟩
        intro e he hname
        rcases hopen e he hname with rfl | hchain
        · exact .single hbase
        · exact .head hbase hchain)
    refine hbelow.2.concat fun b hb => ?_
    refine (hplaced b ((hmem b).mpr hb)).resolve_left fun hname => ?_
    rcases hopen b hb.1 hname with rfl | hchain
    · exact hacyclic b (.single hb)
    · exact hacyclic d (hchain.tail hb)

/-- Without circles, every declaration is ordered behind its bases. -/
theorem ordered_basesFirst (h : (ds.map name).Nodup) (hacyclic : Acyclic ds) : BasesFirst ds (ordered ds) := by
  have hstart : BasesFirst ds ([] : List Declaration) := by
    intro before d after heq
    simp at heq
  have hordered := List.foldlRecOn (motive := fun q => Underway ds [] q ∧ BasesFirst ds q.placed)
    ds (place ds (ds.length + 1)) ⟨underway_start ds, hstart⟩ (by
      rintro q ⟨hq, hqfirst⟩ d hd
      refine ⟨(place_top h hq hd).1, place_basesFirst h hacyclic hq hd (by simp) ?_ hqfirst⟩
      exact fun e _ hname => absurd hname List.not_mem_nil)
  exact hordered.2

end

end ClientBindings.Declaration
