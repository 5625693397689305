import ClientBindings.Proofs.Bundle.ReadBack
import ClientBindings.Proofs.Lookup

/-! The two readers of pointers compared. References into other documents are followed by a reader that leaves
out empty segments, local references by one that takes them for the empty name; so what a pointer designates
may change when a schema moves to a document of its own. -/

namespace ClientBindings.Bundle

open Data Text Pointer

/-- Wherever a document stands, following a pointer into it from another document and within it lead to one node,
or else to none, and either failure names its own reference. -/
def Agree (document : Data) (pointer : String) : Prop :=
  ∀ source s t location ref, Runs (fetch source location) s document t →
    (∃ v, Runs (lookup source ⟨location, pointer⟩ ref) s v t ∧ Reference.lookup document ("#" ++ pointer) = .ok v) ∨
    (Id.run ((lookup source ⟨location, pointer⟩ ref).run s) = (.error (.unresolvedReference ref), t) ∧
      Reference.lookup document ("#" ++ pointer) = .error (.unresolvedReference ("#" ++ pointer)))

section
variable {document v : Data} {cs : List Char} {names segments : List String}

/-! ## The segments of a pointer -/

theorem filter_splitOn_dropWhile (cs : List Char) :
    (splitOn '/' (cs.dropWhile (· == '/'))).filter (!·.isEmpty) = (splitOn '/' cs).filter (!·.isEmpty) := by
  induction cs with
  | nil => rfl
  | cons c cs ih =>
    by_cases hc : c = '/'
    · subst hc
      rw [List.dropWhile_cons_of_pos (by rfl), ih]
      rfl
    · rw [List.dropWhile_cons_of_neg (by simpa using hc)]

/-- Only the empty segments are left out. -/
theorem segments_slash (cs : List Char) : Pointer.segments (String.ofList ('/' :: cs)) =
    ((splitOn '/' cs).filter (!·.isEmpty)).map fun segment => String.ofList (unescapeChars segment) := by
  rw [Pointer.segments, String.toList_ofList, List.dropWhile_cons_of_pos (by rfl), filter_splitOn_dropWhile]

theorem segments_eq_names (h : [] ∉ splitOn '/' cs) :
    Pointer.segments (String.ofList ('/' :: cs)) = Reference.names cs := by
  rw [segments_slash, List.filter_eq_self.mpr]
  · rfl
  · intro segment hsegment
    cases segment with
    | nil => exact absurd hsegment h
    | cons => rfl

theorem segments_length_lt (h : [] ∈ splitOn '/' cs) :
    (Pointer.segments (String.ofList ('/' :: cs))).length < (Reference.names cs).length := by
  rw [segments_slash, Reference.names, List.length_map, List.length_map]
  exact List.length_filter_lt_length_iff_exists.mpr ⟨[], h, by simp⟩

/-! ## Following both -/

theorem run_lookup {source : Source} {s t : State} {location : String} (pointer ref : String)
    (h : Runs (fetch source location) s document t) : Id.run ((lookup source ⟨location, pointer⟩ ref).run s) =
      (walk? document (Pointer.segments pointer) >>= Reference.answer ref, t) := by
  rw [lookup, Runs.run_bind_of_runs h]
  cases walk? document (Pointer.segments pointer) with
  | error f => rfl
  | ok found =>
    cases found with
    | none => rfl
    | some node => rfl

theorem exists_fetch (document : Data) : ∃ source s t location, Runs (fetch source location) s document t :=
  ⟨⟨fun _ => .ok document, "", ""⟩, { documents := [("", document)] }, _, "", rfl⟩

theorem lookup_slash (document : Data) (cs : List Char) :
    Reference.lookup document ("#" ++ String.ofList ('/' :: cs)) =
      walk? document (Reference.names cs) >>= Reference.answer ("#" ++ String.ofList ('/' :: cs)) := by
  apply Reference.lookup_of_path
  apply Reference.path_of_toList
  simp only [String.toList_append, String.toList_ofList]
  rfl

/-- Two walks through a document have the same answer. -/
theorem same_answer_iff (ref ref' : String) :
    ((∃ v, (walk? document segments >>= Reference.answer ref) = .ok v ∧
        (walk? document names >>= Reference.answer ref') = .ok v) ∨
      (walk? document segments >>= Reference.answer ref) = .error (.unresolvedReference ref) ∧
        (walk? document names >>= Reference.answer ref') = .error (.unresolvedReference ref')) ↔
    ¬ Stuck document names ∧ ¬ Stuck document segments ∧
      ∀ v, LeadsTo document names v ↔ LeadsTo document segments v := by
  rcases Reference.stuck_or_answers document names ref' with ⟨hbad, hstuck⟩ | ⟨hanswer, hfree⟩
  · rw [hbad]
    refine iff_of_false ?_ fun h => h.1 hstuck
    rintro (⟨v, -, hv⟩ | ⟨-, hv⟩) <;> cases hv
  rcases Reference.stuck_or_answers document segments ref with ⟨hbad', hstuck'⟩ | ⟨hanswer', hfree'⟩
  · rw [hbad']
    refine iff_of_false ?_ fun h => h.2.1 hstuck'
    rintro (⟨v, hv, -⟩ | ⟨hv, -⟩) <;> cases hv
  constructor
  · intro hboth
    refine ⟨hfree, hfree', fun v => ?_⟩
    rcases hboth with ⟨w, hw', hw⟩ | ⟨hnone', hnone⟩
    · rw [← hanswer.found, ← hanswer'.found, hw, hw']
    · exact iff_of_false (lacks_iff.mp (hanswer.missing.mp hnone) v) (lacks_iff.mp (hanswer'.missing.mp hnone') v)
  · rintro ⟨-, -, hsame⟩
    rcases hanswer.complete with ⟨v, hv⟩ | hnone
    · exact Or.inl ⟨v, (hanswer'.found v).mpr ((hsame v).mp ((hanswer.found v).mp hv)), hv⟩
    · refine Or.inr ⟨hanswer'.missing.mpr (lacks_iff.mpr fun v hv => ?_), hnone⟩
      exact lacks_iff.mp (hanswer.missing.mp hnone) v ((hsame v).mpr hv)

theorem agree_iff : Agree document (String.ofList ('/' :: cs)) ↔
    ¬ Stuck document (Reference.names cs) ∧ ¬ Stuck document (Pointer.segments (String.ofList ('/' :: cs))) ∧
      ∀ v, LeadsTo document (Reference.names cs) v ↔
        LeadsTo document (Pointer.segments (String.ofList ('/' :: cs))) v := by
  constructor
  · intro hagree
    obtain ⟨source, s, t, location, hfetch⟩ := exists_fetch document
    apply (same_answer_iff "" ("#" ++ String.ofList ('/' :: cs))).mp
    rw [← lookup_slash]
    rcases hagree source s t location "" hfetch with ⟨v, haway, hlocal⟩ | ⟨haway, hlocal⟩
    · exact Or.inl ⟨v, (Prod.mk.inj ((run_lookup _ _ hfetch).symm.trans haway)).1, hlocal⟩
    · exact Or.inr ⟨(Prod.mk.inj ((run_lookup _ _ hfetch).symm.trans haway)).1, hlocal⟩
  · intro hsame source s t location ref hfetch
    have hanswer := (same_answer_iff ref ("#" ++ String.ofList ('/' :: cs))).mpr hsame
    rw [← lookup_slash] at hanswer
    rcases hanswer with ⟨v, haway, hlocal⟩ | ⟨haway, hlocal⟩
    · exact Or.inl ⟨v, (run_lookup _ _ hfetch).trans (congrArg (·, t) haway), hlocal⟩
    · exact Or.inr ⟨(run_lookup _ _ hfetch).trans (congrArg (·, t) haway), hlocal⟩

/-! ## Documents that tell the readers apart -/

/-- A document with names under each other. -/
def nest (names : List String) (leaf : Data) : Data := names.foldr (fun name d => .object [(name, d)]) leaf

theorem child_object_iff {name segment : String} {d : Data} :
    Child (.object [(name, d)]) segment v ↔ segment = name ∧ v = d := by
  have hfind : Entries.find? Scalar.same [(Scalar.str name, d)] (.str segment) = some v ↔ segment = name ∧ v = d := by
    simp only [Entries.find?_cons, Scalar.same_str_left, Scalar.str.injEq]
    split
    · rename_i hsegment
      rw [Option.some.injEq, eq_comm, and_iff_right hsegment]
    · rename_i hsegment
      refine iff_of_false (fun hfound => ?_) fun h => hsegment h.1
      cases hfound
  constructor
  · rintro ⟨h⟩
    exact hfind.mp h
  · exact fun h => .entry (hfind.mpr h)

theorem leadsTo_nest (names : List String) (leaf : Data) : LeadsTo (nest names leaf) names leaf := by
  induction names with
  | nil => exact .nil
  | cons name names ih => exact .cons (child_object_iff.mpr ⟨rfl, rfl⟩) ih

/-- Fewer segments lead to one of the mappings. -/
theorem leadsTo_nest_of_length_lt {leaf : Data} (h : LeadsTo (nest names leaf) segments v)
    (hlt : segments.length < names.length) : ∃ es, v = .map es := by
  induction names generalizing segments with
  | nil => exact absurd hlt (Nat.not_lt_zero _)
  | cons name names ih =>
    cases h with
    | nil => exact ⟨_, rfl⟩
    | cons hchild hrest =>
      obtain ⟨-, rfl⟩ := child_object_iff.mp hchild
      exact ih hrest (Nat.lt_of_succ_lt_succ hlt)

theorem stuck_nest {before after : List String} {segment : String} (h : IsUnreadable segment) :
    Stuck (nest before (.list [])) (before ++ segment :: after) :=
  ⟨before, segment, after, .list [], rfl, leadsTo_nest before _, ⟨[], rfl⟩, h⟩

end

/-- The readers agree on a document exactly when the segments they see lead to one node, past no list that is asked
for a position that cannot be read. They agree on all documents exactly when no segment is empty and none is made
of digits that cannot be read. -/
theorem readers_agree_iff (cs : List Char) :
    (∀ document, Agree document (String.ofList ('/' :: cs)) ↔
      ¬ Stuck document (Reference.names cs) ∧ ¬ Stuck document (Pointer.segments (String.ofList ('/' :: cs))) ∧
        ∀ v, LeadsTo document (Reference.names cs) v ↔
          LeadsTo document (Pointer.segments (String.ofList ('/' :: cs))) v) ∧
    ((∀ document, Agree document (String.ofList ('/' :: cs))) ↔
      [] ∉ splitOn '/' cs ∧ ∀ name ∈ Reference.names cs, ¬ IsUnreadable name) := by
  refine ⟨fun document => agree_iff, ?_, ?_⟩
  · intro hagree
    constructor
    · intro hempty
      have hsame := (agree_iff.mp (hagree (nest (Reference.names cs) .null))).2.2 .null
      obtain ⟨es, hes⟩ := leadsTo_nest_of_length_lt (hsame.mp (leadsTo_nest _ _)) (segments_length_lt hempty)
      cases hes
    · intro name hname hunread
      obtain ⟨before, after, hsplit⟩ := List.append_of_mem hname
      have hlocal := (agree_iff.mp (hagree (nest before (.list [])))).1
      rw [hsplit] at hlocal
      exact hlocal (stuck_nest hunread)
  · rintro ⟨hempty, hread⟩ document
    rw [agree_iff, segments_eq_names hempty]
    exact ⟨not_stuck_of_readable hread, not_stuck_of_readable hread, fun v => Iff.rfl⟩

/-- A document whose entry is reached with a slash at the end of the pointer, but not within the document. -/
def slashed : Data := .object [("a", .object [])]

theorem exists_not_agree : Reference.lookup slashed "#/a/" = .error (.unresolvedReference "#/a/") ∧
    (∃ t, Runs (lookup (.ofFiles [("/work/o.json", slashed)]) ⟨"/work/o.json", "/a/"⟩ "o.json#/a/") {} (.object []) t) ∧
    ¬ Agree slashed "/a/" := by
  have hlocal : Reference.lookup slashed "#/a/" = .error (.unresolvedReference "#/a/") := rfl
  have hfetch : ∃ t, Runs (fetch (.ofFiles [("/work/o.json", slashed)]) "/work/o.json") {} slashed t := ⟨_, rfl⟩
  obtain ⟨t, hfetch⟩ := hfetch
  have haway := run_lookup "/a/" "o.json#/a/" hfetch
  refine ⟨hlocal, ⟨t, haway⟩, fun hagree => ?_⟩
  rcases hagree _ _ _ _ "o.json#/a/" hfetch with ⟨v, -, hfound⟩ | ⟨hnone, -⟩
  · exact nomatch hlocal.symm.trans hfound
  · exact nomatch (Prod.mk.inj (haway.symm.trans hnone)).1

end ClientBindings.Bundle
