import ClientBindings.Proofs.Pointer

/-! What a reference designates. A pointer leads through the keys of mappings and the positions of lists,
and where a step has no child it designates nothing. Positions are spelled by decimal digits of any script;
at a list the lookup reads every segment of digits as a number, those too that spell none, and fails there. -/

namespace ClientBindings

/-! ## Digits that are read as a number -/

namespace Unicode
variable {c : Char}

theorem decimalValue?_lt {n : Nat} (h : decimalValue? c = some n) : n < 10 := by
  obtain ⟨z, hz, rfl⟩ := Option.map_eq_some_iff.mp h
  have hrange := List.find?_some hz
  simp only [Bool.and_eq_true, decide_eq_true_eq] at hrange
  omega

theorem isDigit_of_isDecimal (h : isDecimal c = true) : isDigit c = true := by
  rw [isDigit, h, Bool.true_or]

/-- Of the digits with which numbers of other bases are written, only the decimal ones are digits. -/
theorem isDecimal_of_hexValue? (h : isDigit c = true) {n : Nat} (hhex : Percent.hexValue? c = some n) :
    isDecimal c = true := by
  have hsmall : c.toNat < 103 := by
    rw [Percent.hexValue?] at hhex
    by_contra hlarge
    simp [show ¬ c.toNat ≤ 57 by omega, show ¬ c.toNat ≤ 70 by omega, show ¬ c.toNat ≤ 102 by omega] at hhex
  rw [isDigit, isDecimal, decimalValue?] at h
  rw [isDecimal, decimalValue?]
  revert h
  generalize c.toNat = code at hsmall ⊢
  revert code
  decide +kernel

end Unicode

namespace Numeral
variable {cs : List Char} {n : Nat}

theorem digit?_of_isDigit {c : Char} (h : Unicode.isDigit c = true) :
    (digit? c).filter (· < 10) = Unicode.decimalValue? c := by
  rw [digit?]
  cases hvalue : Unicode.decimalValue? c with
  | some n => simp [Unicode.decimalValue?_lt hvalue]
  | none =>
    cases hhex : Percent.hexValue? c with
    | none => rfl
    | some n =>
      have hdecimal := Unicode.isDecimal_of_hexValue? h hhex
      rw [Unicode.isDecimal, hvalue] at hdecimal
      cases hdecimal

theorem not_isFiller_of_isDigit {c : Char} (h : Unicode.isDigit c = true) : isFiller c = false := by
  rw [isFiller, beq_eq_false_iff_ne]
  rintro rfl
  exact absurd h (by decide +kernel)

theorem unfilled?_eq_some (isDigit : Char → Bool) (afterDigit : Bool) (h : ∀ c ∈ cs, isFiller c = false) :
    unfilled? isDigit afterDigit cs = some cs := by
  induction cs generalizing afterDigit with
  | nil => rfl
  | cons c cs ih =>
    obtain ⟨hc, hcs⟩ := List.forall_mem_cons.mp h
    rw [unfilled?, if_neg (by simp [hc]), ih _ hcs, Option.map_some]

/-- Digits are read as the number they spell, unless there are too many of them. -/
theorem digits?_of_isDigit (hne : cs ≠ []) (h : ∀ c ∈ cs, Unicode.isDigit c = true) :
    digits? 10 cs = if mostDigits < cs.length then none else decimal? cs := by
  have hplain : unfilled? (fun c => (digit? c).isSome) false cs = some cs :=
    unfilled?_eq_some _ _ fun c hc => not_isFiller_of_isDigit (h c hc)
  have hfold : ∀ n, cs.foldlM (fun n c => ((digit? c).filter (· < 10)).map (10 * n + ·)) n =
      cs.foldlM (fun n c => (Unicode.decimalValue? c).map (10 * n + ·)) n := by
    clear hne hplain
    induction cs with
    | nil => exact fun _ => rfl
    | cons c cs ih =>
      intro n
      obtain ⟨hc, hcs⟩ := List.forall_mem_cons.mp h
      rw [List.foldlM_cons, List.foldlM_cons, digit?_of_isDigit hc]
      exact congrArg _ (funext (ih hcs))
  rw [digits?, hplain, Option.bind_eq_bind, Option.bind_some, List.isEmpty_eq_false_iff.mpr hne, decimal?, hfold]
  simp

theorem isDigit_of_decimal? (h : decimal? cs = some n) : ∀ c ∈ cs, Unicode.isDigit c = true := by
  suffices hfold : ∀ m, cs.foldlM (fun n c => (Unicode.decimalValue? c).map (10 * n + ·)) m = some n →
      ∀ c ∈ cs, Unicode.isDigit c = true from hfold 0 h
  clear h
  induction cs with
  | nil => exact fun _ _ => nofun
  | cons c cs ih =>
    intro m h
    rw [List.foldlM_cons, Option.bind_eq_bind, Option.bind_eq_some_iff] at h
    obtain ⟨k, hc, hcs⟩ := h
    obtain ⟨value, hvalue, rfl⟩ := Option.map_eq_some_iff.mp hc
    refine List.forall_mem_cons.mpr ⟨Unicode.isDigit_of_isDecimal ?_, ih _ hcs⟩
    rw [Unicode.isDecimal, hvalue]
    rfl

end Numeral

/-! ## Steps and their failures -/

namespace Pointer
variable {d node next v w : Data} {segment : String} {segments : List String} {n : Nat}

/-- The position that a segment spells. -/
def IsIndex (segment : String) (n : Nat) : Prop := segment ≠ "" ∧ Numeral.decimal? segment.toList = some n

/-- Digits that are not read as a number: some of them are no decimal digits, or there are too many. -/
def IsUnreadable (segment : String) : Prop :=
  segment ≠ "" ∧ (∀ c ∈ segment.toList, Unicode.isDigit c = true) ∧
    (Numeral.decimal? segment.toList = none ∨ Numeral.mostDigits < segment.toList.length)

inductive Child : Data → String → Data → Prop
  | entry {es : Data.Fields} {segment : String} {v : Data} :
      Entries.find? Scalar.same es (.str segment) = some v → Child (.map es) segment v
  | item {items : List Data} {segment : String} {n : Nat} {v : Data} :
      IsIndex segment n → items[n]? = some v → Child (.list items) segment v

inductive LeadsTo : Data → List String → Data → Prop
  | nil {d : Data} : LeadsTo d [] d
  | cons {d next v : Data} {segment : String} {segments : List String} :
      Child d segment next → LeadsTo next segments v → LeadsTo d (segment :: segments) v

/-- Following segments comes to a step that is so. -/
def Meets (P : Data → String → Prop) (d : Data) (segments : List String) : Prop :=
  ∃ before segment after node, segments = before ++ segment :: after ∧ LeadsTo d before node ∧ P node segment

/-- Some step has no child. -/
def Lacks : Data → List String → Prop := Meets fun node segment => ∀ v, ¬ Child node segment v

/-- At some step a list is asked for a position that cannot be read. -/
def Stuck : Data → List String → Prop := Meets fun node segment => (∃ items, node = .list items) ∧ IsUnreadable segment

theorem Child.unique (h : Child d segment v) (h' : Child d segment w) : v = w := by
  cases h with
  | entry h =>
    cases h' with
    | entry h' => exact Option.some.inj (h.symm.trans h')
  | item hindex h =>
    cases h' with
    | item hindex' h' =>
      obtain rfl := Option.some.inj (hindex.2.symm.trans hindex'.2)
      exact Option.some.inj (h.symm.trans h')

theorem leadsTo_nil_iff : LeadsTo d [] v ↔ v = d := by
  constructor
  · rintro ⟨⟩
    rfl
  · rintro rfl
    exact .nil

theorem leadsTo_cons_iff : LeadsTo d (segment :: segments) v ↔ ∃ next, Child d segment next ∧ LeadsTo next segments v := by
  constructor
  · rintro ⟨⟩
    exact ⟨_, ‹_›, ‹_›⟩
  · rintro ⟨next, hchild, hrest⟩
    exact .cons hchild hrest

theorem not_meets_nil {P : Data → String → Prop} : ¬ Meets P d [] := by
  rintro ⟨before, segment, after, node, heq, -⟩
  exact absurd heq (by simp)

theorem meets_cons_iff {P : Data → String → Prop} :
    Meets P d (segment :: segments) ↔ P d segment ∨ ∃ next, Child d segment next ∧ Meets P next segments := by
  constructor
  · rintro ⟨before, s, after, node, heq, hfollows, hnode⟩
    cases hfollows with
    | nil =>
      obtain ⟨rfl, rfl⟩ := List.cons.inj heq
      exact Or.inl hnode
    | cons hchild hrest =>
      obtain ⟨rfl, rfl⟩ := List.cons.inj heq
      exact Or.inr ⟨_, hchild, _, s, after, node, rfl, hrest, hnode⟩
  · rintro (hd | ⟨next, hchild, before, s, after, node, rfl, hrest, hnode⟩)
    · exact ⟨[], segment, segments, d, rfl, .nil, hd⟩
    · exact ⟨segment :: before, s, after, node, rfl, .cons hchild hrest, hnode⟩

theorem lacks_iff : Lacks d segments ↔ ∀ v, ¬ LeadsTo d segments v := by
  induction segments generalizing d with
  | nil => exact iff_of_false not_meets_nil fun h => h d .nil
  | cons segment segments ih =>
    rw [Lacks, meets_cons_iff]
    constructor
    · rintro (hnone | ⟨next, hchild, hrest⟩) v hv
      · obtain ⟨next, hchild, -⟩ := leadsTo_cons_iff.mp hv
        exact hnone next hchild
      · obtain ⟨next', hchild', hv⟩ := leadsTo_cons_iff.mp hv
        obtain rfl := hchild.unique hchild'
        exact ih.mp hrest v hv
    · intro hnone
      by_cases hchild : ∃ next, Child d segment next
      · obtain ⟨next, hchild⟩ := hchild
        exact Or.inr ⟨next, hchild, ih.mpr fun v hv => hnone v (.cons hchild hv)⟩
      · exact Or.inl fun v hv => hchild ⟨v, hv⟩

theorem not_stuck_of_readable (h : ∀ segment ∈ segments, ¬ IsUnreadable segment) : ¬ Stuck d segments := by
  rintro ⟨before, segment, after, node, rfl, -, -, hunread⟩
  exact h segment (List.mem_append_right before (List.mem_cons_self ..)) hunread

/-! ## What is looked up -/

theorem index?_of_isUnreadable (h : IsUnreadable segment) : index? segment = .error .badValue := by
  obtain ⟨hne, hdigits, hunread⟩ := h
  have hchars : segment.toList ≠ [] := fun hnil => hne (String.toList_eq_nil_iff.mp hnil)
  have hnone : Numeral.digits? 10 segment.toList = none := by
    rw [Numeral.digits?_of_isDigit hchars hdigits]
    rcases hunread with hnone | hlong
    · rw [hnone, ite_self]
    · rw [if_pos hlong]
  have hread : (segment.toList.isEmpty || !segment.toList.all Unicode.isDigit) = false := by
    simpa [hne] using hdigits
  simp only [index?, hread, hnone]
  rfl

theorem exists_index? (h : ¬ IsUnreadable segment) :
    ∃ index, index? segment = .ok index ∧ ∀ n, index = some n ↔ IsIndex segment n := by
  by_cases hne : segment = ""
  · subst hne
    exact ⟨none, rfl, fun n => iff_of_false nofun fun hindex => hindex.1 rfl⟩
  by_cases hdigits : ∀ c ∈ segment.toList, Unicode.isDigit c = true
  · have hread : (segment.toList.isEmpty || !segment.toList.all Unicode.isDigit) = false := by
      simpa [hne] using hdigits
    have hchars : segment.toList ≠ [] := fun hnil => hne (String.toList_eq_nil_iff.mp hnil)
    obtain ⟨hsome, hshort⟩ := not_or.mp fun hunread => h ⟨hne, hdigits, hunread⟩
    obtain ⟨n, hn⟩ := Option.ne_none_iff_exists'.mp hsome
    have hvalue : Numeral.digits? 10 segment.toList = some n := by
      rw [Numeral.digits?_of_isDigit hchars hdigits, if_neg hshort, hn]
    refine ⟨some n, ?_, fun m => ?_⟩
    · simp only [index?, hread, hvalue]
      rfl
    · rw [IsIndex, hn]
      exact (and_iff_right hne).symm
  · refine ⟨none, ?_, fun n => iff_of_false nofun fun hindex => hdigits (Numeral.isDigit_of_decimal? hindex.2)⟩
    have hread : (segment.toList.isEmpty || !segment.toList.all Unicode.isDigit) = true := by
      simpa [hne] using hdigits
    simp only [index?, hread]
    rfl

theorem child?_of_isUnreadable {items : List Data} (h : IsUnreadable segment) :
    child? (.list items) segment = .error .badValue := by
  rw [child?, index?_of_isUnreadable h]
  rfl

theorem exists_child? (h : ¬ ((∃ items, d = .list items) ∧ IsUnreadable segment)) :
    ∃ found, child? d segment = .ok found ∧ ∀ v, found = some v ↔ Child d segment v := by
  cases d with
  | scalar | tuple => exact ⟨none, rfl, fun v => iff_of_false nofun nofun⟩
  | map es =>
    refine ⟨_, rfl, fun v => ⟨.entry, ?_⟩⟩
    rintro ⟨h⟩
    exact h
  | list items =>
    obtain ⟨index, hindex, hspells⟩ := exists_index? fun hunread => h ⟨⟨items, rfl⟩, hunread⟩
    refine ⟨index.bind fun n => items[n]?, ?_, fun v => ?_⟩
    · rw [child?, hindex]
      rfl
    · rw [Option.bind_eq_some_iff]
      constructor
      · rintro ⟨n, hn, hv⟩
        exact .item ((hspells n).mp hn) hv
      · rintro ⟨⟩
        exact ⟨_, (hspells _).mpr ‹_›, ‹_›⟩

theorem walk?_cons_of_some (h : child? d segment = .ok (some next)) :
    walk? d (segment :: segments) = walk? next segments := by
  rw [walk?, h]
  rfl

theorem walk?_cons_of_none (h : child? d segment = .ok none) : walk? d (segment :: segments) = .ok none := by
  rw [walk?, h]
  rfl

theorem walk?_of_stuck (h : Stuck d segments) : walk? d segments = .error .badValue := by
  induction segments generalizing d with
  | nil => exact absurd h not_meets_nil
  | cons segment segments ih =>
    by_cases hhere : (∃ items, d = .list items) ∧ IsUnreadable segment
    · obtain ⟨⟨items, rfl⟩, hunread⟩ := hhere
      rw [walk?, child?_of_isUnreadable hunread]
      rfl
    · rcases meets_cons_iff.mp h with hd | ⟨next, hchild, hrest⟩
      · exact absurd hd hhere
      · obtain ⟨found, hfound, hiff⟩ := exists_child? hhere
        obtain rfl := (hiff next).mpr hchild
        rw [walk?_cons_of_some hfound]
        exact ih hrest

theorem exists_walk? (h : ¬ Stuck d segments) :
    ∃ found, walk? d segments = .ok found ∧ ∀ v, found = some v ↔ LeadsTo d segments v := by
  induction segments generalizing d with
  | nil => exact ⟨some d, rfl, fun v => by rw [leadsTo_nil_iff, Option.some.injEq, eq_comm]⟩
  | cons segment segments ih =>
    rw [Stuck, meets_cons_iff, not_or] at h
    obtain ⟨found, hfound, hiff⟩ := exists_child? h.1
    cases found with
    | none =>
      refine ⟨none, walk?_cons_of_none hfound, fun v => iff_of_false nofun fun hv => ?_⟩
      obtain ⟨next, hchild, -⟩ := leadsTo_cons_iff.mp hv
      exact absurd ((hiff next).mpr hchild) nofun
    | some next =>
      have hchild := (hiff next).mp rfl
      obtain ⟨found, hwalk, hfollows⟩ := ih fun hstuck => h.2 ⟨next, hchild, hstuck⟩
      refine ⟨found, (walk?_cons_of_some hfound).trans hwalk, fun v => (hfollows v).trans ?_⟩
      rw [leadsTo_cons_iff]
      constructor
      · exact fun hv => ⟨next, hchild, hv⟩
      · rintro ⟨next', hchild', hv⟩
        exact hchild.unique hchild' ▸ hv

end Pointer

/-! ## References -/

namespace Reference

open Pointer Text

/-- The names along what follows the mark of a reference. -/
def names (cs : List Char) : List String := (splitOn '/' cs).map fun segment => String.ofList (unescapeChars segment)

/-- What is said of the node that a walk found, if it found one. -/
def answer (ref : String) : Option Data → Result Data
  | some v => .ok v
  | none => .error (.unresolvedReference ref)

/-- An outcome that is the node the names lead to, or else says that they lead to none. -/
structure Answers (document : Data) (names : List String) (ref : String) (outcome : Result Data) : Prop where
  found : ∀ v, outcome = .ok v ↔ LeadsTo document names v
  missing : outcome = .error (.unresolvedReference ref) ↔ Lacks document names
  complete : (∃ v, outcome = .ok v) ∨ outcome = .error (.unresolvedReference ref)

section
variable {document : Data} {ref : String} {cs : List Char} {segments : List String}

theorem path_of_toList (h : ref.toList = '#' :: '/' :: cs) : path ref = .ok (names cs) := by
  rw [path, h]
  rfl

theorem path_of_not_prefix (h : ¬ ['#', '/'] <+: ref.toList) : path ref = .error (.unsupportedReference ref) := by
  rw [path]
  split
  · rename_i cs hcs
    exact absurd ⟨cs, hcs.symm⟩ h
  · rfl

theorem lookup_of_path (h : path ref = .ok segments) :
    lookup document ref = walk? document segments >>= answer ref := by
  rw [lookup, h]
  refine congrArg (walk? document segments >>= ·) (funext fun found => ?_)
  cases found with
  | none => rfl
  | some v => rfl

theorem answers_answer {found : Option Data} (h : ∀ v, found = some v ↔ LeadsTo document segments v) :
    Answers document segments ref (answer ref found) := by
  cases found with
  | none =>
    have hnone : Lacks document segments := lacks_iff.mpr fun v hv => nomatch (h v).mpr hv
    exact ⟨fun v => iff_of_false nofun (lacks_iff.mp hnone v), iff_of_true rfl hnone, Or.inr rfl⟩
  | some node =>
    have hnode : LeadsTo document segments node := (h node).mp rfl
    refine ⟨fun v => ?_, iff_of_false nofun fun hnone => lacks_iff.mp hnone node hnode, Or.inl ⟨node, rfl⟩⟩
    rw [← h v, answer, Except.ok.injEq, Option.some.injEq]

theorem not_answers_badValue : ¬ Answers document segments ref (.error .badValue) := by
  rintro ⟨-, -, ⟨v, hv⟩ | hmissing⟩
  · cases hv
  · cases hmissing

/-- Either a list stops the walk, or the answer is what the names lead to. -/
theorem stuck_or_answers (document : Data) (segments : List String) (ref : String) :
    (walk? document segments >>= answer ref) = .error .badValue ∧ Stuck document segments ∨
      Answers document segments ref (walk? document segments >>= answer ref) ∧ ¬ Stuck document segments := by
  by_cases hstuck : Stuck document segments
  · refine Or.inl ⟨?_, hstuck⟩
    rw [walk?_of_stuck hstuck]
    rfl
  · obtain ⟨found, hwalk, hfound⟩ := exists_walk? hstuck
    refine Or.inr ⟨?_, hstuck⟩
    rw [hwalk]
    exact answers_answer hfound

theorem Answers.ne_unsupported {outcome : Result Data} (h : Answers document segments ref outcome) :
    outcome ≠ .error (.unsupportedReference ref) := by
  rintro rfl
  rcases h.complete with ⟨v, hv⟩ | hmissing
  · cases hv
  · cases hmissing

/-- Whether a lookup fails with an error other than its own depends on the lists it comes to, and on the text of
the reference. -/
theorem lookup_answers_iff (document : Data) (ref : String) :
    (lookup document ref = .error (.unsupportedReference ref) ↔ ¬ ['#', '/'] <+: ref.toList) ∧
      ∀ cs, ref.toList = '#' :: '/' :: cs →
        (Answers document (names cs) ref (lookup document ref) ↔ ¬ Stuck document (names cs)) ∧
        (lookup document ref = .error .badValue ↔ Stuck document (names cs)) := by
  constructor
  · constructor
    · rintro hfailed ⟨cs, hcs⟩
      have href : ref.toList = '#' :: '/' :: cs := hcs.symm
      rw [lookup_of_path (path_of_toList href)] at hfailed
      rcases stuck_or_answers document (names cs) ref with ⟨hbad, -⟩ | ⟨hanswers, -⟩
      · rw [hbad] at hfailed
        cases hfailed
      · exact hanswers.ne_unsupported hfailed
    · intro hnot
      rw [lookup, path_of_not_prefix hnot]
      rfl
  · intro cs href
    rw [lookup_of_path (path_of_toList href)]
    rcases stuck_or_answers document (names cs) ref with ⟨hbad, hstuck⟩ | ⟨hanswers, hstuck⟩
    · rw [hbad]
      exact ⟨iff_of_false not_answers_badValue (not_not_intro hstuck), iff_of_true rfl hstuck⟩
    · refine ⟨iff_of_true hanswers hstuck, iff_of_false (fun hbad => ?_) hstuck⟩
      exact not_answers_badValue (hbad ▸ hanswers)

end

/-- A list under a name. -/
def shelf : Data := .map [(.str "a", .list [.scalar (.str "x"), .scalar (.str "y"), .scalar (.str "z")])]

theorem shelf_lacks {segment : String} (h : ∀ n < 3, ¬ IsIndex segment n) : Lacks shelf ["a", segment] := by
  refine ⟨["a"], segment, [], _, rfl, .cons (.entry rfl) .nil, ?_⟩
  intro v hchild
  cases hchild with
  | item hindex hv =>
    obtain ⟨hlt, -⟩ := List.getElem?_eq_some_iff.mp hv
    exact h _ hlt hindex

theorem shelf_not_stuck {segment : String} {n : Nat} (hindex : IsIndex segment n)
    (hshort : segment.toList.length ≤ Numeral.mostDigits) : ¬ Stuck shelf ["a", segment] := by
  apply not_stuck_of_readable
  rintro name hname ⟨-, hdigits, hunread⟩
  rcases List.mem_pair.mp hname with rfl | rfl
  · exact absurd (hdigits 'a' (by decide)) (by decide +kernel)
  · rcases hunread with hnone | hlong
    · exact nomatch hnone.symm.trans hindex.2
    · exact Nat.not_lt_of_le hshort hlong

theorem lookup_answers_shelf :
    lookup shelf "#/a/٢" = .ok (.scalar (.str "z")) ∧ lookup shelf "#/a/٩" = .error (.unresolvedReference "#/a/٩") := by
  have hthird : IsIndex "٢" 2 := ⟨by decide, rfl⟩
  have htenth : IsIndex "٩" 9 := ⟨by decide, rfl⟩
  have hshort : 1 ≤ Numeral.mostDigits := Nat.le_of_ble_eq_true rfl
  have hlacks : Lacks shelf ["a", "٩"] := by
    apply shelf_lacks
    intro n hn hindex
    obtain rfl : 9 = n := Option.some.inj (htenth.2.symm.trans hindex.2)
    omega
  have hfound := ((lookup_answers_iff shelf "#/a/٢").2 "a/٢".toList (by decide)).1.mpr (shelf_not_stuck hthird hshort)
  have hmissing := ((lookup_answers_iff shelf "#/a/٩").2 "a/٩".toList (by decide)).1.mpr (shelf_not_stuck htenth hshort)
  exact ⟨(hfound.found _).mpr (.cons (.entry rfl) (.cons (.item hthird rfl) .nil)), hmissing.missing.mpr hlacks⟩

/-- A digit that is no decimal digit is taken for a position, and cannot be read as one. -/
theorem exists_lookup_not_answers :
    Lacks shelf ["a", "²"] ∧ lookup shelf "#/a/²" = .error .badValue ∧
      ¬ Answers shelf ["a", "²"] "#/a/²" (lookup shelf "#/a/²") := by
  have hlookup : lookup shelf "#/a/²" = .error .badValue := rfl
  have hlacks : Lacks shelf ["a", "²"] := shelf_lacks fun n _ hindex => nomatch hindex.2
  exact ⟨hlacks, hlookup, hlookup ▸ not_answers_badValue⟩

end Reference
end ClientBindings
