import ClientBindings.Proofs.Firsts
import ClientBindings.Proofs.Identifier
import ClientBindings.Source.Enumeration
import Mathlib.Data.List.Forall2
import Mathlib.Data.List.Induction

/-! Names of members. A name that an enumeration would refuse, drop or alter is replaced, and a name that is taken
gets a number; neither makes a name that is not accepted, whatever the class is called. -/

namespace ClientBindings.EnumDeclaration

open Text

/-- A name that a class of this name has for a member as it stands. -/
structure Accepted (className name : String) : Prop where
  ne_empty : name ≠ ""
  ne_mro : name ≠ "mro"
  not_dunder : ¬ ['_', '_'] <+: name.toList
  not_private : ¬ '_' :: className.toList ++ ['_', '_'] <+: name.toList
  not_sunder : 2 < name.length → ¬ (['_'] <+: name.toList ∧ ['_'] <:+ name.toList)

variable {className name : String}

theorem accepted_iff : Accepted className name ↔ isReserved className name = false := by
  have hprivate : ("_" ++ className ++ "__").toList = '_' :: className.toList ++ ['_', '_'] := by simp
  have hhead : name.toList.head? = some '_' ↔ ['_'] <+: name.toList := by
    rw [List.head?_eq_some_iff]
    exact ⟨fun ⟨cs, hcs⟩ => ⟨cs, hcs.symm⟩, fun ⟨cs, hcs⟩ => ⟨cs, hcs.symm⟩⟩
  have hlast : name.toList.getLast? = some '_' ↔ ['_'] <:+ name.toList := by
    rw [List.getLast?_eq_some_iff]
    exact ⟨fun ⟨cs, hcs⟩ => ⟨cs, hcs.symm⟩, fun ⟨cs, hcs⟩ => ⟨cs, hcs.symm⟩⟩
  have hstart : ∀ pattern : String, name.startsWith pattern = false ↔ ¬ pattern.toList <+: name.toList :=
    fun pattern => by rw [← Bool.not_eq_true, String.startsWith_string_iff]
  have hempty : name.toList.isEmpty = false ↔ name ≠ "" := by simp
  have hsunder : (decide (name.toList.length > 2) && name.toList.head? == some '_' && name.toList.getLast? == some '_')
      = false ↔ (2 < name.length → ¬ (['_'] <+: name.toList ∧ ['_'] <:+ name.toList)) := by
    rw [← Bool.not_eq_true, Bool.and_eq_true, Bool.and_eq_true, beq_iff_eq, beq_iff_eq, hhead, hlast,
      decide_eq_true_iff, and_assoc, not_and]
    rfl
  rw [isReserved, Bool.or_eq_false_iff, Bool.or_eq_false_iff, Bool.or_eq_false_iff, Bool.or_eq_false_iff, hempty,
    beq_eq_false_iff_ne, hstart, hstart, hprivate, hsunder]
  constructor
  · exact fun h => ⟨⟨⟨⟨h.ne_empty, h.ne_mro⟩, h.not_dunder⟩, h.not_private⟩, h.not_sunder⟩
  · exact fun ⟨⟨⟨⟨hempty, hmro⟩, hdunder⟩, hprivate⟩, hsunder⟩ => ⟨hempty, hmro, hdunder, hprivate, hsunder⟩

/-! ## Altered names -/

/-- Behind the low line in front no two low lines meet, and none stands at an end. -/
theorem altered_cases (name : String) : (altered name).toList = ['_'] ∨
    ∃ body, (altered name).toList = '_' :: body ∧ MarksApart '_' body := by
  unfold altered
  rw [String.toList_ofList]
  generalize hparts : (splitOn '_' (Identifier.normalize name).toList).filter (!·.isEmpty) = parts
  by_cases hnone : parts = []
  · left
    rw [hnone]
    rfl
  right
  refine ⟨join ['_'] parts, rfl, marksApart_of_nil_not_mem ?_⟩
  have hpieces : ∀ piece ∈ parts, '_' ∉ piece := by
    intro piece hpiece
    rw [← hparts] at hpiece
    exact not_mem_of_mem_splitOn (List.mem_of_mem_filter hpiece)
  rw [splitOn_join hnone hpieces, ← hparts]
  intro hmem
  exact absurd (List.mem_filter.mp hmem).2 (by decide)

theorem accepted_low_line (className : String) : Accepted className "_" where
  ne_empty := by decide
  ne_mro := by decide
  not_dunder := by decide
  not_private := by
    intro hprefix
    have hlength := hprefix.length_le
    simp at hlength
  not_sunder h := absurd h (by decide)

theorem accepted_of_marksApart {body : List Char} (hname : name.toList = '_' :: body) (hbody : MarksApart '_' body) :
    Accepted className name := by
  constructor
  case ne_empty =>
    rintro rfl
    cases hname
  case ne_mro =>
    rintro rfl
    exact absurd (List.cons.inj hname).1 (by decide)
  case not_dunder =>
    rw [hname]
    rintro ⟨rest, hrest⟩
    obtain rfl := (List.cons.inj hrest).2
    exact hbody.head rfl
  case not_private =>
    rw [hname]
    rintro ⟨rest, hrest⟩
    obtain rfl := (List.cons.inj hrest).2
    exact hbody.doubled ⟨className.toList, rest, rfl⟩
  case not_sunder =>
    rw [hname]
    rintro - ⟨-, front, hfront⟩
    have hlast : ('_' :: body).getLast? = some '_' := by rw [← hfront, List.getLast?_concat]
    rw [List.getLast?_cons_of_ne_nil hbody.ne_nil] at hlast
    exact hbody.last hlast

theorem accepted_altered (className name : String) : Accepted className (altered name) := by
  rcases altered_cases name with hshort | ⟨body, hbody, hapart⟩
  · have hname : altered name = "_" := String.toList_injective hshort
    rw [hname]
    exact accepted_low_line className
  · exact accepted_of_marksApart hbody hapart

theorem accepted_allowedName (className name : String) : Accepted className (allowedName className name) := by
  unfold allowedName
  split
  case isTrue => exact accepted_altered className name
  case isFalse h => exact accepted_iff.mpr (Bool.eq_false_iff.mpr h)

/-! ## Numbered names -/

/-- What ends with a low line does not reach into digits. -/
theorem prefix_of_prefix_append {pattern front digits : List Char} (hdigits : '_' ∉ digits)
    (h : pattern ++ ['_'] <+: front ++ digits) : pattern ++ ['_'] <+: front := by
  rcases List.prefix_or_prefix_of_prefix h (List.prefix_append front digits) with h' | ⟨more, hmore⟩
  · exact h'
  obtain ⟨rest, hrest⟩ := h
  rw [← hmore, List.append_assoc, List.append_cancel_left_eq] at hrest
  rcases List.eq_nil_or_concat more with rfl | ⟨before, c, rfl⟩
  · rw [List.append_nil] at hmore
    exact ⟨[], by rw [List.append_nil, hmore]⟩
  · rw [List.concat_eq_append, ← List.append_assoc] at hmore
    obtain rfl : c = '_' := List.singleton_inj.mp (List.append_inj' hmore rfl).2
    rw [List.concat_eq_append] at hrest
    refine absurd ?_ hdigits
    rw [← hrest]
    exact List.mem_append_left _ (List.mem_append_right before (List.mem_singleton_self '_'))

theorem accepted_numbered (h : Accepted className name) (n : Nat) : Accepted className (numbered name n) := by
  have htext : (numbered name n).toList = name.toList ++ (toString (n + 2)).toList := by
    rw [numbered, String.toList_append]
  have hdigits : ∀ c ∈ (toString (n + 2)).toList, c.isDigit = true := fun c hc => Identifier.isDigit_of_mem_toString hc
  have hlowLine : '_' ∉ (toString (n + 2)).toList := fun hmem => absurd (hdigits '_' hmem) (by decide)
  have hsome : (toString (n + 2)).toList ≠ [] := by
    rw [Identifier.toString_toList]
    exact Nat.toDigits_ne_nil
  have hlast : ∀ c, [c] <:+ (numbered name n).toList → c.isDigit = true := by
    intro c hc
    have hgetLast : (numbered name n).toList.getLast? = some c := by
      obtain ⟨front, hfront⟩ := hc
      rw [← hfront, List.getLast?_concat]
    rw [htext, List.getLast?_append_of_ne_nil _ hsome] at hgetLast
    exact hdigits c (List.mem_of_getLast? hgetLast)
  constructor
  case ne_empty =>
    intro heq
    rw [heq] at htext
    exact hsome (List.append_eq_nil_iff.mp htext.symm).2
  case ne_mro =>
    intro heq
    rw [heq] at hlast
    exact absurd (hlast 'o' ⟨['m', 'r'], rfl⟩) (by decide)
  case not_dunder =>
    rw [htext]
    exact fun (hfront : ['_'] ++ ['_'] <+: _) => h.not_dunder (prefix_of_prefix_append hlowLine hfront)
  case not_private =>
    rw [htext]
    intro hprefix
    refine h.not_private ?_
    have hpattern : '_' :: className.toList ++ ['_', '_'] = ('_' :: className.toList ++ ['_']) ++ ['_'] := by simp
    rw [hpattern] at hprefix ⊢
    exact prefix_of_prefix_append hlowLine hprefix
  case not_sunder => exact fun _ hends => absurd (hlast '_' hends.2) (by decide)

/-! ## All members -/

/-- How a member is named: as it was given where that is accepted and in its altered form elsewhere, with at most a
number behind it. -/
def Names (className given name : String) : Prop :=
  ∃ base, (Accepted className given ∧ base = given ∨ ¬ Accepted className given ∧ base = altered given) ∧
    (name = base ∨ ∃ n, name = numbered base n)

theorem names_freshName (className given : String) (taken : List String) :
    Names className given (freshName taken (allowedName className given)) := by
  refine ⟨allowedName className given, ?_, ?_⟩
  · unfold allowedName
    rw [accepted_iff]
    cases isReserved className given with
    | false => exact .inl ⟨rfl, rfl⟩
    | true => exact .inr ⟨Bool.noConfusion, rfl⟩
  · rcases freshName_cases taken (allowedName className given) with ⟨-, hname⟩ | ⟨-, n, hname, -⟩
    · exact .inl hname
    · exact .inr ⟨n, hname⟩

theorem accepted_freshName (className given : String) (taken : List String) :
    Accepted className (freshName taken (allowedName className given)) := by
  have hallowed := accepted_allowedName className given
  rcases freshName_cases taken (allowedName className given) with ⟨-, hname⟩ | ⟨-, n, hname, -⟩
  · rw [hname]
    exact hallowed
  · rw [hname]
    exact accepted_numbered hallowed n

theorem distinct_concat (members : List EnumMember) (m : EnumMember) :
    distinct (members ++ [m]) =
      if (distinct members).any (fun k => k.name == m.name) then distinct members else distinct members ++ [m] := by
  rw [distinct, List.foldl_concat]
  rfl

theorem namedMembers_concat (className : String) (members : List EnumMember) (m : EnumMember) :
    namedMembers className (members ++ [m]) = namedMembers className members ++
      [(freshName ((namedMembers className members).map Prod.fst) (allowedName className m.name),
        Literal.spelling m.value)] := by
  rw [namedMembers, List.foldl_concat]
  rfl

/-- Of members with the same name the first one stays. -/
theorem map_name_distinct (members : List EnumMember) :
    (distinct members).map EnumMember.name = (members.map EnumMember.name).eraseDups := by
  induction members using List.reverseRecOn with
  | nil => rfl
  | append_singleton members m ih =>
    have hany : (distinct members).any (fun k => k.name == m.name) = (members.map EnumMember.name).contains m.name := by
      rw [Bool.eq_iff_iff, List.contains_iff_mem, ← List.mem_eraseDups, ← ih, List.mem_map, List.any_eq_true]
      simp only [beq_iff_eq]
    rw [distinct_concat, List.map_append, List.map_singleton, eraseDups_concat, hany, ← ih]
    split
    · rfl
    · rw [List.map_append, List.map_singleton]

theorem forall₂_names (className : String) (members : List EnumMember) : List.Forall₂ (Names className)
    (members.map EnumMember.name) ((namedMembers className members).map Prod.fst) := by
  induction members using List.reverseRecOn with
  | nil => exact .nil
  | append_singleton members m ih =>
    rw [namedMembers_concat, List.map_append, List.map_append]
    exact List.rel_append ih (.cons (names_freshName className m.name _) .nil)

theorem nodup_namedMembers (className : String) (members : List EnumMember) :
    ((namedMembers className members).map Prod.fst).Nodup := by
  induction members using List.reverseRecOn with
  | nil => exact List.nodup_nil
  | append_singleton members m ih =>
    rw [namedMembers_concat, List.map_append, List.map_singleton]
    refine List.nodup_append.mpr ⟨ih, List.nodup_singleton _, ?_⟩
    rintro name hname _ hfresh rfl
    rw [List.mem_singleton.mp hfresh] at hname
    exact freshName_not_mem _ _ hname

theorem accepted_namedMembers (className : String) (members : List EnumMember) :
    ∀ name ∈ (namedMembers className members).map Prod.fst, Accepted className name := by
  induction members using List.reverseRecOn with
  | nil => exact fun name hname => absurd hname List.not_mem_nil
  | append_singleton members m ih =>
    intro name hname
    rw [namedMembers_concat, List.map_append, List.map_singleton] at hname
    rcases List.mem_append.mp hname with hname | hname
    · exact ih name hname
    · rw [List.mem_singleton.mp hname]
      exact accepted_freshName className m.name _

/-- An enumeration has one member for each of the names that are given, in their order. The names of the members differ
from each other and are accepted, those that were altered or numbered as well. -/
theorem ofMembers_accepted (className : String) (members : List EnumMember) (doc : Data) :
    ∃ names, (ofMembers className members doc).members.map Prod.fst = names ∧
      List.Forall₂ (Names className) (members.map EnumMember.name).eraseDups names ∧
      names.Nodup ∧ ∀ name ∈ names, Accepted className name := by
  refine ⟨_, rfl, ?_, nodup_namedMembers className _, accepted_namedMembers className _⟩
  rw [← map_name_distinct]
  exact forall₂_names className (distinct members)

/-- Altering one name can take that of another member, and a number can stand behind a low line. -/
example : (namedMembers "Weird" (["_mro", "mro", "", "__", "_Weird__a", "_2"].map fun s => ⟨s, .str s⟩)).map Prod.fst =
    ["_mro", "_mro2", "_", "_2", "_Weird_a", "_22"] := by
  decide +kernel

end ClientBindings.EnumDeclaration
