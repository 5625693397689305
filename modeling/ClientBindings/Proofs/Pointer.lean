import ClientBindings.Document.Reference
import ClientBindings.Proofs.Entries
import ClientBindings.Proofs.Percent
import ClientBindings.Proofs.Runs
import ClientBindings.Proofs.Text

/-! Pointers written and read back. A name that is escaped and put into a pointer is found again when
the pointer is read, unless it holds a percent escape: those are resolved on reading but never written. -/

namespace ClientBindings

open Text

/-! ## Steps along a pointer -/

/-- What is so for each child of a value, and carries over, is so for whatever a pointer leads to. -/
theorem Pointer.walk?_induct {R : Data → Data → Prop} (refl : ∀ d, R d d) (trans : ∀ {a b c}, R a b → R b c → R a c)
    (item : ∀ {items x}, x ∈ items → R x (.list items)) (entry : ∀ {es key v}, (key, v) ∈ es → R v (.map es))
    {d node : Data} {segments : List String} (h : walk? d segments = .ok (some node)) : R node d := by
  induction segments generalizing d with
  | nil =>
    obtain rfl := Option.some.inj (Except.ok.inj h)
    exact refl d
  | cons segment segments ih =>
    rw [walk?, Result.bind_eq_ok_iff] at h
    obtain ⟨child, hchild, h⟩ := h
    cases child with
    | none => cases h
    | some next =>
      apply trans (ih h)
      cases d with
      | scalar | tuple => cases hchild
      | list items =>
        simp only [child?, Result.bind_eq_ok_iff, Result.pure_eq_ok_iff, Option.bind_eq_some_iff] at hchild
        obtain ⟨_, _, i, _, hi⟩ := hchild
        exact item (List.mem_of_getElem? hi)
      | map es =>
        obtain ⟨key, hmem, _⟩ := Entries.mem_of_find? (Except.ok.inj hchild)
        exact entry hmem

/-! ## Escapes of a pointer -/

namespace Pointer
variable {cs : List Char}

def escapeTilde (c : Char) : List Char := if c = '~' then ['~', '0'] else [c]

def escapeChar (c : Char) : List Char := if c = '/' then ['~', '1'] else escapeTilde c

theorem replace_char (mark : Char) (new cs : List Char) :
    replace [mark] new cs = cs.flatMap fun c => if c = mark then new else [c] := by
  induction cs with
  | nil => rfl
  | cons c cs ih =>
    rw [replace] at ih
    rw [replace, replaceFrom, List.flatMap_cons]
    by_cases hc : c = mark
    · simp [hc, ih]
    · simp [hc, Ne.symm hc, ih]

theorem escape_toList (name : String) : (escape name).toList = name.toList.flatMap escapeChar := by
  rw [escape, onChars, String.toList_ofList, replace_char, replace_char, List.flatMap_assoc]
  refine congrArg (fun f => name.toList.flatMap f) (funext fun c => ?_)
  by_cases htilde : c = '~'
  · simp [htilde, escapeChar, escapeTilde]
  · by_cases hslash : c = '/' <;> simp [htilde, hslash, escapeChar, escapeTilde]

theorem slash_not_mem_escape (name : String) : '/' ∉ (escape name).toList := by
  rw [escape_toList, List.mem_flatMap]
  rintro ⟨c, _, hc⟩
  rw [escapeChar, escapeTilde] at hc
  split at hc
  · simp at hc
  · split at hc
    · simp at hc
    · rename_i hslash _
      exact hslash (List.mem_singleton.mp hc).symm

/-- Reading resolves slashes first, so a tilde in front of a digit is not mistaken for an escape. -/
theorem replace_slash (cs : List Char) :
    replace ['~', '1'] ['/'] (cs.flatMap escapeChar) = cs.flatMap escapeTilde := by
  induction cs with
  | nil => rfl
  | cons c cs ih =>
    rw [replace] at ih
    rw [List.flatMap_cons, List.flatMap_cons, replace, ← ih]
    by_cases hslash : c = '/'
    · subst hslash
      rfl
    · by_cases htilde : c = '~'
      · subst htilde
        rfl
      · simp [escapeChar, escapeTilde, hslash, htilde, replaceFrom, Ne.symm htilde]

theorem replace_tilde (cs : List Char) : replace ['~', '0'] ['~'] (cs.flatMap escapeTilde) = cs := by
  induction cs with
  | nil => rfl
  | cons c cs ih =>
    rw [replace] at ih
    rw [List.flatMap_cons, replace]
    by_cases htilde : c = '~'
    · subst htilde
      simp [escapeTilde, replaceFrom, ih]
    · simp [escapeTilde, htilde, replaceFrom, Ne.symm htilde, ih]

theorem unescape_escape (name : String) :
    String.ofList (unescapeChars (escape name).toList) = onChars Percent.decode name := by
  rw [unescapeChars, escape_toList, replace_slash, replace_tilde, onChars]

theorem decode_name_eq_iff (name : String) :
    onChars Percent.decode name = name ↔ Percent.hasEscape name.toList = false := by
  rw [← Percent.decode_eq_self_iff, onChars]
  constructor
  · intro h
    rw [← String.toList_ofList (l := Percent.decode name.toList), h]
  · intro h
    rw [h, String.ofList_toList]

end Pointer

/-! ## References -/

namespace Reference

theorem component_toList (sectionName name : String) :
    ("#/components/" ++ Pointer.escape sectionName ++ "/" ++ Pointer.escape name).toList =
      '#' :: '/' :: ("components".toList ++ '/' ::
        ((Pointer.escape sectionName).toList ++ '/' :: (Pointer.escape name).toList)) := by
  simp only [String.toList_append, List.append_assoc]
  rfl

theorem splitOn_component (sectionName name : String) :
    splitOn '/' ("components".toList ++ '/' ::
        ((Pointer.escape sectionName).toList ++ '/' :: (Pointer.escape name).toList)) =
      ["components".toList, (Pointer.escape sectionName).toList, (Pointer.escape name).toList] := by
  rw [splitOn_append (by decide), splitOn_append (Pointer.slash_not_mem_escape sectionName),
    splitOn_of_not_mem (Pointer.slash_not_mem_escape name)]

theorem path_component (sectionName name : String) :
    path ("#/components/" ++ Pointer.escape sectionName ++ "/" ++ Pointer.escape name) =
      .ok ["components", onChars Percent.decode sectionName, onChars Percent.decode name] := by
  have hcomponents : String.ofList (Pointer.unescapeChars "components".toList) = "components" := by decide
  rw [path, component_toList]
  simp only [splitOn_component, List.map_cons, List.map_nil, hcomponents, Pointer.unescape_escape]
  rfl

theorem lookup_eq_ok_iff {document v : Data} {ref : String} : lookup document ref = .ok v ↔
    ∃ names, path ref = .ok names ∧ Pointer.walk? document names = .ok (some v) := by
  simp only [lookup, Result.bind_eq_ok_iff]
  apply exists_congr
  intro names
  apply and_congr_right
  intro _
  constructor
  · rintro ⟨found, hwalk, hfound⟩
    cases found with
    | none => exact absurd hfound Result.throw_ne_ok
    | some node => rw [hwalk, Result.pure_eq_ok_iff.mp hfound]
  · intro hwalk
    exact ⟨some v, hwalk, rfl⟩

end Reference
end ClientBindings
