import ClientBindings.Text.Percent
import ClientBindings.Proofs.Text
import ClientBindings.Proofs.Utf8

/-! Percent escapes and what decoding does to them. An escape takes three characters, and the byte that
it spells yields at most one; so decoding leaves a text alone exactly when there is no escape in it. The
escapes of an encoded text spell its bytes, and whatever it keeps is neither a percent sign nor outside
ASCII: so decoding gives the text back. -/

namespace ClientBindings

namespace Utf8

theorem length_decodeFrom_le (halves : Bool) (skip : Nat) (bs : List UInt8) :
    (decodeFrom halves skip bs).length ≤ bs.length := by
  induction bs generalizing skip with
  | nil => cases skip <;> exact Nat.le_refl 0
  | cons b bs ih =>
    cases skip with
    | zero => exact Nat.succ_le_succ (ih _)
    | succ skip => exact Nat.le_succ_of_le (ih skip)

theorem length_decodeLossy_le (bs : List UInt8) : (decodeLossy bs).length ≤ bs.length := by
  rw [decodeLossy, List.length_map]
  exact length_decodeFrom_le false 0 bs

end Utf8

namespace Percent
variable {cs run : List Char}

def startsEscape : List Char → Bool
  | '%' :: a :: b :: _ => (byte? a b).isSome
  | _ => false

/-- Whether a percent sign occurs with two hexadecimal digits behind it. -/
def hasEscape : List Char → Bool
  | [] => false
  | c :: cs => startsEscape (c :: cs) || hasEscape cs

theorem startsEscape_of_ne {c : Char} (h : c ≠ '%') (cs : List Char) : startsEscape (c :: cs) = false := by
  unfold startsEscape
  split
  · rename_i heq
    exact absurd (List.cons.inj heq).1 h
  · rfl

theorem hasEscape_of_not_mem (h : '%' ∉ cs) : hasEscape cs = false := by
  induction cs with
  | nil => rfl
  | cons c cs ih =>
    have hc : c ≠ '%' := fun heq => h (heq ▸ List.mem_cons_self)
    rw [hasEscape, startsEscape_of_ne hc, ih fun hmem => h (List.mem_cons_of_mem c hmem)]
    rfl

/-! ## Bytes of a run -/

theorem bytesOf_of_hasEscape_eq_false (h : hasEscape cs = false) : bytesOf cs = cs.map Char.toUInt8 := by
  fun_induction bytesOf cs with
  | case1 a b cs byte hbyte ih => simp [hasEscape, startsEscape, hbyte] at h
  | case2 a b cs hbyte ih =>
    rw [hasEscape, Bool.or_eq_false_iff] at h
    rw [ih h.2]
    rfl
  | case3 c cs _ ih =>
    rw [hasEscape, Bool.or_eq_false_iff] at h
    rw [ih h.2]
    rfl
  | case4 => rfl

theorem length_bytesOf_le (cs : List Char) : (bytesOf cs).length + (hasEscape cs).toNat ≤ cs.length := by
  fun_induction bytesOf cs with
  | case1 a b cs byte hbyte ih =>
    have hone : (hasEscape ('%' :: a :: b :: cs)).toNat ≤ 1 := Bool.toNat_le _
    simp only [List.length_cons]
    omega
  | case2 a b cs hbyte ih =>
    have hstart : startsEscape ('%' :: a :: b :: cs) = false := by simp [startsEscape, hbyte]
    rw [hasEscape, hstart, Bool.false_or]
    simp only [List.length_cons] at ih ⊢
    omega
  | case3 c cs hno ih =>
    have hstart : startsEscape (c :: cs) = false := by
      unfold startsEscape
      split
      · rename_i a b rest heq
        exact absurd (List.cons.inj heq).2 (hno a b rest (List.cons.inj heq).1)
      · rfl
    rw [hasEscape, hstart, Bool.false_or]
    simp only [List.length_cons] at ih ⊢
    omega
  | case4 => exact Nat.le_refl 0

/-! ## Runs of a text -/

theorem hexValue?_of_not_ascii {c : Char} (h : isAscii c = false) : hexValue? c = none := by
  have hle : 128 ≤ c.toNat := by simpa [isAscii] using h
  unfold hexValue?
  simp only
  rw [if_neg (by omega), if_neg (by omega), if_neg (by omega)]

/-- An escape never goes across a character that is not ASCII. -/
theorem hasEscape_append {c : Char} (h : isAscii c = false) (xs cs : List Char) :
    hasEscape (xs ++ c :: cs) = (hasEscape xs || hasEscape cs) := by
  have hc : c ≠ '%' := by
    rintro rfl
    cases h
  have hhex := hexValue?_of_not_ascii h
  induction xs with
  | nil => simp [hasEscape, startsEscape_of_ne hc]
  | cons x xs ih =>
    have hstart : startsEscape (x :: (xs ++ c :: cs)) = startsEscape (x :: xs) := by
      by_cases hx : x = '%'
      -- Of the two characters behind the percent sign, the one that is not ASCII is no digit.
      · subst hx
        match xs with
        | [] =>
          cases cs with
          | nil => rfl
          | cons d cs => simp [startsEscape, byte?, hhex]
        | [a] => simp [startsEscape, byte?, hhex]
        | a :: b :: rest => rfl
      · rw [startsEscape_of_ne hx, startsEscape_of_ne hx]
    rw [List.cons_append, hasEscape, hasEscape, hstart, ih, Bool.or_assoc]

theorem front_ascii {c : Char} (h : isAscii c = true) (bs : List UInt8) :
    Utf8.front false c.toUInt8 bs = (some c, 0) := by
  have hlt : c.toNat < 128 := by simpa [isAscii] using h
  have hnat : c.toUInt8.toNat = c.toNat := by
    show c.toNat % 256 = c.toNat
    omega
  have hsmall : c.toUInt8 < 0x80 := by
    rw [UInt8.lt_iff_toNat_lt, hnat]
    exact hlt
  rw [Utf8.front, if_pos hsmall, hnat, Char.ofNat_toNat]

theorem decodeLossy_ascii (h : ∀ c ∈ cs, isAscii c = true) :
    Utf8.decodeLossy (cs.map Char.toUInt8) = cs := by
  induction cs with
  | nil => rfl
  | cons c cs ih =>
    have hcs := ih fun d hd => h d (List.mem_cons_of_mem c hd)
    rw [Utf8.decodeLossy] at hcs
    rw [List.map_cons, Utf8.decodeLossy, Utf8.decodeFrom, front_ascii (h c List.mem_cons_self)]
    rw [List.map_cons, hcs]
    rfl

theorem decodeRun_eq (hrun : ∀ c ∈ run, isAscii c = true) (h : hasEscape run.reverse = false) :
    Utf8.decodeLossy (bytesOf run.reverse) = run.reverse := by
  rw [bytesOf_of_hasEscape_eq_false h]
  exact decodeLossy_ascii fun c hc => hrun c (List.mem_reverse.mp hc)

theorem length_decodeRun_le (run : List Char) :
    (Utf8.decodeLossy (bytesOf run.reverse)).length + (hasEscape run.reverse).toNat ≤ run.length := by
  have hchars := Utf8.length_decodeLossy_le (bytesOf run.reverse)
  have hbytes := length_bytesOf_le run.reverse
  rw [List.length_reverse] at hbytes
  omega

theorem decodeRuns_eq (hrun : ∀ c ∈ run, isAscii c = true) (h : hasEscape (run.reverse ++ cs) = false) :
    decodeRuns run cs = run.reverse ++ cs := by
  induction cs generalizing run with
  | nil =>
    rw [List.append_nil] at h ⊢
    exact decodeRun_eq hrun h
  | cons c cs ih =>
    rw [decodeRuns]
    by_cases hc : isAscii c = true
    · have hrun' : ∀ d ∈ c :: run, isAscii d = true := by
        intro d hd
        rcases List.mem_cons.mp hd with rfl | hd
        · exact hc
        · exact hrun d hd
      rw [if_pos hc, ih hrun' (by simpa using h)]
      simp
    · rw [hasEscape_append (by simpa using hc), Bool.or_eq_false_iff] at h
      rw [if_neg hc, decodeRun_eq hrun h.1, ih (by simp) (by simpa using h.2)]
      rfl

theorem length_decodeRuns_le (run cs : List Char) :
    (decodeRuns run cs).length + (hasEscape (run.reverse ++ cs)).toNat ≤ run.length + cs.length := by
  induction cs generalizing run with
  | nil =>
    rw [List.append_nil]
    exact length_decodeRun_le run
  | cons c cs ih =>
    rw [decodeRuns]
    by_cases hc : isAscii c = true
    · have hle := ih (c :: run)
      rw [List.reverse_cons, List.append_assoc, List.singleton_append] at hle
      rw [if_pos hc]
      simp only [List.length_cons] at hle ⊢
      omega
    · have hle := ih []
      have hrun := length_decodeRun_le run
      have hor : (hasEscape run.reverse || hasEscape cs).toNat ≤
          (hasEscape run.reverse).toNat + (hasEscape cs).toNat := by
        cases hasEscape run.reverse <;> cases hasEscape cs <;> decide
      rw [if_neg hc, hasEscape_append (by simpa using hc)]
      simp only [List.reverse_nil, List.nil_append, List.length_nil, List.length_append,
        List.length_cons] at hle ⊢
      omega

theorem decode_eq_self_iff (cs : List Char) : decode cs = cs ↔ hasEscape cs = false := by
  constructor
  · intro heq
    have hle := length_decodeRuns_le [] cs
    rw [← decode, heq] at hle
    simp only [List.reverse_nil, List.nil_append, List.length_nil] at hle
    exact Bool.toNat_eq_zero.mp (by omega)
  · intro h
    exact decodeRuns_eq (by simp) h

/-! ## Encoded texts read back -/

theorem hexValue?_upperHexDigit {n : Nat} (h : n < 16) : hexValue? (upperHexDigit n) = some n :=
  (by decide : ∀ k < 16, hexValue? (upperHexDigit k) = some k) n h

theorem isAlphanum_upperHexDigit {n : Nat} (h : n < 16) : (upperHexDigit n).isAlphanum = true :=
  (by decide : ∀ k < 16, (upperHexDigit k).isAlphanum = true) n h

theorem byte?_upperHexDigits (b : UInt8) :
    byte? (upperHexDigit (b.toNat / 16)) (upperHexDigit (b.toNat % 16)) = some b := by
  have hlt : b.toNat < 256 := b.toNat_lt
  have hsum : 16 * (b.toNat / 16) + b.toNat % 16 = b.toNat := Nat.div_add_mod b.toNat 16
  rw [byte?, hexValue?_upperHexDigit (by omega), hexValue?_upperHexDigit (by omega)]
  show some (UInt8.ofNat (16 * (b.toNat / 16) + b.toNat % 16)) = some b
  rw [hsum, UInt8.ofNat_toNat]

theorem bytesOf_encodeByte (b : UInt8) (cs : List Char) : bytesOf (encodeByte b ++ cs) = b :: bytesOf cs := by
  show bytesOf ('%' :: upperHexDigit (b.toNat / 16) :: upperHexDigit (b.toNat % 16) :: cs) = _
  rw [bytesOf, byte?_upperHexDigits]

theorem bytesOf_encodeBytes (bs : List UInt8) (cs : List Char) :
    bytesOf (bs.flatMap encodeByte ++ cs) = bs ++ bytesOf cs := by
  induction bs with
  | nil => rfl
  | cons b bs ih => rw [List.flatMap_cons, List.append_assoc, bytesOf_encodeByte, ih, List.cons_append]

theorem bytesOf_cons_of_ne {c : Char} (h : c ≠ '%') (cs : List Char) : bytesOf (c :: cs) = c.toUInt8 :: bytesOf cs := by
  rw [bytesOf]
  intro a b rest heq
  exact absurd heq h

theorem utf8EncodeChar_of_isAscii {c : Char} (h : isAscii c = true) : String.utf8EncodeChar c = [c.toUInt8] :=
  Utf8.encodeChar_one (Nat.le_of_lt_succ (by simpa [isAscii] using h))

theorem bytesOf_encode {keep : Char → Bool} (hkeep : ∀ c, keep c = true → isAscii c = true ∧ c ≠ '%')
    (cs : List Char) : bytesOf (encode keep cs) = Utf8.encode cs := by
  induction cs with
  | nil => rfl
  | cons c cs ih =>
    rw [encode, Utf8.encode, List.flatMap_cons, List.flatMap_cons, ← encode, ← Utf8.encode, ← ih]
    split
    · rename_i hc
      rw [utf8EncodeChar_of_isAscii (hkeep c hc).1, List.singleton_append, List.singleton_append,
        bytesOf_cons_of_ne (hkeep c hc).2]
    · exact bytesOf_encodeBytes _ _

theorem eq_or_isAlphanum_of_mem_encodeByte {b : UInt8} {c : Char} (h : c ∈ encodeByte b) :
    c = '%' ∨ c.isAlphanum = true := by
  have hlt : b.toNat < 256 := b.toNat_lt
  rcases List.mem_cons.mp h with rfl | h
  · exact .inl rfl
  rcases List.mem_cons.mp h with rfl | h
  · exact .inr (isAlphanum_upperHexDigit (by omega))
  · rw [List.mem_singleton.mp h]
    exact .inr (isAlphanum_upperHexDigit (by omega))

theorem mem_encode {keep : Char → Bool} {c : Char} (h : c ∈ encode keep cs) :
    keep c = true ∨ c = '%' ∨ c.isAlphanum = true := by
  obtain ⟨d, -, hmem⟩ := List.mem_flatMap.mp h
  split at hmem
  · rename_i hd
    rw [List.mem_singleton.mp hmem]
    exact .inl hd
  · obtain ⟨b, -, hb⟩ := List.mem_flatMap.mp hmem
    exact .inr (eq_or_isAlphanum_of_mem_encodeByte hb)

theorem isAscii_of_isAlphanum {c : Char} (h : c.isAlphanum = true) : isAscii c = true :=
  decide_eq_true (Text.toNat_lt_of_isAlphanum h)

theorem decodeRuns_of_ascii (h : ∀ c ∈ cs, isAscii c = true) (run : List Char) :
    decodeRuns run cs = Utf8.decodeLossy (bytesOf (run.reverse ++ cs)) := by
  induction cs generalizing run with
  | nil => rw [decodeRuns, List.append_nil]
  | cons c cs ih =>
    rw [decodeRuns, if_pos (h c List.mem_cons_self), ih fun d hd => h d (List.mem_cons_of_mem c hd)]
    simp

theorem isUnreserved_bounds {c : Char} (h : isUnreserved c = true) : isAscii c = true ∧ c ≠ '%' := by
  rcases Bool.or_eq_true_iff.mp h with h | h
  · refine ⟨isAscii_of_isAlphanum h, ?_⟩
    rintro rfl
    cases h
  · have hall : ("-_.!~*'()".toList.all fun d => isAscii d && d != '%') = true := by decide
    have hc := List.all_eq_true.mp hall c (List.contains_iff_mem.mp h)
    rw [Bool.and_eq_true, bne_iff_ne] at hc
    exact hc

theorem isUnreserved_or_eq_of_mem_component {c : Char} (h : c ∈ component cs) : isUnreserved c = true ∨ c = '%' := by
  rcases mem_encode h with h | h | h
  · exact .inl h
  · exact .inr h
  · exact .inl (Bool.or_eq_true_iff.mpr (.inl h))

theorem not_mem_component {c : Char} (hc : isUnreserved c = false) (hpercent : c ≠ '%') (cs : List Char) :
    c ∉ component cs := by
  intro h
  rcases isUnreserved_or_eq_of_mem_component h with h | h
  · rw [hc] at h
    cases h
  · exact hpercent h

theorem decode_component (cs : List Char) : decode (component cs) = cs := by
  have hascii : ∀ c ∈ component cs, isAscii c = true := by
    intro c hc
    rcases isUnreserved_or_eq_of_mem_component hc with h | rfl
    · exact (isUnreserved_bounds h).1
    · rfl
  rw [decode, decodeRuns_of_ascii hascii]
  show Utf8.decodeLossy (bytesOf (component cs)) = cs
  rw [component, bytesOf_encode fun c => isUnreserved_bounds]
  exact Utf8.decodeLossy_encode cs

end Percent
end ClientBindings
