import ClientBindings.Text.Utf8

/-! The bytes of a text read back. A character is split into groups of six bits, all but the first of
which stand in continuation bytes; the leading byte tells how many follow and how small the first of
them may be, so that no character has two spellings and no half of a pair has one. -/

namespace ClientBindings.Utf8
variable {c : Char} {code : Nat}

theorem charOfCode_toNat (c : Char) : charOfCode c.toNat = c := by
  have hvalid : c.toNat < 0xd800 ∨ 0xdfff < c.toNat ∧ c.toNat < 0x110000 := c.valid
  rw [charOfCode, if_neg (by omega), Char.ofNat_toNat]

theorem toNat_ofNat {n : Nat} (h : n < 256) : (UInt8.ofNat n).toNat = n := by
  rw [UInt8.toNat_ofNat']
  exact Nat.mod_eq_of_lt h

/-! ### The bytes of a character -/

theorem encodeChar_one (h : c.toNat ≤ 0x7f) : String.utf8EncodeChar c = [UInt8.ofNat c.toNat] := if_pos h

theorem encodeChar_two (hlow : 0x7f < c.toNat) (hhigh : c.toNat ≤ 0x7ff) :
    String.utf8EncodeChar c = [UInt8.ofNat (c.toNat / 64 + 0xc0), UInt8.ofNat (c.toNat % 64 + 0x80)] := by
  refine (if_neg (Nat.not_le.mpr hlow)).trans ((if_pos hhigh).trans ?_)
  rw [← Nat.mod_eq_of_lt (show c.toNat / 64 < 32 by omega)]
  rfl

theorem encodeChar_three (hlow : 0x7ff < c.toNat) (hhigh : c.toNat ≤ 0xffff) :
    String.utf8EncodeChar c = [UInt8.ofNat (c.toNat / 4096 + 0xe0), UInt8.ofNat (c.toNat / 64 % 64 + 0x80),
      UInt8.ofNat (c.toNat % 64 + 0x80)] := by
  refine (if_neg (Nat.not_le.mpr (Nat.lt_trans (by decide) hlow))).trans
    ((if_neg (Nat.not_le.mpr hlow)).trans ((if_pos hhigh).trans ?_))
  rw [← Nat.mod_eq_of_lt (show c.toNat / 4096 < 16 by omega)]
  rfl

theorem encodeChar_four (h : 0xffff < c.toNat) :
    String.utf8EncodeChar c = [UInt8.ofNat (c.toNat / 262144 + 0xf0), UInt8.ofNat (c.toNat / 4096 % 64 + 0x80),
      UInt8.ofNat (c.toNat / 64 % 64 + 0x80), UInt8.ofNat (c.toNat % 64 + 0x80)] := by
  have hvalid : c.toNat < 0xd800 ∨ 0xdfff < c.toNat ∧ c.toNat < 0x110000 := c.valid
  refine (if_neg (Nat.not_le.mpr (Nat.lt_trans (by decide) h))).trans
    ((if_neg (Nat.not_le.mpr (Nat.lt_trans (by decide) h))).trans ((if_neg (Nat.not_le.mpr h)).trans ?_))
  rw [← Nat.mod_eq_of_lt (show c.toNat / 262144 < 8 by omega)]
  rfl

/-! ### Reading them -/

/-- A continuation byte carries six bits. -/
theorem collect_six {low high : UInt8} {n taken bits : Nat} {bs : List UInt8} (hbits : bits < 64)
    (hlow : low.toNat ≤ bits + 0x80) (hhigh : bits + 0x80 ≤ high.toNat) :
    collect (n + 1) low high code taken (UInt8.ofNat (bits + 0x80) :: bs) =
      collect n 0x80 0xbf (code * 64 + bits) (taken + 1) bs := by
  have hbyte := toNat_ofNat (show bits + 0x80 < 256 by omega)
  rw [collect, if_pos (by simpa only [UInt8.le_iff_toNat_le, hbyte] using ⟨hlow, hhigh⟩), hbyte, Nat.add_sub_cancel]

theorem collect_rest {n taken bits : Nat} {bs : List UInt8} (hbits : bits < 64) :
    collect (n + 1) 0x80 0xbf code taken (UInt8.ofNat (bits + 0x80) :: bs) =
      collect n 0x80 0xbf (code * 64 + bits) (taken + 1) bs :=
  collect_six hbits (show 0x80 ≤ _ by omega) (show _ ≤ 0xbf by omega)

theorem tailShape?_two (halves : Bool) (hlow : 0x7f < code) (hhigh : code ≤ 0x7ff) :
    tailShape? halves (UInt8.ofNat (code / 64 + 0xc0)) = some (1, 0x80, 0xbf) := by
  have hlead := toNat_ofNat (show code / 64 + 0xc0 < 256 by omega)
  unfold tailShape?
  simp only [UInt8.le_iff_toNat_le, hlead, UInt8.reduceToNat]
  exact if_pos (by omega)

theorem tailShape?_three (halves : Bool) (hlow : 0x7ff < code) (hhigh : code ≤ 0xffff)
    (hwhole : code < 0xd800 ∨ 0xdfff < code) : ∃ low high,
    tailShape? halves (UInt8.ofNat (code / 4096 + 0xe0)) = some (2, low, high) ∧
      low.toNat ≤ code / 64 % 64 + 0x80 ∧ code / 64 % 64 + 0x80 ≤ high.toNat := by
  have hlead := toNat_ofNat (show code / 4096 + 0xe0 < 256 by omega)
  unfold tailShape?
  simp only [UInt8.le_iff_toNat_le, ← UInt8.toNat_inj, hlead, UInt8.reduceToNat]
  rw [if_neg (by omega)]
  by_cases hfirst : code / 4096 + 224 = 224
  · refine ⟨0xa0, 0xbf, if_pos hfirst, ?_, ?_⟩
    all_goals simp only [UInt8.reduceToNat]; omega
  rw [if_neg hfirst]
  by_cases hhalves : code / 4096 + 224 = 237
  · refine ⟨0x80, if halves then 0xbf else 0x9f, if_pos hhalves, ?_, ?_⟩
    · simp only [UInt8.reduceToNat]; omega
    · cases halves <;> simp <;> omega
  · refine ⟨0x80, 0xbf, by rw [if_neg hhalves, if_pos (by omega)], ?_, ?_⟩
    all_goals simp only [UInt8.reduceToNat]; omega

theorem tailShape?_four (halves : Bool) (hlow : 0xffff < code) (hhigh : code < 0x110000) : ∃ low high,
    tailShape? halves (UInt8.ofNat (code / 262144 + 0xf0)) = some (3, low, high) ∧
      low.toNat ≤ code / 4096 % 64 + 0x80 ∧ code / 4096 % 64 + 0x80 ≤ high.toNat := by
  have hlead := toNat_ofNat (show code / 262144 + 0xf0 < 256 by omega)
  unfold tailShape?
  simp only [UInt8.le_iff_toNat_le, ← UInt8.toNat_inj, hlead, UInt8.reduceToNat]
  rw [if_neg (by omega), if_neg (by omega), if_neg (by omega), if_neg (by omega)]
  by_cases hfirst : code / 262144 + 240 = 240
  · refine ⟨0x90, 0xbf, if_pos hfirst, ?_, ?_⟩
    all_goals simp only [UInt8.reduceToNat]; omega
  rw [if_neg hfirst]
  by_cases hlast : code / 262144 + 240 = 244
  · refine ⟨0x80, 0x8f, by rw [if_neg (by omega), if_pos hlast], ?_, ?_⟩
    all_goals simp only [UInt8.reduceToNat]; omega
  · refine ⟨0x80, 0xbf, if_pos (by omega), ?_, ?_⟩
    all_goals simp only [UInt8.reduceToNat]; omega

/-- A character in front, when its first byte and the shape of the others are known. -/
theorem front_of_tailShape (halves : Bool) {lead low high : UInt8} {n : Nat} {bs : List UInt8}
    (hlead : 0x80 ≤ lead.toNat)
    (hshape : tailShape? halves lead = some (n, low, high))
    (hcollect : collect n low high (lead.toNat % (if n = 1 then 32 else if n = 2 then 16 else 8)) 0 bs =
      (some c.toNat, n)) : front halves lead bs = (some c, n) := by
  have hlarge : ¬ lead < 0x80 := by
    rw [UInt8.lt_iff_toNat_lt]
    exact Nat.not_lt.mpr hlead
  rw [front, if_neg hlarge, hshape]
  dsimp only
  rw [hcollect, Option.map_some, charOfCode_toNat]

theorem front_encodeChar (halves : Bool) (c : Char) (bs : List UInt8) : ∃ lead tail,
    String.utf8EncodeChar c = lead :: tail ∧ front halves lead (tail ++ bs) = (some c, tail.length) := by
  have hvalid : c.toNat < 0xd800 ∨ 0xdfff < c.toNat ∧ c.toNat < 0x110000 := c.valid
  by_cases hone : c.toNat ≤ 0x7f
  · have hlead := toNat_ofNat (show c.toNat < 256 by omega)
    refine ⟨_, _, encodeChar_one hone, ?_⟩
    rw [front, if_pos (by rw [UInt8.lt_iff_toNat_lt, hlead]; exact Nat.lt_succ_of_le hone), hlead, Char.ofNat_toNat]
    rfl
  by_cases htwo : c.toNat ≤ 0x7ff
  · have hlead := toNat_ofNat (show c.toNat / 64 + 0xc0 < 256 by omega)
    have htail := tailShape?_two halves (by omega) htwo
    refine ⟨_, _, encodeChar_two (by omega) htwo, front_of_tailShape halves (by omega) htail ?_⟩
    show collect 1 0x80 0xbf (_ % 32) 0 _ = (some c.toNat, 1)
    rw [hlead, List.cons_append, collect_rest (by omega), collect]
    exact Prod.ext (congrArg some (by omega)) rfl
  by_cases hthree : c.toNat ≤ 0xffff
  · have hlead := toNat_ofNat (show c.toNat / 4096 + 0xe0 < 256 by omega)
    obtain ⟨low, high, hshape, hlow, hhigh⟩ := tailShape?_three halves (by omega) hthree (by omega)
    refine ⟨_, _, encodeChar_three (by omega) hthree, front_of_tailShape halves (by omega) hshape ?_⟩
    show collect 2 low high (_ % 16) 0 _ = (some c.toNat, 2)
    rw [hlead, List.cons_append, List.cons_append, collect_six (by omega) hlow hhigh, collect_rest (by omega), collect]
    exact Prod.ext (congrArg some (by omega)) rfl
  · have hlead := toNat_ofNat (show c.toNat / 262144 + 0xf0 < 256 by omega)
    obtain ⟨low, high, hshape, hlow, hhigh⟩ := tailShape?_four halves (show 0xffff < c.toNat by omega) (by omega)
    refine ⟨_, _, encodeChar_four (by omega), front_of_tailShape halves (by omega) hshape ?_⟩
    show collect 3 low high (_ % 8) 0 _ = (some c.toNat, 3)
    rw [hlead, List.cons_append, List.cons_append, List.cons_append, collect_six (by omega) hlow hhigh,
      collect_rest (by omega), collect_rest (by omega), collect]
    exact Prod.ext (congrArg some (by omega)) rfl

theorem decodeFrom_length (halves : Bool) (tail bs : List UInt8) :
    decodeFrom halves tail.length (tail ++ bs) = decodeFrom halves 0 bs := by
  induction tail with
  | nil => rfl
  | cons b tail ih => exact ih

theorem decodeFrom_encode (halves : Bool) (cs : List Char) : decodeFrom halves 0 (encode cs) = cs.map some := by
  induction cs with
  | nil => rfl
  | cons c cs ih =>
    obtain ⟨lead, tail, hbytes, hfront⟩ := front_encodeChar halves c (encode cs)
    have hcons : encode (c :: cs) = lead :: (tail ++ encode cs) := by
      rw [encode, List.flatMap_cons, hbytes]
      rfl
    rw [hcons, decodeFrom, hfront]
    dsimp only
    rw [decodeFrom_length, ih, List.map_cons]

theorem decodeLossy_encode (cs : List Char) : decodeLossy (encode cs) = cs := by
  rw [decodeLossy, decodeFrom_encode, List.map_map]
  exact List.map_id cs

end ClientBindings.Utf8
