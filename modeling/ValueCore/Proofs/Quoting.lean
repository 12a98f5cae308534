import Mathlib.Tactic.SplitIfs
import ValueCore.Display

/-!
# Texts that can be read back

What is written of a string and of an integer shows where it ends, and what it was written of. A quoted string is read byte
by byte (`readByte`): a backslash says that more belongs to this byte, and a quote without one that the string is over. So
there is no other string that is written in this way, nor one whose text goes on (`quoted_append_inj`). An integer is over
where the digits are, so the same holds of its text if no digit comes next (`decimal_append_inj`).

Between the quotes there are no control bytes, and each quote there is escaped.
-/

namespace ValueCore

variable {s t r r' : Bytes}

/-- What holds of the 256 bytes, one by one, holds of each byte. -/
theorem forall_byte {P : UInt8 → Prop} (h : ∀ n < 256, P (UInt8.ofNat n)) (c : UInt8) : P c := by
  have hc := h c.toNat c.toNat_lt
  rwa [UInt8.ofNat_toNat] at hc

/-! ## Quoted strings -/

/-- The value of a hexadecimal digit. -/
def hexValue (digit : UInt8) : UInt8 := if digit < 58 then digit - 48 else digit - 87

/-- The byte written after a backslash, and what comes next. -/
def readEscape : Bytes → Option (UInt8 × Bytes)
  | 110 :: rest => some (10, rest)
  | 114 :: rest => some (13, rest)
  | 116 :: rest => some (9, rest)
  | 120 :: high :: low :: rest => some (16 * hexValue high + hexValue low, rest)
  | c :: rest => some (c, rest)
  | [] => none

/-- The byte written at the start of a text, and what comes next. -/
def readByte : Bytes → Option (UInt8 × Bytes)
  | 92 :: rest => readEscape rest
  | c :: rest => some (c, rest)
  | [] => none

theorem hexValue_hexDigit (c : UInt8) : 16 * hexValue (hexDigit (c / 16)) + hexValue (hexDigit (c % 16)) = c := by
  revert c
  exact forall_byte (by decide +kernel)

/-- **A byte in quotes can be read back.** -/
theorem readByte_quotedByte (c : UInt8) (r : Bytes) : readByte (quotedByte c ++ r) = some (c, r) := by
  unfold quotedByte
  split_ifs with hquote hslash hline hreturn htab hcontrol
  · rw [hquote]; rfl
  · rw [hslash]; rfl
  · rw [hline]; rfl
  · rw [hreturn]; rfl
  · rw [htab]; rfl
  · show some (16 * hexValue (hexDigit (c / 16)) + hexValue (hexDigit (c % 16)), r) = _
    rw [hexValue_hexDigit]
  · show readByte (c :: r) = _
    unfold readByte
    split
    · rename_i heq
      exact absurd (List.cons.inj heq).1 hslash
    · rename_i heq
      obtain ⟨rfl, rfl⟩ := List.cons.inj heq
      rfl
    · contradiction

theorem quotedByte_append_inj {c d : UInt8} (h : quotedByte c ++ r = quotedByte d ++ r') : c = d ∧ r = r' := by
  have hread := congrArg readByte h
  rw [readByte_quotedByte, readByte_quotedByte] at hread
  exact Prod.mk.inj (Option.some.inj hread)

/-- No byte in quotes begins like the end of the string. -/
theorem quotedByte_append_ne (c : UInt8) : quotedByte c ++ r ≠ 34 :: r' := by
  intro h
  have hread := congrArg readByte h
  rw [readByte_quotedByte] at hread
  obtain ⟨rfl, rfl⟩ := Prod.mk.inj (Option.some.inj hread)
  exact absurd (List.cons.inj h).1 (by decide)

theorem quotedBytes_append_inj : ∀ {s t : Bytes}, s.flatMap quotedByte ++ 34 :: r = t.flatMap quotedByte ++ 34 :: r' →
    s = t ∧ r = r'
  | [], [], h => ⟨rfl, (List.cons.inj h).2⟩
  | [], d :: t, h => by
    rw [List.flatMap_cons, List.append_assoc] at h
    exact absurd h.symm (quotedByte_append_ne d)
  | c :: s, [], h => by
    rw [List.flatMap_cons, List.append_assoc] at h
    exact absurd h (quotedByte_append_ne c)
  | c :: s, d :: t, h => by
    rw [List.flatMap_cons, List.flatMap_cons, List.append_assoc, List.append_assoc] at h
    obtain ⟨rfl, hrest⟩ := quotedByte_append_inj h
    obtain ⟨rfl, rfl⟩ := quotedBytes_append_inj hrest
    exact ⟨rfl, rfl⟩

theorem quoted_append (s r : Bytes) : quoted s ++ r = 34 :: (s.flatMap quotedByte ++ 34 :: r) := by
  show 34 :: (s.flatMap quotedByte ++ [34]) ++ r = _
  rw [List.cons_append, List.append_assoc]
  rfl

/-- **A quoted string shows where it ends, and of what string it is.** -/
theorem quoted_append_inj (h : quoted s ++ r = quoted t ++ r') : s = t ∧ r = r' := by
  rw [quoted_append, quoted_append] at h
  exact quotedBytes_append_inj (List.cons.inj h).2

/-! ## Between the quotes -/

/-- There is no control byte in the text of a string. -/
theorem not_control_of_mem_quoted {c : UInt8} (hc : c ∈ quoted s) : 32 ≤ c ∧ c ≠ 127 := by
  have hbyte : ∀ d : UInt8, ∀ e ∈ quotedByte d, 32 ≤ e ∧ e ≠ 127 := forall_byte (by decide +kernel)
  rw [← List.append_nil (quoted s), quoted_append] at hc
  rcases List.mem_cons.1 hc with rfl | hc
  · decide
  rcases List.mem_append.1 hc with hc | hc
  · obtain ⟨d, _, hd⟩ := List.mem_flatMap.1 hc
    exact hbyte d c hd
  · rw [List.mem_singleton.1 hc]
    decide

/-- The last of these bytes is a backslash that belongs to the next byte. Of two backslashes the second belongs to the
first. -/
def escapes (text : Bytes) : Bool := text.foldl (fun escape c => !escape && c == 92) false

theorem escapes_append {b : Bytes} (hb : escapes b = false) : escapes (b ++ r) = escapes r := by
  unfold escapes at hb ⊢
  rw [List.foldl_append, hb]

/-- What is written of a byte is complete. -/
theorem escapes_quotedByte (c : UInt8) : escapes (quotedByte c) = false := by
  revert c
  exact forall_byte (by decide +kernel)

/-- In what is written of a byte, a quote comes after one backslash. -/
theorem escapes_of_quotedByte {c : UInt8} {pre post : Bytes} (h : quotedByte c = pre ++ 34 :: post) :
    escapes pre = true := by
  have hplace : ∀ c : UInt8, ∀ i < (quotedByte c).length, (quotedByte c)[i]? = some 34 →
      escapes ((quotedByte c).take i) = true := forall_byte (by decide +kernel)
  have hthis := hplace c pre.length (by simp [h]) (by simp [h])
  rwa [h, List.take_left] at hthis

/-- **In the text of a string after the first quote, exactly the last one is not escaped.** -/
theorem escapes_iff_of_quoted {pre post : Bytes} (h : quoted s = 34 :: (pre ++ 34 :: post)) :
    escapes pre = true ↔ post ≠ [] := by
  have hbody : s.flatMap quotedByte ++ [34] = pre ++ 34 :: post := by
    rw [← List.append_nil (quoted s), quoted_append] at h
    exact (List.cons.inj h).2
  clear h
  induction s generalizing pre with
  | nil =>
    cases pre with
    | nil =>
      obtain rfl : [] = post := (List.cons.inj hbody).2
      decide
    | cons c pre => exact absurd (List.cons.inj hbody).2 (by simp)
  | cons c s ih =>
    rw [List.flatMap_cons, List.append_assoc] at hbody
    rcases List.append_eq_append_iff.1 hbody with ⟨rest, rfl, hrest⟩ | ⟨rest, hbyte, hrest⟩
    · rw [escapes_append (escapes_quotedByte c)]
      exact ih hrest
    · cases rest with
      | nil =>
        rw [List.append_nil] at hbyte
        rw [← hbyte, escapes_quotedByte]
        exact @ih [] hrest.symm
      | cons d rest =>
        obtain ⟨rfl, rfl⟩ := List.cons.inj hrest
        rw [escapes_of_quotedByte hbyte]
        simp

/-! ## Integers -/

/-- A decimal digit. -/
def isDigit (c : UInt8) : Bool := 48 ≤ c && c ≤ 57

/-- An integer is over where this text begins. -/
def Bytes.Stops (r : Bytes) : Prop := ∀ c ∈ r.head?, isDigit c = false

namespace Bytes

theorem stops_nil : Stops [] := nofun

theorem digit_of_mem_toDigits {n : Nat} {c : Char} (hc : c ∈ Nat.toDigits 10 n) : 48 ≤ c.toNat ∧ c.toNat ≤ 57 := by
  have hdigit : c.isDigit = true := Nat.isDigit_of_mem_toDigits (by decide) (by decide) hc
  simp only [Char.isDigit, Bool.and_eq_true, decide_eq_true_eq, UInt32.le_iff_toNat_le] at hdigit
  exact hdigit

theorem isDigit_of_mem_decimalNat {n : Nat} {c : UInt8} (hc : c ∈ decimalNat n) : isDigit c = true := by
  obtain ⟨d, hd, rfl⟩ := List.mem_map.1 hc
  have hbounds := digit_of_mem_toDigits hd
  rw [isDigit, Bool.and_eq_true, decide_eq_true_eq, decide_eq_true_eq, UInt8.le_iff_toNat_le, UInt8.le_iff_toNat_le,
    Nat.toUInt8_eq, UInt8.toNat_ofNat', Nat.mod_eq_of_lt (by omega)]
  exact hbounds

/-- The digits are those of the number. -/
theorem chars_decimalNat (n : Nat) : (decimalNat n).map (fun c => Char.ofNat c.toNat) = Nat.toDigits 10 n := by
  rw [decimalNat, List.map_map]
  refine (List.map_congr_left fun c hc => ?_).trans (List.map_id _)
  have hbounds := digit_of_mem_toDigits hc
  show Char.ofNat (c.toNat.toUInt8).toNat = c
  rw [Nat.toUInt8_eq, UInt8.toNat_ofNat', Nat.mod_eq_of_lt (by omega), Char.ofNat_toNat]

theorem decimalNat_inj {n m : Nat} (h : decimalNat n = decimalNat m) : n = m := by
  have hchars := congrArg (List.map fun c : UInt8 => Char.ofNat c.toNat) h
  rw [chars_decimalNat, chars_decimalNat] at hchars
  rw [← Nat.ofDigitChars_ten_toDigits (n := n), hchars, Nat.ofDigitChars_ten_toDigits]

theorem takeWhile_decimalNat (n : Nat) (hr : r.Stops) : (decimalNat n ++ r).takeWhile isDigit = decimalNat n := by
  rw [List.takeWhile_append_of_pos fun c hc => isDigit_of_mem_decimalNat hc]
  cases r with
  | nil => rw [List.takeWhile_nil, List.append_nil]
  | cons c r => rw [List.takeWhile_cons_of_neg (by simpa using hr c rfl), List.append_nil]

theorem decimalNat_append_inj {n m : Nat} (hr : r.Stops) (hr' : r'.Stops) (h : decimalNat n ++ r = decimalNat m ++ r') :
    n = m ∧ r = r' := by
  have hdigits := congrArg (List.takeWhile isDigit) h
  rw [takeWhile_decimalNat n hr, takeWhile_decimalNat m hr'] at hdigits
  rw [hdigits] at h
  exact ⟨decimalNat_inj hdigits, List.append_cancel_left h⟩

theorem decimalNat_cons (n : Nat) : ∃ c rest, decimalNat n = c :: rest ∧ isDigit c = true := by
  obtain ⟨c, rest, hc⟩ : ∃ c rest, decimalNat n = c :: rest :=
    List.exists_cons_of_ne_nil fun hnil => Nat.toDigits_ne_nil (List.map_eq_nil_iff.1 hnil)
  exact ⟨c, rest, hc, isDigit_of_mem_decimalNat (hc ▸ List.mem_cons_self)⟩

/-- An integer begins with a digit or a minus sign. -/
theorem decimal_cons (i : Int) : ∃ c rest, decimal i = c :: rest ∧ (c = 45 ∨ isDigit c = true) := by
  cases i with
  | ofNat n =>
    obtain ⟨c, rest, hc, hdigit⟩ := decimalNat_cons n
    exact ⟨c, rest, hc, .inr hdigit⟩
  | negSucc n => exact ⟨45, _, rfl, .inl rfl⟩

/-- A minus sign is no digit. -/
theorem decimalNat_append_ne (n : Nat) : decimalNat n ++ r ≠ 45 :: r' := by
  obtain ⟨c, rest, hc, hdigit⟩ := decimalNat_cons n
  rw [hc]
  intro h
  rw [(List.cons.inj h).1] at hdigit
  exact absurd hdigit (by decide)

/-- **The text of an integer shows of what integer it is, and where it ends if no digit comes next.** -/
theorem decimal_append_inj {i j : Int} (hr : r.Stops) (hr' : r'.Stops) (h : decimal i ++ r = decimal j ++ r') :
    i = j ∧ r = r' := by
  cases i with
  | ofNat n =>
    cases j with
    | ofNat m =>
      obtain ⟨rfl, rfl⟩ := decimalNat_append_inj hr hr' h
      exact ⟨rfl, rfl⟩
    | negSucc m => exact absurd h (decimalNat_append_ne n)
  | negSucc n =>
    cases j with
    | ofNat m => exact absurd h.symm (decimalNat_append_ne m)
    | negSucc m =>
      obtain ⟨hnm, rfl⟩ := decimalNat_append_inj hr hr' (List.cons.inj h).2
      obtain rfl : n = m := Nat.succ.inj hnm
      exact ⟨rfl, rfl⟩

end Bytes

end ValueCore
