import Mathlib.Tactic.Common
import TreeArchive.Text.Utf8

/-! Strict reading of UTF-8 is the inverse of writing it: a byte sequence is read exactly if it is
the encoding of what is read. -/
namespace TreeArchive.Text.Utf8

theorem mapM_id_eq_some {α : Type} {units : List (Option α)} {xs : List α} :
    units.mapM id = some xs ↔ units = xs.map some := by
  induction units generalizing xs with
  | nil => cases xs <;> simp
  | cons u rest ih =>
    rw [List.mapM_cons]
    cases u with
    | none => cases xs <;> simp
    | some x => cases xs <;> simp [ih, Option.bind_eq_bind, Option.bind_eq_some_iff, and_comm]

theorem first_one {b : UInt8} (h : b.toNat < 0x80) :
    first b = ([some (Char.ofNat b.toNat)], .between) := by
  simp [first, h]

theorem first_two {b : UInt8} (hlow : 0xC2 ≤ b.toNat) (hhigh : b.toNat < 0xE0) :
    first b = ([], .inside 0 0x80 0xBF (b.toNat - 0xC0)) := by
  have h₁ : ¬ b.toNat < 0x80 := by omega
  have h₂ : ¬ b.toNat < 0xC2 := by omega
  simp [first, h₁, h₂, hhigh]

/-- The lead bytes of three have their own bounds where a shorter form or a surrogate is near. -/
theorem first_three {b : UInt8} (hlow : 0xE0 ≤ b.toNat) (hhigh : b.toNat < 0xF0) :
    first b = ([], .inside 1 (if b.toNat = 0xE0 then 0xA0 else 0x80)
      (if b.toNat = 0xED then 0x9F else 0xBF) (b.toNat - 0xE0)) := by
  have h₁ : ¬ b.toNat < 0x80 := by omega
  have h₂ : ¬ b.toNat < 0xC2 := by omega
  have h₃ : ¬ b.toNat < 0xE0 := by omega
  by_cases hE0 : b.toNat = 0xE0
  · simp [first, hE0]
  · by_cases hED : b.toNat = 0xED
    · simp [first, hED]
    · simp [first, h₁, h₂, h₃, hE0, hED, hhigh]

theorem first_four {b : UInt8} (hlow : 0xF0 ≤ b.toNat) (hhigh : b.toNat ≤ 0xF4) :
    first b = ([], .inside 2 (if b.toNat = 0xF0 then 0x90 else 0x80)
      (if b.toNat = 0xF4 then 0x8F else 0xBF) (b.toNat - 0xF0)) := by
  have h₁ : ¬ b.toNat < 0x80 := by omega
  have h₂ : ¬ b.toNat < 0xC2 := by omega
  have h₃ : ¬ b.toNat < 0xE0 := by omega
  have h₄ : ¬ b.toNat < 0xF0 := by omega
  by_cases hF0 : b.toNat = 0xF0
  · simp [first, hF0]
  · by_cases hF4 : b.toNat = 0xF4
    · simp [first, hF4]
    · have h₅ : b.toNat < 0xF4 := by omega
      have hE0 : b.toNat ≠ 0xE0 := by omega
      have hED : b.toNat ≠ 0xED := by omega
      simp [first, h₁, h₂, h₃, h₄, h₅, hE0, hED, hF0, hF4]

theorem first_other {b : UInt8} (h : 0x80 ≤ b.toNat ∧ b.toNat < 0xC2 ∨ 0xF4 < b.toNat) :
    first b = ([none], .between) := by
  rcases h with ⟨hlow, hhigh⟩ | hhigh
  · have h₁ : ¬ b.toNat < 0x80 := by omega
    simp [first, h₁, hhigh]
  · have h₁ : ¬ b.toNat < 0x80 := by omega
    have h₂ : ¬ b.toNat < 0xC2 := by omega
    have h₃ : ¬ b.toNat < 0xE0 := by omega
    have h₄ : ¬ b.toNat < 0xF0 := by omega
    have h₅ : ¬ b.toNat < 0xF4 := by omega
    have hE0 : b.toNat ≠ 0xE0 := by omega
    have hED : b.toNat ≠ 0xED := by omega
    have hF0 : b.toNat ≠ 0xF0 := by omega
    have hF4 : b.toNat ≠ 0xF4 := by omega
    simp [first, h₁, h₂, h₃, h₄, h₅, hE0, hED, hF0, hF4]

/-- A byte that is owed: it ends the character, or one byte less is owed. -/
theorem scan_inside_cons {missing low high value : Nat} {b : UInt8} (rest : List UInt8)
    (hlow : low ≤ b.toNat) (hhigh : b.toNat ≤ high) :
    scan (.inside missing low high value) (b :: rest) =
      match missing with
      | 0 => some (Char.ofNat (value * 64 + b.toNat % 64)) :: scan .between rest
      | missing + 1 => scan (.inside missing 0x80 0xBF (value * 64 + b.toNat % 64)) rest := by
  cases missing <;> simp [scan, next, hlow, hhigh]

/-- Where bytes are owed and no part is ill-formed, the next byte is one of those owed. -/
theorem exists_of_scan_inside {missing low high value : Nat} {bytes : List UInt8} {cs : List Char}
    (h : scan (.inside missing low high value) bytes = cs.map some) :
    ∃ b rest, bytes = b :: rest ∧ low ≤ b.toNat ∧ b.toNat ≤ high := by
  cases bytes with
  | nil => cases cs <;> simp [scan] at h
  | cons b rest =>
    by_cases hrange : low ≤ b.toNat ∧ b.toNat ≤ high
    · exact ⟨b, rest, rfl, hrange.1, hrange.2⟩
    · cases cs <;> simp [scan, next, hrange] at h

theorem scan_between_cons {b : UInt8} (rest : List UInt8) :
    scan .between (b :: rest) = (first b).1 ++ scan (first b).2 rest := by
  simp [scan, next]

/-- The encoding of a character, then more bytes, is read as that character first. -/
theorem scan_encodeChar (c : Char) (rest : List UInt8) :
    scan .between (encodeChar c ++ rest) = some c :: scan .between rest := by
  have hvalid : c.toNat < 0xD800 ∨ 0xDFFF < c.toNat ∧ c.toNat < 0x110000 := c.valid
  have hc : Char.ofNat c.toNat = c := Char.ofNat_toNat c
  unfold encodeChar
  generalize c.toNat = n at hvalid hc
  have hbyte (k : Nat) (hk : k < 64) : (UInt8.ofNat (0x80 + k)).toNat = 0x80 + k :=
    UInt8.toNat_ofNat_of_lt' (show _ < 256 by omega)
  have hlow (k : Nat) (hk : k < 64) : (0x80 + k) % 64 = k := by omega
  simp only
  -- one case for each number of bytes; the last bytes have six bits each
  split
  · rename_i h
    have hb : (UInt8.ofNat n).toNat = n := UInt8.toNat_ofNat_of_lt' (show _ < 256 by omega)
    rw [List.singleton_append, scan_between_cons, first_one (by omega), hb, hc]
    rfl
  · split
    · have hb : (UInt8.ofNat (0xC0 + n / 64)).toNat = 0xC0 + n / 64 :=
        UInt8.toNat_ofNat_of_lt' (show _ < 256 by omega)
      have h₁ := hbyte (n % 64) (by omega)
      rw [List.cons_append, List.singleton_append, scan_between_cons,
        first_two (by omega) (by omega), List.nil_append,
        scan_inside_cons _ (by omega) (by omega), h₁, hb, hlow _ (by omega)]
      have : (0xC0 + n / 64 - 0xC0) * 64 + n % 64 = n := by omega
      simp only [this, hc]
    · split
      · have hb : (UInt8.ofNat (0xE0 + n / 4096)).toNat = 0xE0 + n / 4096 :=
          UInt8.toNat_ofNat_of_lt' (show _ < 256 by omega)
        have h₁ := hbyte (n / 64 % 64) (by omega)
        have h₂ := hbyte (n % 64) (by omega)
        rw [List.cons_append, List.cons_append, List.singleton_append, scan_between_cons,
          first_three (by omega) (by omega), List.nil_append,
          scan_inside_cons _ (by split <;> omega) (by split <;> omega)]
        simp only
        rw [scan_inside_cons _ (by omega) (by omega), h₁, h₂, hb, hlow _ (by omega),
          hlow _ (by omega)]
        have : ((0xE0 + n / 4096 - 0xE0) * 64 + n / 64 % 64) * 64 + n % 64 = n := by omega
        simp only [this, hc]
      · have hb : (UInt8.ofNat (0xF0 + n / 262144)).toNat = 0xF0 + n / 262144 :=
          UInt8.toNat_ofNat_of_lt' (show _ < 256 by omega)
        have h₁ := hbyte (n / 4096 % 64) (by omega)
        have h₂ := hbyte (n / 64 % 64) (by omega)
        have h₃ := hbyte (n % 64) (by omega)
        rw [List.cons_append, List.cons_append, List.cons_append, List.singleton_append,
          scan_between_cons, first_four (by omega) (by omega), List.nil_append,
          scan_inside_cons _ (by split <;> omega) (by split <;> omega)]
        simp only
        rw [scan_inside_cons _ (by omega) (by omega)]
        simp only
        rw [scan_inside_cons _ (by omega) (by omega), h₁, h₂, h₃, hb, hlow _ (by omega),
          hlow _ (by omega), hlow _ (by omega)]
        have : (((0xF0 + n / 262144 - 0xF0) * 64 + n / 4096 % 64) * 64 + n / 64 % 64) * 64 +
          n % 64 = n := by omega
        simp only [this, hc]

theorem scan_encode (cs : List Char) : scan .between (encode cs) = cs.map some := by
  induction cs with
  | nil => rfl
  | cons c rest ih =>
    rw [encode, List.flatMap_cons, scan_encodeChar, ← encode, ih]
    rfl

theorem toNat_ofNat_of_valid {n : Nat} (h : n < 0xD800 ∨ 0xDFFF < n ∧ n < 0x110000) :
    (Char.ofNat n).toNat = n := by
  have hvalid : n.isValidChar := h
  rw [Char.ofNat, dif_pos hvalid]
  rfl

theorem ofNat_eq_of_toNat {b : UInt8} {n : Nat} (h : n = b.toNat) : UInt8.ofNat n = b := by
  rw [h, UInt8.ofNat_toNat]

theorem encodeChar_one {b : UInt8} (h : b.toNat < 0x80) :
    encodeChar (Char.ofNat b.toNat) = [b] := by
  have hn := toNat_ofNat_of_valid (n := b.toNat) (.inl (by omega))
  simp only [encodeChar, hn, h, if_true, UInt8.ofNat_toNat]

theorem encodeChar_two {b b₁ : UInt8} {n : Nat}
    (hn : (b.toNat - 0xC0) * 64 + b₁.toNat % 64 = n)
    (hlow : 0xC2 ≤ b.toNat) (hhigh : b.toNat < 0xE0)
    (hlow₁ : 0x80 ≤ b₁.toNat) (hhigh₁ : b₁.toNat ≤ 0xBF) :
    encodeChar (Char.ofNat n) = [b, b₁] := by
  have hc := toNat_ofNat_of_valid (n := n) (.inl (by omega))
  simp only [encodeChar, hc]
  rw [if_neg (by omega), if_pos (by omega), ofNat_eq_of_toNat (b := b) (by omega),
    ofNat_eq_of_toNat (b := b₁) (by omega)]

/-- The bounds on the second byte keep shorter forms and surrogates out. -/
theorem encodeChar_three {b b₁ b₂ : UInt8} {n : Nat}
    (hn : ((b.toNat - 0xE0) * 64 + b₁.toNat % 64) * 64 + b₂.toNat % 64 = n)
    (hlow : 0xE0 ≤ b.toNat) (hhigh : b.toNat < 0xF0)
    (hlow₁ : (if b.toNat = 0xE0 then 0xA0 else 0x80) ≤ b₁.toNat)
    (hhigh₁ : b₁.toNat ≤ if b.toNat = 0xED then 0x9F else 0xBF)
    (hlow₂ : 0x80 ≤ b₂.toNat) (hhigh₂ : b₂.toNat ≤ 0xBF) :
    encodeChar (Char.ofNat n) = [b, b₁, b₂] := by
  have hvalid : 0x800 ≤ n ∧ (n < 0xD800 ∨ 0xDFFF < n ∧ n < 0x10000) := by
    split at hlow₁ <;> split at hhigh₁ <;> omega
  have hrange₁ : 0x80 ≤ b₁.toNat ∧ b₁.toNat ≤ 0xBF := by
    split at hlow₁ <;> split at hhigh₁ <;> omega
  have hc := toNat_ofNat_of_valid (n := n) (by omega)
  simp only [encodeChar, hc]
  rw [if_neg (by omega), if_neg (by omega), if_pos (by omega),
    ofNat_eq_of_toNat (b := b) (by omega), ofNat_eq_of_toNat (b := b₁) (by omega),
    ofNat_eq_of_toNat (b := b₂) (by omega)]

/-- The bounds on the second byte keep shorter forms and too large values out. -/
theorem encodeChar_four {b b₁ b₂ b₃ : UInt8} {n : Nat}
    (hn : (((b.toNat - 0xF0) * 64 + b₁.toNat % 64) * 64 + b₂.toNat % 64) * 64 +
      b₃.toNat % 64 = n)
    (hlow : 0xF0 ≤ b.toNat) (hhigh : b.toNat ≤ 0xF4)
    (hlow₁ : (if b.toNat = 0xF0 then 0x90 else 0x80) ≤ b₁.toNat)
    (hhigh₁ : b₁.toNat ≤ if b.toNat = 0xF4 then 0x8F else 0xBF)
    (hlow₂ : 0x80 ≤ b₂.toNat) (hhigh₂ : b₂.toNat ≤ 0xBF)
    (hlow₃ : 0x80 ≤ b₃.toNat) (hhigh₃ : b₃.toNat ≤ 0xBF) :
    encodeChar (Char.ofNat n) = [b, b₁, b₂, b₃] := by
  have hvalid : 0x10000 ≤ n ∧ n < 0x110000 := by
    split at hlow₁ <;> split at hhigh₁ <;> omega
  have hrange₁ : 0x80 ≤ b₁.toNat ∧ b₁.toNat ≤ 0xBF := by
    split at hlow₁ <;> split at hhigh₁ <;> omega
  have hc := toNat_ofNat_of_valid (n := n) (by omega)
  simp only [encodeChar, hc]
  rw [if_neg (by omega), if_neg (by omega), if_neg (by omega),
    ofNat_eq_of_toNat (b := b) (by omega), ofNat_eq_of_toNat (b := b₁) (by omega),
    ofNat_eq_of_toNat (b := b₂) (by omega), ofNat_eq_of_toNat (b := b₃) (by omega)]

/-- Where one more byte is owed and no part is ill-formed, it comes and ends the character. -/
theorem exists_of_scan_last {low high value : Nat} {bytes : List UInt8} {cs : List Char}
    (h : scan (.inside 0 low high value) bytes = cs.map some) :
    ∃ b rest, bytes = b :: rest ∧ low ≤ b.toNat ∧ b.toNat ≤ high ∧
      some (Char.ofNat (value * 64 + b.toNat % 64)) :: scan .between rest = cs.map some := by
  obtain ⟨b, rest, rfl, hlow, hhigh⟩ := exists_of_scan_inside h
  rw [scan_inside_cons _ hlow hhigh] at h
  exact ⟨b, rest, rfl, hlow, hhigh, h⟩

/-- Where more bytes are owed and no part is ill-formed, the next one comes. -/
theorem exists_of_scan_more {missing low high value : Nat} {bytes : List UInt8} {cs : List Char}
    (h : scan (.inside (missing + 1) low high value) bytes = cs.map some) :
    ∃ b rest, bytes = b :: rest ∧ low ≤ b.toNat ∧ b.toNat ≤ high ∧
      scan (.inside missing 0x80 0xBF (value * 64 + b.toNat % 64)) rest = cs.map some := by
  obtain ⟨b, rest, rfl, hlow, hhigh⟩ := exists_of_scan_inside h
  rw [scan_inside_cons _ hlow hhigh] at h
  exact ⟨b, rest, rfl, hlow, hhigh, h⟩

/-- Bytes without an ill-formed part start with the encoding of the first character read. -/
theorem exists_of_scan_between {b : UInt8} {rest : List UInt8} {cs : List Char}
    (h : scan .between (b :: rest) = cs.map some) :
    ∃ c tail, b :: rest = encodeChar c ++ tail ∧
      some c :: scan .between tail = cs.map some := by
  rw [scan_between_cons] at h
  -- the first byte says how many more there must be
  rcases Nat.lt_or_ge b.toNat 0x80 with h₁ | h₁
  · rw [first_one h₁] at h
    exact ⟨_, rest, by rw [encodeChar_one h₁]; rfl, h⟩
  rcases Nat.lt_or_ge b.toNat 0xC2 with h₂ | h₂
  · rw [first_other (.inl ⟨h₁, h₂⟩)] at h
    cases cs <;> simp at h
  rcases Nat.lt_or_ge b.toNat 0xE0 with h₃ | h₃
  · rw [first_two h₂ h₃, List.nil_append] at h
    obtain ⟨b₁, tail, rfl, hlow₁, hhigh₁, h⟩ := exists_of_scan_last h
    exact ⟨_, tail, by rw [encodeChar_two rfl h₂ h₃ hlow₁ hhigh₁]; rfl, h⟩
  rcases Nat.lt_or_ge b.toNat 0xF0 with h₄ | h₄
  · rw [first_three h₃ h₄, List.nil_append] at h
    obtain ⟨b₁, rest₁, rfl, hlow₁, hhigh₁, h⟩ := exists_of_scan_more h
    obtain ⟨b₂, tail, rfl, hlow₂, hhigh₂, h⟩ := exists_of_scan_last h
    refine ⟨_, tail, ?_, h⟩
    rw [encodeChar_three rfl h₃ h₄ hlow₁ hhigh₁ hlow₂ hhigh₂]
    rfl
  rcases Nat.lt_or_ge 0xF4 b.toNat with h₅ | h₅
  · rw [first_other (.inr h₅)] at h
    cases cs <;> simp at h
  · rw [first_four h₄ h₅, List.nil_append] at h
    obtain ⟨b₁, rest₁, rfl, hlow₁, hhigh₁, h⟩ := exists_of_scan_more h
    obtain ⟨b₂, rest₂, rfl, hlow₂, hhigh₂, h⟩ := exists_of_scan_more h
    obtain ⟨b₃, tail, rfl, hlow₃, hhigh₃, h⟩ := exists_of_scan_last h
    refine ⟨_, tail, ?_, h⟩
    rw [encodeChar_four rfl h₄ h₅ hlow₁ hhigh₁ hlow₂ hhigh₂ hlow₃ hhigh₃]
    rfl

theorem encode_of_scan {bytes : List UInt8} {cs : List Char}
    (h : scan .between bytes = cs.map some) : encode cs = bytes := by
  induction cs generalizing bytes with
  | nil =>
    cases bytes with
    | nil => rfl
    | cons b rest =>
      obtain ⟨c, tail, -, h⟩ := exists_of_scan_between h
      cases h
  | cons c cs ih =>
    cases bytes with
    | nil => simp [scan] at h
    | cons b rest =>
      obtain ⟨c', tail, hbytes, h⟩ := exists_of_scan_between h
      obtain ⟨hc, htail⟩ := List.cons.inj h
      cases hc
      rw [hbytes, encode, List.flatMap_cons, ← encode, ih htail]

/-- Strict reading succeeds exactly on encodings, with what they encode. -/
theorem decode?_eq_some {bytes : List UInt8} {cs : List Char} :
    decode? bytes = some cs ↔ encode cs = bytes := by
  rw [decode?, mapM_id_eq_some]
  constructor
  · exact encode_of_scan
  · rintro rfl
    exact scan_encode cs

theorem encode_injective : Function.Injective encode := by
  intro cs ds h
  have hcs := decode?_eq_some.2 h
  rw [decode?_eq_some.2 rfl] at hcs
  exact (Option.some.inj hcs).symm

end TreeArchive.Text.Utf8
