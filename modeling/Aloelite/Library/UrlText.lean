import Mathlib.Tactic

/-! Text in URLs: UTF-8 read with replacement characters, percent-encoding, and the values
of a form. -/
namespace UrlText

/-! ### UTF-8 -/

def utf8 (t : List Char) : List UInt8 := t.flatMap String.utf8EncodeChar

/-- U+FFFD -/
def replacement : Char := '\uFFFD'

/-- The second byte of a sequence that is no longer than it must be and no surrogate. -/
def Follows (b₀ b₁ : ℕ) : Prop :=
  (0xC2 ≤ b₀ ∧ b₀ ≤ 0xF4 ∧ 0x80 ≤ b₁ ∧ b₁ ≤ 0xBF) ∧
    (b₀ = 0xE0 → 0xA0 ≤ b₁) ∧ (b₀ = 0xED → b₁ ≤ 0x9F) ∧ (b₀ = 0xF0 → 0x90 ≤ b₁) ∧
    (b₀ = 0xF4 → b₁ ≤ 0x8F)

instance (b₀ b₁ : ℕ) : Decidable (Follows b₀ b₁) := inferInstanceAs (Decidable (_ ∧ _ ∧ _ ∧ _ ∧ _))

/-- A continuation byte. -/
def Tail (b : ℕ) : Prop := 0x80 ≤ b ∧ b ≤ 0xBF

instance (b : ℕ) : Decidable (Tail b) := inferInstanceAs (Decidable (_ ∧ _))

/-- UTF-8 with one replacement character for each longest start of a sequence that does
not go on. -/
def decode : List UInt8 → List Char
  | [] => []
  | b₀ :: bs =>
    if b₀.toNat < 0x80 then .ofNat b₀.toNat :: decode bs
    else match bs with
      | [] => [replacement]
      | b₁ :: bs₁ =>
        -- the lead byte bounds the second one: nothing overlong, no surrogate, none past U+10FFFF
        if Follows b₀.toNat b₁.toNat then
          if b₀.toNat < 0xE0 then .ofNat (b₀.toNat % 32 * 64 + b₁.toNat % 64) :: decode bs₁
          else match bs₁ with
            | [] => [replacement]
            | b₂ :: bs₂ =>
              if Tail b₂.toNat then
                if b₀.toNat < 0xF0 then
                  .ofNat (b₀.toNat % 16 * 4096 + b₁.toNat % 64 * 64 + b₂.toNat % 64) :: decode bs₂
                else match bs₂ with
                  | [] => [replacement]
                  | b₃ :: bs₃ =>
                    if Tail b₃.toNat then
                      .ofNat (b₀.toNat % 8 * 262144 + b₁.toNat % 64 * 4096 +
                        b₂.toNat % 64 * 64 + b₃.toNat % 64) :: decode bs₃
                    else replacement :: decode (b₃ :: bs₃)
              else replacement :: decode (b₂ :: bs₂)
        else replacement :: decode (b₁ :: bs₁)

variable {b b₀ b₁ b₂ b₃ : UInt8} {bs : List UInt8} {c : Char} {s t u v : List Char}

theorem decode_cons_of_lt (h : b₀.toNat < 0x80) :
    decode (b₀ :: bs) = .ofNat b₀.toNat :: decode bs := by
  rw [decode.eq_def]
  simp only [if_pos h]

theorem decode_two (hf : Follows b₀.toNat b₁.toNat) (h : b₀.toNat < 0xE0) :
    decode (b₀ :: b₁ :: bs) = .ofNat (b₀.toNat % 32 * 64 + b₁.toNat % 64) :: decode bs := by
  have hhigh : ¬ b₀.toNat < 0x80 := by
    have := hf.1.1
    omega
  rw [decode.eq_def]
  simp only [if_neg hhigh, if_pos hf, if_pos h]

theorem decode_three (hf : Follows b₀.toNat b₁.toNat) (h₂ : Tail b₂.toNat)
    (hlow : 0xE0 ≤ b₀.toNat) (h : b₀.toNat < 0xF0) :
    decode (b₀ :: b₁ :: b₂ :: bs) =
      .ofNat (b₀.toNat % 16 * 4096 + b₁.toNat % 64 * 64 + b₂.toNat % 64) :: decode bs := by
  have hhigh : ¬ b₀.toNat < 0x80 := by omega
  rw [decode.eq_def]
  simp only [if_neg hhigh, if_pos hf, if_neg hlow.not_gt, if_pos h₂, if_pos h]

theorem decode_four (hf : Follows b₀.toNat b₁.toNat) (h₂ : Tail b₂.toNat) (h₃ : Tail b₃.toNat)
    (hlow : 0xF0 ≤ b₀.toNat) :
    decode (b₀ :: b₁ :: b₂ :: b₃ :: bs) =
      .ofNat (b₀.toNat % 8 * 262144 + b₁.toNat % 64 * 4096 + b₂.toNat % 64 * 64 + b₃.toNat % 64) ::
        decode bs := by
  have hhigh : ¬ b₀.toNat < 0x80 := by omega
  have hmid : ¬ b₀.toNat < 0xE0 := by omega
  rw [decode.eq_def]
  simp only [if_neg hhigh, if_pos hf, if_neg hmid, if_pos h₂, if_neg hlow.not_gt, if_pos h₃]

theorem decode_not_follows (hhigh : 0x80 ≤ b₀.toNat) (hf : ¬ Follows b₀.toNat b₁.toNat) :
    decode (b₀ :: b₁ :: bs) = replacement :: decode (b₁ :: bs) := by
  conv_lhs => rw [decode.eq_def]
  simp only [if_neg hhigh.not_gt, if_neg hf]

/-- The numbers that are no surrogates. -/
theorem toNat_valid (c : Char) : c.toNat < 0xD800 ∨ 0xDFFF < c.toNat ∧ c.toNat < 0x110000 := c.valid

theorem decode_encodeChar (c : Char) (bs : List UInt8) :
    decode (String.utf8EncodeChar c ++ bs) = c :: decode bs := by
  have hval : c.val.toNat = c.toNat := rfl
  have hvalid := toNat_valid c
  rw [String.utf8EncodeChar.eq_def]
  simp only [hval]
  -- by the length of the encoding; the bytes are the digits of the code point to base 64
  split
  next h =>
    rw [List.singleton_append, decode_cons_of_lt]
    · rw [UInt8.toNat_ofNat', Nat.mod_eq_of_lt (by omega), Char.ofNat_toNat]
    · rw [UInt8.toNat_ofNat']
      omega
  next h =>
  split
  next h' =>
    have h₀ : (UInt8.ofNat (c.toNat / 64 % 32 + 192)).toNat = c.toNat / 64 + 192 := by
      rw [UInt8.toNat_ofNat']
      omega
    have h₁ : (UInt8.ofNat (c.toNat % 64 + 128)).toNat = c.toNat % 64 + 128 := by
      rw [UInt8.toNat_ofNat']
      omega
    rw [List.cons_append, List.singleton_append, decode_two, h₀, h₁]
    · rw [show (c.toNat / 64 + 192) % 32 * 64 + (c.toNat % 64 + 128) % 64 =
        c.toNat by omega, Char.ofNat_toNat]
    · rw [h₀, h₁, Follows]
      omega
    · rw [h₀]
      omega
  next h' =>
  split
  next h'' =>
    have h₀ : (UInt8.ofNat (c.toNat / 4096 % 16 + 224)).toNat = c.toNat / 4096 + 224 := by
      rw [UInt8.toNat_ofNat']
      omega
    have h₁ : (UInt8.ofNat (c.toNat / 64 % 64 + 128)).toNat = c.toNat / 64 % 64 + 128 := by
      rw [UInt8.toNat_ofNat']
      omega
    have h₂ : (UInt8.ofNat (c.toNat % 64 + 128)).toNat = c.toNat % 64 + 128 := by
      rw [UInt8.toNat_ofNat']
      omega
    rw [List.cons_append, List.cons_append, List.singleton_append, decode_three, h₀, h₁, h₂]
    · rw [show (c.toNat / 4096 + 224) % 16 * 4096 + (c.toNat / 64 % 64 + 128) % 64 * 64 +
        (c.toNat % 64 + 128) % 64 = c.toNat by omega,
        Char.ofNat_toNat]
    · rw [h₀, h₁, Follows]
      omega
    · rw [h₂, Tail]
      omega
    · rw [h₀]
      omega
    · rw [h₀]
      omega
  next h'' =>
    have h₀ : (UInt8.ofNat (c.toNat / 262144 % 8 + 240)).toNat = c.toNat / 262144 + 240 := by
      rw [UInt8.toNat_ofNat']
      omega
    have h₁ : (UInt8.ofNat (c.toNat / 4096 % 64 + 128)).toNat = c.toNat / 4096 % 64 + 128 := by
      rw [UInt8.toNat_ofNat']
      omega
    have h₂ : (UInt8.ofNat (c.toNat / 64 % 64 + 128)).toNat = c.toNat / 64 % 64 + 128 := by
      rw [UInt8.toNat_ofNat']
      omega
    have h₃ : (UInt8.ofNat (c.toNat % 64 + 128)).toNat = c.toNat % 64 + 128 := by
      rw [UInt8.toNat_ofNat']
      omega
    rw [List.cons_append, List.cons_append, List.cons_append, List.singleton_append,
      decode_four, h₀, h₁, h₂, h₃]
    · rw [show (c.toNat / 262144 + 240) % 8 * 262144 + (c.toNat / 4096 % 64 + 128) % 64 * 4096 +
        (c.toNat / 64 % 64 + 128) % 64 * 64 +
        (c.toNat % 64 + 128) % 64 = c.toNat by omega, Char.ofNat_toNat]
    · rw [h₀, h₁, Follows]
      omega
    · rw [h₂, Tail]
      omega
    · rw [h₃, Tail]
      omega
    · rw [h₀]
      omega

theorem utf8_append (t u : List Char) : utf8 (t ++ u) = utf8 t ++ utf8 u := List.flatMap_append

theorem utf8_cons (c : Char) (t : List Char) : utf8 (c :: t) = String.utf8EncodeChar c ++ utf8 t :=
  List.flatMap_cons

theorem decode_utf8_append (t : List Char) (bs : List UInt8) :
    decode (utf8 t ++ bs) = t ++ decode bs := by
  induction t with
  | nil => rfl
  | cons c t ih => rw [utf8_cons, List.append_assoc, decode_encodeChar, ih, List.cons_append]

theorem decode_utf8 (t : List Char) : decode (utf8 t) = t := by
  rw [← List.append_nil (utf8 t), decode_utf8_append]
  exact List.append_nil t

theorem utf8_injective : Function.Injective utf8 := Function.LeftInverse.injective decode_utf8

theorem toNat_ofNat {n : ℕ} (h : n.isValidChar) : (Char.ofNat n).toNat = n := by
  rw [Char.ofNat, dif_pos h]
  rfl

/-- The character of an ASCII byte. -/
def charOf (b : UInt8) : Char := .ofNat b.toNat

theorem toNat_charOf (b : UInt8) : (charOf b).toNat = b.toNat := by
  have hb : b.toNat < 256 := b.toNat_lt
  exact toNat_ofNat (Or.inl (by omega))

/-- A byte that is not ASCII begins one character that is not ASCII; what is read for it
is not ASCII. -/
theorem decode_step (h : 0x80 ≤ b₀.toNat) (bs : List UInt8) :
    ∃ c skipped rest, b₀ :: bs = skipped ++ rest ∧
    rest.length ≤ bs.length ∧ (∀ b ∈ skipped, 0x80 ≤ b.toNat) ∧ 0x80 ≤ c.toNat ∧ decode (b₀ :: bs) =
      c :: decode rest := by
  have hreplaced : 0x80 ≤ replacement.toNat := by decide
  have h₁₂₈ : ∀ {l : List UInt8}, (∀ b ∈ l, 0x80 ≤ b.toNat) → ∀ b ∈ b₀ :: l, 0x80 ≤ b.toNat :=
    fun hl b hb => (List.mem_cons.mp hb).elim (fun heq => heq ▸ h) (hl b)
  have hnil : ∀ b ∈ ([] : List UInt8), 0x80 ≤ b.toNat := fun b hb => by cases hb
  cases bs with
  | nil =>
    refine ⟨replacement, [b₀], [], rfl, le_rfl, h₁₂₈ hnil, hreplaced, ?_⟩
    rw [decode.eq_def]
    simp only [if_neg h.not_gt]
    rfl
  | cons b₁ bs =>
  by_cases hf : Follows b₀.toNat b₁.toNat
  swap
  · exact ⟨replacement, [b₀], b₁ :: bs, rfl, le_rfl, h₁₂₈ hnil, hreplaced, decode_not_follows h hf⟩
  obtain ⟨⟨hlow, hhigh, htail, htail'⟩, hE0, hED, hF0, hF4⟩ := hf
  have hf : Follows b₀.toNat b₁.toNat := ⟨⟨hlow, hhigh, htail, htail'⟩, hE0, hED, hF0, hF4⟩
  have htwo : ∀ b ∈ [b₁], 0x80 ≤ b.toNat := fun b hb => (List.mem_singleton.mp hb) ▸ htail
  -- the lead byte says how many bytes follow; where one is missing, what was read is replaced
  by_cases htwoByte : b₀.toNat < 0xE0
  · refine ⟨_, [b₀, b₁], bs, rfl, Nat.le_succ _, h₁₂₈ htwo, ?_, decode_two hf htwoByte⟩
    rw [toNat_ofNat (Or.inl (by omega))]
    omega
  cases bs with
  | nil =>
    refine ⟨replacement, [b₀, b₁], [], rfl, Nat.zero_le _, h₁₂₈ htwo, hreplaced, ?_⟩
    rw [decode.eq_def]
    simp only [if_neg h.not_gt, if_pos hf, if_neg htwoByte]
    rfl
  | cons b₂ bs =>
  by_cases h₂ : Tail b₂.toNat
  swap
  · refine ⟨replacement, [b₀, b₁], b₂ :: bs, rfl, Nat.le_succ _, h₁₂₈ htwo, hreplaced, ?_⟩
    conv_lhs => rw [decode.eq_def]
    simp only [if_neg h.not_gt, if_pos hf, if_neg htwoByte, if_neg h₂]
  have hthree : ∀ b ∈ [b₁, b₂], 0x80 ≤ b.toNat := by
    intro b hb
    rcases List.mem_cons.mp hb with rfl | hb
    · exact htail
    · exact (List.mem_singleton.mp hb) ▸ h₂.1
  by_cases hthreeByte : b₀.toNat < 0xF0
  · refine ⟨_, [b₀, b₁, b₂], bs, rfl,
      by simp only [List.length_cons]; omega, h₁₂₈ hthree, ?_,
      decode_three hf h₂ (by omega) hthreeByte⟩
    have hvalid : (b₀.toNat % 16 * 4096 + b₁.toNat % 64 * 64 + b₂.toNat % 64).isValidChar := by
      rw [Nat.isValidChar]
      omega
    rw [toNat_ofNat hvalid]
    omega
  cases bs with
  | nil =>
    refine ⟨replacement, [b₀, b₁, b₂], [], rfl, Nat.zero_le _, h₁₂₈ hthree, hreplaced, ?_⟩
    rw [decode.eq_def]
    simp only [if_neg h.not_gt, if_pos hf, if_neg htwoByte, if_pos h₂, if_neg hthreeByte]
    rfl
  | cons b₃ bs =>
  by_cases h₃ : Tail b₃.toNat
  swap
  · refine ⟨replacement, [b₀, b₁, b₂], b₃ :: bs, rfl,
      by simp only [List.length_cons]; omega, h₁₂₈ hthree, hreplaced, ?_⟩
    conv_lhs => rw [decode.eq_def]
    simp only [if_neg h.not_gt, if_pos hf, if_neg htwoByte, if_pos h₂, if_neg hthreeByte, if_neg h₃]
  · have hfour : ∀ b ∈ [b₁, b₂, b₃], 0x80 ≤ b.toNat := by
      intro b hb
      rcases List.mem_cons.mp hb with rfl | hb
      · exact htail
      rcases List.mem_cons.mp hb with rfl | hb
      · exact h₂.1
      · exact (List.mem_singleton.mp hb) ▸ h₃.1
    refine ⟨_, [b₀, b₁, b₂, b₃], bs, rfl,
      by simp only [List.length_cons]; omega, h₁₂₈ hfour, ?_, decode_four hf h₂ h₃ (by omega)⟩
    have hvalid : (b₀.toNat % 8 * 262144 + b₁.toNat % 64 * 4096 +
        b₂.toNat % 64 * 64 + b₃.toNat % 64).isValidChar := by
      rw [Nat.isValidChar]
      omega
    rw [toNat_ofNat hvalid]
    omega

/-- ASCII text comes from its own bytes. -/
theorem eq_of_decode_ascii (ht : ∀ c ∈ decode bs, c.toNat < 0x80) : decode bs = bs.map charOf := by
  induction bs with
  | nil => rfl
  | cons b bs ih =>
    by_cases hb : b.toNat < 0x80
    · rw [decode_cons_of_lt hb] at ht ⊢
      rw [List.map_cons, ← ih (fun c hc => ht c (List.mem_cons_of_mem _ hc))]
      rfl
    · obtain ⟨c, skipped, rest, -, -, -, hc, hdecode⟩ := decode_step (Nat.le_of_not_lt hb) bs
      rw [hdecode] at ht
      exact absurd (ht c List.mem_cons_self) hc.not_gt

/-- ASCII bytes are read wherever they stand. -/
theorem charOf_mem_decode (hb : b.toNat < 0x80) (hmem : b ∈ bs) : charOf b ∈ decode bs := by
  induction hn : bs.length using Nat.strong_induction_on generalizing bs with
  | _ n ih =>
  cases bs with
  | nil => cases hmem
  | cons b₀ bs =>
    by_cases hb₀ : b₀.toNat < 0x80
    · rw [decode_cons_of_lt hb₀]
      rcases List.mem_cons.mp hmem with rfl | hmem
      · exact List.mem_cons_self
      · exact List.mem_cons_of_mem _ (ih bs.length (by rw [← hn, List.length_cons]; omega) hmem rfl)
    · obtain ⟨c, skipped, rest, hsplit, hle, hskipped, -, hdecode⟩ :=
        decode_step (Nat.le_of_not_lt hb₀) bs
      rw [hdecode]
      rw [hsplit, List.mem_append] at hmem
      have hrest : b ∈ rest := hmem.resolve_left (fun h => (hskipped b h).not_gt hb)
      exact List.mem_cons_of_mem _
        (ih rest.length (by rw [← hn, List.length_cons]; omega) hrest rfl)

theorem utf8_head (c : Char) (t : List Char) :
    ∃ b bs, utf8 (c :: t) = b :: bs ∧ (b.toNat < 0x80 ∨ 0xC0 ≤ b.toNat) := by
  rw [utf8_cons]
  simp only [String.utf8EncodeChar.eq_def]
  split
  · exact ⟨_, _, rfl, Or.inl (by rw [UInt8.toNat_ofNat']; omega)⟩
  split
  · exact ⟨_, _, rfl, Or.inr (by rw [UInt8.toNat_ofNat']; omega)⟩
  split
  · exact ⟨_, _, rfl, Or.inr (by rw [UInt8.toNat_ofNat']; omega)⟩
  · exact ⟨_, _, rfl, Or.inr (by rw [UInt8.toNat_ofNat']; omega)⟩

/-- A byte that is not ASCII stands for nothing before text. -/
theorem decode_lone (h : 0x80 ≤ b.toNat) (t : List Char) :
    decode (b :: utf8 t) = replacement :: t := by
  cases t with
  | nil =>
    rw [utf8, List.flatMap_nil, decode.eq_def]
    simp only [if_neg h.not_gt]
  | cons c t =>
    obtain ⟨b₁, bs, hbs, hstart⟩ := utf8_head c t
    have hnot : ¬ Follows b.toNat b₁.toNat := by
      intro hf
      have := hf.1
      omega
    rw [hbs, decode_not_follows h hnot, ← hbs, decode_utf8]

/-! ### Percent-encoding -/

def hexDigit (n : ℕ) : Char := .ofNat (if n < 10 then 48 + n else 55 + n)

def hexValue (c : Char) : Option ℕ :=
  if '0' ≤ c ∧ c ≤ '9' then some (c.toNat - 48)
  else if 'A' ≤ c ∧ c ≤ 'F' then some (c.toNat - 55)
  else if 'a' ≤ c ∧ c ≤ 'f' then some (c.toNat - 87)
  else none

/-- `A`-`Z`, `a`-`z`, `0`-`9`, `-`, `_`, `.`, `~` -/
def Unreserved (c : Char) : Prop :=
  'A' ≤ c ∧ c ≤ 'Z' ∨ 'a' ≤ c ∧ c ≤ 'z' ∨ '0' ≤ c ∧ c ≤ '9' ∨ c ∈ ['-', '_', '.', '~']

instance (c : Char) : Decidable (Unreserved c) := inferInstanceAs (Decidable (_ ∨ _ ∨ _ ∨ _))

def quoteByte (safe : List Char) (b : UInt8) : List Char :=
  if b.toNat < 0x80 ∧ (Unreserved (charOf b) ∨ charOf b ∈ safe) then [charOf b]
  else ['%', hexDigit (b.toNat / 16), hexDigit (b.toNat % 16)]

/-- Each byte of the text escaped, but for the unreserved and the safe ones. -/
def quote (safe : List Char) (t : List Char) : List Char := (utf8 t).flatMap (quoteByte safe)

/-- The byte of a character below U+0100. -/
def byteOf (c : Char) : UInt8 := .ofNat c.toNat

/-- The bytes with the escapes undone; a `%` without two digits stays. -/
def percentBytes : List Char → List UInt8
  | [] => []
  | [c] => [byteOf c]
  | [c, c₁] => [byteOf c, byteOf c₁]
  | c :: c₁ :: c₂ :: t =>
    match if c = '%' then hexValue c₁ else none, hexValue c₂ with
    | some h, some l => .ofNat (h * 16 + l) :: percentBytes t
    | _, _ => byteOf c :: percentBytes (c₁ :: c₂ :: t)

/-- Escapes undone in each stretch of ASCII; other characters stay. -/
def unquoteFrom (run : List Char) : List Char → List Char
  | [] => decode (percentBytes run)
  | c :: t => if c.toNat < 0x80 then unquoteFrom (run ++ [c]) t else decode (percentBytes run) ++
    c :: unquoteFrom [] t

def unquote (t : List Char) : List Char := unquoteFrom [] t

/-- A value of a form: `+` is a blank. -/
def formValue (t : List Char) : List Char :=
  decode (percentBytes (t.map (fun c => if c = '+' then ' ' else c)))

theorem byteOf_charOf (b : UInt8) : byteOf (charOf b) = b := by
  rw [byteOf, toNat_charOf]
  exact UInt8.ofNat_toNat

theorem charOf_byteOf (h : c.toNat < 0x100) : charOf (byteOf c) = c := by
  rw [charOf, byteOf, UInt8.toNat_ofNat', Nat.mod_eq_of_lt h, Char.ofNat_toNat]

theorem hexValue_hexDigit {n : ℕ} (h : n < 16) : hexValue (hexDigit n) = some n := by
  have hall : ∀ n : Fin 16, hexValue (hexDigit n) = some n.val := by decide
  exact hall ⟨n, h⟩

theorem hexDigit_ascii {n : ℕ} (h : n < 16) :
    (hexDigit n).toNat < 0x80 ∧ Unreserved (hexDigit n) := by
  have hall : ∀ n : Fin 16, (hexDigit n).toNat < 0x80 ∧ Unreserved (hexDigit n) := by decide
  exact hall ⟨n, h⟩

theorem percentBytes_cons (hc : c ≠ '%') (t : List Char) :
    percentBytes (c :: t) = byteOf c :: percentBytes t := by
  match t with
  | [] => rfl
  | [c₁] => rfl
  | c₁ :: c₂ :: t =>
    rw [percentBytes, if_neg hc]

theorem percentBytes_escape (b : UInt8) (t : List Char) :
    percentBytes ('%' :: hexDigit (b.toNat / 16) :: hexDigit (b.toNat % 16) :: t) =
      b :: percentBytes t := by
  have hb : b.toNat < 256 := b.toNat_lt
  rw [percentBytes, if_pos rfl, hexValue_hexDigit (by omega), hexValue_hexDigit (by omega)]
  simp only [Nat.div_add_mod', UInt8.ofNat_toNat]

theorem percentBytes_quoteByte {safe : List Char} (hsafe : '%' ∉ safe) (b : UInt8) (t : List Char) :
    percentBytes (quoteByte safe b ++ t) = b :: percentBytes t := by
  rw [quoteByte]
  split
  next h =>
    have hne : charOf b ≠ '%' := by
      intro heq
      rw [heq] at h
      rcases h.2 with h | h
      · exact absurd h (by decide)
      · exact hsafe h
    rw [List.singleton_append, percentBytes_cons hne, byteOf_charOf]
  next => exact percentBytes_escape b t

theorem percentBytes_quote {safe : List Char} (hsafe : '%' ∉ safe) (t u : List Char) :
    percentBytes (quote safe t ++ u) = utf8 t ++ percentBytes u := by
  rw [quote]
  induction utf8 t with
  | nil => rfl
  | cons b bs ih =>
    rw [List.flatMap_cons, List.append_assoc, percentBytes_quoteByte hsafe, ih, List.cons_append]

theorem quote_injective {safe : List Char} (hsafe : '%' ∉ safe) :
    Function.Injective (quote safe) := by
  intro t u h
  have ht := percentBytes_quote hsafe t []
  rw [h, percentBytes_quote hsafe] at ht
  exact (utf8_injective (List.append_cancel_right ht)).symm

/-- What quoted text is made of. -/
theorem mem_quote {safe : List Char} (h : c ∈ quote safe t) :
    c.toNat < 0x80 ∧ (Unreserved c ∨ c ∈ safe ∨ c = '%') := by
  obtain ⟨b, -, hc⟩ := List.mem_flatMap.mp h
  have hb : b.toNat < 256 := b.toNat_lt
  rw [quoteByte] at hc
  split at hc
  next hplain =>
    obtain rfl := List.mem_singleton.mp hc
    exact ⟨by rw [toNat_charOf]; exact hplain.1, hplain.2.imp id Or.inl⟩
  next =>
    rcases List.mem_cons.mp hc with rfl | hc
    · exact ⟨by decide, Or.inr (Or.inr rfl)⟩
    rcases List.mem_cons.mp hc with rfl | hc
    · obtain ⟨hascii, hplain⟩ := hexDigit_ascii (n := b.toNat / 16) (by omega)
      exact ⟨hascii, Or.inl hplain⟩
    · obtain rfl := List.mem_singleton.mp hc
      obtain ⟨hascii, hplain⟩ := hexDigit_ascii (n := b.toNat % 16) (by omega)
      exact ⟨hascii, Or.inl hplain⟩

/-! ### Unquoting -/

theorem unquoteFrom_append (run : List Char) (ht : ∀ c ∈ t, c.toNat < 0x80) (u : List Char) :
    unquoteFrom run (t ++ u) = unquoteFrom (run ++ t) u := by
  induction t generalizing run with
  | nil => rw [List.nil_append, List.append_nil]
  | cons c t ih =>
    rw [List.cons_append, unquoteFrom, if_pos (ht c List.mem_cons_self),
      ih _ (fun c hc => ht c (List.mem_cons_of_mem _ hc)),
      List.append_assoc, List.singleton_append]

theorem unquote_ascii (ht : ∀ c ∈ t, c.toNat < 0x80) : unquote t = decode (percentBytes t) := by
  have h := unquoteFrom_append [] ht []
  rw [List.append_nil, List.nil_append] at h
  exact h

theorem unquote_append_cons (ht : ∀ c ∈ t, c.toNat < 0x80) (hc : ¬ c.toNat < 0x80) (u : List Char) :
    unquote (t ++ c :: u) = decode (percentBytes t) ++ c :: unquote u := by
  rw [unquote, unquoteFrom_append [] ht, List.nil_append, unquoteFrom, if_neg hc]
  rfl

/-- What is no part of an escape stays. -/
theorem byteOf_mem_percentBytes (hc : c ≠ '%') (hh : hexValue c = none) (h : c ∈ t) :
    byteOf c ∈ percentBytes t := by
  fun_induction percentBytes t with
  | case1 => cases h
  | case2 c₀ => exact List.mem_singleton.mpr (congrArg byteOf (List.mem_singleton.mp h))
  | case3 c₀ c₁ => exact List.mem_map_of_mem (f := byteOf) h
  | case4 c₀ c₁ c₂ t high low hlow hhigh ih =>
    -- the three characters of an escape are others
    split at hhigh
    next heq =>
      apply List.mem_cons_of_mem
      apply ih
      have h₀ : c ≠ c₀ := fun h => hc (h.trans heq)
      have h₁ : c ≠ c₁ := by
        rintro rfl
        rw [hh] at hhigh
        cases hhigh
      have h₂ : c ≠ c₂ := by
        rintro rfl
        rw [hh] at hlow
        cases hlow
      simpa [h₀, h₁, h₂] using h
    next => cases hhigh
  | case5 c₀ c₁ c₂ t hnot ih =>
    rcases List.mem_cons.mp h with rfl | h
    · exact List.mem_cons_self
    · exact List.mem_cons_of_mem _ (ih h)

theorem mem_unquoteFrom {run : List Char} (h : (c ∈ t ∧ 0x80 ≤ c.toNat) ∨
    (c ∈ run ++ t ∧ c.toNat < 0x80 ∧ c ≠ '%' ∧ hexValue c = none)) : c ∈ unquoteFrom run t := by
  induction t generalizing run with
  | nil =>
    rcases h with h | ⟨hmem, hascii, hc, hh⟩
    · cases h.1
    · rw [List.append_nil] at hmem
      have hb : (byteOf c).toNat < 0x80 := by
        rw [byteOf, UInt8.toNat_ofNat']
        omega
      have hread := charOf_mem_decode hb (byteOf_mem_percentBytes hc hh hmem)
      rw [charOf_byteOf (by omega)] at hread
      exact hread
  | cons c' t ih =>
    rw [unquoteFrom]
    split
    next hascii' =>
      apply ih
      rcases h with ⟨hmem, hhigh⟩ | h
      · refine Or.inl ⟨(List.mem_cons.mp hmem).resolve_left ?_, hhigh⟩
        rintro rfl
        omega
      · apply Or.inr
        rw [List.append_assoc]
        exact h
    next hhigh' =>
      rcases h with ⟨hmem, hhigh⟩ | ⟨hmem, hascii, hc, hh⟩
      · rcases List.mem_cons.mp hmem with rfl | hmem
        · exact List.mem_append_right _ List.mem_cons_self
        · exact List.mem_append_right _ (List.mem_cons_of_mem _ (ih (Or.inl ⟨hmem, hhigh⟩)))
      · rcases List.mem_append.mp hmem with hmem | hmem
        · have hrun : c ∈ unquoteFrom run [] := by
            have hb : (byteOf c).toNat < 0x80 := by
              rw [byteOf, UInt8.toNat_ofNat']
              omega
            have hread := charOf_mem_decode hb (byteOf_mem_percentBytes hc hh hmem)
            rw [charOf_byteOf (by omega)] at hread
            exact hread
          exact List.mem_append_left _ hrun
        · have hne : c ≠ c' := by
            rintro rfl
            exact hhigh' hascii
          have hrest := (List.mem_cons.mp hmem).resolve_left hne
          exact List.mem_append_right _
            (List.mem_cons_of_mem _ (ih (Or.inr ⟨hrest, hascii, hc, hh⟩)))

/-- Characters that are not ASCII, and `+`, come out of unquoting where they went in. -/
theorem mem_unquote (h : c ∈ t) (hc : 0x80 ≤ c.toNat ∨ c = '+') : c ∈ unquote t := by
  apply mem_unquoteFrom
  rcases hc with hc | rfl
  · exact Or.inl ⟨h, hc⟩
  · exact Or.inr ⟨h, by decide, by decide, by decide⟩

/-- Without a `+` the two readings of ASCII text are one. -/
theorem formValue_eq_unquote (ht : ∀ c ∈ t, c.toNat < 0x80) (hplus : '+' ∉ t) :
    formValue t = unquote t := by
  have hmap : t.map (fun c => if c = '+' then ' ' else c) = t.map id := by
    apply List.map_congr_left
    intro c hc
    apply if_neg
    rintro rfl
    exact hplus hc
  rw [formValue, hmap, List.map_id, unquote_ascii ht]

/-- Text that no raw byte and no `+` stands in is read in one way. -/
theorem formValue_of_unquote (ht : ∀ c ∈ t, c.toNat < 0x100)
    (hu : ∀ c ∈ unquote t, c ≠ '+' ∧ ¬ (0x80 ≤ c.toNat ∧ c.toNat < 0x100)) :
    formValue t = unquote t := by
  apply formValue_eq_unquote
  · intro c hc
    by_contra hhigh
    have hmem := mem_unquote hc (Or.inl (Nat.le_of_not_lt hhigh))
    exact (hu c hmem).2 ⟨Nat.le_of_not_lt hhigh, ht c hc⟩
  · intro hplus
    exact (hu '+' (mem_unquote hplus (Or.inr rfl))).1 rfl

/-- An ASCII name without blanks and `+` is found by either reading. -/
theorem formValue_eq_iff {name : List Char} (ht : ∀ c ∈ t, c.toNat < 0x100)
    (hname : ∀ c ∈ name, c.toNat < 0x80 ∧ c ≠ '+' ∧ c ≠ ' ') :
    formValue t = name ↔ unquote t = name := by
  constructor
  · intro h
    -- no character of `t` is read as another one
    have hmem : ∀ c ∈ t.map (fun c => if c = '+' then ' ' else c), c ≠ '%' → hexValue c = none →
        c.toNat < 0x100 → c ∈ name := by
      intro c hc hpercent hh hbyte
      have hbytes := byteOf_mem_percentBytes hpercent hh hc
      rw [← h, formValue, eq_of_decode_ascii]
      · rw [← charOf_byteOf hbyte]
        exact List.mem_map_of_mem hbytes
      · intro c hc
        rw [← formValue, h] at hc
        exact (hname c hc).1
    rw [← h]
    symm
    apply formValue_eq_unquote
    · intro c hc
      by_contra hhigh
      have hne : c ≠ '+' := by
        rintro rfl
        exact hhigh (by decide)
      have hsame : c ∈ t.map (fun c => if c = '+' then ' ' else c) :=
        List.mem_map.mpr ⟨c, hc, if_neg hne⟩
      have hh : hexValue c = none := by
        have hlarge : ∀ d : Char, d.toNat < 0x80 → ¬ c ≤ d := by
          intro d hd hle
          have hle' : c.toNat ≤ d.toNat := hle
          omega
        rw [hexValue, if_neg (fun h => hlarge '9' (by decide) h.2),
          if_neg (fun h => hlarge 'F' (by decide) h.2),
          if_neg (fun h => hlarge 'f' (by decide) h.2)]
      have hpercent : c ≠ '%' := by
        rintro rfl
        exact hhigh (by decide)
      exact hhigh (hname c (hmem c hsame hpercent hh (ht c hc))).1
    · intro hplus
      have hblank : ' ' ∈ t.map (fun c => if c = '+' then ' ' else c) :=
        List.mem_map.mpr ⟨'+', hplus, if_pos rfl⟩
      exact (hname ' ' (hmem ' ' hblank (by decide) (by decide) (by decide))).2.2 rfl
  · intro h
    rw [← h]
    apply formValue_of_unquote ht
    rw [h]
    intro c hc
    obtain ⟨hascii, hplus, -⟩ := hname c hc
    exact ⟨hplus, fun hhigh => absurd hhigh.1 hascii.not_ge⟩

/-! ### Raw forms of a text -/

theorem quote_ascii (t : List Char) : ∀ c ∈ quote [] t, c.toNat < 0x80 :=
  fun _ hc => (mem_quote hc).1

theorem plus_not_mem_quote (t : List Char) : '+' ∉ quote [] t := by
  intro h
  rcases (mem_quote h).2 with h | h | h
  · exact absurd h (by decide)
  · cases h
  · exact absurd h (by decide)

theorem unquote_quote (t : List Char) : unquote (quote [] t) = t := by
  have h : percentBytes (quote [] t ++ []) = utf8 t ++ percentBytes [] :=
    percentBytes_quote List.not_mem_nil t []
  rw [List.append_nil] at h
  rw [unquote_ascii (quote_ascii t), h]
  exact (decode_utf8_append t []).trans (List.append_nil t)

theorem formValue_quote (t : List Char) : formValue (quote [] t) = t := by
  rw [formValue_eq_unquote (quote_ascii t) (plus_not_mem_quote t), unquote_quote]

theorem map_quote (t : List Char) : (quote [] t).map (fun c => if c = '+' then ' ' else c) =
    quote [] t := by
  have hmap : (quote [] t).map (fun c => if c = '+' then ' ' else c) = (quote [] t).map id := by
    apply List.map_congr_left
    intro c hc
    apply if_neg
    rintro rfl
    exact plus_not_mem_quote t hc
  rw [hmap, List.map_id]

/-- ASCII text that stands for another text, whatever follows it. -/
structure Spells (q a : List Char) : Prop where
  ascii : ∀ c ∈ q, c.toNat < 0x80
  bytes : ∀ t, percentBytes (q ++ t) = utf8 a ++ percentBytes t

theorem spells_quote {safe : List Char} (hsafe : '%' ∉ safe) (t : List Char) :
    Spells (quote safe t) t :=
  ⟨fun _ hc => (mem_quote hc).1, percentBytes_quote hsafe t⟩

theorem Spells.append {q q' a a' : List Char} (h : Spells q a) (h' : Spells q' a') :
    Spells (q ++ q') (a ++ a') where
  ascii := by
    intro c hc
    rcases List.mem_append.mp hc with hc | hc
    · exact h.ascii c hc
    · exact h'.ascii c hc
  bytes := by
    intro t
    rw [List.append_assoc, h.bytes, h'.bytes, utf8_append, List.append_assoc]

theorem Spells.unquoteFrom {q a : List Char} (h : Spells q a) (run t : List Char) :
    unquoteFrom (q ++ run) t = a ++ UrlText.unquoteFrom run t := by
  induction t generalizing run with
  | nil => rw [UrlText.unquoteFrom, UrlText.unquoteFrom, h.bytes, decode_utf8_append]
  | cons c t ih =>
    rw [UrlText.unquoteFrom, UrlText.unquoteFrom]
    split
    · rw [List.append_assoc]
      exact ih _
    · rw [h.bytes, decode_utf8_append, List.append_assoc]

theorem Spells.unquote_append {q a : List Char} (h : Spells q a) (t : List Char) :
    unquote (q ++ t) = a ++ unquote t := by
  rw [unquote, unquoteFrom_append [] h.ascii, List.nil_append, ← List.append_nil q, h.unquoteFrom]
  rfl

theorem Spells.unquote {q a : List Char} (h : Spells q a) : unquote q = a := by
  have happend := h.unquote_append []
  rw [List.append_nil] at happend
  exact happend.trans (List.append_nil a)

/-- A `+` left as it is. -/
theorem unquote_plus (u v : List Char) :
    unquote (quote [] u ++ '+' :: quote [] v) = u ++ '+' :: v := by
  have hascii : ∀ c ∈ quote [] u ++ '+' :: quote [] v, c.toNat < 0x80 := by
    intro c hc
    rcases List.mem_append.mp hc with hc | hc
    · exact quote_ascii u c hc
    rcases List.mem_cons.mp hc with rfl | hc
    · decide
    · exact quote_ascii v c hc
  have hplus : decode (byteOf '+' :: percentBytes (quote [] v)) =
      '+' :: decode (percentBytes (quote [] v)) :=
    decode_cons_of_lt (by decide)
  rw [unquote_ascii hascii, percentBytes_quote List.not_mem_nil, percentBytes_cons (by decide),
    decode_utf8_append, hplus,
    ← unquote_ascii (quote_ascii v), unquote_quote]

theorem formValue_plus (u v : List Char) :
    formValue (quote [] u ++ '+' :: quote [] v) = u ++ ' ' :: v := by
  have hblank : decode (byteOf ' ' :: percentBytes (quote [] v)) =
      ' ' :: decode (percentBytes (quote [] v)) :=
    decode_cons_of_lt (by decide)
  rw [formValue, List.map_append, List.map_cons, map_quote, map_quote, if_pos rfl,
    percentBytes_quote List.not_mem_nil,
    percentBytes_cons (by decide), decode_utf8_append, hblank, ← unquote_ascii (quote_ascii v),
    unquote_quote]

/-- A character sent as one raw byte. -/
theorem unquote_raw (hc : ¬ c.toNat < 0x80) (u v : List Char) :
    unquote (quote [] u ++ c :: quote [] v) = u ++ c :: v := by
  rw [unquote_append_cons (quote_ascii u) hc, ← unquote_ascii (quote_ascii u),
    unquote_quote, unquote_quote]

theorem formValue_raw (hc : ¬ c.toNat < 0x80) (hbyte : c.toNat < 0x100) (u v : List Char) :
    formValue (quote [] u ++ c :: quote [] v) = u ++ replacement :: v := by
  have hne : c ≠ '+' := by
    rintro rfl
    exact hc (by decide)
  have hpercent : c ≠ '%' := by
    rintro rfl
    exact hc (by decide)
  have hhigh : 0x80 ≤ (byteOf c).toNat := by
    rw [byteOf, UInt8.toNat_ofNat']
    omega
  have hrest : percentBytes (quote [] v) = utf8 v := by
    have h : percentBytes (quote [] v ++ []) = utf8 v ++ percentBytes [] :=
      percentBytes_quote List.not_mem_nil v []
    rw [List.append_nil] at h
    exact h.trans (List.append_nil _)
  rw [formValue, List.map_append, List.map_cons, map_quote, map_quote, if_neg hne,
    percentBytes_quote List.not_mem_nil,
    percentBytes_cons hpercent, decode_utf8_append, hrest, decode_lone hhigh]

end UrlText
