import Ipp.Foundation.Buf

/-!
# UTF-8: the byte view of a string and the lossy decoder

A Rust `String` is a sequence of Unicode scalar values stored as UTF-8, and a
Lean `String` is the same sequence of scalar values.  `encodeUtf8` writes one
scalar value as the one to four bytes of RFC 3629, so `asBytes` is
`str::as_bytes` and `len` is `str::len`, a length in bytes.

`fromUtf8Lossy` is `String::from_utf8_lossy`, which the codec applies to every
string payload it reads.  It decodes as `core::str::Utf8Chunks` does: a byte
that cannot start a sequence, or the longest prefix of a sequence that breaks
off, becomes one U+FFFD, and the byte that broke it off is read again as the
start of the next sequence.  The decoder reads one byte at a time and keeps in
its state the range the next byte must lie in.
-/

namespace Ipp

/-! ## Encoding -/

def encodeUtf8 (c : Char) : Bytes :=
  let n := c.toNat
  if n < 0x80 then [n.toUInt8]
  else if n < 0x800 then [(0xC0 + n / 0x40).toUInt8, (0x80 + n % 0x40).toUInt8]
  else if n < 0x10000 then
    [(0xE0 + n / 0x1000).toUInt8, (0x80 + n / 0x40 % 0x40).toUInt8,
      (0x80 + n % 0x40).toUInt8]
  else
    [(0xF0 + n / 0x40000).toUInt8, (0x80 + n / 0x1000 % 0x40).toUInt8,
      (0x80 + n / 0x40 % 0x40).toUInt8, (0x80 + n % 0x40).toUInt8]

/-- `str::as_bytes`. -/
def asBytes (s : String) : Bytes := s.data.flatMap encodeUtf8

/-- `str::len`, in bytes. -/
def len (s : String) : Nat := (asBytes s).length

@[simp] theorem length_asBytes (s : String) : (asBytes s).length = len s := rfl

/-! ## Lossy decoding -/

/-- A sequence under way: the bits of the scalar value read so far, the
continuation bytes still owed, and the range the next byte must lie in. -/
structure Pending where
  acc : Nat
  owed : Nat
  lo : Nat
  hi : Nat
  deriving DecidableEq, Repr

/-- U+FFFD REPLACEMENT CHARACTER. -/
def replacement : Char := '�'

/-- A byte read between sequences: `utf8_char_width`, and the narrower range
`Utf8Chunks` allows for the byte after `E0`, `ED`, `F0` and `F4`. -/
def leadByte (b : UInt8) : List Char × Option Pending :=
  let n := b.toNat
  if n < 0x80 then ([Char.ofNat n], none)
  else if n < 0xC2 then ([replacement], none)
  else if n < 0xE0 then ([], some ⟨n - 0xC0, 1, 0x80, 0xBF⟩)
  else if n < 0xF0 then
    ([], some ⟨n - 0xE0, 2, if n = 0xE0 then 0xA0 else 0x80, if n = 0xED then 0x9F else 0xBF⟩)
  else if n < 0xF5 then
    ([], some ⟨n - 0xF0, 3, if n = 0xF0 then 0x90 else 0x80, if n = 0xF4 then 0x8F else 0xBF⟩)
  else ([replacement], none)

/-- One byte through the decoder: the characters it completes, and the state
after it. -/
def feed : Option Pending → UInt8 → List Char × Option Pending
  | none, b => leadByte b
  | some p, b =>
      if p.lo ≤ b.toNat ∧ b.toNat ≤ p.hi then
        if p.owed = 1 then ([Char.ofNat (p.acc * 0x40 + (b.toNat - 0x80))], none)
        else ([], some ⟨p.acc * 0x40 + (b.toNat - 0x80), p.owed - 1, 0x80, 0xBF⟩)
      else (replacement :: (leadByte b).1, (leadByte b).2)

def decodeLossy : Option Pending → Bytes → List Char
  | none, [] => []
  | some _, [] => [replacement]
  | state, b :: rest => (feed state b).1 ++ decodeLossy (feed state b).2 rest

/-- `String::from_utf8_lossy`. -/
def fromUtf8Lossy (v : Bytes) : String := ⟨decodeLossy none v⟩

/-! ## Decoding what was encoded -/

theorem decodeLossy_cons (state : Option Pending) (b : UInt8) (rest : Bytes) :
    decodeLossy state (b :: rest) = (feed state b).1 ++ decodeLossy (feed state b).2 rest := by
  cases state <;> rfl

@[simp] theorem feed_none (b : UInt8) : feed none b = leadByte b := rfl

private theorem feed_continue {p : Pending} {b : UInt8} (h : p.lo ≤ b.toNat ∧ b.toNat ≤ p.hi)
    (ho : p.owed ≠ 1) :
    feed (some p) b = ([], some ⟨p.acc * 0x40 + (b.toNat - 0x80), p.owed - 1, 0x80, 0xBF⟩) := by
  simp [feed, h, ho]

private theorem feed_finish {p : Pending} {b : UInt8} (h : p.lo ≤ b.toNat ∧ b.toNat ≤ p.hi)
    (ho : p.owed = 1) :
    feed (some p) b = ([Char.ofNat (p.acc * 0x40 + (b.toNat - 0x80))], none) := by
  simp [feed, h, ho]

theorem decodeLossy_one {b : UInt8} (rest : Bytes) (h : b.toNat < 0x80) :
    decodeLossy none (b :: rest) = Char.ofNat b.toNat :: decodeLossy none rest := by
  simp [decodeLossy_cons, leadByte, h]

theorem decodeLossy_two {b₀ b₁ : UInt8} (rest : Bytes)
    (h₀ : 0xC2 ≤ b₀.toNat ∧ b₀.toNat < 0xE0) (h₁ : 0x80 ≤ b₁.toNat ∧ b₁.toNat ≤ 0xBF) :
    decodeLossy none (b₀ :: b₁ :: rest) =
      Char.ofNat ((b₀.toNat - 0xC0) * 0x40 + (b₁.toNat - 0x80)) :: decodeLossy none rest := by
  have hl : leadByte b₀ = ([], some ⟨b₀.toNat - 0xC0, 1, 0x80, 0xBF⟩) := by
    simp only [leadByte]
    rw [if_neg (by omega), if_neg (by omega), if_pos h₀.2]
  simp [decodeLossy_cons, hl, feed_finish, h₁]

theorem decodeLossy_three {b₀ b₁ b₂ : UInt8} (rest : Bytes)
    (h₀ : 0xE0 ≤ b₀.toNat ∧ b₀.toNat < 0xF0)
    (h₁ : (if b₀.toNat = 0xE0 then 0xA0 else 0x80) ≤ b₁.toNat ∧
      b₁.toNat ≤ (if b₀.toNat = 0xED then 0x9F else 0xBF))
    (h₂ : 0x80 ≤ b₂.toNat ∧ b₂.toNat ≤ 0xBF) :
    decodeLossy none (b₀ :: b₁ :: b₂ :: rest) =
      Char.ofNat (((b₀.toNat - 0xE0) * 0x40 + (b₁.toNat - 0x80)) * 0x40 + (b₂.toNat - 0x80)) ::
        decodeLossy none rest := by
  have hl : leadByte b₀ = ([], some ⟨b₀.toNat - 0xE0, 2,
      if b₀.toNat = 0xE0 then 0xA0 else 0x80, if b₀.toNat = 0xED then 0x9F else 0xBF⟩) := by
    simp only [leadByte]
    rw [if_neg (by omega), if_neg (by omega), if_neg (by omega), if_pos h₀.2]
  simp [decodeLossy_cons, hl, feed_continue, feed_finish, h₁, h₂]

theorem decodeLossy_four {b₀ b₁ b₂ b₃ : UInt8} (rest : Bytes)
    (h₀ : 0xF0 ≤ b₀.toNat ∧ b₀.toNat < 0xF5)
    (h₁ : (if b₀.toNat = 0xF0 then 0x90 else 0x80) ≤ b₁.toNat ∧
      b₁.toNat ≤ (if b₀.toNat = 0xF4 then 0x8F else 0xBF))
    (h₂ : 0x80 ≤ b₂.toNat ∧ b₂.toNat ≤ 0xBF) (h₃ : 0x80 ≤ b₃.toNat ∧ b₃.toNat ≤ 0xBF) :
    decodeLossy none (b₀ :: b₁ :: b₂ :: b₃ :: rest) =
      Char.ofNat ((((b₀.toNat - 0xF0) * 0x40 + (b₁.toNat - 0x80)) * 0x40 +
        (b₂.toNat - 0x80)) * 0x40 + (b₃.toNat - 0x80)) :: decodeLossy none rest := by
  have hl : leadByte b₀ = ([], some ⟨b₀.toNat - 0xF0, 3,
      if b₀.toNat = 0xF0 then 0x90 else 0x80, if b₀.toNat = 0xF4 then 0x8F else 0xBF⟩) := by
    simp only [leadByte]
    rw [if_neg (by omega), if_neg (by omega), if_neg (by omega), if_neg (by omega),
      if_pos h₀.2]
  simp [decodeLossy_cons, hl, feed_continue, feed_finish, h₁, h₂, h₃]

private theorem ofNat_eq {c : Char} {m : Nat} (h : m = c.toNat) : Char.ofNat m = c :=
  h ▸ Char.ofNat_toNat c

private theorem toNat_byte {n : Nat} (h : n < 0x100) : n.toUInt8.toNat = n := by
  rw [toNat_toUInt8, Nat.mod_eq_of_lt h]

theorem decodeLossy_encodeUtf8 (c : Char) (rest : Bytes) :
    decodeLossy none (encodeUtf8 c ++ rest) = c :: decodeLossy none rest := by
  have hc : c.toNat < 0xD800 ∨ 0xDFFF < c.toNat ∧ c.toNat < 0x110000 := c.valid
  have hof : ∀ m, m = c.toNat →
      Char.ofNat m :: decodeLossy none rest = c :: decodeLossy none rest :=
    fun m h => by rw [ofNat_eq h]
  have hcont : ∀ k, (0x80 + k % 0x40).toUInt8.toNat = 0x80 + k % 0x40 :=
    fun k => toNat_byte (by omega)
  simp only [encodeUtf8]
  split_ifs with h₁ h₂ h₃
  · have e₀ : c.toNat.toUInt8.toNat = c.toNat := toNat_byte (by omega)
    rw [List.singleton_append, decodeLossy_one rest (by rw [e₀]; exact h₁), e₀, hof _ rfl]
  · have e₀ : (0xC0 + c.toNat / 0x40).toUInt8.toNat = 0xC0 + c.toNat / 0x40 :=
      toNat_byte (by omega)
    rw [List.cons_append, List.singleton_append,
      decodeLossy_two rest (by rw [e₀]; omega) (by rw [hcont]; omega), e₀, hcont,
      hof _ (by omega)]
  · have e₀ : (0xE0 + c.toNat / 0x1000).toUInt8.toNat = 0xE0 + c.toNat / 0x1000 :=
      toNat_byte (by omega)
    rw [List.cons_append, List.cons_append, List.singleton_append,
      decodeLossy_three rest (by rw [e₀]; omega) (by rw [e₀, hcont]; split_ifs <;> omega)
        (by rw [hcont]; omega), e₀, hcont, hcont, hof _ (by omega)]
  · have e₀ : (0xF0 + c.toNat / 0x40000).toUInt8.toNat = 0xF0 + c.toNat / 0x40000 :=
      toNat_byte (by omega)
    rw [List.cons_append, List.cons_append, List.cons_append, List.singleton_append,
      decodeLossy_four rest (by rw [e₀]; omega) (by rw [e₀, hcont]; split_ifs <;> omega)
        (by rw [hcont]; omega) (by rw [hcont]; omega), e₀, hcont, hcont, hcont, hof _ (by omega)]

theorem fromUtf8Lossy_asBytes (s : String) : fromUtf8Lossy (asBytes s) = s := by
  obtain ⟨cs⟩ := s
  suffices decodeLossy none (cs.flatMap encodeUtf8) = cs from congrArg String.mk this
  induction cs with
  | nil => rfl
  | cons c cs ih => rw [List.flatMap_cons, decodeLossy_encodeUtf8, ih]

end Ipp
