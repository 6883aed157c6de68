import Mathlib.Data.List.Basic

/-!
# Byte buffers and how a call ends

`bytes::Bytes` and `BytesMut` are lists of bytes.  The writers append a
big-endian field, as `BufMut::put_u16` and its siblings do; the readers take a
field off the front, as `Buf::get_u16` does, and return `none` exactly where
the Rust reader panics because fewer bytes remain than the field needs.

A call into the crate returns `Ok`, returns `Err`, or panics.  `Outcome` keeps
the three apart, so a theorem can say which of them happens.
-/

namespace Ipp

abbrev Bytes := List UInt8

/-! ## Outcomes -/

inductive Outcome (ε α : Type) where
  | ok (a : α)
  | err (e : ε)
  | panic
  deriving DecidableEq, Repr

namespace Outcome

variable {ε α β : Type}

def bind : Outcome ε α → (α → Outcome ε β) → Outcome ε β
  | ok a, f => f a
  | err e, _ => err e
  | panic, _ => panic

instance : Monad (Outcome ε) where
  pure := ok
  bind := bind

/-- The `?` operator on a `Result`. -/
instance : MonadLift (Except ε) (Outcome ε) where
  monadLift
    | .ok a => ok a
    | .error e => err e

/-- A read that panics when it comes back empty. -/
instance : MonadLift Option (Outcome ε) where
  monadLift
    | some a => ok a
    | none => panic

@[simp] theorem pure_eq (a : α) : (pure a : Outcome ε α) = ok a := rfl

@[simp] theorem ok_bind (a : α) (f : α → Outcome ε β) : (ok a >>= f) = f a := rfl

@[simp] theorem err_bind (e : ε) (f : α → Outcome ε β) : (err e >>= f) = err e := rfl

@[simp] theorem panic_bind (f : α → Outcome ε β) : (panic >>= f) = panic := rfl

@[simp] theorem lift_ok (a : α) :
    (monadLift (Except.ok a : Except ε α) : Outcome ε α) = ok a := rfl

@[simp] theorem lift_error (e : ε) :
    (monadLift (Except.error e : Except ε α) : Outcome ε α) = err e := rfl

@[simp] theorem lift_some (a : α) :
    (monadLift (some a) : Outcome ε α) = ok a := rfl

@[simp] theorem lift_none : (monadLift (none : Option α) : Outcome ε α) = panic := rfl

@[simp] theorem lift_except_ne_panic (x : Except ε α) : (monadLift x : Outcome ε α) ≠ panic := by
  cases x <;> nofun

@[simp] theorem lift_option_eq_panic (x : Option α) :
    (monadLift x : Outcome ε α) = panic ↔ x = none := by
  cases x <;> simp

@[simp] theorem bind_eq_panic (x : Outcome ε α) (f : α → Outcome ε β) :
    (x >>= f) = panic ↔ x = panic ∨ ∃ a, x = ok a ∧ f a = panic := by
  cases x <;> simp

theorem lift_except_eq_ok (x : Except ε α) (a : α) :
    (monadLift x : Outcome ε α) = ok a ↔ x = .ok a := by
  cases x <;> simp

/-- The value of an outcome satisfies `P`, if it has one: the postcondition
of a call that may also fail or panic. -/
def Holds (P : α → Prop) : Outcome ε α → Prop
  | ok a => P a
  | _ => True

theorem Holds.bind {P : β → Prop} {x : Outcome ε α} {f : α → Outcome ε β}
    (h : ∀ a, x = ok a → (f a).Holds P) : (x >>= f).Holds P := by
  cases x with
  | ok a => exact h a rfl
  | err _ | panic => trivial

theorem Holds.of_eq_ok {P : α → Prop} {x : Outcome ε α} (h : x.Holds P) {a : α}
    (hx : x = ok a) : P a := by
  subst hx
  exact h

end Outcome

/-! ## Writers -/

/-- `BufMut::put_u16`. -/
def putU16 (n : UInt16) : Bytes :=
  [(n.toNat / 0x100).toUInt8, n.toNat.toUInt8]

/-- `BufMut::put_u32`. -/
def putU32 (n : UInt32) : Bytes :=
  [(n.toNat / 0x1000000).toUInt8, (n.toNat / 0x10000).toUInt8,
    (n.toNat / 0x100).toUInt8, n.toNat.toUInt8]

/-- `BufMut::put_i32`: the four bytes of the two's complement word. -/
def putI32 (n : BitVec 32) : Bytes :=
  [(n.toNat / 0x1000000).toUInt8, (n.toNat / 0x10000).toUInt8,
    (n.toNat / 0x100).toUInt8, n.toNat.toUInt8]

@[simp] theorem length_putU16 (n : UInt16) : (putU16 n).length = 2 := rfl

@[simp] theorem length_putU32 (n : UInt32) : (putU32 n).length = 4 := rfl

@[simp] theorem length_putI32 (n : BitVec 32) : (putI32 n).length = 4 := rfl

/-! ## Readers -/

/-- `Buf::get_u8`. -/
def getU8 : Bytes → Option (UInt8 × Bytes)
  | b :: rest => some (b, rest)
  | [] => none

/-- `Buf::get_i8`. -/
def getI8 : Bytes → Option (Int8 × Bytes)
  | b :: rest => some (⟨b⟩, rest)
  | [] => none

/-- `Buf::get_u16`. -/
def getU16 : Bytes → Option (UInt16 × Bytes)
  | b₀ :: b₁ :: rest => some ((b₀.toNat * 0x100 + b₁.toNat).toUInt16, rest)
  | _ => none

/-- `Buf::get_i32`. -/
def getI32 : Bytes → Option (BitVec 32 × Bytes)
  | b₀ :: b₁ :: b₂ :: b₃ :: rest =>
      some (BitVec.ofNat 32
        (((b₀.toNat * 0x100 + b₁.toNat) * 0x100 + b₂.toNat) * 0x100 + b₃.toNat), rest)
  | _ => none

/-! ## How far a reader reads -/

/-- `get` takes `w` bytes off the front, and fails exactly when fewer remain. -/
def ReadsWidth {α : Type} (get : Bytes → Option (α × Bytes)) (w : Nat) : Prop :=
  ∀ data, (get data = none ↔ data.length < w) ∧ ∀ a rest, get data = some (a, rest) →
    rest = data.drop w

theorem readsWidth_getU8 : ReadsWidth getU8 1
  | [] => ⟨iff_of_true rfl (by decide), nofun⟩
  | _ :: _ => ⟨iff_of_false nofun (by simp), fun _ _ h => by cases h; rfl⟩

theorem readsWidth_getI8 : ReadsWidth getI8 1
  | [] => ⟨iff_of_true rfl (by decide), nofun⟩
  | _ :: _ => ⟨iff_of_false nofun (by simp), fun _ _ h => by cases h; rfl⟩

theorem readsWidth_getU16 : ReadsWidth getU16 2
  | [] | [_] => ⟨iff_of_true rfl (by simp), nofun⟩
  | _ :: _ :: _ => ⟨iff_of_false nofun (by simp), fun _ _ h => by cases h; rfl⟩

theorem readsWidth_getI32 : ReadsWidth getI32 4
  | [] | [_] | [_, _] | [_, _, _] => ⟨iff_of_true rfl (by simp), nofun⟩
  | _ :: _ :: _ :: _ :: _ => ⟨iff_of_false nofun (by simp), fun _ _ h => by cases h; rfl⟩

theorem read_bind_eq_panic {ε α β : Type} {get : Bytes → Option (α × Bytes)} {w k : Nat}
    (hget : ReadsWidth get w) {f : α × Bytes → Outcome ε β}
    (hf : ∀ a rest, f (a, rest) = .panic ↔ rest.length < k) (data : Bytes) :
    (monadLift (get data) >>= f) = .panic ↔ data.length < k + w := by
  obtain ⟨hnone, hsome⟩ := hget data
  cases h : get data with
  | none => exact iff_of_true rfl (by have := hnone.mp h; omega)
  | some p =>
      have hw : w ≤ data.length := Nat.le_of_not_lt fun hl => nomatch h.symm.trans (hnone.mpr hl)
      rw [Outcome.lift_some, Outcome.ok_bind, hf, hsome p.1 p.2 h, List.length_drop]
      omega

theorem pure_eq_panic_iff {ε β : Type} (b : β) (rest : Bytes) :
    (pure b : Outcome ε β) = .panic ↔ rest.length < 0 :=
  iff_of_false nofun (Nat.not_lt_zero _)

/-! ## Reading back what was written -/

@[simp] theorem toNat_toUInt8 (n : Nat) : n.toUInt8.toNat = n % 0x100 :=
  BitVec.toNat_ofNat n 8

@[simp] theorem toNat_toUInt16 (n : Nat) : n.toUInt16.toNat = n % 0x10000 :=
  BitVec.toNat_ofNat n 16

@[simp] theorem getU8_cons (b : UInt8) (rest : Bytes) : getU8 (b :: rest) = some (b, rest) := rfl

@[simp] theorem getI8_cons (b : UInt8) (rest : Bytes) : getI8 (b :: rest) = some (⟨b⟩, rest) :=
  rfl

@[simp] theorem getU16_putU16 (n : UInt16) (rest : Bytes) :
    getU16 (putU16 n ++ rest) = some (n, rest) := by
  have h : n.toNat < 0x10000 := n.toNat_lt_size
  simp only [putU16, List.cons_append, List.nil_append, getU16, Option.some.injEq,
    Prod.mk.injEq, and_true]
  apply UInt16.toNat.inj
  simp only [toNat_toUInt16, toNat_toUInt8]
  omega

@[simp] theorem getI32_putI32 (n : BitVec 32) (rest : Bytes) :
    getI32 (putI32 n ++ rest) = some (n, rest) := by
  have h := n.isLt
  simp only [putI32, List.cons_append, List.nil_append, getI32, Option.some.injEq,
    Prod.mk.injEq, and_true]
  apply BitVec.eq_of_toNat_eq
  simp only [BitVec.toNat_ofNat, toNat_toUInt8]
  omega

@[simp] theorem getI32_putI32_self (n : BitVec 32) : getI32 (putI32 n) = some (n, []) := by
  simpa using getI32_putI32 n []

@[simp] theorem toUInt16_zero : (0 : Nat).toUInt16 = 0 := rfl

@[simp] theorem putU16_zero : putU16 0 = [0, 0] := rfl

@[simp] theorem putU32_zero : putU32 0 = [0, 0, 0, 0] := rfl

/-! ## `Debug for Bytes` -/

/-- A byte as `Debug for bytes::Bytes` writes it between the quotes of `b"…"`:
a backslash escape for newline, carriage return, tab, backslash, quote and
NUL, printable ASCII as itself, and `\x` with two lowercase hexadecimal
digits for every other byte. -/
def debugByte (b : UInt8) : List Char :=
  let escape (c : Char) : List Char := [Char.ofNat 0x5C, c]
  if b = 0x0A then escape 'n'
  else if b = 0x0D then escape 'r'
  else if b = 0x09 then escape 't'
  else if b = 0x5C ∨ b = 0x22 then escape (Char.ofNat b.toNat)
  else if b = 0 then escape '0'
  else if 0x20 ≤ b ∧ b < 0x7F then [Char.ofNat b.toNat]
  else escape 'x' ++ [Nat.digitChar (b.toNat / 16), Nat.digitChar (b.toNat % 16)]

/-- `{:?}` of `bytes::Bytes`, the crate's byte-string formatter. -/
def debugBytes (data : Bytes) : String :=
  ⟨['b', Char.ofNat 0x22] ++ data.flatMap debugByte ++ [Char.ofNat 0x22]⟩

end Ipp
