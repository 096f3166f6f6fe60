import Mathlib.Algebra.Group.Int.Defs
import Nanom.Nom.Input
import Nanom.Wire.Varint

/-!
# The primitive parsers

Those that take a fixed number of bytes are one function with parameters,
`exactly`, which waits for all of them. `takePred` is the engine of those that
take bytes as long as they are of a kind. The others decide for themselves how
far they go: the search for a needle, the varints and the numbers in text.
-/

namespace Nanom.Nom

open Wire (VarintError leb128MaxBytes readUleb128 zigzagDecode)

variable {α : Type}

/-! ## So many bytes -/

/-- Exactly `n` bytes, and what is made of them. -/
def exactly (n : ℕ) (f : Span → Except String α) : Parser α := fun i =>
  if i.size < n then .unexp (makeIncomplete i (n - i.size))
  else
    match f (i.takeSpan n) with
    | .ok v => .done v (i.advance n)
    | .error expected => .unexp (makeErr i expected)

def tag (pattern : Bytes) : Parser Span :=
  exactly pattern.length fun s => if s.data = pattern then .ok s else .error "tag"

def lower (c : UInt8) : UInt8 := if 65 ≤ c ∧ c ≤ 90 then c + 32 else c

def tagNoCase (pattern : Bytes) : Parser Span :=
  exactly pattern.length fun s =>
    if s.data.map lower = pattern.map lower then .ok s else .error "tag_no_case"

def take (n : ℕ) : Parser Span := exactly n .ok

/-- One character of a kind. -/
def oneChar (expected : String) (ok : UInt8 → Bool) : Parser UInt8 :=
  exactly 1 fun s => if ok (s.data.headD 0) then .ok (s.data.headD 0) else .error expected

def chr (c : UInt8) : Parser UInt8 := oneChar "character" (· == c)

def satisfy (pred : UInt8 → Bool) : Parser UInt8 := oneChar "satisfy" pred

def oneOf (set : Bytes) : Parser UInt8 := oneChar "one_of" set.contains

def noneOf (set : Bytes) : Parser UInt8 := oneChar "none_of" fun b => !set.contains b

def anychar : Parser UInt8 := oneChar "" fun _ => true

def newline : Parser UInt8 := chr 10

def tab : Parser UInt8 := chr 9

def crlf : Parser Span := tag [13, 10]

inductive Endian
  | big
  | little
deriving DecidableEq

/-- The number that bytes make up in an order. -/
def Endian.toNat : Endian → Bytes → ℕ
  | .big => beNat
  | .little => leNat

def readUint (n : ℕ) (order : Endian) : Parser ℕ := exactly n fun s => .ok (order.toNat s.data)

/-- `detail::read_int`: the same bits, as a signed integer. -/
def readInt (n : ℕ) (order : Endian) : Parser ℤ :=
  exactly n fun s => .ok (BitVec.ofNat (8 * n) (order.toNat s.data)).toInt

/-- The floats are their bits: `be_f32`, `be_f64`, `le_f32` and `le_f64`. -/
def readFloat (n : ℕ) (order : Endian) : Parser (BitVec (8 * n)) :=
  exactly n fun s => .ok (BitVec.ofNat (8 * n) (order.toNat s.data))

def beU8 : Parser ℕ := readUint 1 .big
def beU16 : Parser ℕ := readUint 2 .big
def beU24 : Parser ℕ := readUint 3 .big
def beU32 : Parser ℕ := readUint 4 .big
def beU48 : Parser ℕ := readUint 6 .big
def beU64 : Parser ℕ := readUint 8 .big
def leU8 : Parser ℕ := readUint 1 .little
def leU16 : Parser ℕ := readUint 2 .little
def leU24 : Parser ℕ := readUint 3 .little
def leU32 : Parser ℕ := readUint 4 .little
def leU48 : Parser ℕ := readUint 6 .little
def leU64 : Parser ℕ := readUint 8 .little

def beI8 : Parser ℤ := readInt 1 .big
def beI16 : Parser ℤ := readInt 2 .big
def beI32 : Parser ℤ := readInt 4 .big
def beI64 : Parser ℤ := readInt 8 .big
def leI8 : Parser ℤ := readInt 1 .little
def leI16 : Parser ℤ := readInt 2 .little
def leI32 : Parser ℤ := readInt 4 .little
def leI64 : Parser ℤ := readInt 8 .little

def countFits (i : Input) (count minItemBytes : ℕ) : Prop :=
  minItemBytes = 0 ∨ count ≤ i.size / minItemBytes

instance (i : Input) (count w : ℕ) : Decidable (countFits i count w) := by
  unfold countFits
  infer_instance

/-- `le_array_of`, for elements of `w` bytes: the bytes of the elements and
how many they are. -/
def leArrayOf (w n : ℕ) : Parser (Span × ℕ) := fun i =>
  if countFits i n w then .done (i.takeSpan (n * w), n) (i.advance (n * w))
  else
    .unexp (makeIncomplete i
      (if (2 ^ 64 - 1) / w < n then 2 ^ 64 - 1 else n * w - i.size))

/-! ## Bytes of a kind -/

/-- How many of the first bytes are of a kind, `max` at most. No size is above
`nmax`, so that bound is none. -/
def leading (pred : UInt8 → Bool) (max : Option ℕ) (i : Input) : ℕ :=
  ((i.bytes.take (max.getD i.size)).takeWhile pred).length

def takePred (pred : UInt8 → Bool) (min : ℕ) (max : Option ℕ) (what : String) : Parser Span :=
  fun i =>
    let n := leading pred max i
    if n < min then
      if n = i.size then .unexp (makeIncomplete i (min - n))
      else .unexp (makeErr (i.advance n) what)
    else .done (i.takeSpan n) (i.advance n)

def takeWhile (pred : UInt8 → Bool) : Parser Span := takePred pred 0 none ""

def takeWhile1 (pred : UInt8 → Bool) : Parser Span :=
  takePred pred 1 none "take_while1: at least one matching byte"

def takeWhileMN (m n : ℕ) (pred : UInt8 → Bool) : Parser Span :=
  takePred pred m (some n) "take_while_m_n: not enough matching bytes"

def takeTill (pred : UInt8 → Bool) : Parser Span := takePred (fun b => !pred b) 0 none ""

def takeTill1 (pred : UInt8 → Bool) : Parser Span :=
  takePred (fun b => !pred b) 1 none "take_till1: at least one byte before terminator"

def isA (set : Bytes) : Parser Span := takePred set.contains 1 none "is_a: byte from set"

def isNot (set : Bytes) : Parser Span :=
  takePred (fun b => !set.contains b) 1 none "is_not: byte outside set"

def isAlpha (b : UInt8) : Bool := 97 ≤ b ||| 32 && b ||| 32 ≤ 122
def isDigit (b : UInt8) : Bool := 48 ≤ b && b ≤ 57
def isHex (b : UInt8) : Bool := isDigit b || (97 ≤ b ||| 32 && b ||| 32 ≤ 102)
def isOct (b : UInt8) : Bool := 48 ≤ b && b ≤ 55
def isAlnum (b : UInt8) : Bool := isAlpha b || isDigit b
def isSpace (b : UInt8) : Bool := b == 32 || b == 9
def isMspace (b : UInt8) : Bool := b == 32 || b == 9 || b == 13 || b == 10

def klass (pred : UInt8 → Bool) (min : ℕ) (what : String) : Parser Span :=
  takePred pred min none what

def alpha0 : Parser Span := klass isAlpha 0 ""
def alpha1 : Parser Span := klass isAlpha 1 "alphabetic"
def digit0 : Parser Span := klass isDigit 0 ""
def digit1 : Parser Span := klass isDigit 1 "digit"
def hexDigit0 : Parser Span := klass isHex 0 ""
def hexDigit1 : Parser Span := klass isHex 1 "hex digit"
def octDigit0 : Parser Span := klass isOct 0 ""
def octDigit1 : Parser Span := klass isOct 1 "octal digit"
def alphanumeric0 : Parser Span := klass isAlnum 0 ""
def alphanumeric1 : Parser Span := klass isAlnum 1 "alphanumeric"
def space0 : Parser Span := klass isSpace 0 ""
def space1 : Parser Span := klass isSpace 1 "space or tab"
def multispace0 : Parser Span := klass isMspace 0 ""
def multispace1 : Parser Span := klass isMspace 1 "whitespace"

def notLineEnding : Parser Span := takePred (fun b => b != 13 && b != 10) 0 none ""

/-- `line_ending`: a lone newline gives a text of its own, not the buffer's,
which lies at `literal`. -/
def lineEnding (literal : ℕ) : Parser Span := fun i =>
  match i.bytes with
  | [] => .unexp (makeIncomplete i 1)
  | b :: rest =>
    if b = 10 then .done ⟨[10], literal⟩ (i.advance 1)
    else if b = 13 then
      match rest with
      | [] => .unexp (makeIncomplete i 1)
      | b' :: _ =>
        if b' = 10 then .done (i.takeSpan 2) (i.advance 2)
        else .unexp (makeErr i "line ending")
    else .unexp (makeErr i "line ending")

/-! ## Searching -/

/-- `std::search`: where the needle first is. -/
def search (needle : Bytes) : Bytes → Option ℕ
  | [] => if needle.isEmpty then some 0 else none
  | b :: hay =>
    if needle.isPrefixOf (b :: hay) then some 0 else (search needle hay).map (· + 1)

/-- `take_until`: the end of the haystack is where nothing was found. -/
def takeUntil (needle : Bytes) : Parser Span := fun i =>
  match search needle i.bytes with
  | none => .unexp (makeIncomplete i 1)
  | some n =>
    if n = i.size then .unexp (makeIncomplete i 1)
    else .done (i.takeSpan n) (i.advance n)

/-! ## The end -/

def eof : Parser Unit := fun i =>
  if i.bytes.isEmpty then .done () i else .unexp (makeErr i "end of input")

def rest : Parser Span := fun i => .done (i.takeSpan i.size) (i.advance i.size)

def restLen : Parser ℕ := fun i => .done i.size i

/-! ## Varints -/

/-- A varint of the input: what is missing is missing at its end. -/
def varint (read : Bytes → Except VarintError (α × ℕ)) : Parser α := fun i =>
  match read i.bytes with
  | .ok (v, n) => .done v (i.advance n)
  | .error (.error expected) => .unexp (makeErr i expected)
  | .error (.incomplete needed) => .unexp (makeIncomplete (i.advance i.size) needed)

/-- `uleb128`, of a width in bits. -/
def uleb128 (bits : ℕ) : Parser ℕ := varint (readUleb128 bits)

def varintU32 : Parser ℕ := uleb128 32

def varintU64 : Parser ℕ := uleb128 64

/-- The loop of `sleb128` from byte `k` on, with the value so far. -/
def readSleb128From (bits : ℕ) : ℕ → ℕ → Bytes → Except VarintError (ℤ × ℕ)
  | _, _, [] => .error (.incomplete 1)
  | k, v, b :: rest =>
    let shift := 7 * k
    let v := v ||| ((b.toNat &&& 0x7f) <<< shift % 2 ^ bits)
    if b.toNat &&& 0x80 = 0 then
      if k + 1 = leb128MaxBytes bits then
        let used := bits - shift
        let signExt := (b.toNat &&& 0x7f) >>> (used - 1)
        if signExt ≠ 0 ∧ signExt ≠ 0x7f >>> (used - 1) then
          .error (.error "sleb128 fitting the target width")
        else .ok ((BitVec.ofNat bits v).toInt, k + 1)
      else if b.toNat &&& 0x40 ≠ 0 ∧ shift + 7 < bits then
        let sign := (2 ^ bits - 1) <<< (shift + 7) % 2 ^ bits
        .ok ((BitVec.ofNat bits (v ||| sign)).toInt, k + 1)
      else .ok ((BitVec.ofNat bits v).toInt, k + 1)
    else if k + 1 = leb128MaxBytes bits then .error (.error "sleb128 fitting the target width")
    else readSleb128From bits (k + 1) v rest

/-- `sleb128`, of a width in bits. -/
def sleb128 (bits : ℕ) : Parser ℤ :=
  varint fun b => readSleb128From bits 0 0 (b.take (leb128MaxBytes bits))

/-- `zigzag_varint`: read in 32 bits at least, and refused if it does not fit
the type. -/
def zigzagVarint (bits : ℕ) : Parser ℤ := fun i =>
  (uleb128 (max 32 bits) i).andThen fun u rest =>
    let wide := (zigzagDecode (BitVec.ofNat (max 32 bits) u)).toInt
    if wide < -2 ^ (bits - 1) ∨ 2 ^ (bits - 1) - 1 < wide then
      .unexp (makeErr i "zigzag varint in range")
    else .done wide rest

/-! ## Numbers in text -/

/-- What a digit of a base stands for. -/
def digitValue (base : ℕ) (b : UInt8) : Option ℕ :=
  let d :=
    if isDigit b then some (b.toNat - 48)
    else if isAlpha b then some ((b ||| 32).toNat - 97 + 10)
    else none
  d.filter (· < base)

/-- The number that digits of a base make up. -/
def digitsValue (base : ℕ) (ds : Bytes) : ℕ :=
  ds.foldl (fun n b => n * base + (digitValue base b).getD 0) 0

/-- Whether an integer is one of a type. -/
def inRange (signed : Bool) (bits : ℕ) (z : ℤ) : Prop :=
  if signed then -2 ^ (bits - 1) ≤ z ∧ z < 2 ^ (bits - 1) else 0 ≤ z ∧ z < 2 ^ bits

instance (signed : Bool) (bits : ℕ) (z : ℤ) : Decidable (inRange signed bits z) := by
  unfold inRange
  infer_instance

/-- Whether there is a minus sign, which only a signed type may have. -/
def isNegative (signed : Bool) (b : Bytes) : Bool := signed && b.head? == some 45

/-- The digits in front of a text. -/
def digitsOf (base : ℕ) (t : Bytes) : Bytes := t.takeWhile fun d => (digitValue base d).isSome

/-- The digits of a number, behind its sign. -/
def numeral (signed : Bool) (base : ℕ) (b : Bytes) : Bytes :=
  digitsOf base (b.drop (isNegative signed b).toNat)

/-- The value of a number with its sign. -/
def numeralValue (signed : Bool) (base : ℕ) (b : Bytes) : ℤ :=
  if isNegative signed b then -(digitsValue base (numeral signed base b) : ℤ)
  else digitsValue base (numeral signed base b)

/-- `std::from_chars` of an integer type: the value and the characters it
takes, or nothing where there is no number or one that does not fit. -/
def fromChars (signed : Bool) (bits base : ℕ) (b : Bytes) : Option (ℤ × ℕ) :=
  if (numeral signed base b).isEmpty then none
  else if inRange signed bits (numeralValue signed base b) then
    some (numeralValue signed base b, (isNegative signed b).toNat + (numeral signed base b).length)
  else none

/-- A number in text. -/
def textNumber (parse : Bytes → Option (α × ℕ)) (expected : String) : Parser α := fun i =>
  match parse i.bytes with
  | none => .unexp (makeErr i expected)
  | some (v, n) => if n = 0 then .unexp (makeErr i expected) else .done v (i.advance n)

def dec (signed : Bool) (bits : ℕ) : Parser ℤ :=
  textNumber (fromChars signed bits 10) "decimal integer"

def hex (bits : ℕ) : Parser ℤ := textNumber (fromChars false bits 16) "hex integer"

/-- What the library has for `std::from_chars` of a floating-point type: the
pointer it gives back is inside the text. -/
structure FromChars (F : Type) where
  parse : Bytes → Option (F × ℕ)
  used_le : ∀ {b v n}, parse b = some (v, n) → n ≤ b.length

/-! `from_chars_double`, for a library that has none. -/

/-- `pow10_exact`. -/
def pow10Exact (e : ℕ) : Float := .ofScientific 1 false e

/-- The loop of `scale10`. -/
def scaleBy (op : Float → Float → Float) (m : Float) (k : ℕ) : Float :=
  if 22 < k then scaleBy op (op m 1e22) (k - 22) else op m (pow10Exact k)

/-- `scale10`. -/
def scale10 (m : Float) (e : ℤ) : Float :=
  if m == 0 then 0 else scaleBy (if 0 ≤ e then (· * ·) else (· / ·)) m e.natAbs

/-- The digits of a significand: capped, so that it never overflows. -/
structure Significand where
  mant : ℕ := 0
  digits : ℕ := 0
  exp10 : ℤ := 0
  capped : digits ≤ 18 := by decide
  mant_lt : mant < 10 ^ digits := by decide

/-- A round of `eat`. -/
def Significand.push (fractional : Bool) (s : Significand) (c : UInt8) : Significand :=
  -- `eat` comes here with digits only
  if h : s.digits < 18 ∧ isDigit c then
    { mant := s.mant * 10 + (c.toNat - 48)
      digits := s.digits + 1
      exp10 := if fractional then s.exp10 - 1 else s.exp10
      capped := h.1
      mant_lt := by
        have hc : c.toNat ≤ 57 := by
          have := h.2
          simp only [isDigit, Bool.and_eq_true, decide_eq_true_eq] at this
          exact this.2
        have := s.mant_lt
        rw [Nat.pow_succ]
        omega }
  -- more digits of the integer scale it up, more of the fraction are dropped
  else if fractional then s else { s with exp10 := s.exp10 + 1 }

/-- `eat`: the digits in front, and the text behind them. -/
def Significand.eat (fractional : Bool) (s : Significand) (t : Bytes) : Significand × Bytes :=
  ((t.takeWhile isDigit).foldl (push fractional) s, t.dropWhile isDigit)

/-- The exponent in front of a text and what is behind it: no exponent where
there are no digits to it. -/
def exponent : Bytes → ℤ × Bytes
  | [] => (0, [])
  | c :: t =>
    let signed := t.head? = some 43 ∨ t.head? = some 45
    let ds := if signed then t.tail else t
    if (c = 101 ∨ c = 69) ∧ ds.takeWhile isDigit ≠ [] then
      let e := (ds.takeWhile isDigit).foldl
        (fun (e : ℤ) d => if e < 100000 then e * 10 + (d.toNat - 48) else e) 0
      (if t.head? = some 45 then -e else e, ds.dropWhile isDigit)
    else (0, c :: t)

/-- `from_chars_double`. -/
def fromCharsDouble : FromChars Float where
  parse b :=
    let neg := isNegative true b
    let (s, t) := Significand.eat false {} (b.drop neg.toNat)
    let (s, t) := if t.head? = some 46 then s.eat true t.tail else (s, t)
    if s.digits = 0 then none -- `any`, as the first digit counts
    else
      let (e, t) := exponent t
      let v := scale10 (UInt64.ofNat s.mant).toFloat (s.exp10 + e)
      let overflow := v != 0 && v * 2 == v
      let underflow := v == 0 && s.mant != 0
      if overflow || underflow then none
      else some (if neg then -v else v, b.length - t.length)
  used_le h := by
    dsimp only at h
    split_ifs at h
    all_goals
      cases h
      exact Nat.sub_le _ _

/-- `double_`. -/
def double_ {F : Type} (lib : FromChars F) : Parser F :=
  textNumber lib.parse "floating point number"

/-- `float_`. -/
def float_ {F G : Type} (lib : FromChars F) (narrow : F → G) : Parser G := fun i =>
  (double_ lib i).andThen fun v rest => .done (narrow v) rest

end Nanom.Nom
