import Mathlib.Data.Int.Init
import Mathlib.Logic.Function.Basic
import ScaraOS.Lib.Bytes

/-! `vsnprintf` of `kernel/vsprintf.c`. The format and the strings it is given do not lie in
the buffer, which is seen by its offsets: `str <= end` is `str < room`. The arguments are
the words of the stack from `args` on. Signed overflow, which C leaves open, is not
modelled: widths are integers of any size. -/
namespace ScaraOS.Printf

open Function

def ch (c : Char) : UInt8 := c.toNat.toUInt8

structure Flags where
  zeropad : Bool := false
  sign : Bool := false
  plus : Bool := false
  space : Bool := false
  left : Bool := false
  special : Bool := false
  large : Bool := false
  deriving DecidableEq, Repr

inductive Qualifier where
  | none | h | l | L | Z
  deriving DecidableEq, Repr

structure Out where
  buf : Nat → UInt8
  str : Nat

/-- `if (str <= end) *str = c; ++str;` -/
def put (room : Nat) (o : Out) (c : UInt8) : Out where
  buf := if o.str < room then update o.buf o.str c else o.buf
  str := o.str + 1

def puts (room : Nat) (o : Out) (l : List UInt8) : Out := l.foldl (put room) o

def pad (room : Nat) (o : Out) (c : UInt8) (n : Int) : Out :=
  puts room o (List.replicate n.toNat c)

/-- What `while (size-- > 0)` leaves in `size`. -/
def spent (size : Int) : Int := if 0 < size then -1 else size - 1

def digit (large : Bool) (d : Nat) : UInt8 :=
  if d < 10 then ch '0' + d.toUInt8 else (if large then ch 'A' else ch 'a') + (d - 10).toUInt8

/-- `tmp`, the last digit first; it has 66 places. -/
def digits (large : Bool) (base : Nat) : Nat → Nat → List UInt8
  | 0, _ => []
  | places + 1, num =>
    if num = 0 then [] else digit large (num % base) :: digits large base places (num / base)

def signOf (f : Flags) (num : Nat) : UInt8 :=
  if f.sign then
    if 2 ^ 63 ≤ num then ch '-' else if f.plus then ch '+' else if f.space then ch ' ' else 0
  else 0

def number (room : Nat) (o : Out) (num base : Nat) (size precision : Int) (type : Flags) : Out :=
  let type := if type.left then { type with zeropad := false } else type
  let c := if type.zeropad then ch '0' else ch ' '
  let sign := signOf type num
  let num := if type.sign ∧ 2 ^ 63 ≤ num then 2 ^ 64 - num else num
  let size := if sign ≠ 0 then size - 1 else size
  let size :=
    if type.special then if base = 16 then size - 2 else if base = 8 then size - 1 else size
    else size
  let tmp := if num = 0 then [ch '0'] else digits type.large base 66 num
  let i : Int := tmp.length
  let precision := if i > precision then i else precision
  let size := size - precision
  let o := if type.zeropad ∨ type.left then o else pad room o (ch ' ') size
  let size := if type.zeropad ∨ type.left then size else spent size
  let o := if sign ≠ 0 then put room o sign else o
  let o :=
    if type.special then
      if base = 8 then put room o (ch '0')
      else if base = 16 then put room (put room o (ch '0')) (digit type.large 33)
      else o
    else o
  let o := if type.left then o else pad room o c size
  let size := if type.left then size else spent size
  let o := pad room o (ch '0') (precision - i)
  let o := puts room o tmp.reverse
  pad room o (ch ' ') size

def words : Nat := 2 ^ 32

def toInt (w : Nat) : Int := if w % words < 2 ^ 31 then (w % words : Nat) else (w % words : Nat) - words

def toWord (i : Int) : Nat := (i % words).toNat

theorem toInt_small {w : Nat} (small : w < 2 ^ 31) : toInt w = w := by
  unfold toInt words
  rw [Nat.mod_eq_of_lt (by omega), if_pos small]

theorem toWord_small {w : Nat} (small : w < 2 ^ 31) : toWord w = w := by
  unfold toWord words
  omega

def signExtend (bits w : Nat) : Nat := if w < 2 ^ (bits - 1) then w else 2 ^ 64 - 2 ^ bits + w

def numArg (va : Nat → Nat) (args : Nat) (q : Qualifier) (signed : Bool) : Nat × Nat :=
  match q with
  | .L => (va args + 2 ^ 32 * va (args + 1), 2)
  | .l => (if signed then signExtend 32 (va args) else va args, 1)
  | .Z => (va args, 1)
  | .h => (if signed then signExtend 16 (va args % 2 ^ 16) else va args % 2 ^ 16, 1)
  | .none => (if signed then signExtend 32 (va args) else va args, 1)

def cstr (mem : Nat → UInt8) (s : Nat) : Nat → UInt8 :=
  if s = 0 then fun i => ([ch '<', ch 'N', ch 'U', ch 'L', ch 'L', ch '>'][i]?).getD 0
  else fun i => mem (s + i)

/-- `strnlen`, `sc - s` being `i`. -/
def strnlen (s : Nat → UInt8) : (count i : Nat) → Nat
  | 0, i => i
  | count + 1, i => if s i ≠ 0 then strnlen s count (i + 1) else i

/-- After `++fmt`. -/
def getFlags : List UInt8 → Flags → Flags × List UInt8
  | [], f => (f, [])
  | c :: fmt, f =>
    if c = ch '-' then getFlags fmt { f with left := true }
    else if c = ch '+' then getFlags fmt { f with plus := true }
    else if c = ch ' ' then getFlags fmt { f with space := true }
    else if c = ch '#' then getFlags fmt { f with special := true }
    else if c = ch '0' then getFlags fmt { f with zeropad := true }
    else (f, c :: fmt)

def isdigit (c : UInt8) : Bool := ch '0' ≤ c ∧ c ≤ ch '9'

def skipAtoi : List UInt8 → Int → Int × List UInt8
  | [], i => (i, [])
  | c :: fmt, i => if isdigit c then skipAtoi fmt (i * 10 + c.toNat - 48) else (i, c :: fmt)

/-- A place of the format: what has been read of a conversion, and what follows. -/
structure Spec where
  flags : Flags
  width : Int
  precision : Int
  qualifier : Qualifier
  args : Nat
  fmt : List UInt8

def getWidth (va : Nat → Nat) (s : Spec) : Spec :=
  match s.fmt with
  | [] => s
  | c :: fmt =>
    if isdigit c then
      let (width, fmt) := skipAtoi (c :: fmt) 0
      { s with width, fmt }
    else if c = ch '*' then
      let width := toInt (va s.args)
      if width < 0 then
        { s with width := -width, flags := { s.flags with left := true }, args := s.args + 1, fmt }
      else { s with width, args := s.args + 1, fmt }
    else s

/-- What follows the `.`. -/
def readPrecision (va : Nat → Nat) (s : Spec) : Spec :=
  match s.fmt with
  | [] => s
  | c :: fmt =>
    if isdigit c then
      let (precision, fmt) := skipAtoi (c :: fmt) 0
      { s with precision, fmt }
    else if c = ch '*' then { s with precision := toInt (va s.args), args := s.args + 1, fmt }
    else s

def getPrecision (va : Nat → Nat) (s : Spec) : Spec :=
  match s.fmt with
  | [] => s
  | c :: fmt =>
    if c = ch '.' then
      let s := readPrecision va { s with fmt }
      if s.precision < 0 then { s with precision := 0 } else s
    else s

def getQualifier (s : Spec) : Spec :=
  match s.fmt with
  | [] => s
  | c :: fmt =>
    if c = ch 'h' then { s with qualifier := .h, fmt }
    else if c = ch 'L' then { s with qualifier := .L, fmt }
    else if c = ch 'Z' then { s with qualifier := .Z, fmt }
    else if c = ch 'l' then
      if fmt.head? = some (ch 'l') then { s with qualifier := .L, fmt := fmt.tail }
      else { s with qualifier := .l, fmt }
    else s

def getSpec (va : Nat → Nat) (args : Nat) (fmt : List UInt8) : Spec :=
  let (flags, fmt) := getFlags fmt {}
  getQualifier (getPrecision va (getWidth va ⟨flags, -1, -1, .none, args, fmt⟩))

structure State where
  mem : Nat → UInt8
  out : Out
  args : Nat

def convChar (room : Nat) (o : Out) (c : UInt8) (s : Spec) : Out :=
  let o := if s.flags.left then o else pad room o (ch ' ') (s.width - 1)
  let width := if s.flags.left then s.width else if 0 < s.width then 0 else s.width - 1
  pad room (put room o c) (ch ' ') (width - 1)

def convString (room : Nat) (o : Out) (str : Nat → UInt8) (s : Spec) : Out :=
  -- the precision is passed as a `size_t`: `-1` is no limit
  let len := strnlen str (toWord s.precision) 0
  let o := if s.flags.left then o else pad room o (ch ' ') (s.width - len)
  let width := if s.flags.left then s.width else if (len : Int) < s.width then len - 1 else s.width - 1
  let o := puts room o ((List.range len).map str)
  pad room o (ch ' ') (width - len)

/-- `%p` tests for one place more than it needs. -/
def convPointer (room : Nat) (o : Out) (ptr : Nat) (s : Spec) : Out :=
  let o := if o.str + 1 < room then put room o (ch '0') else o
  let o := if o.str + 1 < room then put room o (ch 'x') else o
  if s.width = -1 then number room o ptr 16 8 s.precision { s.flags with zeropad := true }
  else number room o ptr 16 s.width s.precision s.flags

def convNumber (room : Nat) (va : Nat → Nat) (st : State) (s : Spec) (base : Nat) (flags : Flags) :
    State :=
  let (num, words) := numArg va s.args s.qualifier flags.sign
  { st with out := number room st.out num base s.width s.precision flags, args := s.args + words }

/-- The `switch`, and the rest of the format. -/
def convert (room : Nat) (va : Nat → Nat) (st : State) (s : Spec) : State × List UInt8 :=
  match s.fmt with
  | [] => ({ st with out := put room st.out (ch '%'), args := s.args }, [])
  | c :: fmt =>
    if c = ch 'c' then
      ({ st with out := convChar room st.out (va s.args % 2 ^ 8).toUInt8 s, args := s.args + 1 }, fmt)
    else if c = ch 's' then
      ({ st with out := convString room st.out (cstr st.mem (va s.args)) s, args := s.args + 1 }, fmt)
    else if c = ch 'p' then
      ({ st with out := convPointer room st.out (va s.args) s, args := s.args + 1 }, fmt)
    else if c = ch 'n' then
      ({ st with mem := Bytes.store32 st.mem (va s.args) st.out.str, args := s.args + 1 }, fmt)
    else if c = ch '%' then ({ st with out := put room st.out (ch '%'), args := s.args }, fmt)
    else if c = ch 'o' then (convNumber room va st s 8 s.flags, fmt)
    else if c = ch 'X' then (convNumber room va st s 16 { s.flags with large := true }, fmt)
    else if c = ch 'x' then (convNumber room va st s 16 s.flags, fmt)
    else if c = ch 'd' ∨ c = ch 'i' then (convNumber room va st s 10 { s.flags with sign := true }, fmt)
    else if c = ch 'u' then (convNumber room va st s 10 s.flags, fmt)
    else ({ st with out := put room (put room st.out (ch '%')) c, args := s.args }, fmt)

/-- The loop over the format, of which each round takes a character at least. -/
def format (room : Nat) (va : Nat → Nat) : Nat → State → List UInt8 → State
  | 0, st, _ => st
  | _ + 1, st, [] => st
  | fuel + 1, st, c :: fmt =>
    if c ≠ ch '%' then format room va fuel { st with out := put room st.out c } fmt
    else
      let (st, fmt) := convert room va st (getSpec va st.args fmt)
      format room va fuel st fmt

/-- How many bytes from `buf` on are at or below `end`. -/
def room (buf size : Nat) : Nat :=
  if (buf + size + (2 ^ 32 - 1)) % 2 ^ 32 < (buf + (2 ^ 32 - 1)) % 2 ^ 32 then 2 ^ 32 - buf else size

/-- `vsnprintf` into `size` bytes at the address `buf`: memory and the buffer after it, and
the value it returns. -/
def vsnprintf (mem : Nat → UInt8) (old : Nat → UInt8) (buf size : Nat) (fmt : List UInt8)
    (va : Nat → Nat) : State × Int :=
  let room := room buf size
  let st := format room va fmt.length ⟨mem, ⟨old, 0⟩, 0⟩ fmt
  let last :=
    if st.out.str < room then update st.out.buf st.out.str 0
    else if 0 < room then update st.out.buf (room - 1) 0
    else st.out.buf
  ({ st with out := { st.out with buf := last } }, toInt st.out.str)

@[simp] theorem puts_str (room : Nat) (o : Out) (l : List UInt8) :
    (puts room o l).str = o.str + l.length := by
  induction l generalizing o with
  | nil => rfl
  | cons c l ih =>
    have later := ih (put room o c)
    rw [puts, List.foldl_cons]
    rw [puts] at later
    rw [later]
    simp [put]
    omega

theorem puts_outside (room : Nat) (o : Out) (l : List UInt8) {x : Nat}
    (out : x < o.str ∨ o.str + l.length ≤ x ∨ room ≤ x) : (puts room o l).buf x = o.buf x := by
  induction l generalizing o with
  | nil => rfl
  | cons c l ih =>
    have later := ih (put room o c) (by simp only [put, List.length_cons] at out ⊢; omega)
    rw [puts, List.foldl_cons]
    rw [puts] at later
    rw [later]
    unfold put
    by_cases fits : o.str < room
    · simp only [if_pos fits]
      refine update_of_ne ?_ _ _
      rw [List.length_cons] at out
      omega
    · simp only [if_neg fits]

theorem puts_inside (room : Nat) (o : Out) (l : List UInt8) {i : Nat} (inside : i < l.length)
    (fits : o.str + i < room) : (puts room o l).buf (o.str + i) = l[i] := by
  induction l generalizing o i with
  | nil => exact absurd inside (Nat.not_lt_zero i)
  | cons c l ih =>
    rw [puts, List.foldl_cons]
    cases i with
    | zero =>
      have kept := puts_outside room (put room o c) l (.inl (Nat.lt_succ_self o.str))
      rw [puts] at kept
      rw [Nat.add_zero] at fits ⊢
      rw [kept]
      simp [put, fits]
    | succ i =>
      have shift : o.str + (i + 1) = (put room o c).str + i := by
        simp only [put]
        omega
      have later := ih (put room o c) (Nat.lt_of_succ_lt_succ inside) (by rw [← shift]; exact fits)
      rw [puts] at later
      rw [shift, later]
      rfl

@[simp] theorem pad_none (room : Nat) (o : Out) (c : UInt8) {n : Int} (none : n ≤ 0) :
    pad room o c n = o := by
  unfold pad
  rw [Int.toNat_of_nonpos none]
  rfl

theorem strnlen_eq {s : Nat → UInt8} {count i n : Nat} (below : i ≤ n) (limit : n ≤ i + count)
    (text : ∀ j, i ≤ j → j < n → s j ≠ 0) (stop : n = i + count ∨ s n = 0) :
    strnlen s count i = n := by
  induction count generalizing i with
  | zero =>
    rw [strnlen]
    omega
  | succ count ih =>
    rw [strnlen]
    by_cases here : i = n
    · subst here
      have zero : s i = 0 := by
        rcases stop with far | zero
        · omega
        · exact zero
      rw [if_neg (not_not.mpr zero)]
    · rw [if_pos (text i (Nat.le_refl i) (by omega))]
      refine ih (by omega) (by omega) (fun j low high => text j (by omega) high) ?_
      exact stop.imp_left fun far => by omega

theorem strnlen_stops {s : Nat → UInt8} {count i j : Nat} (below : i ≤ j) (zero : s j = 0) :
    strnlen s count i ≤ j := by
  induction count generalizing i with
  | zero => exact below
  | succ count ih =>
    rw [strnlen]
    by_cases here : i = j
    · simp [here, zero]
    · split
      · exact ih (by omega)
      · exact below

theorem strnlen_le (s : Nat → UInt8) (count i : Nat) : strnlen s count i ≤ i + count := by
  induction count generalizing i with
  | zero => exact Nat.le_refl i
  | succ count ih =>
    rw [strnlen]
    split
    · have later := ih (i + 1)
      omega
    · omega

def precString : List UInt8 := [ch '%', ch '.', ch '*', ch 's']

theorem format_precString {room : Nat} {va : Nat → Nat} {st : State} (given : va (st.args + 1) ≠ 0)
    (small : va st.args < 2 ^ 31) :
    format room va precString.length st precString =
      { st with
        out := puts room st.out ((List.range (strnlen (fun i => st.mem (va (st.args + 1) + i))
          (va st.args) 0)).map fun i => st.mem (va (st.args + 1) + i))
        args := st.args + 2 } := by
  have precision : toInt (va st.args) = va st.args := toInt_small small
  have spec : getSpec va st.args [ch '.', ch '*', ch 's'] =
      ⟨{}, -1, va st.args, .none, st.args + 1, [ch 's']⟩ := by
    have nonneg : ¬ ((va st.args : Int) < 0) := by omega
    have flags : getFlags [ch '.', ch '*', ch 's'] {} = ({}, [ch '.', ch '*', ch 's']) := by decide
    have width : ∀ f w p q a, getWidth va ⟨f, w, p, q, a, [ch '.', ch '*', ch 's']⟩ =
        ⟨f, w, p, q, a, [ch '.', ch '*', ch 's']⟩ := by
      intro f w p q a
      simp +decide only [getWidth, if_false]
    have number : getPrecision va ⟨{}, -1, -1, .none, st.args, [ch '.', ch '*', ch 's']⟩ =
        ⟨{}, -1, va st.args, .none, st.args + 1, [ch 's']⟩ := by
      simp +decide only [getPrecision, readPrecision, if_true, if_false, precision, nonneg]
    simp +decide only [getSpec, flags, width, number, getQualifier, if_false]
  have converted : convert room va st ⟨{}, -1, va st.args, .none, st.args + 1, [ch 's']⟩ =
      ({ st with
        out := puts room st.out ((List.range (strnlen (fun i => st.mem (va (st.args + 1) + i))
          (va st.args) 0)).map fun i => st.mem (va (st.args + 1) + i))
        args := st.args + 2 }, []) := by
    have limit : toWord (va st.args) = va st.args := toWord_small small
    simp +decide only [convert, convString, cstr, if_true, if_false, given, limit]
    rw [pad_none, pad_none]
    · omega
    · split <;> omega
  rw [precString]
  simp +decide only [List.length_cons, format, if_false, spec, converted]

end ScaraOS.Printf
