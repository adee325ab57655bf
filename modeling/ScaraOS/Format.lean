import ScaraOS.Printf

/-! The text a format stands for, apart from the buffer it is written to, and what a buffer
that is too short for it gets. -/
namespace ScaraOS.Printf

open Function

def fill (c : UInt8) (n : Int) : List UInt8 := List.replicate n.toNat c

def numberText (num base : Nat) (size precision : Int) (type : Flags) : List UInt8 :=
  let type := if type.left then { type with zeropad := false } else type
  let c := if type.zeropad then ch '0' else ch ' '
  let sign := signOf type num
  let num := if type.sign ∧ 2 ^ 63 ≤ num then 2 ^ 64 - num else num
  let size := if sign ≠ 0 then size - 1 else size
  let size :=
    if type.special then if base = 16 then size - 2 else if base = 8 then size - 1 else size
    else size
  let tmp := if num = 0 then [ch '0'] else digits type.large base 66 num
  let precision := if (tmp.length : Int) > precision then (tmp.length : Int) else precision
  let size := size - precision
  let rest := if type.zeropad ∨ type.left then size else spent size
  (if type.zeropad ∨ type.left then [] else fill (ch ' ') size)
    ++ (if sign ≠ 0 then [sign] else [])
    ++ (if type.special then
          if base = 8 then [ch '0'] else if base = 16 then [ch '0', digit type.large 33] else []
        else [])
    ++ (if type.left then [] else fill c rest)
    ++ fill (ch '0') (precision - tmp.length)
    ++ tmp.reverse
    ++ fill (ch ' ') (if type.left then rest else spent rest)

section

variable (room : Nat) (va : Nat → Nat)

theorem put_eq (o : Out) (c : UInt8) : put room o c = puts room o [c] := rfl

theorem puts_append (o : Out) (l l' : List UInt8) :
    puts room o (l ++ l') = puts room (puts room o l) l' :=
  List.foldl_append

theorem puts_ite (o : Out) (p : Prop) [Decidable p] (l l' : List UInt8) :
    puts room o (if p then l else l') = if p then puts room o l else puts room o l' :=
  apply_ite (puts room o) p l l'

theorem number_eq (o : Out) (num base : Nat) (size precision : Int) (type : Flags) :
    number room o num base size precision type =
      puts room o (numberText num base size precision type) := by
  unfold number numberText
  simp only [puts_append, puts_ite]
  rfl

def charText (c : UInt8) (s : Spec) : List UInt8 :=
  let width := if s.flags.left then s.width else if 0 < s.width then 0 else s.width - 1
  (if s.flags.left then [] else fill (ch ' ') (s.width - 1)) ++ [c] ++ fill (ch ' ') (width - 1)

def stringText (str : Nat → UInt8) (s : Spec) : List UInt8 :=
  let len := strnlen str (toWord s.precision) 0
  let width := if s.flags.left then s.width else if (len : Int) < s.width then len - 1 else s.width - 1
  (if s.flags.left then [] else fill (ch ' ') (s.width - len))
    ++ (List.range len).map str ++ fill (ch ' ') (width - len)

def pointerDigits (ptr : Nat) (s : Spec) : List UInt8 :=
  if s.width = -1 then numberText ptr 16 8 s.precision { s.flags with zeropad := true }
  else numberText ptr 16 s.width s.precision s.flags

theorem convChar_eq (o : Out) (c : UInt8) (s : Spec) :
    convChar room o c s = puts room o (charText c s) := by
  unfold convChar charText
  simp only [puts_append, puts_ite]
  rfl

theorem convString_eq (o : Out) (str : Nat → UInt8) (s : Spec) :
    convString room o str s = puts room o (stringText str s) := by
  unfold convString stringText
  simp only [puts_append, puts_ite]
  rfl

variable {o : Out} {s : Spec} {old : Nat → UInt8} {st : State} {buf : Nat}

theorem convPointer_eq {room : Nat} (ptr : Nat) (s : Spec) (fits : o.str + 2 < room) :
    convPointer room o ptr s = puts room o ([ch '0', ch 'x'] ++ pointerDigits ptr s) := by
  have second : (put room o (ch '0')).str + 1 < room := by
    simp only [put]
    omega
  unfold convPointer pointerDigits
  simp only [if_pos (show o.str + 1 < room by omega), if_pos second, number_eq, puts_append, puts_ite]
  rfl

theorem convPointer_short {room : Nat} (ptr : Nat) (s : Spec) (short : ¬ o.str + 2 < room) :
    ∃ o', convPointer room o ptr s = puts room o' (pointerDigits ptr s) ∧
      o.str ≤ o'.str ∧ o'.str < o.str + 2 ∧ room ≤ o'.str + 1 := by
  unfold convPointer pointerDigits
  simp only [number_eq, ← puts_ite]
  by_cases first : o.str + 1 < room
  · have second : ¬ (put room o (ch '0')).str + 1 < room := by
      simp only [put]
      omega
    have next : (put room o (ch '0')).str = o.str + 1 := rfl
    refine ⟨put room o (ch '0'), ?_, by omega, by omega, by omega⟩
    simp only [if_pos first, if_neg second]
  · refine ⟨o, ?_, by omega, by omega, by omega⟩
    simp only [if_neg first]

theorem numberText_ne_nil (num base : Nat) (size precision : Int) (type : Flags) :
    numberText num base size precision type ≠ [] := by
  have written : ∀ large n, (if n = 0 then [ch '0'] else digits large base 66 n) ≠ [] := by
    intro large n
    by_cases zero : n = 0
    · simp [zero]
    · simp [zero, digits]
  intro none
  unfold numberText at none
  simp only [List.append_eq_nil_iff, List.reverse_eq_nil_iff] at none
  exact written _ _ none.1.2

theorem pointerDigits_length (ptr : Nat) (s : Spec) : 0 < (pointerDigits ptr s).length := by
  refine List.length_pos_iff.mpr ?_
  unfold pointerDigits
  split
  · exact numberText_ne_nil _ _ _ _ _
  · exact numberText_ne_nil _ _ _ _ _

/-- A character that stands for itself, or a conversion: what was read of it up to its
conversion character, with which what is left of the format begins. -/
inductive Piece where
  | char (c : UInt8)
  | conv (s : Spec)

def Spec.nextArg (s : Spec) : Nat :=
  match s.fmt with
  | [] => s.args
  | c :: _ =>
    if c = ch 'c' ∨ c = ch 's' ∨ c = ch 'p' ∨ c = ch 'n' then s.args + 1
    else if c = ch 'o' ∨ c = ch 'X' ∨ c = ch 'x' ∨ c = ch 'd' ∨ c = ch 'i' ∨ c = ch 'u' then
      if s.qualifier = .L then s.args + 2 else s.args + 1
    else s.args

def pieces (va : Nat → Nat) : Nat → Nat → List UInt8 → List Piece
  | 0, _, _ => []
  | _ + 1, _, [] => []
  | fuel + 1, args, c :: fmt =>
    if c ≠ ch '%' then .char c :: pieces va fuel args fmt
    else
      let s := getSpec va args fmt
      .conv s :: pieces va fuel s.nextArg s.fmt.tail

def Spec.isPointer (s : Spec) : Prop := s.fmt.head? = some (ch 'p')

/-- `%n`, which stores a count. -/
def Spec.isCount (s : Spec) : Prop := s.fmt.head? = some (ch 'n')

instance (s : Spec) : Decidable s.isPointer := inferInstanceAs (Decidable (_ = _))
instance (s : Spec) : Decidable s.isCount := inferInstanceAs (Decidable (_ = _))

def integerText (va : Nat → Nat) (s : Spec) (base : Nat) (flags : Flags) : List UInt8 :=
  numberText (numArg va s.args s.qualifier flags.sign).1 base s.width s.precision flags

def convText (va : Nat → Nat) (mem : Nat → UInt8) (s : Spec) : List UInt8 :=
  match s.fmt with
  | [] => [ch '%']
  | c :: _ =>
    if c = ch 'c' then charText (va s.args % 2 ^ 8).toUInt8 s
    else if c = ch 's' then stringText (cstr mem (va s.args)) s
    else if c = ch 'p' then [ch '0', ch 'x'] ++ pointerDigits (va s.args) s
    else if c = ch 'n' then []
    else if c = ch '%' then [ch '%']
    else if c = ch 'o' then integerText va s 8 s.flags
    else if c = ch 'X' then integerText va s 16 { s.flags with large := true }
    else if c = ch 'x' then integerText va s 16 s.flags
    else if c = ch 'd' ∨ c = ch 'i' then integerText va s 10 { s.flags with sign := true }
    else if c = ch 'u' then integerText va s 10 s.flags
    else [ch '%', c]

structure Text where
  mem : Nat → UInt8
  chars : List UInt8

def Text.add (va : Nat → Nat) (t : Text) : Piece → Text
  | .char c => { t with chars := t.chars ++ [c] }
  | .conv s =>
    if s.isCount then { t with mem := Bytes.store32 t.mem (va s.args) t.chars.length }
    else { t with chars := t.chars ++ convText va t.mem s }

def texts (va : Nat → Nat) (t : Text) (l : List Piece) : Text := l.foldl (Text.add va) t

def text (mem : Nat → UInt8) (fmt : List UInt8) (va : Nat → Nat) : List UInt8 :=
  (texts va ⟨mem, []⟩ (pieces va fmt.length 0 fmt)).chars

def putPiece (room : Nat) (va : Nat → Nat) (st : State) : Piece → State
  | .char c => { st with out := put room st.out c }
  | .conv s => (convert room va st s).1

theorem convNumber_args (st : State) (s : Spec) (base : Nat) (flags : Flags) :
    (convNumber room va st s base flags).args =
      if s.qualifier = .L then s.args + 2 else s.args + 1 := by
  unfold convNumber numArg
  cases s.qualifier <;> rfl

theorem convNumber_eq (st : State) (s : Spec) (base : Nat) (flags : Flags) :
    convNumber room va st s base flags =
      { st with
        out := puts room st.out (integerText va s base flags)
        args := if s.qualifier = .L then s.args + 2 else s.args + 1 } := by
  rw [← convNumber_args room va st s base flags]
  unfold convNumber integerText
  simp only [number_eq]

def conversions : List UInt8 := "cspn%oXxdiu".toList.map ch

theorem conversions_eq : conversions =
    [ch 'c', ch 's', ch 'p', ch 'n', ch '%', ch 'o', ch 'X', ch 'x', ch 'd', ch 'i', ch 'u'] := by
  decide

theorem convert_rest (st : State) (s : Spec) :
    (convert room va st s).2 = s.fmt.tail ∧ (convert room va st s).1.args = s.nextArg := by
  unfold convert Spec.nextArg
  cases s.fmt with
  | nil => exact ⟨rfl, rfl⟩
  | cons c fmt =>
    simp only [convNumber_eq, List.tail_cons]
    by_cases known : c ∈ conversions
    · rw [conversions_eq] at known
      simp only [List.mem_cons, List.not_mem_nil, or_false] at known
      rcases known with rfl | rfl | rfl | rfl | rfl | rfl | rfl | rfl | rfl | rfl | rfl <;>
        simp +decide only [if_true, if_false, and_self]
    · simp only [conversions_eq, List.mem_cons, List.not_mem_nil, or_false, not_or] at known
      simp only [known, if_false, or_self, and_self]

theorem convert_pointer (st : State) (pointer : s.isPointer) :
    (convert room va st s).1.mem = st.mem ∧
      (convert room va st s).1.out = convPointer room st.out (va s.args) s := by
  obtain ⟨fmt, eq⟩ := List.head?_eq_some_iff.mp pointer
  unfold convert
  rw [eq]
  simp +decide only [if_true, if_false, and_self]

theorem convert_count (st : State) (count : s.isCount) :
    (convert room va st s).1.mem = Bytes.store32 st.mem (va s.args) st.out.str ∧
      (convert room va st s).1.out = st.out := by
  obtain ⟨fmt, eq⟩ := List.head?_eq_some_iff.mp count
  unfold convert
  rw [eq]
  simp +decide only [if_true, if_false, and_self]

theorem convert_other (st : State) (other : ¬ s.isPointer) (noCount : ¬ s.isCount) :
    (convert room va st s).1.mem = st.mem ∧
      (convert room va st s).1.out = puts room st.out (convText va st.mem s) := by
  unfold Spec.isPointer at other
  unfold Spec.isCount at noCount
  unfold convert convText
  cases eq : s.fmt with
  | nil => exact ⟨rfl, rfl⟩
  | cons c fmt =>
    rw [eq] at other noCount
    simp only [List.head?_cons, Option.some.injEq] at other noCount
    simp only [convNumber_eq, convChar_eq, convString_eq, put_eq, if_neg other, if_neg noCount]
    by_cases known : c ∈ conversions
    · rw [conversions_eq] at known
      simp only [List.mem_cons, List.not_mem_nil, or_false, other, noCount, false_or] at known
      rcases known with rfl | rfl | rfl | rfl | rfl | rfl | rfl | rfl | rfl <;>
        simp +decide only [if_true, if_false, true_and]
    · simp only [conversions_eq, List.mem_cons, List.not_mem_nil, or_false, not_or] at known
      simp only [known, if_false, or_self, true_and]
      exact (puts_append room st.out [ch '%'] [c]).symm

theorem format_eq (fuel : Nat) (st : State) (fmt : List UInt8) :
    format room va fuel st fmt = (pieces va fuel st.args fmt).foldl (putPiece room va) st := by
  induction fuel generalizing st fmt with
  | zero => rfl
  | succ fuel ih =>
    cases fmt with
    | nil => rfl
    | cons c fmt =>
      rw [format, pieces]
      split
      · rw [ih]
        rfl
      · obtain ⟨rest, next⟩ := convert_rest room va st (getSpec va st.args fmt)
        simp only
        rw [ih, rest, next]
        rfl

def Shows (room : Nat) (old : Nat → UInt8) (st : State) (t : Text) : Prop :=
  st.mem = t.mem ∧ st.out = puts room ⟨old, 0⟩ t.chars

/-- Each pointer begins where there is room for its `0x` and a byte more. -/
def PointersFit (room : Nat) (va : Nat → Nat) (t : Text) (l : List Piece) : Prop :=
  ∀ before s after, l = before ++ .conv s :: after → s.isPointer →
    (texts va t before).chars.length + 2 < room

variable {t : Text} {p : Piece} {l : List Piece}

theorem Shows.str {room : Nat} (shows : Shows room old st t) : st.out.str = t.chars.length := by
  rw [shows.2, puts_str, Nat.zero_add]

theorem pointersFit_nil (t : Text) : PointersFit room va t [] := by
  intro before s after eq
  simp at eq

theorem pointersFit_cons {room : Nat} {va : Nat → Nat} :
    PointersFit room va t (p :: l) ↔
      (∀ s, p = .conv s → s.isPointer → t.chars.length + 2 < room) ∧
        PointersFit room va (t.add va p) l := by
  constructor
  · intro fit
    refine ⟨fun s eq pointer => ?_, fun before s after eq pointer => ?_⟩
    · exact fit [] s l (by rw [eq]; rfl) pointer
    · exact fit (p :: before) s after (by rw [eq]; rfl) pointer
  · rintro ⟨first, later⟩ before s after eq pointer
    cases before with
    | nil => exact first s (List.cons.inj eq).1 pointer
    | cons q before =>
      obtain ⟨rfl, tail⟩ := List.cons.inj eq
      exact later before s after tail pointer

theorem add_pointer {va : Nat → Nat} (pointer : s.isPointer) :
    t.add va (.conv s) =
      { t with chars := t.chars ++ ([ch '0', ch 'x'] ++ pointerDigits (va s.args) s) } := by
  obtain ⟨fmt, eq⟩ := List.head?_eq_some_iff.mp pointer
  have noCount : ¬ s.isCount := by
    unfold Spec.isCount
    rw [pointer]
    decide
  have chars : convText va t.mem s = [ch '0', ch 'x'] ++ pointerDigits (va s.args) s := by
    unfold convText
    rw [eq]
    simp +decide only [if_true, if_false]
  rw [Text.add, if_neg noCount, chars]

theorem putPiece_shows {room : Nat} {va : Nat → Nat} (shows : Shows room old st t) (p : Piece)
    (fits : ∀ s, p = .conv s → s.isPointer → t.chars.length + 2 < room) :
    Shows room old (putPiece room va st p) (t.add va p) := by
  have count := shows.str
  obtain ⟨mem, out⟩ := shows
  cases p with
  | char c =>
    refine ⟨mem, ?_⟩
    rw [Text.add, puts_append, ← out]
    rfl
  | conv s =>
    rw [putPiece]
    by_cases pointer : s.isPointer
    · obtain ⟨mem', out'⟩ := convert_pointer room va st pointer
      rw [convPointer_eq _ _ (by rw [count]; exact fits s rfl pointer)] at out'
      rw [add_pointer pointer]
      refine ⟨mem'.trans mem, ?_⟩
      rw [out', out, ← puts_append]
    · by_cases isCount : s.isCount
      · obtain ⟨mem', out'⟩ := convert_count room va st isCount
        rw [Text.add, if_pos isCount]
        refine ⟨?_, out'.trans out⟩
        rw [mem', mem, count]
      · obtain ⟨mem', out'⟩ := convert_other room va st pointer isCount
        rw [Text.add, if_neg isCount]
        refine ⟨mem'.trans mem, ?_⟩
        rw [out', mem, out, ← puts_append]

theorem putPieces_shows {room : Nat} {va : Nat → Nat} (shows : Shows room old st t)
    (fit : PointersFit room va t l) :
    Shows room old (l.foldl (putPiece room va) st) (texts va t l) := by
  induction l generalizing st t with
  | nil => exact shows
  | cons p l ih =>
    obtain ⟨first, later⟩ := pointersFit_cons.mp fit
    exact ih (putPiece_shows shows p first) later

theorem texts_length (t : Text) (l : List Piece) :
    t.chars.length ≤ (texts va t l).chars.length := by
  induction l generalizing t with
  | nil => exact Nat.le_refl _
  | cons p l ih =>
    refine Nat.le_trans ?_ (ih (t.add va p))
    cases p with
    | char c => simp [Text.add]
    | conv s =>
      rw [Text.add]
      split
      · exact Nat.le_refl _
      · simp

theorem pointersFit_of_length {room : Nat} {va : Nat → Nat}
    (whole : (texts va t l).chars.length ≤ room) : PointersFit room va t l := by
  intro before s after eq pointer
  have split : texts va t l = texts va ((texts va t before).add va (.conv s)) after := by
    rw [eq, texts, List.foldl_append]
    rfl
  have later := texts_length va ((texts va t before).add va (.conv s)) after
  have digits := pointerDigits_length (va s.args) s
  rw [← split, add_pointer pointer] at later
  simp only [List.length_append, List.length_cons, List.length_nil] at later
  omega

theorem putPiece_str (st : State) (t : Text) (p : Piece) (mem : st.mem = t.mem) :
    st.out.str ≤ (putPiece room va st p).out.str ∧
      (putPiece room va st p).out.str + t.chars.length ≤ (t.add va p).chars.length + st.out.str := by
  cases p with
  | char c => simp [putPiece, put, Text.add, Nat.add_comm, Nat.add_left_comm]
  | conv s =>
    rw [putPiece]
    by_cases pointer : s.isPointer
    · rw [(convert_pointer room va st pointer).2, add_pointer pointer]
      by_cases fits : st.out.str + 2 < room
      · rw [convPointer_eq _ _ fits]
        simp only [puts_str, List.length_append, List.length_cons, List.length_nil]
        omega
      · obtain ⟨o, eq, low, high, -⟩ := convPointer_short (va s.args) s fits
        rw [eq]
        simp only [puts_str, List.length_append, List.length_cons, List.length_nil]
        omega
    · by_cases isCount : s.isCount
      · rw [(convert_count room va st isCount).2, Text.add, if_pos isCount]
        exact ⟨Nat.le_refl _, Nat.le_of_eq (Nat.add_comm _ _)⟩
      · rw [(convert_other room va st pointer isCount).2, Text.add, if_neg isCount, mem]
        simp only [puts_str, List.length_append]
        omega

theorem putPieces_mono (st : State) (l : List Piece) :
    st.out.str ≤ (l.foldl (putPiece room va) st).out.str := by
  induction l generalizing st with
  | nil => exact Nat.le_refl _
  | cons p l ih =>
    exact Nat.le_trans (putPiece_str room va st ⟨st.mem, []⟩ p rfl).1 (ih (putPiece room va st p))

theorem putPiece_mem {room : Nat} {va : Nat → Nat} (plain : ∀ s, p = .conv s → ¬ s.isCount)
    (mem : st.mem = t.mem) : (putPiece room va st p).mem = (t.add va p).mem := by
  cases p with
  | char c => exact mem
  | conv s =>
    have noCount := plain s rfl
    rw [putPiece, Text.add, if_neg noCount]
    by_cases pointer : s.isPointer
    · exact (convert_pointer room va st pointer).1.trans mem
    · exact (convert_other room va st pointer noCount).1.trans mem

theorem putPieces_le (plain : ∀ s, Piece.conv s ∈ l → ¬ s.isCount) (mem : st.mem = t.mem) :
    (l.foldl (putPiece room va) st).out.str + t.chars.length ≤
      (texts va t l).chars.length + st.out.str := by
  induction l generalizing st t with
  | nil => exact Nat.le_of_eq (Nat.add_comm _ _)
  | cons p l ih =>
    have step := (putPiece_str room va st t p mem).2
    have next : (putPiece room va st p).mem = (t.add va p).mem :=
      putPiece_mem (fun s eq => plain s (eq ▸ List.mem_cons_self)) mem
    have later := ih (fun s inside => plain s (List.mem_cons_of_mem p inside)) next
    simp only [List.foldl_cons, texts] at later ⊢
    omega

theorem first_short {room : Nat} {va : Nat → Nat} (short : ¬ PointersFit room va t l) :
    ∃ before s after, l = before ++ .conv s :: after ∧
      s.isPointer ∧ PointersFit room va t before ∧ ¬ (texts va t before).chars.length + 2 < room := by
  induction l generalizing t with
  | nil => exact absurd (pointersFit_nil room va t) short
  | cons p l ih =>
    by_cases first : ∀ s, p = .conv s → s.isPointer → t.chars.length + 2 < room
    · obtain ⟨before, s, after, rfl, pointer, fit, tight⟩ :=
        ih fun later => short (pointersFit_cons.mpr ⟨first, later⟩)
      exact ⟨p :: before, s, after, rfl, pointer, pointersFit_cons.mpr ⟨first, fit⟩, tight⟩
    · simp only [not_forall] at first
      obtain ⟨s, rfl, pointer, tight⟩ := first
      exact ⟨[], s, l, rfl, pointer, pointersFit_nil room va t, tight⟩

theorem putPieces_past {room : Nat} {va : Nat → Nat} (shows : Shows room old st t)
    (short : ¬ PointersFit room va t l) : room ≤ (l.foldl (putPiece room va) st).out.str := by
  obtain ⟨before, s, after, rfl, pointer, fit, tight⟩ := first_short short
  have reached := putPieces_shows shows fit
  obtain ⟨o, eq, -, -, high⟩ := convPointer_short (va s.args) s (reached.str ▸ tight)
  have digits := pointerDigits_length (va s.args) s
  have later := putPieces_mono room va (putPiece room va (before.foldl (putPiece room va) st) (.conv s))
    after
  rw [putPiece, (convert_pointer room va _ pointer).2, eq, puts_str] at later
  rw [List.foldl_append, List.foldl_cons, putPiece]
  omega

theorem putPieces_below_iff {room : Nat} (l : List Piece) (shows : Shows room old st t) :
    (l.foldl (putPiece room va) st).out.str < room ↔ (texts va t l).chars.length < room := by
  by_cases fit : PointersFit room va t l
  · rw [(putPieces_shows shows fit).str]
  · have past := putPieces_past shows fit
    have long : ¬ (texts va t l).chars.length ≤ room := fun whole => fit (pointersFit_of_length whole)
    omega

theorem putPieces_behind {room : Nat} {va : Nat → Nat} (plain : ∀ s, Piece.conv s ∈ l → ¬ s.isCount)
    (shows : Shows room old st t) (short : ¬ PointersFit room va t l) :
    (l.foldl (putPiece room va) st).out.str < (texts va t l).chars.length := by
  obtain ⟨before, s, after, rfl, pointer, fit, tight⟩ := first_short short
  have reached := putPieces_shows shows fit
  have count := reached.str
  obtain ⟨o, eq, -, low, -⟩ := convPointer_short (va s.args) s (count ▸ tight)
  have next : (putPiece room va (before.foldl (putPiece room va) st) (.conv s)).mem =
      ((texts va t before).add va (.conv s)).mem :=
    putPiece_mem (fun r eq => plain r (eq ▸ by simp)) reached.1
  have later := putPieces_le room va (l := after) (fun r inside => plain r (by simp [inside])) next
  rw [putPiece, (convert_pointer room va _ pointer).2, eq, puts_str, add_pointer pointer] at later
  simp only [List.length_append, List.length_cons, List.length_nil] at later
  rw [texts, List.foldl_append, List.foldl_append, List.foldl_cons, List.foldl_cons, putPiece,
    ← texts, ← texts, add_pointer pointer]
  omega

theorem format_shows (mem old : Nat → UInt8) (fmt : List UInt8) (va : Nat → Nat) :
    format room va fmt.length ⟨mem, ⟨old, 0⟩, 0⟩ fmt =
      (pieces va fmt.length 0 fmt).foldl (putPiece room va) ⟨mem, ⟨old, 0⟩, 0⟩ ∧
      Shows room old ⟨mem, ⟨old, 0⟩, 0⟩ ⟨mem, []⟩ :=
  ⟨format_eq room va fmt.length _ fmt, rfl, rfl⟩

end

/-- `end`. -/
def endOf (buf size : Nat) : Nat :=
  if (buf + size + (2 ^ 32 - 1)) % 2 ^ 32 < (buf + (2 ^ 32 - 1)) % 2 ^ 32 then 2 ^ 32 - 1
  else (buf + size + (2 ^ 32 - 1)) % 2 ^ 32

/-- A character, or the null after `len` of them, for which `str <= end` lets it be stored
outside of the buffer. Of the offsets from `buf` the model looks only at those below the top
of the address space; from there on `str` is small again. -/
def Strays (buf size len : Nat) : Prop :=
  ∃ n ≤ len, (buf + n) % 2 ^ 32 ≤ endOf buf size ∧
    ¬ (buf ≤ (buf + n) % 2 ^ 32 ∧ (buf + n) % 2 ^ 32 < buf + size)

theorem endOf_eq {size : Nat} (some : 1 ≤ size) (placed : buf + size ≤ 2 ^ 32)
    (word : size < 2 ^ 32) : endOf buf size = if buf = 0 then 2 ^ 32 - 1 else buf + size - 1 := by
  unfold endOf
  by_cases null : buf = 0
  · rw [if_pos null, if_pos (by omega)]
  · rw [if_neg null, if_neg (by omega)]
    omega

theorem room_eq {size : Nat} (some : 1 ≤ size) (placed : buf + size ≤ 2 ^ 32) (word : size < 2 ^ 32) :
    room buf size = if buf = 0 then 2 ^ 32 else size := by
  unfold room
  by_cases null : buf = 0
  · rw [if_pos null, if_pos (by omega), null, Nat.sub_zero]
  · rw [if_neg null, if_neg (by omega)]

theorem strays_iff {size len : Nat} (some : 1 ≤ size) (placed : buf + size ≤ 2 ^ 32)
    (word : size < 2 ^ 32) : Strays buf size len ↔ 2 ^ 32 ≤ buf + len ∨ buf = 0 ∧ size ≤ len := by
  unfold Strays
  rw [endOf_eq some placed word]
  constructor
  · rintro ⟨n, low, stored, outside⟩
    by_contra inside
    rw [Nat.mod_eq_of_lt (by omega)] at stored outside
    split at stored <;> omega
  · intro out
    by_cases null : buf = 0
    · refine ⟨size, by omega, ?_⟩
      rw [if_pos null]
      omega
    · refine ⟨2 ^ 32 - buf, by omega, ?_⟩
      rw [show (buf + (2 ^ 32 - buf)) % 2 ^ 32 = 0 by omega]
      omega

/-- `vsnprintf` stores in the buffer only, it leaves there the text as far as it goes into
`size - 1` bytes, and a null after it, and returns the length of all of the text. -/
structure Truncates (mem old : Nat → UInt8) (buf size : Nat) (fmt : List UInt8) (va : Nat → Nat) :
    Prop where
  inside : ¬ Strays buf size (vsnprintf mem old buf size fmt va).1.out.str
  frame : ∀ x, size ≤ x → (vsnprintf mem old buf size fmt va).1.out.buf x = old x
  chars : ∀ i c, i < size - 1 → (text mem fmt va)[i]? = some c →
    (vsnprintf mem old buf size fmt va).1.out.buf i = c
  nul : (vsnprintf mem old buf size fmt va).1.out.buf (min (text mem fmt va).length (size - 1)) = 0
  returns : (vsnprintf mem old buf size fmt va).2 = (text mem fmt va).length

theorem toInt_le (w : Nat) : toInt w ≤ w := by
  unfold toInt words
  split <;> omega

theorem toInt_eq_iff (w : Nat) : toInt w = w ↔ w < 2 ^ 31 := by
  refine ⟨fun same => ?_, toInt_small⟩
  unfold toInt words at same
  split at same <;> omega

section

variable (mem old : Nat → UInt8) (buf size : Nat) (fmt : List UInt8) (va : Nat → Nat)

def terminate (room : Nat) (st : State) : State where
  mem := st.mem
  out :=
    { buf :=
        if st.out.str < room then update st.out.buf st.out.str 0
        else if 0 < room then update st.out.buf (room - 1) 0
        else st.out.buf
      str := st.out.str }
  args := st.args

theorem vsnprintf_eq : vsnprintf mem old buf size fmt va =
    (terminate (room buf size) (format (room buf size) va fmt.length ⟨mem, ⟨old, 0⟩, 0⟩ fmt),
      toInt (format (room buf size) va fmt.length ⟨mem, ⟨old, 0⟩, 0⟩ fmt).out.str) := by
  unfold vsnprintf
  generalize room buf size = r
  rfl

theorem terminate_str (room : Nat) (st : State) : (terminate room st).out.str = st.out.str := rfl

theorem terminate_nul {room : Nat} (any : 0 < room) (st : State) :
    (terminate room st).out.buf (min st.out.str (room - 1)) = 0 := by
  unfold terminate
  simp only
  by_cases fits : st.out.str < room
  · rw [if_pos fits, Nat.min_eq_left (by omega), update_self]
  · rw [if_neg fits, if_pos any, Nat.min_eq_right (by omega), update_self]

theorem vsnprintf_str : (vsnprintf mem old buf size fmt va).1.out.str =
    (format (room buf size) va fmt.length ⟨mem, ⟨old, 0⟩, 0⟩ fmt).out.str := by
  rw [vsnprintf_eq]
  exact terminate_str _ _

theorem vsnprintf_len : (vsnprintf mem old buf size fmt va).2 =
    toInt (vsnprintf mem old buf size fmt va).1.out.str := by
  rw [vsnprintf_str, vsnprintf_eq]

theorem vsnprintf_fit (fit : PointersFit (room buf size) va ⟨mem, []⟩ (pieces va fmt.length 0 fmt)) :
    (vsnprintf mem old buf size fmt va).1.out.str = (text mem fmt va).length ∧
      (0 < room buf size → (vsnprintf mem old buf size fmt va).1.out.buf =
        update (puts (room buf size) ⟨old, 0⟩ (text mem fmt va)).buf
          (min (text mem fmt va).length (room buf size - 1)) 0) := by
  obtain ⟨run, start⟩ := format_shows (room buf size) mem old fmt va
  have shows := putPieces_shows start fit
  rw [← run] at shows
  have count := shows.str
  refine ⟨(vsnprintf_str mem old buf size fmt va).trans count, fun any => ?_⟩
  rw [vsnprintf_eq]
  simp only [terminate]
  rw [count, shows.2]
  by_cases short : (text mem fmt va).length < room buf size
  · rw [Nat.min_eq_left (by omega)]
    exact if_pos short
  · rw [Nat.min_eq_right (by omega)]
    exact (if_neg short).trans (if_pos any)

theorem vsnprintf_buf (some : 1 ≤ size) (placed : buf + size ≤ 2 ^ 32) (word : size < 2 ^ 32)
    (fit : PointersFit size va ⟨mem, []⟩ (pieces va fmt.length 0 fmt))
    (null : buf = 0 → (text mem fmt va).length < size) :
    (vsnprintf mem old buf size fmt va).1.out.str = (text mem fmt va).length ∧
      (∀ x, size ≤ x → (vsnprintf mem old buf size fmt va).1.out.buf x = old x) ∧
      (∀ i c, i < size - 1 → (text mem fmt va)[i]? = .some c →
        (vsnprintf mem old buf size fmt va).1.out.buf i = c) ∧
      (vsnprintf mem old buf size fmt va).1.out.buf (min (text mem fmt va).length (size - 1)) = 0 := by
  have space : room buf size = if buf = 0 then 2 ^ 32 else size := room_eq some placed word
  have wide : size ≤ room buf size := by
    rw [space]
    split <;> omega
  have last : min (text mem fmt va).length (room buf size - 1) =
      min (text mem fmt va).length (size - 1) := by
    by_cases zero : buf = 0
    · have := null zero
      omega
    · rw [space, if_neg zero]
  obtain ⟨count, stored⟩ := vsnprintf_fit mem old buf size fmt va (fun before s after eq pointer =>
    Nat.lt_of_lt_of_le (fit before s after eq pointer) wide)
  rw [last] at stored
  rw [stored (by omega)]
  refine ⟨count, fun x high => ?_, fun i c low here => ?_, update_self _ _ _⟩
  · rw [update_of_ne (by omega)]
    refine puts_outside _ _ _ ?_
    by_cases zero : buf = 0
    · have := null zero
      exact .inr (.inl (by simp only; omega))
    · rw [space, if_neg zero]
      exact .inr (.inr high)
  · obtain ⟨below, eq⟩ := List.getElem?_eq_some_iff.mp here
    rw [update_of_ne (by omega), ← eq]
    have put := puts_inside (room buf size) ⟨old, 0⟩ (text mem fmt va) below (by simp only; omega)
    rwa [Nat.zero_add] at put

end

/-- A buffer gets a truncation of the text exactly if each pointer has its room, the length
is one that an `int` can hold and that does not take `str` over the top of the address space,
and the buffer does not lie at address 0, where `end` is lost. -/
theorem vsnprintf_truncates_iff (mem old : Nat → UInt8) (buf size : Nat) (fmt : List UInt8)
    (va : Nat → Nat) (some : 1 ≤ size) (placed : buf + size ≤ 2 ^ 32) (word : size < 2 ^ 32)
    (plain : ∀ s, Piece.conv s ∈ pieces va fmt.length 0 fmt → ¬ s.isCount) :
    (∀ big, (text mem fmt va).length ≤ big →
      (format big va fmt.length ⟨mem, ⟨old, 0⟩, 0⟩ fmt).out = puts big ⟨old, 0⟩ (text mem fmt va)) ∧
    (Truncates mem old buf size fmt va ↔
      PointersFit size va ⟨mem, []⟩ (pieces va fmt.length 0 fmt) ∧
      (text mem fmt va).length < 2 ^ 31 ∧ buf + (text mem fmt va).length < 2 ^ 32 ∧
      (buf = 0 → (text mem fmt va).length < size)) := by
  have space : room buf size = if buf = 0 then 2 ^ 32 else size := room_eq some placed word
  refine ⟨fun big whole => ?_, fun truncates => ?_, ?_⟩
  · obtain ⟨run, start⟩ := format_shows big mem old fmt va
    rw [run]
    exact (putPieces_shows start (pointersFit_of_length whole)).2
  · obtain ⟨inside, -, -, -, returns⟩ := truncates
    rw [strays_iff some placed word] at inside
    obtain ⟨run, start⟩ := format_shows (room buf size) mem old fmt va
    have fit : PointersFit (room buf size) va ⟨mem, []⟩ (pieces va fmt.length 0 fmt) := by
      by_contra short
      -- the count, an `int` that is not above it, falls behind the text
      have behind := putPieces_behind plain start short
      have bound := toInt_le (vsnprintf mem old buf size fmt va).1.out.str
      rw [← vsnprintf_len, returns, vsnprintf_str, run] at bound
      exact absurd (Int.ofNat_le.mp bound) (Nat.not_le_of_lt behind)
    have count := (vsnprintf_fit mem old buf size fmt va fit).1
    rw [count] at inside
    rw [vsnprintf_len, count, toInt_eq_iff] at returns
    refine ⟨?_, returns, by omega, by omega⟩
    by_cases zero : buf = 0
    · exact pointersFit_of_length (show (text mem fmt va).length ≤ size by omega)
    · rwa [space, if_neg zero] at fit
  · rintro ⟨fit, short, below, null⟩
    obtain ⟨count, frame, chars, nul⟩ := vsnprintf_buf mem old buf size fmt va some placed word fit null
    refine ⟨?_, frame, chars, nul, ?_⟩
    · rw [strays_iff some placed word, count]
      omega
    · rw [vsnprintf_len, count, toInt_eq_iff]
      exact short

def samplePointer : List UInt8 := [ch 'a', ch 'b', ch '%', ch 'p']

theorem samplePointer_pieces : pieces (fun _ => 1) samplePointer.length 0 samplePointer =
    [.char (ch 'a'), .char (ch 'b'), .conv ⟨{}, -1, -1, .none, 0, [ch 'p']⟩] := by
  rfl

/-- In four bytes there is no room for the `x`, and it is not counted. -/
theorem vsnprintf_pointer_short :
    (text (fun _ => 0) samplePointer fun _ => 1).length = 12 ∧
    (vsnprintf (fun _ => 0) (fun _ => 0) 0xc0100000 4 samplePointer fun _ => 1).2 = 11 ∧
    ¬ Truncates (fun _ => 0) (fun _ => 0) 0xc0100000 4 samplePointer fun _ => 1 := by
  have length : (text (fun _ => 0) samplePointer fun _ => 1).length = 12 := by decide +kernel
  have value : (vsnprintf (fun _ => 0) (fun _ => 0) 0xc0100000 4 samplePointer fun _ => 1).2 = 11 := by
    decide +kernel
  refine ⟨length, value, fun truncates => ?_⟩
  have returns := truncates.returns
  rw [length, value] at returns
  exact absurd returns (by decide)

theorem vsnprintf_truncates_pointer :
    Truncates (fun _ => 0) (fun _ => 0) 0xc0100000 5 samplePointer fun _ => 1 := by
  have length : (text (fun _ => 0) samplePointer fun _ => 1).length = 12 := by decide +kernel
  refine (vsnprintf_truncates_iff (fun _ => 0) (fun _ => 0) 0xc0100000 5 samplePointer (fun _ => 1)
    (by decide) (by decide) (by decide) ?_).2.mpr ⟨?_, ?_, ?_, ?_⟩
  · rw [samplePointer_pieces]
    intro s inside
    simp only [List.mem_cons, List.not_mem_nil, or_false, reduceCtorEq, false_or,
      Piece.conv.injEq] at inside
    subst inside
    decide
  · rw [samplePointer_pieces, pointersFit_cons, pointersFit_cons, pointersFit_cons]
    refine ⟨fun s eq => absurd eq (by simp), fun s eq => absurd eq (by simp), fun s _ _ => ?_,
      pointersFit_nil _ _ _⟩
    decide
  · rw [length]
    decide
  · rw [length]
    decide
  · exact fun null => absurd null (by decide)

end ScaraOS.Printf
