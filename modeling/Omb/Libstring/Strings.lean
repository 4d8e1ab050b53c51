import Omb.Kern.Head

/-!
# `lib/libstring`: formatting and scanning

`vsnprintf` of `string.c`, `vsscanf` of `scanf.c` and `strtol` of `conv.c`.

A pointer into a string is the list of the characters from it to the end of the array it
points into, the terminator included, and a read through the empty list goes wrong (`Fault`).
Where only a terminated string is at stake it is a `Str`, the characters before the
terminator.  `char` is unsigned, as on the am335x, and `int` and `long` wrap round.

A pointer argument of `vsscanf` is the bytes of the object it points to; the objects are apart
from each other and from the strings.

The functions here say what is returned and what is left in memory, and where an array is left
they go wrong.  What is read and stored on the way is recorded by the functions of
`Omb.Libstring.Buffer` and `Omb.Libstring.Scanning`, which are shown to be the same otherwise.

The loops are over the format or the string, and so end with them; the one over the digits of
a number ends with its array.

## Main definitions

* `printint`, `vsnprintf`, `snprintf`
* `strtol`
* `vsscanf`, `sscanf`
-/

namespace Omb

/-- `char`. -/
abbrev Byte := BitVec 8

/-- The characters of a string before its terminator. -/
abbrev Str := List Byte

/-- A character constant. -/
def chr (c : Char) : Byte := BitVec.ofNat 8 c.toNat

/-- Ways to leave the memory a function is given, or the arguments. -/
inductive Fault where
  /-- A read behind the end of a string. -/
  | pastEnd
  /-- A `va_arg` when no such argument is left. -/
  | noArg
  /-- A write behind the end of `s` in `printint`. -/
  | pastDigits
  /-- A write behind the end of `num` in `vsscanf`. -/
  | pastNum
  /-- A write behind the end of an object. -/
  | pastObject
  deriving DecidableEq

/-! ## `string.c` -/

/-- `isspace`. -/
def isspace (c : Byte) : Bool :=
  c = chr ' ' || c = chr '\n' || c = chr '\t'

/-- The `do .. while` of `printint`: what it puts into `s`, which has room for so many
characters.  The last digit is the first. -/
def printintDigits (base : Word) : ℕ → Word → Except Fault Str
  | 0, _ => .error .pastDigits
  | room + 1, i =>
      let d := i / base
      let i := i % base
      let c := if i > 9 then chr 'a' + (i - 10).setWidth 8 else chr '0' + i.setWidth 8
      if d > 0 then (printintDigits base room d).map (c :: ·) else .ok [c]

/-- `printint(str, max, i, base)`: the characters it writes to `str`. -/
def printint (max : ℕ) (i base : Word) : Except Fault Str :=
  (printintDigits base 32 i).map fun s => s.reverse.take max

/-- An argument of `vsnprintf`. -/
inductive Arg where
  | int (i : Word)
  | str (s : Option Str)

/-- The `switch` of `vsnprintf`, with what it leaves of the arguments and what has been
written to `str`.  A directive that it does not know is skipped. -/
def formatDirective (max : ℕ) (d : Byte) (ap : List Arg) (out : Str) :
    Except Fault (List Arg × Str) :=
  if d = chr '%' then .ok (ap, out ++ [chr '%'])
  else if d = chr 'i' then
    match ap with
    | .int i :: ap =>
        let out := if i.slt 0 then out ++ [chr '-'] else out
        let i := if i.slt 0 then -i else i
        if max ≤ out.length then .ok (ap, out)
        else (printint (max - out.length) i 10).map fun s => (ap, out ++ s)
    | _ => .error .noArg
  else if d = chr 'u' then formatUnsigned ap 10
  else if d = chr 'h' then formatUnsigned ap 16
  else if d = chr 'b' then formatUnsigned ap 2
  else if d = chr 'c' then
    match ap with
    | .int i :: ap => .ok (ap, out ++ [i.setWidth 8])
    | _ => .error .noArg
  else if d = chr 's' then
    match ap with
    | .str s :: ap => .ok (ap, out ++ (s.getD ("(null)".toList.map chr)).take (max - out.length))
    | _ => .error .noArg
  else .ok (ap, out)
where
  formatUnsigned (ap : List Arg) (base : Word) : Except Fault (List Arg × Str) :=
    match ap with
    | .int u :: ap => (printint (max - out.length) u base).map fun s => (ap, out ++ s)
    | _ => .error .noArg

/-- `vsnprintf(str, max, fmt, ap)`, when `out` has been written to `str`: the characters
before the terminator it writes last.  Their number is what it returns.  The character behind
a `%` is not tested for the terminator. -/
def vsnprintf (max : ℕ) : List Byte → List Arg → Str → Except Fault Str
  | [], _, _ => .error .pastEnd
  | f :: fmt, ap, out =>
      if f = 0 ∨ max ≤ out.length then .ok out
      else if f = chr '%' then
        match fmt with
        | [] => .error .pastEnd
        | d :: fmt =>
            match formatDirective max d ap out with
            | .error e => .error e
            | .ok (ap, out) => vsnprintf max fmt ap out
      else vsnprintf max fmt ap (out ++ [f])

/-- `snprintf(str, max, fmt, ..)`. -/
def snprintf (max : ℕ) (fmt : Str) (ap : List Arg) : Except Fault Str :=
  vsnprintf max (fmt ++ [0]) ap []

/-! ## `conv.c` -/

/-- The last loop of `strtol`. -/
def strtolDigits (base : Word) : Word → Str → Word
  | n, [] => n
  | n, c :: s =>
      if isspace c then n
      else strtolDigits base (n * base + (c.setWidth 32 - (chr '0').setWidth 32)) s

/-- `strtol(s, nil, base)`.  Nothing is tested for being a digit. -/
def strtol (s : Str) (base : Word) : Word :=
  match s.dropWhile isspace with
  | [] => 0
  | c :: s =>
      if c = chr '+' then strtolDigits base 0 s
      else if c = chr '-' then -strtolDigits base 0 s
      else strtolDigits base 0 (c :: s)

/-! ## `scanf.c` -/

/-- The bytes of the object a pointer argument points to. -/
abbrev Obj := List Byte

/-- The bytes of an `int`. -/
def intBytes (v : Word) : Obj :=
  [v.setWidth 8, (v >>> 8).setWidth 8, (v >>> 16).setWidth 8, (v >>> 24).setWidth 8]

/-- A store of bytes at the start of an object. -/
def store (o : Obj) (s : List Byte) : Except Fault Obj :=
  if s.length ≤ o.length then .ok (s ++ o.drop s.length) else .error .pastObject

/-- The loop `while (*str != 0 && *str != *fmt) *s++ = *str++;`: what it copies, and
`str` after it. -/
def token (fmt : List Byte) : List Byte → Except Fault (Str × List Byte)
  | [] => .error .pastEnd
  | s :: str =>
      if s = 0 then .ok ([], s :: str)
      else
        match fmt with
        | [] => .error .pastEnd
        | f :: _ =>
            if s = f then .ok ([], s :: str)
            else (token fmt str).map fun r => (s :: r.1, r.2)

/-- What `vsscanf` returns, the objects of the arguments it was given, and where it is in
the string. -/
structure Scanned where
  ret : ℤ
  objs : List Obj
  rest : List Byte
  deriving DecidableEq

/-- How the `switch` of `vsscanf` goes on. -/
inductive Conversion where
  /-- It returns. -/
  | done (r : Scanned)
  /-- It goes on at `str`, with the arguments `ap` left; the object of the one it took
  has been written. -/
  | next (str : List Byte) (written ap : List Obj)

/-- The `switch` of `vsscanf` for the character `t` of the format, where `n` conversions
have been made and `fmt` is behind `t`. -/
def scanDirective (n : ℤ) (t : Byte) (fmt str : List Byte) (ap : List Obj) :
    Except Fault Conversion :=
  if t = chr '%' then
    match str with
    | [] => .error .pastEnd
    | s :: rest => if s = chr '%' then .ok (.next rest [] ap) else .ok (.done ⟨n, ap, str⟩)
  else if t = chr 'i' then
    match ap with
    | [] => .error .noArg
    | o :: ap =>
        match token fmt str with
        | .error e => .error e
        | .ok (num, str) =>
            if 32 ≤ num.length then .error .pastNum
            else (store o (intBytes (strtol num 10))).map fun o => .next str [o] ap
  else if t = chr 'c' then
    match ap, str with
    | [], _ => .error .noArg
    | _ :: _, [] => .error .pastEnd
    | o :: ap, s :: str => (store o [s]).map fun o => .next str [o] ap
  else if t = chr 's' then
    match ap with
    | [] => .error .noArg
    | o :: ap =>
        match token fmt str with
        | .error e => .error e
        | .ok (s, str) => (store o (s ++ [0])).map fun o => .next str [o] ap
  else .ok (.done ⟨-1, ap, str⟩)

/-- The rest of `vsscanf` after the `switch`. -/
def Conversion.andThen (c : Except Fault Conversion)
    (k : List Byte → List Obj → Except Fault Scanned) : Except Fault Scanned :=
  match c with
  | .error e => .error e
  | .ok (.done r) => .ok r
  | .ok (.next str written ap) =>
      (k str ap).map fun r => { r with objs := written ++ r.objs }

/-- `vsscanf(str, fmt, ap)`, when `n` conversions have been made.  A literal character that
matches is followed by the two `fmt++` of a directive. -/
def vsscanf : List Byte → List Byte → ℤ → List Obj → Except Fault Scanned
  | [], _, _, _ => .error .pastEnd
  | f :: fmt, str, n, ap =>
      if f = 0 then .ok ⟨n, ap, str⟩
      else if f = chr '%' then
        match fmt with
        | [] => .error .pastEnd
        | t :: fmt =>
            Conversion.andThen (scanDirective n t fmt str ap) fun str ap => vsscanf fmt str (n + 1) ap
      else
        match str with
        | [] => .error .pastEnd
        | s :: rest =>
            if s = f then
              match fmt with
              | _ :: t :: fmt =>
                  Conversion.andThen (scanDirective n t fmt rest ap) fun str ap =>
                    vsscanf fmt str (n + 1) ap
              | _ => .error .pastEnd
            else .ok ⟨n, ap, str⟩

/-- `sscanf(str, fmt, ..)`. -/
def sscanf (str fmt : Str) (ap : List Obj) : Except Fault Scanned :=
  vsscanf (fmt ++ [0]) (str ++ [0]) 0 ap

end Omb
