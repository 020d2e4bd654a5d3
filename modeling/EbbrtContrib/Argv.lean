import EbbrtContrib.CString
import EbbrtContrib.InPlace

namespace EbbrtContrib.Argv

open CString InPlace

def bslash : Byte := 0x5c
def squote : Byte := 0x27
def dquote : Byte := 0x22

/-- `isspace` in the C locale. -/
def isspace (c : Byte) : Bool := c = 0x20 || (0x09 ≤ c && c ≤ 0x0d)

/-- The case labels that end a token: space, `\t`, `\n`, `\f`, `\r`, `\v` and `\b`. -/
def isSeparator (c : Byte) : Bool :=
  c = 0x20 || c = 0x09 || c = 0x0a || c = 0x0c || c = 0x0d || c = 0x0b || c = 0x08

inductive StrToArgvErr
  | ok
  | unbalancedQuote
  deriving DecidableEq, Repr

/-- The two cursors `dest` and `scan` into the duplicated string. -/
abbrev Text := Cursor Byte

def copyRawString : Nat → Text → Except Fault (StrToArgvErr × Text)
  | 0, _ => .error .fuel
  | fuel + 1, c => do
    let (ch, c) ← next c
    if ch = NUL then
      return (.unbalancedQuote, c)
    else if ch = squote then
      return (.ok, ← store NUL c)
    else if ch = bslash then
      let (ch, c) ← next c
      if ch = NUL then
        return (.unbalancedQuote, c)
      else if ch = bslash ∨ ch = squote then
        copyRawString fuel (← put ch c)
      else
        -- not an escape here: the backslash is kept as well
        copyRawString fuel (← put ch (← put bslash c))
    else
      copyRawString fuel (← put ch c)

/-- What a backslash and `ch` stand for inside double quotes. -/
def controlChar (ch : Byte) : Byte :=
  if ch = 0x61 then 0x07 -- \a
  else if ch = 0x62 then 0x08 -- \b
  else if ch = 0x74 then 0x09 -- \t
  else if ch = 0x6e then 0x0a -- \n
  else if ch = 0x76 then 0x0b -- \v
  else if ch = 0x66 then 0x0c -- \f
  else if ch = 0x72 then 0x0d -- \r
  else ch

def escapeConvt (c : Text) : Except Fault (Byte × Text) := do
  let (ch, c) ← next c
  return (controlChar ch, c)

def copyCookedString : Nat → Text → Except Fault (StrToArgvErr × Text)
  | 0, _ => .error .fuel
  | fuel + 1, c => do
    let (ch, c) ← next c
    if ch = NUL then
      return (.unbalancedQuote, c)
    else if ch = dquote then
      return (.ok, ← store NUL c)
    else if ch = bslash then
      let (ch, c) ← escapeConvt c
      if ch = NUL then
        return (.unbalancedQuote, c)
      else
        copyCookedString fuel (← put ch c)
    else
      copyCookedString fuel (← put ch c)

/-- Where the loop over the characters of one token leaves. -/
inductive Exit
  | done
  | tokenDone
  | errorLeave (err : StrToArgvErr)
  deriving DecidableEq, Repr

def scanToken : Nat → Text → Except Fault (Exit × Text)
  | 0, _ => .error .fuel
  | fuel + 1, c => do
    let (ch, c) ← next c
    if ch = NUL then
      return (.done, c)
    else if ch = bslash then
      let (ch, c) ← next c
      let c ← put ch c
      if ch = NUL then return (.done, c) else scanToken fuel c
    else if ch = squote then
      let (err, c) ← copyRawString fuel c
      if err = .ok then scanToken fuel c else return (.errorLeave err, c)
    else if ch = dquote then
      let (err, c) ← copyCookedString fuel c
      if err = .ok then scanToken fuel c else return (.errorLeave err, c)
    else if isSeparator ch then
      return (.tokenDone, c)
    else
      scanToken fuel (← put ch c)

/-- `while (isspace(*scan)) scan++` -/
def skipSpace : Nat → Text → Except Fault Text
  | 0, _ => .error .fuel
  | fuel + 1, c => do
    if isspace (← peek c) then skipSpace fuel { c with scan := c.scan + 1 } else return c

inductive Slot
  | uninit
  | null
  | ptr (i : Nat)
  deriving DecidableEq, Repr

/-- The pointer table: `res` is the allocation of `act` slots, `argv` the next slot to write. -/
structure Table where
  argc : Nat
  act : Nat
  res : List Slot
  argv : Nat
  deriving DecidableEq, Repr

def Table.new : Table := ⟨0, 10, List.replicate 10 .uninit, 0⟩

def Table.write (t : Table) (s : Slot) : Except Fault Table :=
  if t.argv < t.res.length then .ok { t with res := t.res.set t.argv s } else .error .bounds

/-- `if (++argc >= act) { ... }` with the reallocation that moves the table. -/
def Table.grow (t : Table) : Table :=
  if t.act ≤ t.argc + 1 then
    let act := t.act + t.act / 2
    { argc := t.argc + 1, act := act, argv := t.argc,
      res := t.res ++ List.replicate (act - t.act) .uninit }
  else
    { t with argc := t.argc + 1 }

/-- `*(argv++) = dest` for the token that starts at index `i`. -/
def Table.push (t : Table) (i : Nat) : Except Fault Table := do
  let t ← t.grow.write (.ptr i)
  return { t with argv := t.argv + 1 }

def scanTokens : Nat → Table → Text → Except Fault (StrToArgvErr × Table × Text)
  | 0, _, _ => .error .fuel
  | fuel + 1, t, c => do
    let c ← skipSpace fuel c
    if (← peek c) = NUL then
      return (.ok, t, c)
    let t ← t.push c.scan
    match ← scanToken fuel { c with dest := c.scan } with
    | (.done, c) => return (.ok, t, c)
    | (.errorLeave err, c) => return (err, t, c)
    | (.tokenDone, c) => scanTokens fuel t (← store NUL c)

/-- The two allocations of a call. -/
inductive Block
  | res
  | str
  deriving DecidableEq, Repr

/-- What a call leaves behind: `none` in an output that was not written,
the memory of the duplicated string, and the allocations it freed. -/
structure ArgvResult where
  err : StrToArgvErr
  argc : Option Nat
  argv : Option (List Slot)
  str : List Byte
  freed : List Block
  deriving DecidableEq, Repr

def stringToArgv (str : CStr) : Except Fault ArgvResult := do
  let buf := dup (str.bytes.dropWhile isspace)
  let (err, t, c) ← scanTokens (2 * buf.length + 2) .new ⟨buf, 0, 0⟩
  if err = .ok then
    let t ← t.write .null
    return ⟨err, some t.argc, some t.res, c.buf, if t.argc = 0 then [.str] else []⟩
  else
    return ⟨err, none, none, c.buf, [.res, .str]⟩

end EbbrtContrib.Argv
