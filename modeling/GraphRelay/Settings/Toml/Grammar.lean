import GraphRelay.Decimal
import GraphRelay.Settings.Toml.Document
import GraphRelay.Text.Scanner

/-!
# The grammar of TOML

Texts, numbers, points in time, lists and tables, and the lines that hold them.
-/
namespace GraphRelay.Toml

open Scanner

/-- Tabs and everything but control characters. -/
def isPlain (c : Char) : Bool := c = '\t' || (' ' ≤ c && c ≠ '\x7f')

def isBlank (c : Char) : Bool := c = ' ' || c = '\t'

def blanks : Scanner Unit := do
  let _ ← takeWhile isBlank

def newline : Scanner Unit := literal "\n" <|> literal "\r\n"

def comment : Scanner Unit := do
  char '#'
  let _ ← takeWhile isPlain

/-- Blanks, line ends and comments. -/
def gap : Scanner Unit := do
  let _ ← many ((do let _ ← takeWhile1 isBlank) <|> newline <|> comment)

/-- The character that so many hexadecimal digits name. -/
def codePoint (digits : Nat) : Scanner Char := do
  let ds ← exactly digits (satisfy fun c => (Decimal.digit? 16 c).isSome)
  let n := (Decimal.digits? 16 ds).getD 0
  if n.isValidChar then pure (Char.ofNat n) else failure

def escape : Scanner Char := do
  char '\\'
  let c ← satisfy fun _ => true
  match c with
  | 'b' => pure '\x08'
  | 't' => pure '\t'
  | 'n' => pure '\n'
  | 'f' => pure '\x0c'
  | 'r' => pure '\r'
  | '"' => pure '"'
  | '\\' => pure '\\'
  | 'u' => codePoint 4
  | 'U' => codePoint 8
  | _ => failure

def basicText : Scanner String := do
  char '"'
  let cs ← many (escape <|> satisfy fun c => isPlain c && c ≠ '"' && c ≠ '\\')
  char '"'
  pure (String.ofList cs)

def literalText : Scanner String := do
  char '\''
  let cs ← takeWhile fun c => isPlain c && c ≠ '\''
  char '\''
  pure (String.ofList cs)

/-- The number of quotes that come next. -/
def quotesAhead (quote : Char) : Scanner Nat :=
  fun cs => some ((cs.takeWhile (· = quote)).length, cs)

/-- One or two quotes that do not end a text of several lines. -/
def innerQuotes (quote : Char) : Scanner (List Char) := do
  let n ← quotesAhead quote
  if n = 0 || 3 ≤ n then failure
  exactly n (satisfy (· = quote))

/-- Three quotes, and up to two before them that belong to the text. -/
def closingQuotes (quote : Char) : Scanner (List Char) := do
  let n ← quotesAhead quote
  if n < 3 then failure
  let _ ← exactly 3 (char quote)
  exactly (min n 5 - 3) (satisfy (· = quote))

/-- A line end that is written but does not count, with all blanks and line ends after it. -/
def hiddenNewline : Scanner (List Char) := do
  char '\\'
  blanks
  newline
  let _ ← many ((do let _ ← satisfy isBlank) <|> newline)
  pure []

/-- A text of several lines between triple quotes, made of such parts. -/
def multiLine (quote : Char) (part : Scanner (List Char)) : Scanner String := do
  let _ ← exactly 3 (char quote)
  let _ ← optional newline
  let parts ← many (part <|> (do newline; pure ['\n']) <|> innerQuotes quote)
  let tail ← closingQuotes quote
  pure (String.ofList (parts.flatten ++ tail))

def multiLineBasic : Scanner String :=
  multiLine '"' (hiddenNewline <|> (do pure [← escape])
    <|> do pure [← satisfy fun c => isPlain c && c ≠ '"' && c ≠ '\\'])

def multiLineLiteral : Scanner String :=
  multiLine '\'' do pure [← satisfy fun c => isPlain c && c ≠ '\'']

def text : Scanner String := multiLineBasic <|> basicText <|> multiLineLiteral <|> literalText

/-- Digits of a base, with single underscores between them. -/
def digitGroups (base : Nat) : Scanner (List Char) := do
  let digit := satisfy fun c => (Decimal.digit? base c).isSome
  let first ← digit
  let more ← many (digit <|> (char '_' *> digit))
  pure (first :: more)

/-- The digits of a whole number, which has no needless zero in front. -/
def wholeDigits : Scanner (List Char) :=
  guarded (digitGroups 10) (·.head? ≠ some '0') <|> do char '0'; pure ['0']

def sign : Scanner Bool := do
  let c ← optional (oneOf ['+', '-'])
  pure (c = some '-')

def inRange (i : Int) : Bool := Int64.minValue.toInt ≤ i && i ≤ Int64.maxValue.toInt

def valueOf (base : Nat) (digits : List Char) : Nat := (Decimal.digits? base digits).getD 0

def basedInteger (lead : String) (base : Nat) : Scanner Int := do
  literal lead
  pure (valueOf base (← digitGroups base))

def decimalInteger : Scanner Int := do
  let negative ← sign
  let n := valueOf 10 (← wholeDigits)
  pure (if negative then -n else n)

def integer : Scanner Datum := do
  let i ← guarded (basedInteger "0x" 16 <|> basedInteger "0o" 8 <|> basedInteger "0b" 2
    <|> decimalInteger) inRange
  pure (.integer i)

/-- The least whole number that rounds to infinity in double precision. -/
def doubleLimit : Nat := 0x3fffffffffffff <<< 970

/-- Whether `digits * 10 ^ exponent` is too large for double precision. -/
def exceedsDouble (digits : Nat) (exponent : Int) : Bool :=
  let size := (Nat.toDigits 10 digits).length + exponent
  if digits = 0 || size < 308 then false
  else if 310 < size then true
  else decide (doubleLimit * Nat.pow 10 (-exponent).toNat ≤ digits * Nat.pow 10 exponent.toNat)

def exponentPart : Scanner Int := do
  let _ ← oneOf ['e', 'E']
  let negative ← sign
  let n := valueOf 10 (← digitGroups 10)
  pure (if negative then -n else n)

def fractionPart : Scanner (List Char) := do
  char '.'
  digitGroups 10

/-- A number with a fraction or an exponent; it must not be too large. -/
def fraction : Scanner Datum := do
  let negative ← sign
  let whole ← wholeDigits
  let fraction ← optional fractionPart
  let exponent ← if fraction.isSome then optional exponentPart else some <$> exponentPart
  let digits := valueOf 10 (whole ++ fraction.getD [])
  let scale := exponent.getD 0 - (fraction.getD []).length
  if !negative && exceedsDouble digits scale then failure
  pure .fraction

def specialNumber : Scanner Datum := do
  let _ ← sign
  literal "inf" <|> literal "nan"
  pure .fraction

/-- So many digits that spell a number in a range. -/
def field (digits low high : Nat) : Scanner Nat := do
  let ds ← exactly digits (satisfy Char.isDigit)
  let n := valueOf 10 ds
  if low ≤ n && n ≤ high then pure n else failure

def isLeapYear (year : Nat) : Bool := year % 4 = 0 && (year % 100 ≠ 0 || year % 400 = 0)

def daysIn (year month : Nat) : Nat :=
  if month = 2 then if isLeapYear year then 29 else 28
  else if [4, 6, 9, 11].contains month then 30
  else 31

def date : Scanner Unit := do
  let year ← field 4 0 9999
  char '-'
  let month ← field 2 1 12
  char '-'
  let day ← field 2 1 31
  if daysIn year month < day then failure

def time : Scanner Unit := do
  let _ ← field 2 0 23
  char ':'
  let _ ← field 2 0 59
  char ':'
  let _ ← field 2 0 60
  let _ ← optional (char '.' *> takeWhile1 Char.isDigit)

def zone : Scanner Unit :=
  (do let _ ← oneOf ['Z', 'z']) <|> do
    let _ ← oneOf ['+', '-']
    let _ ← field 2 0 23
    char ':'
    let _ ← field 2 0 59

def pointInTime : Scanner Datum := do
  (do
    date
    let _ ← optional do
      let _ ← oneOf ['T', 't', ' ']
      time
      optional zone) <|> time
  pure .moment

def isBare (c : Char) : Bool := c.isAlphanum || c = '_' || c = '-'

def name : Scanner String :=
  basicText <|> literalText <|> do pure (String.ofList (← takeWhile1 isBare))

/-- Paths of names and nested values may not be deeper than this. -/
def maxDepth : Nat := 79

/-- A path of names, with blanks around each of them. -/
def path : Scanner (List String) :=
  guarded (separated (do blanks; let n ← name; blanks; pure n) (char '.')) (·.length ≤ maxDepth)

def truth : Scanner Datum :=
  (do literal "true"; pure (.truth true)) <|> do literal "false"; pure (.truth false)

def scalar : Scanner Datum :=
  (Datum.text <$> text) <|> truth <|> pointInTime <|> fraction <|> specialNumber <|> integer

def list (element : Scanner Datum) : Scanner Datum := do
  char '['
  gap
  let one := do let d ← element; gap; pure d
  let elements ← optional do
    let elements ← separated one (char ',' *> gap)
    let _ ← optional (char ',' *> gap)
    pure elements
  char ']'
  pure (.list (elements.getD []))

/-- A value under a path of names. -/
def pair (value : Scanner Datum) : Scanner (List String × Datum) := do
  let p ← path
  char '='
  blanks
  let d ← value
  pure (p, d)

def inlineTable (value : Scanner Datum) : Scanner Datum := do
  char '{'
  blanks
  let pairs ← optional (separated (do let p ← pair value; blanks; pure p) (char ','))
  char '}'
  match addEntries (pairs.getD []) [] with
  | some entries => pure (.table (entriesData entries))
  | none => failure

/-- A value in which lists and tables are nested at most so deep. -/
def value : Nat → Scanner Datum
  | 0 => scalar
  | depth + 1 => scalar <|> list (value depth) <|> inlineTable (value depth)

def listHeader : Scanner Statement := do
  literal "[["
  let p ← path
  literal "]]"
  pure (.listHeader p)

def header : Scanner Statement := do
  char '['
  let p ← path
  char ']'
  pure (.header p)

def entry : Scanner Statement := do
  let (p, d) ← pair (value maxDepth)
  pure (.entry p d)

def line : Scanner (Option Statement) := do
  blanks
  let statement ← optional (listHeader <|> header <|> entry)
  blanks
  let _ ← optional comment
  pure statement

/-- The statements of a document, which a byte order mark may open. -/
def document : Scanner (List Statement) := do
  let _ ← optional (char '\ufeff')
  let lines ← separated line newline
  pure (lines.filterMap id)

/-- The table that a text spells out. -/
def parse? (text : String) : Option Datum := do
  assemble (← document.runAll? text)

end GraphRelay.Toml
